import KernelExamples.Deferred
import KernelExamples.Irq
import KernelExamples.TimerDrv

/-!
# Unloading with callbacks under way

`my_exit` of `irq/irq_tasklet.c`, `irq/irq_delayed.c` and `timer/timer_drv.c`. It stops what
makes requests : `free_irq` the interrupts, and `unregister_chrdev` the writes. The work of
`irq_delayed` is waited for by `destroy_workqueue`, but nothing waits for the tasklet or the
timer, and nothing cancels them.

So a module is gone with its callbacks exactly when by the return of `my_exit` every request
was followed by a call of the function, and every call has returned (`unload_iff`). The work
of `irq_delayed` needs no such condition (`inv_step`).
-/

namespace KernelExamples.Unload

open Traces Deferred

variable {S A : Type}

/-- Once `my_exit` has returned, no callback is pending or running, and none runs later. -/
structure Unloads (step : S → A → Option S) (exited idle : S → Prop) (isCallback : A → Prop)
    (s : S) (acts : List A) : Prop where
  idle : Throughout step (fun t => exited t → idle t) s acts
  none_later : Along step (fun t a => exited t → ¬isCallback a) s acts

/-- It is enough that nothing is left : a callback that is idle does not run. -/
theorem unloads_iff {step : S → A → Option S} {exited idle : S → Prop} {isCallback : A → Prop}
    (h : ∀ s a s', idle s → step s a = some s' → ¬isCallback a) {s : S} {acts : List A} :
    Unloads step exited idle isCallback s acts ↔
      Throughout step (fun t => exited t → idle t) s acts := by
  refine ⟨Unloads.idle, fun hidle => ⟨hidle, ?_⟩⟩
  intro pre a post t t' hacts ht ht' hexited
  exact h t a t' (hidle pre (a :: post) t hacts ht hexited) ht'

/-! ## The interrupt modules -/

section Irq

open Irq

/-- The runs in progress. -/
def running (x : Item) : ℕ := x.runs.countP fun r => !r.ended

theorem idle_iff (x : Item) : x.Idle ↔ x.pending = false ∧ running x = 0 := by
  simp [Item.Idle, running, List.countP_eq_zero]

def itemEvent : ItemAct → Option Event
  | .start => some .start
  | .run _ .finish => some .finish
  | _ => none

def taskletEvent : Act → Option Event
  | .taskletSchedule => some .request
  | .tFunc a => itemEvent a
  | _ => none

/-- A step of `t_func` or `w_func`. -/
def IsFunc : Act → Prop
  | .tFunc _ => True
  | .wFunc _ => True
  | _ => False

variable {now : ℕ} {th : ℤ} {stamp : ℕ} {x x' : Item} {m : Module} {s s' : State} {a : Act}

/-- A step of an item is what its event says. -/
theorem effect_item {b : ItemAct} (h : x.step now th stamp b = some x') :
    Effect x.pending (running x) (itemEvent b) x'.pending (running x') := by
  obtain ⟨rfl, hpending, rfl⟩ | ⟨i, c, r, r', rfl, hr, hstep, rfl⟩ := Item.step_cases h
  · exact ⟨hpending, rfl, by simp [running, Run.enter]⟩
  · obtain ⟨hi, rfl⟩ := List.getElem?_eq_some_iff.1 hr
    have hpos : 0 < running x :=
      List.countP_pos_iff.2 ⟨x.runs[i], List.getElem_mem hi, by simp [hstep.going]⟩
    have hset : (x.runs.set i r').countP (fun r => !r.ended) =
        running x - 1 + if c = .finish then 0 else 1 := by
      rw [List.countP_set hi, hstep.going, hstep.ended]
      cases c <;> rfl
    cases c with
    | finish => exact ⟨rfl, by rw [running, hset, if_pos rfl]; omega⟩
    | inc | readTh | readOwn | readStamp =>
      exact ⟨rfl, by rw [running, hset, if_neg (by decide)]; omega⟩

/-- An idle item makes no step. -/
theorem step_of_idle (hidle : x.Idle) (b : ItemAct) : x.step now th stamp b = none := by
  by_contra hne
  obtain ⟨y, hy⟩ := Option.ne_none_iff_exists'.1 hne
  obtain ⟨-, hpending, -⟩ | ⟨i, c, r, r', -, hr, hstep, -⟩ := Item.step_cases hy
  · rw [hidle.1] at hpending
    cases hpending
  · have := hidle.2 r (List.mem_of_getElem? hr)
    rw [hstep.going] at this
    cases this

/-- The tasklet as a callback of the module. -/
def tasklet (m : Module) : Callback (step m) where
  event := taskletEvent
  pending s := s.tasklet.pending
  running s := running s.tasklet
  effect {s a s'} h := by
    obtain ⟨e, he, rfl⟩ := Option.map_eq_some_iff.1 h
    cases a with
    | tFunc b =>
      obtain ⟨y, hy, rfl⟩ := Option.map_eq_some_iff.1 he
      exact effect_item hy
    | wFunc b =>
      obtain ⟨y, -, rfl⟩ := Option.map_eq_some_iff.1 he
      exact ⟨rfl, rfl⟩
    | inc | store _ | taskletSchedule | queueWork | handlerReturn | freeIrq | destroyWorkqueue
    | exitReturn =>
      obtain ⟨-, rfl⟩ := of_guard he
      exact ⟨rfl, rfl⟩

/-- After `free_irq` no handler is in progress, only `irq_delayed` queues the work, and after
`destroy_workqueue` the work is idle. -/
structure Inv (m : Module) (s : State) : Prop where
  handlers : s.phase ≠ .loaded → s.handlers = .none
  toQueue : m = .irqTasklet → s.handlers.toQueue = 0
  work : m = .irqTasklet ∨ s.phase = .workqueueDestroyed ∨ s.phase = .exited → s.work.Idle

theorem loaded_of_pos (hs : Inv m s) {f : Handlers → ℕ} (hf : f .none = 0)
    (h : 0 < f s.handlers) : s.phase = .loaded := by
  by_contra hne
  rw [hs.handlers hne, hf] at h
  omega

namespace Inv

/-- A statement of a handler is made before `free_irq`, and only `irq_delayed` has to do with the
work. -/
theorem handler (hs : Inv m s) (hphase : s'.phase = .loaded)
    (hqueue : m = .irqTasklet → s'.handlers.toQueue = s.handlers.toQueue)
    (hwork : m = .irqTasklet → s'.work = s.work) : Inv m s' where
  handlers hne := absurd hphase hne
  toQueue hm := (hqueue hm).trans (hs.toQueue hm)
  work h := by
    have hm : m = .irqTasklet := by simpa [hphase] using h
    rw [hwork hm]
    exact hs.work (.inl hm)

theorem taskletSchedule (hs : Inv m s) (hpos : 0 < s.handlers.toSchedule)
    (h : effect m s .taskletSchedule = some s') : Inv m s' := by
  have hphase := loaded_of_pos hs (f := Handlers.toSchedule) rfl hpos
  obtain ⟨-, rfl⟩ := of_guard h
  refine hs.handler hphase ?_ fun _ => rfl
  rintro rfl
  rfl

theorem queueWork (hs : Inv m s) (hpos : 0 < s.handlers.toQueue)
    (h : effect m s .queueWork = some s') : Inv m s' := by
  have hphase := loaded_of_pos hs (f := Handlers.toQueue) rfl hpos
  have hm : m ≠ .irqTasklet := fun hm => by
    have := hs.toQueue hm
    omega
  obtain ⟨-, rfl⟩ := of_guard h
  exact hs.handler hphase (fun h => absurd h hm) fun h => absurd h hm

/-- Where the work has to be idle, it makes no step. -/
theorem wFunc (hs : Inv m s) {b : ItemAct} {y : Item}
    (hy : s.work.step s.now s.counterTh s.stamp b = some y) : Inv m { s with work := y } where
  handlers := hs.handlers
  toQueue := hs.toQueue
  work h := by
    rw [step_of_idle (hs.work h)] at hy
    cases hy

theorem freeIrq (hs : Inv m s) (hnone : s.handlers = .none) :
    Inv m { s with phase := .irqFreed } where
  handlers _ := hnone
  toQueue := hs.toQueue
  work h := hs.work (.inl (by simpa using h))

theorem destroyWorkqueue (hs : Inv m s) (hphase : s.phase = .irqFreed) (hidle : s.work.Idle) :
    Inv m { s with phase := .workqueueDestroyed } where
  handlers _ := hs.handlers (by simp [hphase])
  toQueue := hs.toQueue
  work _ := hidle

theorem exitReturn (hs : Inv m s) (h : effect m s .exitReturn = some s') : Inv m s' := by
  obtain ⟨hphase, rfl⟩ := of_guard h
  cases m with
  | irqTasklet =>
    exact ⟨fun _ => hs.handlers (by simp [hphase]), hs.toQueue, fun _ => hs.work (.inl rfl)⟩
  | irqDelayed =>
    refine ⟨fun _ => hs.handlers (by simp [hphase]), hs.toQueue, fun _ => ?_⟩
    exact hs.work (.inr (.inl hphase))

end Inv

theorem inv_effect (hs : Inv m s) (h : effect m s a = some s') : Inv m s' := by
  cases a with
  | inc =>
    obtain ⟨hphase, rfl⟩ := of_guard h
    exact hs.handler hphase (fun _ => rfl) fun _ => rfl
  | store jiffies =>
    obtain ⟨hpos, rfl⟩ := of_guard h
    have hphase := loaded_of_pos hs (f := Handlers.toStore) rfl hpos
    exact hs.handler hphase (fun _ => rfl) fun _ => rfl
  | taskletSchedule => exact hs.taskletSchedule (of_guard h).1 h
  | queueWork => exact hs.queueWork (of_guard h).1 h
  | handlerReturn =>
    obtain ⟨hpos, rfl⟩ := of_guard h
    have hphase := loaded_of_pos hs (f := Handlers.toReturn) rfl hpos
    exact hs.handler hphase (fun _ => rfl) fun _ => rfl
  | tFunc b =>
    obtain ⟨y, -, rfl⟩ := Option.map_eq_some_iff.1 h
    exact ⟨hs.handlers, hs.toQueue, hs.work⟩
  | wFunc b =>
    obtain ⟨y, hy, rfl⟩ := Option.map_eq_some_iff.1 h
    exact hs.wFunc hy
  | freeIrq =>
    obtain ⟨⟨-, hnone⟩, rfl⟩ := of_guard h
    exact hs.freeIrq hnone
  | destroyWorkqueue =>
    obtain ⟨⟨-, hphase, hidle⟩, rfl⟩ := of_guard h
    exact hs.destroyWorkqueue hphase hidle
  | exitReturn => exact hs.exitReturn h

theorem inv_step (s : State) (a : Act) (s' : State) (hs : Inv m s) (h : step m s a = some s') :
    Inv m s' := by
  obtain ⟨e, he, rfl⟩ := Option.map_eq_some_iff.1 h
  have hinv := inv_effect hs he
  exact ⟨hinv.handlers, hinv.toQueue, hinv.work⟩

theorem exited_step_iff (h : step m s a = some s') :
    s'.phase = .exited ↔ s.phase = .exited ∨ a = .exitReturn := by
  obtain ⟨e, he, rfl⟩ := Option.map_eq_some_iff.1 h
  cases a with
  | tFunc b =>
    obtain ⟨y, -, rfl⟩ := Option.map_eq_some_iff.1 he
    simp
  | wFunc b =>
    obtain ⟨y, -, rfl⟩ := Option.map_eq_some_iff.1 he
    simp
  | inc | store _ | taskletSchedule | queueWork | handlerReturn =>
    obtain ⟨-, rfl⟩ := of_guard he
    simp
  | freeIrq =>
    obtain ⟨⟨hphase, -⟩, rfl⟩ := of_guard he
    simp [hphase]
  | destroyWorkqueue =>
    obtain ⟨⟨-, hphase, -⟩, rfl⟩ := of_guard he
    simp [hphase]
  | exitReturn =>
    obtain ⟨-, rfl⟩ := of_guard he
    simp

/-- `my_exit` for the tasklet : no handler is left to schedule it. -/
def irqExit (m : Module) : Exit (tasklet m) where
  exited s := s.phase = .exited
  isExit a := a = .exitReturn
  inv := Inv m
  inv_step := inv_step
  exited_iff := exited_step_iff
  event_exit := by
    rintro _ rfl
    rfl
  no_request {s a s'} hs hexited h hreq := by
    obtain ⟨e, he, rfl⟩ := Option.map_eq_some_iff.1 h
    cases a with
    | taskletSchedule =>
      obtain ⟨hpos, -⟩ := of_guard he
      have := loaded_of_pos hs (f := Handlers.toSchedule) rfl hpos
      rw [hexited] at this
      cases this
    | tFunc b =>
      rcases b with - | ⟨i, b⟩
      · cases hreq
      · cases b <;> cases hreq
    | _ => cases hreq

/-- The module leaves nothing behind. -/
def IrqUnloads (m : Module) : List Act → Prop :=
  Unloads (step m) (fun s => s.phase = .exited) (fun s => s.tasklet.Idle ∧ s.work.Idle) IsFunc
    Irq.initial

/-- When `my_exit` returns, every `tasklet_schedule` was followed by a start of `t_func`, and
every run of `t_func` has ended. -/
def TaskletDrained (m : Module) : List Act → Prop :=
  AlongHistory (step m) (fun pre a => a = .exitReturn → Drained (pre.filterMap taskletEvent))
    Irq.initial

/-- With both items idle, neither function runs. -/
theorem not_isFunc_of_idle (s : State) (a : Act) (s' : State)
    (hidle : s.tasklet.Idle ∧ s.work.Idle) (h : step m s a = some s') : ¬IsFunc a := by
  obtain ⟨e, he, rfl⟩ := Option.map_eq_some_iff.1 h
  cases a with
  | tFunc b => simp [effect, step_of_idle hidle.1] at he
  | wFunc b => simp [effect, step_of_idle hidle.2] at he
  | _ => exact not_false

theorem inv_initial : Inv m Irq.initial where
  handlers _ := rfl
  toQueue _ := rfl
  work _ := ⟨rfl, by simp [Irq.initial]⟩

theorem irq_unloads_iff (m : Module) (acts : List Act) :
    IrqUnloads m acts ↔ TaskletDrained m acts := by
  -- the work is idle by the time `my_exit` returns
  have htasklet : ∀ s, Inv m s → ((s.phase = .exited → s.tasklet.Idle ∧ s.work.Idle) ↔
      (s.phase = .exited → (tasklet m).Idle s)) := by
    intro s hs
    refine forall_congr' fun hexited => ?_
    rw [idle_iff s.tasklet]
    exact and_iff_left (hs.work (.inr (.inr hexited)))
  rw [IrqUnloads, unloads_iff not_isFunc_of_idle, throughout_congr inv_step htasklet inv_initial]
  exact (irqExit m).gone_iff acts inv_initial (by simp [irqExit, Irq.initial]) ⟨rfl, rfl⟩

end Irq

/-! ## The timer module -/

namespace Timer

/-- How far `my_exit` has got. -/
inductive Phase
  | loaded
  | unregistered
  | exited
  deriving DecidableEq

/-- The driver, and the calls of `my_timer_function` that have not returned. -/
structure State where
  drv : TimerDrv.State
  running : ℕ
  phase : Phase

def initial (jiffies : ℕ) : State := ⟨TimerDrv.initial jiffies, 0, .loaded⟩

inductive Act
  | write (lbuf : ℕ)
  | tick (n : ℕ)
  | expire
  | functionReturn
  | unregisterChrdev
  | exitReturn
  deriving DecidableEq

/-- A timer whose time has come may be run at any later moment. There is no write after
`unregister_chrdev`. -/
def step (hz : ℕ+) (s : State) : Act → Option State
  | .write lbuf =>
    if s.phase = .loaded then some { s with drv := (TimerDrv.myWrite hz s.drv lbuf).2 } else none
  | .tick n => some { s with drv := { s.drv with jiffies := s.drv.jiffies + n } }
  | .expire =>
    if s.drv.timer.pending ∧ s.drv.timer.expires ≤ s.drv.jiffies then
      some { s with
        drv := TimerDrv.myTimerFunction
          { s.drv with timer := { s.drv.timer with pending := false } } s.drv.timer.data
        running := s.running + 1 }
    else none
  | .functionReturn => if 0 < s.running then some { s with running := s.running - 1 } else none
  | .unregisterChrdev =>
    if s.phase = .loaded then some { s with phase := .unregistered } else none
  | .exitReturn => if s.phase = .unregistered then some { s with phase := .exited } else none

/-- A step of `my_timer_function`. -/
def IsFunc : Act → Prop
  | .expire => True
  | .functionReturn => True
  | _ => False

def event : Act → Option Event
  | .write _ => some .request
  | .expire => some .start
  | .functionReturn => some .finish
  | _ => none

variable {hz : ℕ+}

/-- The timer as a callback of the module. -/
def callback (hz : ℕ+) : Callback (step hz) where
  event := event
  pending s := s.drv.timer.pending
  running s := s.running
  effect {s a s'} h := by
    cases a with
    | tick n =>
      obtain rfl := Option.some.inj h
      exact ⟨rfl, rfl⟩
    | write _ | unregisterChrdev | exitReturn =>
      obtain ⟨-, rfl⟩ := of_guard h
      exact ⟨rfl, rfl⟩
    | expire =>
      obtain ⟨⟨hpending, -⟩, rfl⟩ := of_guard h
      exact ⟨hpending, rfl, rfl⟩
    | functionReturn =>
      obtain ⟨hpos, rfl⟩ := of_guard h
      exact ⟨rfl, Nat.sub_add_cancel hpos⟩

/-- `my_exit` for the timer : no write is left to add it. -/
def exit (hz : ℕ+) : Exit (callback hz) where
  exited s := s.phase = .exited
  isExit a := a = .exitReturn
  inv _ := True
  inv_step _ _ _ _ _ := trivial
  exited_iff {s a s'} h := by
    cases a with
    | tick n =>
      obtain rfl := Option.some.inj h
      simp
    | write _ | expire | functionReturn =>
      obtain ⟨-, rfl⟩ := of_guard h
      simp
    | unregisterChrdev | exitReturn =>
      obtain ⟨hphase, rfl⟩ := of_guard h
      simp [hphase]
  event_exit := by
    rintro _ rfl
    rfl
  no_request {s a s'} _ hexited h hreq := by
    cases a with
    | write lbuf =>
      obtain ⟨hphase, -⟩ := of_guard h
      rw [hexited] at hphase
      cases hphase
    | _ => cases hreq

/-- The module leaves nothing behind. -/
def Unloads (hz : ℕ+) (jiffies : ℕ) : List Act → Prop :=
  Unload.Unloads (step hz) (fun s => s.phase = .exited)
    (fun s => s.drv.timer.pending = false ∧ s.running = 0) IsFunc (initial jiffies)

/-- When `my_exit` returns, every `my_write` was followed by a call of `my_timer_function`, and
every call has returned. -/
def TimerDrained (hz : ℕ+) (jiffies : ℕ) : List Act → Prop :=
  AlongHistory (step hz) (fun pre a => a = .exitReturn → Drained (pre.filterMap event))
    (initial jiffies)

theorem not_isFunc_of_idle (s : State) (a : Act) (s' : State)
    (hidle : s.drv.timer.pending = false ∧ s.running = 0) (h : step hz s a = some s') :
    ¬IsFunc a := by
  cases a with
  | expire => simp [step, hidle.1] at h
  | functionReturn => simp [step, hidle.2] at h
  | _ => exact not_false

theorem unloads_iff (hz : ℕ+) (jiffies : ℕ) (acts : List Act) :
    Unloads hz jiffies acts ↔ TimerDrained hz jiffies acts := by
  rw [Unloads, Unload.unloads_iff not_isFunc_of_idle]
  exact (exit hz).gone_iff acts trivial (by simp [exit, initial]) ⟨rfl, rfl⟩

end Timer

/-! ## All three -/

/-- In every interleaving, a module leaves nothing behind exactly when by the return of
`my_exit` every tasklet scheduled, or timer added, has been run, and every run has ended. -/
theorem unload_iff (acts : List Irq.Act) (hz : ℕ+) (jiffies : ℕ) (timerActs : List Timer.Act) :
    (IrqUnloads .irqTasklet acts ↔ TaskletDrained .irqTasklet acts) ∧
      (IrqUnloads .irqDelayed acts ↔ TaskletDrained .irqDelayed acts) ∧
        (Timer.Unloads hz jiffies timerActs ↔ Timer.TimerDrained hz jiffies timerActs) :=
  ⟨irq_unloads_iff .irqTasklet acts, irq_unloads_iff .irqDelayed acts,
    Timer.unloads_iff hz jiffies timerActs⟩

/-- One interrupt, and the module is unloaded before its tasklet runs. -/
def interruptedExit : List Irq.Act :=
  [.inc, .store 0, .taskletSchedule, .handlerReturn, .freeIrq, .exitReturn]

/-- One interrupt, whose work is done, and the module is unloaded before its tasklet runs. -/
def workedExit : List Irq.Act :=
  [.inc, .store 0, .taskletSchedule, .queueWork, .handlerReturn, .freeIrq, .wFunc .start,
    .wFunc (.run 0 .inc), .wFunc (.run 0 .readTh), .wFunc (.run 0 .readOwn),
    .wFunc (.run 0 .readStamp), .wFunc (.run 0 .finish), .destroyWorkqueue, .exitReturn]

/-- One write, and the module is unloaded before its timer expires. -/
def writtenExit : List Timer.Act := [.write 1, .unregisterChrdev, .exitReturn]

/-- None of the three modules waits for its callback. -/
theorem not_unloads_pending : ¬IrqUnloads .irqTasklet interruptedExit ∧
    ¬IrqUnloads .irqDelayed workedExit ∧ ¬Timer.Unloads 100 0 writtenExit := by
  have hpending : ∀ m acts, (runFrom (Irq.step m) Irq.initial acts).map
      (fun s => (s.phase, s.tasklet.pending)) = some (.exited, true) → ¬IrqUnloads m acts := by
    intro m acts hrun h
    obtain ⟨s, hs, hs'⟩ := Option.map_eq_some_iff.1 hrun
    obtain ⟨hphase, htasklet⟩ := Prod.mk.inj hs'
    have := (h.idle acts [] s (by simp) hs hphase).1.1
    rw [htasklet] at this
    cases this
  refine ⟨hpending _ _ (by decide), hpending _ _ (by decide), fun h => ?_⟩
  have hidle := h.idle writtenExit [] _ (by simp) rfl rfl
  exact absurd hidle.1 (by decide)

end KernelExamples.Unload
