import KernelExamples.CInt
import KernelExamples.Traces

/-!
# Interrupts and their bottom halves

`irq/irq_tasklet.c` and `irq/irq_delayed.c`. Every interrupt adds one to `counter_th`,
stores `jiffies` in `my_data`, schedules the tasklet `t_func` and, in `irq_delayed`, queues
the work `w_func`. Both functions add one to a counter of their own and print what they
read. A request for an item that is pending changes nothing, and the mark is cleared before
the function starts.

A state holds the variables of the module, the handlers in progress by the step that comes
next, the two items with all their runs, how far `my_exit` has got, and a count of the steps.
Handlers and runs interleave freely, with each other too, and the reads of one `printk` come
in any order.

`View` is the machine of a single item, for both items, and each step of the module is a
step of both views (`step_taskletView`, `step_workView`). What one view keeps (`inv_step`)
says of either item that it never misses an interrupt (`bottom_halves_law`).
-/

namespace KernelExamples.Irq

open CInt Traces

/-! ## Runs of a bottom half -/

/-- A run of `t_func` or `w_func` : the step it started at, whether its `atomic_inc` is done,
what it has read of `counter_th`, of its own counter and of `my_data.jiffies`, and whether
it has returned. -/
structure Run where
  start : ℕ
  counted : Bool
  th : Option ℤ
  own : Option ℤ
  stamp : Option ℕ
  ended : Bool
  complete : ended = true → counted = true ∧ th.isSome ∧ own.isSome ∧ stamp.isSome

inductive RunAct
  | inc
  | readTh
  | readOwn
  | readStamp
  | finish
  deriving DecidableEq

def Run.enter (now : ℕ) : Run := ⟨now, false, none, none, none, false, by simp⟩

/-- A step of a run, with the values of the variables at that moment. -/
def Run.step (th own : ℤ) (stamp : ℕ) (r : Run) : RunAct → Option Run
  | .inc =>
    if r.counted = false then
      some { r with counted := true, complete := fun h => ⟨rfl, (r.complete h).2⟩ }
    else none
  | .readTh =>
    if r.counted = true ∧ r.th = none then
      some { r with
        th := some th, complete := fun h => ⟨(r.complete h).1, rfl, (r.complete h).2.2⟩ }
    else none
  | .readOwn =>
    if r.counted = true ∧ r.own = none then
      some { r with
        own := some own
        complete := fun h => ⟨(r.complete h).1, (r.complete h).2.1, rfl, (r.complete h).2.2.2⟩ }
    else none
  | .readStamp =>
    if r.counted = true ∧ r.stamp = none then
      some { r with
        stamp := some stamp
        complete := fun h => ⟨(r.complete h).1, (r.complete h).2.1, (r.complete h).2.2.1, rfl⟩ }
    else none
  | .finish =>
    if h : r.ended = false ∧ r.counted = true ∧ r.th.isSome ∧ r.own.isSome ∧ r.stamp.isSome then
      some { r with ended := true, complete := fun _ => h.2 }
    else none

/-- A tasklet or a work item : its mark, its runs in the order of their starts, and the counter
of its function. -/
structure Item where
  pending : Bool
  runs : List Run
  counter : ℤ

inductive ItemAct
  | start
  | run (i : ℕ) (a : RunAct)
  deriving DecidableEq

/-- `tasklet_schedule` and `queue_work`. -/
def Item.request (x : Item) : Item := { x with pending := true }

def Item.step (now : ℕ) (th : ℤ) (stamp : ℕ) (x : Item) : ItemAct → Option Item
  | .start =>
    if x.pending then some { x with pending := false, runs := x.runs ++ [.enter now] } else none
  | .run i a =>
    x.runs[i]?.bind fun r => (r.step th x.counter stamp a).map fun r' =>
      { x with
        runs := x.runs.set i r'
        counter := if a = .inc then int32 (x.counter + 1) else x.counter }

/-- Neither pending nor running. -/
def Item.Idle (x : Item) : Prop := x.pending = false ∧ ∀ r ∈ x.runs, r.ended = true

instance (x : Item) : Decidable x.Idle := inferInstanceAs (Decidable (_ ∧ _))

/-- What a step of a run changes. -/
structure Run.Stepped (th : ℤ) (stamp : ℕ) (a : RunAct) (r r' : Run) : Prop where
  start : r'.start = r.start
  th : r'.th = r.th ∨ r'.th = some th
  stamp : r'.stamp = r.stamp ∨ r'.stamp = some stamp
  counted : r'.counted.toNat = r.counted.toNat + if a = .inc then 1 else 0
  going : r.ended = false
  ended : r'.ended = decide (a = .finish)

theorem Run.not_ended_of_counted {r : Run} (h : r.counted = false) : r.ended = false := by
  by_contra hended
  have := (r.complete (by simpa using hended)).1
  simp [h] at this

/-- A run that has still something to read has not returned. -/
theorem Run.not_ended_of_read {r : Run} (h : r.th = none ∨ r.own = none ∨ r.stamp = none) :
    r.ended = false := by
  by_contra hended
  have hread := (r.complete (by simpa using hended)).2
  rcases h with h | h | h <;> simp [h] at hread

theorem Run.stepped {th own : ℤ} {stamp : ℕ} {r r' : Run} {a : RunAct}
    (h : r.step th own stamp a = some r') : r.Stepped th stamp a r' := by
  cases a with
  | inc =>
    obtain ⟨hcounted, rfl⟩ := of_guard h
    have hgoing := not_ended_of_counted hcounted
    exact ⟨rfl, .inl rfl, .inl rfl, by simp [hcounted], hgoing, hgoing⟩
  | readTh =>
    obtain ⟨⟨-, hread⟩, rfl⟩ := of_guard h
    have hgoing := not_ended_of_read (.inl hread)
    exact ⟨rfl, .inr rfl, .inl rfl, by simp, hgoing, hgoing⟩
  | readOwn =>
    obtain ⟨⟨-, hread⟩, rfl⟩ := of_guard h
    have hgoing := not_ended_of_read (.inr (.inl hread))
    exact ⟨rfl, .inl rfl, .inl rfl, by simp, hgoing, hgoing⟩
  | readStamp =>
    obtain ⟨⟨-, hread⟩, rfl⟩ := of_guard h
    have hgoing := not_ended_of_read (.inr (.inr hread))
    exact ⟨rfl, .inl rfl, .inr rfl, by simp, hgoing, hgoing⟩
  | finish =>
    obtain ⟨hdone, h⟩ := Option.dite_none_right_eq_some.1 h
    obtain rfl := Option.some.inj h
    exact ⟨rfl, .inl rfl, .inl rfl, by simp, hdone.1, rfl⟩

theorem Item.step_cases {now : ℕ} {th : ℤ} {stamp : ℕ} {x x' : Item} {a : ItemAct}
    (h : x.step now th stamp a = some x') :
    (a = .start ∧ x.pending = true ∧
        x' = { x with pending := false, runs := x.runs ++ [.enter now] }) ∨
      ∃ i b r r', a = .run i b ∧ x.runs[i]? = some r ∧ r.Stepped th stamp b r' ∧
        x' = { x with
          runs := x.runs.set i r'
          counter := if b = .inc then int32 (x.counter + 1) else x.counter } := by
  cases a with
  | start =>
    obtain ⟨hpending, h⟩ := of_guard h
    exact Or.inl ⟨rfl, hpending, h.symm⟩
  | run i b =>
    obtain ⟨r, hr, h⟩ := Option.bind_eq_some_iff.1 h
    obtain ⟨r', hr', h⟩ := Option.map_eq_some_iff.1 h
    exact Or.inr ⟨i, b, r, r', rfl, hr, Run.stepped hr', h.symm⟩

/-! ## The modules -/

inductive Module
  | irqTasklet
  | irqDelayed
  deriving DecidableEq

/-- The handlers in progress, by their next step. -/
structure Handlers where
  toStore : ℕ
  toSchedule : ℕ
  toQueue : ℕ
  toReturn : ℕ
  deriving DecidableEq

def Handlers.none : Handlers := ⟨0, 0, 0, 0⟩

/-- How far `my_exit` has got. -/
inductive Phase
  | loaded
  | irqFreed
  | workqueueDestroyed
  | exited
  deriving DecidableEq

structure State where
  now : ℕ
  phase : Phase
  handlers : Handlers
  interrupts : ℕ
  counterTh : ℤ
  stamp : ℕ
  lastStore : Option ℕ
  tasklet : Item
  work : Item

/-- The module as loaded. -/
def initial : State where
  now := 0
  phase := .loaded
  handlers := .none
  interrupts := 0
  counterTh := 0
  stamp := 0
  lastStore := none
  tasklet := ⟨false, [], 0⟩
  work := ⟨false, [], 0⟩

/-- The steps of `my_interrupt`, of the two functions and of `my_exit`. -/
inductive Act
  | inc
  | store (jiffies : ℕ)
  | taskletSchedule
  | queueWork
  | handlerReturn
  | tFunc (a : ItemAct)
  | wFunc (a : ItemAct)
  | freeIrq
  | destroyWorkqueue
  | exitReturn
  deriving DecidableEq

/-- What a step does, the count of steps apart. An interrupt comes only before `free_irq` has
returned, `free_irq` waits for the handlers, and `destroy_workqueue` for the work. -/
def effect (m : Module) (s : State) : Act → Option State
  | .inc =>
    if s.phase = .loaded then
      some { s with
        interrupts := s.interrupts + 1
        counterTh := int32 (s.counterTh + 1)
        handlers := { s.handlers with toStore := s.handlers.toStore + 1 } }
    else none
  | .store jiffies =>
    if 0 < s.handlers.toStore then
      some { s with
        stamp := jiffies
        lastStore := some s.now
        handlers := { s.handlers with
          toStore := s.handlers.toStore - 1
          toSchedule := s.handlers.toSchedule + 1 } }
    else none
  | .taskletSchedule =>
    if 0 < s.handlers.toSchedule then
      some { s with
        tasklet := s.tasklet.request
        handlers := match m with
          | .irqTasklet => { s.handlers with
              toSchedule := s.handlers.toSchedule - 1
              toReturn := s.handlers.toReturn + 1 }
          | .irqDelayed => { s.handlers with
              toSchedule := s.handlers.toSchedule - 1
              toQueue := s.handlers.toQueue + 1 } }
    else none
  | .queueWork =>
    if 0 < s.handlers.toQueue then
      some { s with
        work := s.work.request
        handlers := { s.handlers with
          toQueue := s.handlers.toQueue - 1
          toReturn := s.handlers.toReturn + 1 } }
    else none
  | .handlerReturn =>
    if 0 < s.handlers.toReturn then
      some { s with handlers := { s.handlers with toReturn := s.handlers.toReturn - 1 } }
    else none
  | .tFunc a =>
    (s.tasklet.step s.now s.counterTh s.stamp a).map fun x => { s with tasklet := x }
  | .wFunc a =>
    (s.work.step s.now s.counterTh s.stamp a).map fun x => { s with work := x }
  | .freeIrq =>
    if s.phase = .loaded ∧ s.handlers = .none then some { s with phase := .irqFreed } else none
  | .destroyWorkqueue =>
    if m = .irqDelayed ∧ s.phase = .irqFreed ∧ s.work.Idle then
      some { s with phase := .workqueueDestroyed }
    else none
  | .exitReturn =>
    if s.phase = (match m with | .irqTasklet => .irqFreed | .irqDelayed => .workqueueDestroyed) then
      some { s with phase := .exited }
    else none

def step (m : Module) (s : State) (a : Act) : Option State :=
  (effect m s a).map fun s' => { s' with now := s.now + 1 }

/-! ## The law -/

/-- The last run started after the last store, and read the final values. -/
def SawLast (s : State) (x : Item) : Prop :=
  ∀ t, s.lastStore = some t → ∃ r, x.runs.getLast? = some r ∧ t < r.start ∧
    r.th = some s.counterTh ∧ r.stamp = some s.stamp

/-- Neither function runs more often than the interrupt, and with no handler in progress an
item that is idle has seen the last interrupt. -/
structure Law (s : State) : Prop where
  tasklet_le : s.interrupts < 2 ^ 31 → s.tasklet.counter ≤ s.counterTh
  work_le : s.interrupts < 2 ^ 31 → s.work.counter ≤ s.counterTh
  tasklet_saw : s.handlers = .none → s.tasklet.Idle → SawLast s s.tasklet
  work_saw : s.handlers = .none → s.work.Idle → SawLast s s.work

/-! ## One item -/

/-- What matters for one item. `waiting` counts the handlers that have stored and have still
to request the item. -/
structure View where
  now : ℕ
  interrupts : ℕ
  toStore : ℕ
  waiting : ℕ
  counterTh : ℤ
  stamp : ℕ
  lastStore : Option ℕ
  item : Item

def taskletView (s : State) : View where
  now := s.now
  interrupts := s.interrupts
  toStore := s.handlers.toStore
  waiting := s.handlers.toSchedule
  counterTh := s.counterTh
  stamp := s.stamp
  lastStore := s.lastStore
  item := s.tasklet

/-- The work is requested after the tasklet. -/
def workView (s : State) : View where
  now := s.now
  interrupts := s.interrupts
  toStore := s.handlers.toStore
  waiting := s.handlers.toSchedule + s.handlers.toQueue
  counterTh := s.counterTh
  stamp := s.stamp
  lastStore := s.lastStore
  item := s.work

/-- The steps of a view. -/
inductive View.Step : View → View → Prop
  | other (v : View) : Step v { v with now := v.now + 1 }
  | inc (v : View) : Step v { v with
      now := v.now + 1
      interrupts := v.interrupts + 1
      toStore := v.toStore + 1
      counterTh := int32 (v.counterTh + 1) }
  | store (v : View) (jiffies : ℕ) (h : 0 < v.toStore) : Step v { v with
      now := v.now + 1
      toStore := v.toStore - 1
      waiting := v.waiting + 1
      stamp := jiffies
      lastStore := some v.now }
  | request (v : View) (h : 0 < v.waiting) : Step v { v with
      now := v.now + 1
      waiting := v.waiting - 1
      item := v.item.request }
  | item (v : View) (a : ItemAct) (x : Item)
      (h : v.item.step v.now v.counterTh v.stamp a = some x) : Step v { v with
        now := v.now + 1
        item := x }

/-- What the steps of the module are for the tasklet. -/
theorem step_taskletView {m : Module} {s s' : State} {a : Act} (h : step m s a = some s') :
    View.Step (taskletView s) (taskletView s') := by
  obtain ⟨e, he, rfl⟩ := Option.map_eq_some_iff.1 h
  cases a with
  | inc =>
    obtain ⟨-, rfl⟩ := of_guard he
    exact .inc _
  | store jiffies =>
    obtain ⟨hpos, rfl⟩ := of_guard he
    exact .store (taskletView s) jiffies hpos
  | taskletSchedule =>
    obtain ⟨hpos, rfl⟩ := of_guard he
    cases m with
    | irqTasklet => exact .request (taskletView s) hpos
    | irqDelayed => exact .request (taskletView s) hpos
  | tFunc a =>
    obtain ⟨x, hx, rfl⟩ := Option.map_eq_some_iff.1 he
    exact .item (taskletView s) a x hx
  | wFunc a =>
    obtain ⟨x, -, rfl⟩ := Option.map_eq_some_iff.1 he
    exact .other (taskletView s)
  | queueWork | handlerReturn | freeIrq | destroyWorkqueue | exitReturn =>
    obtain ⟨-, rfl⟩ := of_guard he
    exact .other (taskletView s)

/-- What the steps of `irq_delayed` are for the work. -/
theorem step_workView {s s' : State} {a : Act} (h : step .irqDelayed s a = some s') :
    View.Step (workView s) (workView s') := by
  obtain ⟨e, he, rfl⟩ := Option.map_eq_some_iff.1 h
  cases a with
  | inc =>
    obtain ⟨-, rfl⟩ := of_guard he
    exact .inc _
  | store jiffies =>
    obtain ⟨hpos, rfl⟩ := of_guard he
    have hstep := View.Step.store (workView s) jiffies hpos
    simp only [workView, Nat.add_right_comm _ s.handlers.toQueue 1] at hstep ⊢
    exact hstep
  | taskletSchedule =>
    obtain ⟨hpos, rfl⟩ := of_guard he
    have hwaiting : s.handlers.toSchedule - 1 + (s.handlers.toQueue + 1) =
        s.handlers.toSchedule + s.handlers.toQueue := by
      omega
    have hstep := View.Step.other (workView s)
    simp only [workView, hwaiting] at hstep ⊢
    exact hstep
  | queueWork =>
    obtain ⟨hpos, rfl⟩ := of_guard he
    have hstep := View.Step.request (workView s) (Nat.add_pos_right _ hpos)
    simp only [workView, Nat.add_sub_assoc hpos] at hstep ⊢
    exact hstep
  | tFunc a =>
    obtain ⟨x, -, rfl⟩ := Option.map_eq_some_iff.1 he
    exact .other (workView s)
  | wFunc a =>
    obtain ⟨x, hx, rfl⟩ := Option.map_eq_some_iff.1 he
    exact .item (workView s) a x hx
  | handlerReturn | freeIrq | destroyWorkqueue | exitReturn =>
    obtain ⟨-, rfl⟩ := of_guard he
    exact .other (workView s)

/-! ## What a view keeps -/

/-- The last run started after `t`. -/
def Item.LastAfter (x : Item) (t : ℕ) : Prop :=
  ∃ n, (x.runs.map Run.start).getLast? = some n ∧ t < n

/-- What a run has read is at most as old as the handlers that have still to store, and the
stamp is the current one. -/
def View.Fresh (v : View) (r : Run) : Prop :=
  (∀ x, r.th = some x → ∃ k : ℕ, k ≤ v.toStore ∧ x = int32 (v.interrupts - k)) ∧
    ∀ j, r.stamp = some j → j = v.stamp

/-- After a store the item is still to be requested, or pending, or its last run started
later. Runs that started later have read fresh values. An interrupt lets at most one run
start, and the counter counts the runs. -/
structure View.Inv (v : View) : Prop where
  th : v.counterTh = int32 v.interrupts
  started : ∀ r ∈ v.item.runs, r.start < v.now
  stored : ∀ t, v.lastStore = some t → t < v.now
  served : ∀ t, v.lastStore = some t →
    0 < v.waiting ∨ v.item.pending = true ∨ v.item.LastAfter t
  fresh : ∀ t, v.lastStore = some t → ∀ r ∈ v.item.runs, t < r.start → v.Fresh r
  counter : v.item.counter = int32 (v.item.runs.countP (·.counted))
  budget : v.item.runs.length + v.item.pending.toNat + v.toStore + v.waiting ≤ v.interrupts

variable {v v' : View}

/-- The item does not change, and nothing is stored. -/
theorem inv_other (hv : v.Inv) : View.Inv { v with now := v.now + 1 } where
  th := hv.th
  started r hr := Nat.lt_succ_of_lt (hv.started r hr)
  stored t ht := Nat.lt_succ_of_lt (hv.stored t ht)
  served := hv.served
  fresh := hv.fresh
  counter := hv.counter
  budget := hv.budget

theorem inv_inc (hv : v.Inv) : View.Inv { v with
    now := v.now + 1
    interrupts := v.interrupts + 1
    toStore := v.toStore + 1
    counterTh := int32 (v.counterTh + 1) } where
  th := by
    simp only [hv.th, int32_add]
    push_cast
    rfl
  started r hr := Nat.lt_succ_of_lt (hv.started r hr)
  stored t ht := Nat.lt_succ_of_lt (hv.stored t ht)
  served := hv.served
  fresh t ht r hr hlt := by
    refine ⟨fun x hx => ?_, (hv.fresh t ht r hr hlt).2⟩
    obtain ⟨k, hk, rfl⟩ := (hv.fresh t ht r hr hlt).1 x hx
    refine ⟨k + 1, Nat.succ_le_succ hk, congrArg int32 ?_⟩
    push_cast
    omega
  counter := hv.counter
  budget := by
    have := hv.budget
    simp only
    omega

/-- No run has started after a store that is made now. -/
theorem inv_store (hv : v.Inv) (jiffies : ℕ) (h : 0 < v.toStore) : View.Inv { v with
    now := v.now + 1
    toStore := v.toStore - 1
    waiting := v.waiting + 1
    stamp := jiffies
    lastStore := some v.now } where
  th := hv.th
  started r hr := Nat.lt_succ_of_lt (hv.started r hr)
  stored t ht := by
    obtain rfl := Option.some.inj ht
    exact Nat.lt_succ_self _
  served _ _ := .inl (Nat.succ_pos _)
  fresh t ht r hr hlt := by
    obtain rfl := Option.some.inj ht
    exact absurd (hv.started r hr) (Nat.lt_asymm hlt)
  counter := hv.counter
  budget := by
    have := hv.budget
    simp only
    omega

theorem inv_request (hv : v.Inv) (h : 0 < v.waiting) : View.Inv { v with
    now := v.now + 1
    waiting := v.waiting - 1
    item := v.item.request } where
  th := hv.th
  started r hr := Nat.lt_succ_of_lt (hv.started r hr)
  stored t ht := Nat.lt_succ_of_lt (hv.stored t ht)
  served _ _ := .inr (.inl rfl)
  fresh := hv.fresh
  counter := hv.counter
  budget := by
    have := hv.budget
    simp only [Item.request, Bool.toNat_true]
    omega

/-- The new run starts after the last store. -/
theorem inv_start (hv : v.Inv) (hpending : v.item.pending = true) : View.Inv { v with
    now := v.now + 1
    item := { v.item with pending := false, runs := v.item.runs ++ [.enter v.now] } } where
  th := hv.th
  started r hr := by
    rcases List.mem_append.1 hr with hr | hr
    · exact Nat.lt_succ_of_lt (hv.started r hr)
    · rw [List.mem_singleton.1 hr]
      exact Nat.lt_succ_self _
  stored t ht := Nat.lt_succ_of_lt (hv.stored t ht)
  served t ht := .inr (.inr ⟨v.now, by simp [Run.enter], hv.stored t ht⟩)
  fresh t ht r hr hlt := by
    rcases List.mem_append.1 hr with hr | hr
    · exact hv.fresh t ht r hr hlt
    · rw [List.mem_singleton.1 hr]
      exact ⟨by simp [Run.enter], by simp [Run.enter]⟩
  counter := by
    simp only [List.countP_append, List.countP_singleton, Run.enter]
    exact hv.counter
  budget := by
    have := hv.budget
    simp only [hpending, Bool.toNat_true] at this
    simp only [List.length_append, List.length_singleton, Bool.toNat_false]
    omega

section Run

variable {runs : List Run} {i : ℕ} {b : RunAct} {r r' : Run} {th : ℤ} {stamp : ℕ}
  (hr : runs[i]? = some r) (hstep : r.Stepped th stamp b r')

include hr hstep

theorem map_start_set : (runs.set i r').map Run.start = runs.map Run.start := by
  obtain ⟨hi, rfl⟩ := List.getElem?_eq_some_iff.1 hr
  rw [List.map_set, hstep.start, ← List.getElem_map Run.start (h := by simpa using hi),
    List.set_getElem_self]

theorem countP_counted_set : (runs.set i r').countP (·.counted) =
    runs.countP (·.counted) + if b = .inc then 1 else 0 := by
  obtain ⟨hi, rfl⟩ := List.getElem?_eq_some_iff.1 hr
  have hnat : ∀ c : Bool, (if c = true then 1 else 0) = c.toNat := by decide
  have hle : runs[i].counted.toNat ≤ runs.countP (·.counted) := by
    cases hc : runs[i].counted with
    | false => exact Nat.zero_le _
    | true => exact List.countP_pos_iff.2 ⟨runs[i], List.getElem_mem hi, hc⟩
  rw [List.countP_set hi, hnat, hnat, hstep.counted]
  omega

end Run

/-- A step of a run keeps the starts, and reads current values. -/
theorem inv_run (hv : v.Inv) {i : ℕ} {b : RunAct} {r r' : Run} (hr : v.item.runs[i]? = some r)
    (hstep : r.Stepped v.counterTh v.stamp b r') : View.Inv { v with
      now := v.now + 1
      item := { v.item with
        runs := v.item.runs.set i r'
        counter := if b = .inc then int32 (v.item.counter + 1) else v.item.counter } } where
  th := hv.th
  started q hq := by
    rcases List.mem_or_eq_of_mem_set hq with hq | rfl
    · exact Nat.lt_succ_of_lt (hv.started q hq)
    · rw [hstep.start]
      exact Nat.lt_succ_of_lt (hv.started r (List.mem_of_getElem? hr))
  stored t ht := Nat.lt_succ_of_lt (hv.stored t ht)
  served t ht := by
    simp only [Item.LastAfter, map_start_set hr hstep]
    exact hv.served t ht
  fresh t ht q hq hlt := by
    rcases List.mem_or_eq_of_mem_set hq with hq | rfl
    · exact hv.fresh t ht q hq hlt
    · have hfresh := hv.fresh t ht r (List.mem_of_getElem? hr) (by rwa [← hstep.start])
      refine ⟨fun x hx => ?_, fun j hj => ?_⟩
      · rcases hstep.th with h | h
        · exact hfresh.1 x (h ▸ hx)
        · refine ⟨0, Nat.zero_le _, ?_⟩
          rw [h, hv.th] at hx
          simpa using (Option.some.inj hx).symm
      · rcases hstep.stamp with h | h
        · exact hfresh.2 j (h ▸ hj)
        · rw [h] at hj
          exact (Option.some.inj hj).symm
  counter := by
    simp only [countP_counted_set hr hstep]
    split_ifs
    · rw [hv.counter, int32_add]
      push_cast
      rfl
    · exact hv.counter
  budget := by
    simp only [List.length_set]
    exact hv.budget

theorem inv_step (hv : v.Inv) (h : View.Step v v') : v'.Inv := by
  cases h with
  | other => exact inv_other hv
  | inc => exact inv_inc hv
  | store jiffies hpos => exact inv_store hv jiffies hpos
  | request hpos => exact inv_request hv hpos
  | item a x hx =>
    obtain ⟨-, hpending, rfl⟩ | ⟨i, b, r, r', -, hr, hstep, rfl⟩ := Item.step_cases hx
    · exact inv_start hv hpending
    · exact inv_run hv hr hstep

/-! ## What follows for an item -/

/-- The item never runs more often than the interrupt. -/
theorem counter_le (hv : v.Inv) (h : v.interrupts < 2 ^ 31) : v.item.counter ≤ v.counterTh := by
  have hcount : v.item.runs.countP (·.counted) ≤ v.item.runs.length := List.countP_le_length
  have hbudget := hv.budget
  rw [hv.counter, hv.th, int32_of_mem (by omega) (by omega), int32_of_mem (by omega) (by omega)]
  omega

/-- Once nothing is under way, the last run has seen the last interrupt. -/
theorem saw_last (hv : v.Inv) (hstored : v.toStore = 0) (hwaiting : v.waiting = 0)
    (hidle : v.item.Idle) (t : ℕ) (ht : v.lastStore = some t) :
    ∃ r, v.item.runs.getLast? = some r ∧ t < r.start ∧ r.th = some v.counterTh ∧
      r.stamp = some v.stamp := by
  obtain ⟨hpending, hended⟩ := hidle
  obtain h | h | ⟨n, hn, hlt⟩ := hv.served t ht
  · omega
  · rw [hpending] at h
    cases h
  · rw [List.getLast?_map, Option.map_eq_some_iff] at hn
    obtain ⟨r, hr, rfl⟩ := hn
    have hmem := List.mem_of_getLast? hr
    have hfresh := hv.fresh t ht r hmem hlt
    obtain ⟨-, hth, -, hstamp⟩ := r.complete (hended r hmem)
    obtain ⟨x, hx⟩ := Option.isSome_iff_exists.1 hth
    obtain ⟨j, hj⟩ := Option.isSome_iff_exists.1 hstamp
    obtain ⟨k, hk, rfl⟩ := hfresh.1 x hx
    obtain rfl : k = 0 := by omega
    refine ⟨r, hr, hlt, ?_, ?_⟩
    · rw [hx, hv.th]
      simp
    · rw [hj, hfresh.2 j hj]

/-! ## Every run -/

theorem inv_initial : (taskletView initial).Inv ∧ (workView initial).Inv := by
  refine ⟨⟨?_, ?_, ?_, ?_, ?_, ?_, ?_⟩, ⟨?_, ?_, ?_, ?_, ?_, ?_, ?_⟩⟩ <;>
    simp [taskletView, workView, initial, Handlers.none, int32]

theorem law_of_inv {s : State} (h : (taskletView s).Inv ∧ (workView s).Inv) : Law s where
  tasklet_le := counter_le h.1
  work_le := counter_le h.2
  tasklet_saw hnone := by
    refine saw_last h.1 ?_ ?_ <;> simp [taskletView, hnone, Handlers.none]
  work_saw hnone := by
    refine saw_last h.2 ?_ ?_ <;> simp [workView, hnone, Handlers.none]

/-- In every interleaving of interrupts, runs of the two functions and unloading, the bottom
halves of `irq_delayed` coalesce, and never miss an interrupt. -/
theorem bottom_halves_law (acts : List Act) :
    Throughout (step .irqDelayed) Law initial acts := by
  have hinv : Throughout (step .irqDelayed) (fun s => (taskletView s).Inv ∧ (workView s).Inv)
      initial acts :=
    throughout_of_step (fun _ _ _ hs h =>
      ⟨inv_step hs.1 (step_taskletView h), inv_step hs.2 (step_workView h)⟩) acts inv_initial
  intro pre post t hacts ht
  exact law_of_inv (hinv pre post t hacts ht)

end KernelExamples.Irq
