import KernelExamples.CInt
import KernelExamples.Traces
import Mathlib.Data.List.Chain
import Mathlib.Data.PNat.Defs

/-!
# A timer that arms itself

`timer/periodic_timer.c`. `init_module` adds the timer, and `ktfun` prints the time since then
and sets the timer again before it returns. `cleanup_module` is one call of `del_timer_sync`,
which takes the timer off its list as soon as the function is not running, and says whether it
was there.

A step is a tick of the clock, a statement of `ktfun`, or one turn of the loop in
`del_timer_sync`, in any order. The clock is counted without wrapping, as the timer wheel
compares times. `init_module` reads it twice, for `expires` and for `start_time`, and `late` is
what it has advanced in between.

The timer and its function are never both idle while the module is loaded (`Armed`), so
`del_timer_sync` always finds the timer and returns `1`, and after it nothing is left. The
printed times are at least a period apart (`periodic_timer_law`).
-/

namespace KernelExamples.PeriodicTimer

open CInt Traces

/-! ## The source -/

/-- `ktfun` before its `printk`, before `mod_timer`, and before its end. -/
inductive Stage
  | entered
  | printed
  | rearmed
  deriving DecidableEq

/-- `cleanup_module` : not called, in the loop of `del_timer_sync`, or returned with the value of
`del_timer_sync`. -/
inductive Cleanup
  | no
  | deleting
  | returned (rc : ℤ)
  deriving DecidableEq

/-- The clock, `struct kt_data`, the time the timer is pending for, the run of `ktfun`, the times
at which it printed and what it printed as elapsed, and `cleanup_module`. -/
structure State where
  jiffies : ℕ
  period : ℕ
  startTime : ℕ
  pending : Option ℕ
  running : Option Stage
  times : List ℕ
  elapsed : List ℤ
  cleanup : Cleanup

/-- The state after `init_module`, which read `jiffies` as `now` and then as `now + late`. -/
def initModule (hz : ℕ+) (now late : ℕ) : State where
  jiffies := now + late
  period := 2 * hz
  startTime := now + late
  pending := some (now + 2 * hz)
  running := none
  times := []
  elapsed := []
  cleanup := .no

inductive Act
  | tick (n : ℕ)
  | fire
  | printk
  | modTimer
  | finish
  | cleanupModule
  | tryToDel
  deriving DecidableEq

def step (s : State) : Act → Option State
  | .tick n => some { s with jiffies := s.jiffies + n }
  -- the timer is taken off its list before its function is called
  | .fire =>
    if (∃ expires ∈ s.pending, expires ≤ s.jiffies) ∧ s.running = none then
      some { s with pending := none, running := some .entered }
    else none
  | .printk =>
    if s.running = some .entered then
      some { s with
        running := some .printed
        times := s.times ++ [s.jiffies]
        elapsed := s.elapsed ++ [int64 (uint64 (s.jiffies - s.startTime))] }
    else none
  | .modTimer =>
    if s.running = some .printed then
      some { s with running := some .rearmed, pending := some (s.period + s.jiffies) }
    else none
  | .finish => if s.running = some .rearmed then some { s with running := none } else none
  | .cleanupModule => if s.cleanup = .no then some { s with cleanup := .deleting } else none
  | .tryToDel =>
    if s.cleanup = .deleting ∧ s.running = none then
      some { s with
        pending := none
        cleanup := .returned (if s.pending.isSome then 1 else 0) }
    else none

/-! ## The law -/

/-- While the module is there, the timer is pending unless its function is still to set it. After
that neither is left, and the timer was found. -/
def Armed (s : State) : Prop :=
  match s.cleanup with
  | .returned rc => rc = 1 ∧ s.pending = none ∧ s.running = none
  | _ => s.pending.isSome ↔ s.running ≠ some .entered ∧ s.running ≠ some .printed

/-- The times are a period apart, the first one a period after `init_module`, and the elapsed
times are counted from `start_time`. -/
structure Timed (late : ℕ) (s : State) : Prop where
  chain : s.times.IsChain fun a b => a + s.period ≤ b
  since : ∀ (k : ℕ) a, s.times[k]? = some a → s.startTime + (k + 1) * s.period ≤ a + late
  elapsed : s.elapsed = s.times.map fun a : ℕ => int64 (uint64 (a - s.startTime))

/-- The next time is a period after the last one, and the clock is not before that. -/
structure Ahead (late : ℕ) (s : State) : Prop where
  last : ∀ a ∈ s.times.getLast?, a ≤ s.jiffies
  pending : ∀ e ∈ s.pending, (∀ a ∈ s.times.getLast?, a + s.period ≤ e) ∧
    s.startTime + (s.times.length + 1) * s.period ≤ e + late
  entered : s.running = some .entered → (∀ a ∈ s.times.getLast?, a + s.period ≤ s.jiffies) ∧
    s.startTime + (s.times.length + 1) * s.period ≤ s.jiffies + late
  printed : s.running = some .printed →
    s.startTime + s.times.length * s.period ≤ s.jiffies + late

structure Inv (late : ℕ) (s : State) : Prop where
  armed : Armed s
  timed : Timed late s
  ahead : Ahead late s

variable {late : ℕ} {s s' : State}

theorem inv_initModule (hz : ℕ+) (now late : ℕ) : Inv late (initModule hz now late) where
  armed := by simp [Armed, initModule]
  timed := ⟨by simp [initModule], by simp [initModule], rfl⟩
  ahead := ⟨by simp [initModule], by simp [initModule]; omega, by simp [initModule],
    by simp [initModule]⟩

/-- The timer is off its list until `ktfun` sets it. -/
theorem Armed.pending_eq_none (hs : Armed s)
    (hrun : s.running = some .entered ∨ s.running = some .printed) : s.pending = none := by
  unfold Armed at hs
  split at hs
  · exact hs.2.1
  · rw [← Option.not_isSome_iff_eq_none, hs]
    rintro ⟨hentered, hprinted⟩
    exact hrun.elim hentered hprinted

theorem Timed.printk (hs : Timed late s)
    (hspaced : ∀ a ∈ s.times.getLast?, a + s.period ≤ s.jiffies)
    (htime : s.startTime + (s.times.length + 1) * s.period ≤ s.jiffies + late) :
    Timed late { s with
      running := some .printed
      times := s.times ++ [s.jiffies]
      elapsed := s.elapsed ++ [int64 (uint64 (s.jiffies - s.startTime))] } where
  chain := by
    refine List.isChain_append.2 ⟨hs.chain, .singleton _, ?_⟩
    intro a ha b hb
    obtain rfl : s.jiffies = b := by simpa using hb
    exact hspaced a ha
  since := by
    intro k a ha
    rw [List.getElem?_append] at ha
    split_ifs at ha with hk
    · exact hs.since k a ha
    · obtain ⟨hk', rfl⟩ : k = s.times.length ∧ s.jiffies = a := by
        rw [List.getElem?_singleton] at ha
        split_ifs at ha with hzero
        exact ⟨by omega, Option.some.inj ha⟩
      rw [hk']
      exact htime
  elapsed := by
    dsimp only
    rw [hs.elapsed, List.map_append, List.map_singleton]

/-- Nothing in `Timed` reads the clock, the timer, the stage or the cleanup. -/
theorem Timed.of_same (hs : Timed late s) (hperiod : s'.period = s.period)
    (hstart : s'.startTime = s.startTime) (htimes : s'.times = s.times)
    (helapsed : s'.elapsed = s.elapsed) : Timed late s' := by
  obtain ⟨hchain, hsince, helapsed₀⟩ := hs
  constructor
  · rwa [htimes, hperiod]
  · rwa [htimes, hperiod, hstart]
  · rwa [helapsed, htimes, hstart]

/-! ## One lemma for each action -/

namespace Inv

theorem tick (hs : Inv late s) (n : ℕ) : Inv late { s with jiffies := s.jiffies + n } := by
  obtain ⟨harmed, htimed, ⟨hlast, hpending, hentered, hprinted⟩⟩ := hs
  refine ⟨harmed, htimed.of_same rfl rfl rfl rfl, ?_, hpending, ?_, ?_⟩
  · intro a ha
    exact (hlast a ha).trans (Nat.le_add_right _ n)
  · intro hrun
    obtain ⟨hspaced, htime⟩ := hentered hrun
    exact ⟨fun a ha => (hspaced a ha).trans (Nat.le_add_right _ n), by dsimp only; omega⟩
  · intro hrun
    have htime := hprinted hrun
    dsimp only
    omega

/-- A timer that fires is due, and the module is there. -/
theorem fire (hs : Inv late s) {e : ℕ} (he : e ∈ s.pending) (hle : e ≤ s.jiffies) :
    Inv late { s with pending := none, running := some .entered } := by
  obtain ⟨harmed, htimed, ⟨hlast, hpending, hentered, hprinted⟩⟩ := hs
  obtain ⟨hspaced, htime⟩ := hpending e he
  refine ⟨?_, htimed.of_same rfl rfl rfl rfl, hlast, by simp, ?_, by simp⟩
  · unfold Armed at harmed ⊢
    split at harmed
    · rw [harmed.2.1] at he
      cases he
    · simp_all
  · rintro -
    exact ⟨fun a ha => (hspaced a ha).trans hle, by dsimp only; omega⟩

theorem printk (hs : Inv late s) (hrun : s.running = some .entered) :
    Inv late { s with
      running := some .printed
      times := s.times ++ [s.jiffies]
      elapsed := s.elapsed ++ [int64 (uint64 (s.jiffies - s.startTime))] } := by
  obtain ⟨harmed, htimed, ⟨hlast, hpending, hentered, hprinted⟩⟩ := hs
  obtain ⟨hspaced, htime⟩ := hentered hrun
  have hnone := harmed.pending_eq_none (.inl hrun)
  refine ⟨?_, htimed.printk hspaced htime, ?_, ?_, by simp, ?_⟩
  · unfold Armed at harmed ⊢
    split at harmed <;> simp_all
  · intro a ha
    obtain rfl : s.jiffies = a := by simpa using ha
    exact le_rfl
  · simp [hnone]
  · rintro -
    simpa using htime

/-- The new time is a period after the one that was printed. -/
theorem modTimer (hs : Inv late s) (hrun : s.running = some .printed) :
    Inv late { s with running := some .rearmed, pending := some (s.period + s.jiffies) } := by
  obtain ⟨harmed, htimed, ⟨hlast, hpending, hentered, hprinted⟩⟩ := hs
  have htime := hprinted hrun
  refine ⟨?_, htimed.of_same rfl rfl rfl rfl, hlast, ?_, by simp, by simp⟩
  · unfold Armed at harmed ⊢
    split at harmed <;> simp_all
  · intro e he
    obtain rfl : s.period + s.jiffies = e := by simpa using he
    refine ⟨fun a ha => ?_, ?_⟩
    · have := hlast a ha
      dsimp only
      omega
    · dsimp only
      rw [Nat.add_mul, Nat.one_mul]
      omega

theorem finish (hs : Inv late s) (hrun : s.running = some .rearmed) :
    Inv late { s with running := none } := by
  obtain ⟨harmed, htimed, ⟨hlast, hpending, hentered, hprinted⟩⟩ := hs
  refine ⟨?_, htimed.of_same rfl rfl rfl rfl, hlast, hpending, by simp, by simp⟩
  unfold Armed at harmed ⊢
  split at harmed <;> simp_all

theorem cleanupModule (hs : Inv late s) (hno : s.cleanup = .no) :
    Inv late { s with cleanup := .deleting } := by
  obtain ⟨harmed, htimed, ⟨hlast, hpending, hentered, hprinted⟩⟩ := hs
  refine ⟨?_, htimed.of_same rfl rfl rfl rfl, hlast, hpending, hentered, hprinted⟩
  simpa [Armed, hno] using harmed

/-- When `ktfun` is not running, the timer is found. -/
theorem tryToDel (hs : Inv late s) (hdeleting : s.cleanup = .deleting)
    (hidle : s.running = none) :
    Inv late { s with
      pending := none
      cleanup := .returned (if s.pending.isSome then 1 else 0) } := by
  obtain ⟨harmed, htimed, ⟨hlast, hpending, hentered, hprinted⟩⟩ := hs
  refine ⟨?_, htimed.of_same rfl rfl rfl rfl, hlast, by simp, hentered, hprinted⟩
  simp_all [Armed]

end Inv

theorem inv_step (s : State) (a : Act) (s' : State) (hs : Inv late s) (h : step s a = some s') :
    Inv late s' := by
  cases a with
  | tick n =>
    cases h
    exact hs.tick n
  | fire =>
    obtain ⟨⟨⟨e, he, hle⟩, -⟩, rfl⟩ := of_guard h
    exact hs.fire he hle
  | printk =>
    obtain ⟨hrun, rfl⟩ := of_guard h
    exact hs.printk hrun
  | modTimer =>
    obtain ⟨hrun, rfl⟩ := of_guard h
    exact hs.modTimer hrun
  | finish =>
    obtain ⟨hrun, rfl⟩ := of_guard h
    exact hs.finish hrun
  | cleanupModule =>
    obtain ⟨hno, rfl⟩ := of_guard h
    exact hs.cleanupModule hno
  | tryToDel =>
    obtain ⟨⟨hdeleting, hidle⟩, rfl⟩ := of_guard h
    exact hs.tryToDel hdeleting hidle

/-- `struct kt_data` is set once. -/
theorem data_step {period start : ℕ} (s : State) (a : Act) (s' : State)
    (hs : s.period = period ∧ s.startTime = start) (h : step s a = some s') :
    s'.period = period ∧ s'.startTime = start := by
  cases a with
  | tick n =>
    cases h
    exact hs
  | _ =>
    obtain ⟨-, rfl⟩ := of_guard h
    exact hs

/-- In every state of every run, the timer or its function is there while the module is, and
neither of them afterwards, and `del_timer_sync` returned `1`. `ktfun` printed at least two
seconds after it printed before, and the time that has passed since `init_module`. -/
theorem periodic_timer_law (hz : ℕ+) (now late : ℕ) (acts : List Act) :
    Throughout step (fun s => Armed s ∧ Timed late s ∧ s.period = 2 * hz ∧
      s.startTime = now + late) (initModule hz now late) acts := by
  intro pre post s hacts hs
  have hinv := throughout_of_step inv_step acts (inv_initModule hz now late) pre post s hacts hs
  have hdata := throughout_of_step data_step acts ⟨rfl, rfl⟩ pre post s hacts hs
  exact ⟨hinv.armed, hinv.timed, hdata⟩

end KernelExamples.PeriodicTimer
