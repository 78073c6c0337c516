import KernelExamples.CInt
import KernelExamples.Threads
import Mathlib.Algebra.BigOperators.Group.Finset.Piecewise
import Mathlib.Data.Fintype.Card

/-!
# A thread that sleeps with a spin lock

`synchronization/spindead.c`. `my_init` creates and wakes one thread for each online CPU, and
stops early if a creation fails. Each thread takes `wrong_lock`, increments `count`, and sleeps
before it releases the lock if it was the first. Nothing in the module wakes it.

The steps are those of `Threads` : the read and the write of `count++` are two of them, and so
are `set_current_state` and `schedule`. `wake` is a wake-up from outside the module, which finds
the sleeper on either side of its `schedule`.

The lock does its work (`one_in_critical_section`) : one thread at a time is between `spin_lock`
and `spin_unlock`, and no increment is lost. Every run ends after a bounded number of steps
(`ends_in_deadlock_unless_woken`). Without a wake-up it ends with the first thread asleep and
all others spinning, and after the one wake-up that is ever possible with every thread done.
-/

set_option linter.unusedSectionVars false

namespace KernelExamples.SpinDead

open CInt Traces Threads

/-- Where a thread of `spintest_fn` is : not created, not woken, at `spin_lock`, at the read
and at the write of `count++`, at the test `count == 1`, after `set_current_state` and at
`schedule`, in `schedule`, woken, at `spin_unlock`, or past its `return 0`. -/
inductive Pc
  | none
  | created
  | start
  | locked
  | loaded (v : ℤ)
  | counted
  | interruptible
  | asleep
  | awake
  | unlock
  | done
  deriving DecidableEq

/-- The steps of a thread, and those of `my_init` and of others that concern it. -/
inductive Act
  | create
  | fail
  | wakeUp
  | run
  | wake
  deriving DecidableEq

variable {T : Type*} [DecidableEq T]

/-- `wrong_lock`, `count`, and where `create_kernel_threads` is : the CPUs it has still to
visit, and the thread it has created and not woken yet. -/
structure Shared (T : Type*) where
  lock : Option T
  count : ℤ
  pending : List T
  waking : Option T
  deriving DecidableEq

/-- The next statement that concerns `t`. -/
def prog (t : T) : Act → Shared T → Pc → Option (Shared T × Pc)
  | .create, g, .none =>
    if g.pending.head? = some t ∧ g.waking = none then
      some ({ g with pending := g.pending.tail, waking := some t }, .created)
    else none
  -- `return PTR_ERR(task)`, which `my_init` does not look at
  | .fail, g, pc =>
    if g.pending.head? = some t ∧ g.waking = none then some ({ g with pending := [] }, pc)
    else none
  | .wakeUp, g, .created =>
    if g.waking = some t then some ({ g with waking := none }, .start) else none
  | .run, g, .start => if g.lock = none then some ({ g with lock := some t }, .locked) else none
  | .run, g, .locked => some (g, .loaded g.count)
  | .run, g, .loaded v => some ({ g with count := int32 (v + 1) }, .counted)
  | .run, g, .counted => some (g, if g.count = 1 then .interruptible else .unlock)
  | .run, g, .interruptible => some (g, .asleep)
  | .wake, g, .interruptible => some (g, .awake)
  | .wake, g, .asleep => some (g, .awake)
  | .run, g, .awake => some (g, .unlock)
  | .run, g, .unlock => some ({ g with lock := none }, .done)
  | _, _, _ => none

/-- The online CPUs in the order of `for_each_online_cpu`. An `int` can count them. -/
structure Online (T : Type*) [Fintype T] where
  order : List T
  few : Fintype.card T < 2 ^ 31

/-- `my_init` is about to visit the first CPU. -/
def initial [Fintype T] (online : Online T) : Threads.State T (Shared T) Pc :=
  ⟨⟨none, 0, online.order, none⟩, fun _ => .none⟩

/-! ## The places of `spintest_fn` -/

/-- Between `spin_lock` and `spin_unlock`. -/
def Pc.critical : Pc → Bool
  | .locked | .loaded _ | .counted | .interruptible | .asleep | .awake | .unlock => true
  | _ => false

/-- Past the write of `count++`. -/
def Pc.incremented : Pc → Bool
  | .counted | .interruptible | .asleep | .awake | .unlock | .done => true
  | _ => false

/-- Between `set_current_state(TASK_INTERRUPTIBLE)` and a wake-up. -/
def Pc.waits : Pc → Bool
  | .interruptible | .asleep => true
  | _ => false

/-- Past the sleep, or past the test that avoids it. -/
def Pc.past : Pc → Bool
  | .awake | .unlock | .done => true
  | _ => false

/-- What the place of `t` says about the shared memory. -/
structure Agrees (t : T) (g : Shared T) (l : Pc) : Prop where
  waking : g.waking = some t ↔ l = .created
  lock : g.lock = some t ↔ l.critical = true
  loaded : ∀ v, l = .loaded v → g.count = v
  waits : l.waits = true → g.count = 1

/-! ## Steps -/

/-- What a step does, and when it can be made. -/
inductive Step (t : T) (g : Shared T) : Act → Pc → Shared T → Pc → Prop
  | create : g.pending.head? = some t → g.waking = none →
      Step t g .create .none { g with pending := g.pending.tail, waking := some t } .created
  | fail {l : Pc} : g.pending.head? = some t → g.waking = none →
      Step t g .fail l { g with pending := [] } l
  | wakeUp : g.waking = some t → Step t g .wakeUp .created { g with waking := none } .start
  | lock : g.lock = none → Step t g .run .start { g with lock := some t } .locked
  | load : Step t g .run .locked g (.loaded g.count)
  | store {v : ℤ} : Step t g .run (.loaded v) { g with count := int32 (v + 1) } .counted
  | first : g.count = 1 → Step t g .run .counted g .interruptible
  | later : g.count ≠ 1 → Step t g .run .counted g .unlock
  | sleep : Step t g .run .interruptible g .asleep
  | wakeEarly : Step t g .wake .interruptible g .awake
  | wake : Step t g .wake .asleep g .awake
  | running : Step t g .run .awake g .unlock
  | unlock : Step t g .run .unlock { g with lock := none } .done

theorem prog_iff {t : T} {a : Act} {g g' : Shared T} {l l' : Pc} :
    prog t a g l = some (g', l') ↔ Step t g a l g' l' := by
  constructor
  · intro h
    cases a with
    | create =>
      cases l <;> simp only [prog, reduceCtorEq] at h
      obtain ⟨⟨hpending, hwaking⟩, h⟩ := of_guard h
      cases h
      exact .create hpending hwaking
    | fail =>
      obtain ⟨⟨hpending, hwaking⟩, h⟩ := of_guard h
      cases h
      exact .fail hpending hwaking
    | wakeUp =>
      cases l <;> simp only [prog, reduceCtorEq] at h
      obtain ⟨hwaking, h⟩ := of_guard h
      cases h
      exact .wakeUp hwaking
    | run =>
      cases l <;> simp only [prog, reduceCtorEq] at h
      case start =>
        obtain ⟨hlock, h⟩ := of_guard h
        cases h
        exact .lock hlock
      case counted =>
        split_ifs at h with hcount <;> cases h
        · exact .first hcount
        · exact .later hcount
      all_goals cases h; constructor
    | wake => cases l <;> simp only [prog, reduceCtorEq] at h <;> cases h <;> constructor
  · intro h
    cases h <;> simp_all [prog]

section Lock

variable {t u : T} {a : Act} {g g' : Shared T} {l l' k : Pc}

theorem agrees_own (ht : Agrees t g l) (h : prog t a g l = some (g', l')) : Agrees t g' l' := by
  obtain ⟨hwaking, hlock, hloaded, hwaits⟩ := ht
  cases prog_iff.1 h <;> constructor <;> simp_all [Pc.critical, Pc.waits]

/-- A step of `t` moves neither the lock nor the counter away from under another thread. -/
theorem agrees_other (hu : u ≠ t) (ht : Agrees t g l) (hk : Agrees u g k)
    (h : prog t a g l = some (g', l')) : Agrees u g' k := by
  obtain ⟨hwaking, hlock, hloaded, hwaits⟩ := hk
  have htu : t ≠ u := hu.symm
  -- two threads do not hold the lock, so `u` has not read `count` when `t` writes it
  have hcritical : k.critical = true → l.critical = false := by
    intro hk
    rw [← hlock] at hk
    rw [Bool.eq_false_iff, ne_eq, ← ht.lock, hk, Option.some.injEq]
    exact hu
  have hlocal : ∀ v, k = .loaded v ∨ k.waits = true → k.critical = true := by
    cases k <;> simp [Pc.critical, Pc.waits]
  cases prog_iff.1 h with
  | create hpending hnone => exact ⟨by simp_all, hlock, hloaded, hwaits⟩
  | fail hpending hnone => exact ⟨hwaking, hlock, hloaded, hwaits⟩
  | wakeUp hsome => exact ⟨by simp_all, hlock, hloaded, hwaits⟩
  | lock hnone => exact ⟨hwaking, by simp_all, hloaded, hwaits⟩
  | store =>
    have hk : k.critical ≠ true := fun hk => by simpa [Pc.critical] using hcritical hk
    exact ⟨hwaking, hlock, fun v hv => absurd (hlocal v (.inl hv)) hk,
      fun hw => absurd (hlocal 0 (.inr hw)) hk⟩
  | unlock =>
    have hk : k.critical ≠ true := fun hk => by simpa [Pc.critical] using hcritical hk
    exact ⟨hwaking, by simp_all, hloaded, hwaits⟩
  | _ => exact ⟨hwaking, hlock, hloaded, hwaits⟩

end Lock

/-- Each thread's place agrees with the shared memory. -/
def Consistent (s : Threads.State T (Shared T) Pc) : Prop := Local (fun _ => True) Agrees s

theorem consistent_step (s : Threads.State T (Shared T) Pc) (a : T × Act)
    (s' : Threads.State T (Shared T) Pc) (hs : Consistent s) (h : step prog s a = some s') :
    Consistent s' :=
  local_step (J := Agrees) (fun _ _ _ _ _ _ _ ht h => ⟨trivial, agrees_own ht h⟩)
    (fun _ _ _ _ _ _ _ _ hu _ ht hk h => agrees_other hu ht hk h) s a s' hs h

theorem Consistent.unique {s : Threads.State T (Shared T) Pc} (hs : Consistent s) {t u : T}
    (ht : (s.locals t).critical = true) (hu : (s.locals u).critical = true) : t = u := by
  rw [← (hs.2 t).lock] at ht
  rw [← (hs.2 u).lock, ht] at hu
  exact Option.some.inj hu

/-! ## The counter -/

variable [Fintype T]

/-- The threads past their increment. -/
def increments (s : Threads.State T (Shared T) Pc) : ℕ :=
  (Finset.univ.filter fun t => (s.locals t).incremented = true).card

theorem increments_eq_total (s : Threads.State T (Shared T) Pc) :
    increments s = total (fun l => if l.incremented = true then 1 else 0) s :=
  Finset.card_filter _ _

/-- The places agree with the shared memory, and `count` with the places. -/
structure Inv (s : Threads.State T (Shared T) Pc) : Prop where
  consistent : Consistent s
  count : s.shared.count = increments s

theorem inv_initial (online : Online T) : Inv (initial online) := by
  refine ⟨⟨trivial, fun t => ⟨?_, ?_, ?_, ?_⟩⟩, ?_⟩ <;>
    simp [initial, increments, Pc.critical, Pc.waits, Pc.incremented]

theorem inv_step (hfew : Fintype.card T < 2 ^ 31) (s : Threads.State T (Shared T) Pc)
    (a : T × Act) (s' : Threads.State T (Shared T) Pc) (hs : Inv s)
    (h : step prog s a = some s') : Inv s' := by
  refine ⟨consistent_step s a s' hs.consistent h, ?_⟩
  obtain ⟨t, a⟩ := a
  have htotal := total_step (fun l => if l.incremented = true then 1 else 0) h
  rw [← increments_eq_total, ← increments_eq_total] at htotal
  have hcount := hs.count
  have hstep := prog_iff.1 (step_cases h).1
  have hloaded := (hs.consistent.2 t).loaded
  have hbound : increments s' < 2 ^ 31 := lt_of_le_of_lt (Finset.card_le_univ _) hfew
  generalize s.locals t = l at hstep htotal hloaded
  generalize s'.locals t = l' at hstep htotal
  generalize s.shared = g at hstep hcount hloaded
  generalize s'.shared = g' at hstep ⊢
  cases hstep with
  | store =>
    simp only [Pc.incremented, if_true] at htotal
    have hv := hloaded _ rfl
    dsimp only
    rw [← hv, hcount, int32_of_mem] <;> simp_all <;> omega
  | fail => exact hcount.trans (by omega)
  | _ => simp_all [Pc.incremented]

/-- One thread at a time is between `spin_lock` and `spin_unlock`, and `count` is the number of
threads that have incremented it. -/
theorem one_in_critical_section (online : Online T) (acts : List (T × Act)) :
    Throughout (step prog) (fun s => (∀ t u, (s.locals t).critical = true →
      (s.locals u).critical = true → t = u) ∧ s.shared.count = increments s)
      (initial online) acts := by
  have hinv := throughout_of_step (inv_step online.few) acts (inv_initial online)
  intro pre post s hacts hs
  obtain ⟨hconsistent, hcount⟩ := hinv pre post s hacts hs
  exact ⟨fun t u ht hu => hconsistent.unique ht hu, hcount⟩

/-! ## The sleep -/

variable {s s' : Threads.State T (Shared T) Pc}

/-- A thread that sleeps is the first, so none is past the sleep. -/
theorem not_past_of_waits (hs : Inv s) {t : T} (ht : (s.locals t).waits = true) (u : T) :
    (s.locals u).past = false := by
  have hone : increments s = 1 := by
    have hcount := (hs.consistent.2 t).waits ht
    rw [hs.count] at hcount
    omega
  obtain ⟨v, hv⟩ := Finset.card_eq_one.1 hone
  have hmem : ∀ w, (s.locals w).incremented = true → w = v := by
    intro w hw
    rw [← Finset.mem_singleton, ← hv, Finset.mem_filter]
    exact ⟨Finset.mem_univ w, hw⟩
  have htv : t = v := hmem t (by cases h : s.locals t <;> simp_all [Pc.waits, Pc.incremented])
  rw [Bool.eq_false_iff]
  intro hu
  have huv : u = v := hmem u (by cases h : s.locals u <;> simp_all [Pc.past, Pc.incremented])
  rw [huv, ← htv] at hu
  cases h : s.locals t <;> simp_all [Pc.past, Pc.waits]

/-- If none is past the sleep, a thread that has incremented `count` is the only one. -/
theorem count_of_not_past (hs : Inv s) {t : T} (ht : s.locals t = .counted)
    (hpast : ∀ u, (s.locals u).past = false) : s.shared.count = 1 := by
  have honly : (Finset.univ.filter fun u => (s.locals u).incremented = true) = {t} := by
    refine Finset.eq_singleton_iff_unique_mem.2 ⟨?_, fun u hu => ?_⟩
    · exact Finset.mem_filter.2 ⟨Finset.mem_univ t, by rw [ht]; rfl⟩
    have hincremented := (Finset.mem_filter.1 hu).2
    refine hs.consistent.unique ?_ (by rw [ht]; rfl)
    have hu' := hpast u
    cases h : s.locals u <;> simp_all [Pc.past, Pc.incremented, Pc.critical]
  rw [hs.count, increments, honly, Finset.card_singleton]
  rfl

section Past

variable {t : T} {a : Act} {g g' : Shared T} {l l' : Pc}

theorem Step.past_mono (h : Step t g a l g' l') (hl : l.past = true) : l'.past = true := by
  cases h <;> simp_all [Pc.past]

theorem Step.past_of_wake (h : Step t g .wake l g' l') : l'.past = true := by
  cases h <;> rfl

theorem Step.past_cases (h : Step t g a l g' l') (hl : l'.past = true) :
    l.past = true ∨ a = .wake ∨ l = .counted ∧ g.count ≠ 1 := by
  cases h <;> simp_all [Pc.past]

end Past

/-- The first thread past the sleep is one that was woken. -/
theorem past_step (hs : Inv s) {t : T} {a : Act} (h : step prog s (t, a) = some s') :
    (∃ u, (s'.locals u).past = true) ↔ a = .wake ∨ ∃ u, (s.locals u).past = true := by
  obtain ⟨hprog, hsame⟩ := step_cases h
  have hstep := prog_iff.1 hprog
  constructor
  · rintro ⟨u, hu⟩
    by_contra hnone
    push Not at hnone
    obtain ⟨hwake, hpast⟩ := hnone
    obtain rfl : u = t := by
      by_contra hut
      rw [hsame u hut] at hu
      exact hpast u hu
    obtain hbefore | hwake' | ⟨hcounted, hcount⟩ := hstep.past_cases hu
    · exact hpast u hbefore
    · exact hwake hwake'
    · exact hcount (count_of_not_past hs hcounted fun v => by simpa using hpast v)
  · rintro (rfl | ⟨u, hu⟩)
    · exact ⟨t, hstep.past_of_wake⟩
    · refine ⟨u, ?_⟩
      by_cases hut : u = t
      · rw [hut] at hu ⊢
        exact hstep.past_mono hu
      · rwa [hsame u hut]

/-! ## The end of a run -/

/-- No thread can make a step, unless one is woken from outside. -/
def Quiet (s : Threads.State T (Shared T) Pc) : Prop :=
  ∀ t a, a ≠ .wake → step prog s (t, a) = none

/-- `my_init` has returned. -/
def Returned (s : Threads.State T (Shared T) Pc) : Prop :=
  s.shared.pending = [] ∧ s.shared.waking = none

/-- The first thread sleeps with the lock, and the others spin. -/
def Deadlocked (s : Threads.State T (Shared T) Pc) : Prop :=
  s.shared.count = 1 ∧ ∃ t, s.locals t = .asleep ∧ s.shared.lock = some t ∧
    ∀ u, u ≠ t → s.locals u = .start ∨ s.locals u = .none

/-- The threads that were created have returned, and the lock is free. -/
def Finished (s : Threads.State T (Shared T) Pc) : Prop :=
  s.shared.lock = none ∧ ∀ t, s.locals t = .done ∨ s.locals t = .none

/-- The threads that can be left when nothing moves. -/
def Pc.still : Pc → Bool
  | .none | .start | .asleep | .done => true
  | _ => false

theorem step_eq_none_iff {t : T} {a : Act} :
    step prog s (t, a) = none ↔ ∀ g' l', ¬Step t s.shared a (s.locals t) g' l' := by
  rw [step, Option.map_eq_none_iff, Option.eq_none_iff_forall_ne_some, Prod.forall]
  simp only [ne_eq, prog_iff]

theorem returned_of_quiet (hs : Inv s) (hquiet : Quiet s) : Returned s := by
  have hwaking : s.shared.waking = none := by
    rw [Option.eq_none_iff_forall_ne_some]
    intro t ht
    have hcreated := ((hs.consistent.2 t).waking).1 ht
    have hnone := step_eq_none_iff.1 (hquiet t .wakeUp (by decide))
    rw [hcreated] at hnone
    exact hnone _ _ (.wakeUp ht)
  refine ⟨?_, hwaking⟩
  cases hpending : s.shared.pending with
  | nil => rfl
  | cons t rest =>
    have hnone := step_eq_none_iff.1 (hquiet t .fail (by decide))
    exact absurd (.fail (by rw [hpending]; rfl) hwaking) (hnone _ _)

theorem still_of_quiet (hs : Inv s) (hquiet : Quiet s) (t : T) : (s.locals t).still = true := by
  have hwaking := (hs.consistent.2 t).waking
  rw [(returned_of_quiet hs hquiet).2] at hwaking
  have hnone := step_eq_none_iff.1 (hquiet t .run (by decide))
  generalize s.locals t = l at hwaking hnone ⊢
  cases l with
  | created => simp at hwaking
  | locked => exact absurd .load (hnone _ _)
  | loaded v => exact absurd .store (hnone _ _)
  | counted =>
    by_cases hcount : s.shared.count = 1
    · exact absurd (.first hcount) (hnone _ _)
    · exact absurd (.later hcount) (hnone _ _)
  | interruptible => exact absurd .sleep (hnone _ _)
  | awake => exact absurd .running (hnone _ _)
  | unlock => exact absurd .unlock (hnone _ _)
  | _ => rfl

/-- A run stops with the first thread asleep or with all threads done. -/
theorem quiet_iff (hs : Inv s) : Quiet s ↔ Returned s ∧ (Deadlocked s ∨ Finished s) := by
  constructor
  · intro hquiet
    refine ⟨returned_of_quiet hs hquiet, ?_⟩
    have hstill := still_of_quiet hs hquiet
    cases hlock : s.shared.lock with
    | none =>
      refine .inr ⟨hlock, fun t => ?_⟩
      have hfree := (hs.consistent.2 t).lock
      have hnone := step_eq_none_iff.1 (hquiet t .run (by decide))
      have ht := hstill t
      rw [hlock] at hfree
      generalize s.locals t = l at hfree hnone ht ⊢
      cases l with
      | start => exact absurd (.lock hlock) (hnone _ _)
      | _ => simp_all [Pc.still, Pc.critical]
    | some t =>
      have hcritical := (hs.consistent.2 t).lock.1 hlock
      have ht : s.locals t = .asleep := by
        have ht := hstill t
        cases h : s.locals t <;> simp_all [Pc.still, Pc.critical]
      have hpast := not_past_of_waits hs (t := t) (by rw [ht]; rfl)
      refine .inl ⟨(hs.consistent.2 t).waits (by rw [ht]; rfl), t, ht, hlock, fun u hu => ?_⟩
      have hfree : (s.locals u).critical ≠ true := fun h => hu (hs.consistent.unique h hcritical)
      have hu' := hstill u
      have hpast' := hpast u
      cases h : s.locals u <;> simp_all [Pc.still, Pc.critical, Pc.past]
  · rintro ⟨⟨hpending, hwaking⟩, hend⟩ u a ha
    rw [step_eq_none_iff]
    intro g' l' hstep
    obtain ⟨hlock, hplace⟩ : (s.shared.lock = none → s.locals u ≠ .start) ∧
        (s.locals u).still = true := by
      obtain ⟨-, t, ht, hlock, hothers⟩ | ⟨-, hdone⟩ := hend
      · refine ⟨fun hfree => by simp [hlock] at hfree, ?_⟩
        by_cases hut : u = t
        · rw [hut, ht]
          rfl
        · obtain hu | hu := hothers u hut <;> rw [hu] <;> rfl
      · obtain hu | hu := hdone u <;> rw [hu] <;> simp [Pc.still]
    generalize s.locals u = l at hstep hlock hplace
    cases hstep <;> simp_all [Pc.still]

/-- What is left to do for a thread. -/
def Pc.rank : Pc → ℕ
  | .none => 10
  | .created => 9
  | .start => 8
  | .locked => 7
  | .loaded _ => 6
  | .counted => 5
  | .interruptible => 4
  | .asleep => 3
  | .awake => 2
  | .unlock => 1
  | .done => 0

/-- What is left to do for the threads and for `my_init`. -/
def remaining (s : Threads.State T (Shared T) Pc) : ℕ :=
  total Pc.rank s + s.shared.pending.length

theorem Step.rank_lt {t : T} {a : Act} {g g' : Shared T} {l l' : Pc} (h : Step t g a l g' l') :
    l'.rank + g'.pending.length < l.rank + g.pending.length := by
  cases h with
  | create hpending =>
    simp only [Pc.rank, List.length_tail]
    omega
  | fail hpending =>
    have hlength := List.length_pos_of_mem (List.mem_of_head? hpending)
    simpa using hlength
  | _ => simp [Pc.rank]

theorem remaining_step (s : Threads.State T (Shared T) Pc) (a : T × Act)
    (s' : Threads.State T (Shared T) Pc) (h : step prog s a = some s') :
    remaining s' < remaining s := by
  have htotal := total_step Pc.rank h
  have hrank := (prog_iff.1 (step_cases h).1).rank_lt
  unfold remaining
  omega

theorem finished_iff_of_not_past (hs : Inv s) (hpast : ∀ t, (s.locals t).past = false) :
    Finished s ↔ ∀ t, s.locals t = .none := by
  constructor
  · rintro ⟨-, hdone⟩ t
    refine (hdone t).resolve_left fun ht => ?_
    simpa [ht, Pc.past] using hpast t
  · intro hnone
    refine ⟨?_, fun t => .inr (hnone t)⟩
    rw [Option.eq_none_iff_forall_ne_some]
    intro t ht
    simpa [hnone t, Pc.critical] using (hs.consistent.2 t).lock.1 ht

/-- What the wake-ups of a run say about the state it leads to. -/
structure Woken (acts : List (T × Act)) (s : Threads.State T (Shared T) Pc) : Prop where
  inv : Inv s
  once : (acts.map Prod.snd).count .wake ≤ 1
  past : (∃ t, (s.locals t).past = true) ↔ .wake ∈ acts.map Prod.snd

theorem woken_of_run (online : Online T) (acts : List (T × Act))
    (hrun : runFrom (step prog) (initial online) acts = some s) : Woken acts s := by
  refine of_run ⟨inv_initial online, by simp, by simp [initial, Pc.past]⟩ ?_ acts hrun
  rintro pre u ⟨t, a⟩ u' ⟨hinv, honce, hpast⟩ hstep
  refine ⟨inv_step online.few u (t, a) u' hinv hstep, ?_, ?_⟩
  · rw [List.map_append, List.count_append]
    by_cases ha : a = .wake
    · -- the sleeper is the first thread, so there was no wake-up before
      have hnever : .wake ∉ pre.map Prod.snd := by
        rw [← hpast]
        rintro ⟨v, hv⟩
        have hwaits : (u.locals t).waits = true := by
          rw [ha] at hstep
          cases hl : u.locals t <;> simp_all [step, prog, Pc.waits]
        rw [not_past_of_waits hinv hwaits v] at hv
        cases hv
      rw [List.count_eq_zero_of_not_mem hnever, ha]
      rfl
    · have hsame : ([(t, a)].map Prod.snd).count Act.wake = 0 :=
        List.count_eq_zero_of_not_mem (by simpa using Ne.symm ha)
      omega
  · rw [past_step hinv hstep, hpast, List.map_append, List.mem_append, or_comm]
    simp [eq_comm]

/-- Every run is bounded, and wakes a sleeper at most once. Without that wake-up no thread
returns, and when nothing moves any more the threads that were created are deadlocked. With
it they have all returned. -/
theorem ends_in_deadlock_unless_woken (online : Online T) (acts : List (T × Act))
    (hrun : runFrom (step prog) (initial online) acts = some s) :
    acts.length ≤ 10 * Fintype.card T + online.order.length ∧
      (acts.map Prod.snd).count .wake ≤ 1 ∧
      ((∃ t, s.locals t = .done) → .wake ∈ acts.map Prod.snd) ∧
      (Quiet s ↔ Returned s ∧
        if .wake ∈ acts.map Prod.snd then Finished s
        else Deadlocked s ∨ ∀ t, s.locals t = .none) := by
  obtain ⟨hinv, honce, hpast⟩ := woken_of_run online acts hrun
  refine ⟨?_, honce, ?_, ?_⟩
  · have hlength := length_add_le remaining remaining_step acts hrun
    have hstart : remaining (initial online) = 10 * Fintype.card T + online.order.length := by
      simp [remaining, initial, total, Pc.rank, mul_comm]
    omega
  · rintro ⟨t, ht⟩
    exact hpast.1 ⟨t, by rw [ht]; rfl⟩
  · rw [quiet_iff hinv]
    refine and_congr_right fun _ => ?_
    split_ifs with hwake
    · obtain ⟨v, hv⟩ := hpast.2 hwake
      refine or_iff_right ?_
      rintro ⟨-, t, ht, -, -⟩
      rw [not_past_of_waits hinv (t := t) (by rw [ht]; rfl) v] at hv
      cases hv
    · rw [← hpast] at hwake
      rw [finished_iff_of_not_past hinv fun t => by simpa using not_exists.1 hwake t]

/-- Two threads are created, and the second takes the lock. -/
def twoThreads : List (Bool × Act) :=
  [(false, .create), (false, .wakeUp), (true, .create), (true, .wakeUp), (true, .run),
    (true, .run), (true, .run), (true, .run), (true, .run)]

theorem deadlock_of_twoThreads : ∃ s : Threads.State Bool (Shared Bool) Pc,
    runFrom (step prog) (initial ⟨[false, true], by decide⟩) twoThreads = some s ∧
      Deadlocked s ∧ Quiet s := by
  obtain ⟨s, hrun, hreturned, hdead⟩ : ∃ s : Threads.State Bool (Shared Bool) Pc,
      runFrom (step prog) (initial ⟨[false, true], by decide⟩) twoThreads = some s ∧
        Returned s ∧ Deadlocked s :=
    ⟨_, rfl, ⟨rfl, rfl⟩, rfl, true, rfl, rfl, by decide⟩
  refine ⟨s, hrun, hdead, (ends_in_deadlock_unless_woken _ _ hrun).2.2.2.2 ⟨hreturned, ?_⟩⟩
  rw [if_neg (by decide)]
  exact .inl hdead

end KernelExamples.SpinDead
