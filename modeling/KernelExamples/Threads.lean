import KernelExamples.Traces
import Mathlib.Algebra.BigOperators.Group.Finset.Basic
import Mathlib.Data.Fintype.Basic

/-!
# Threads over shared memory

A state has a shared part and a part for each thread. An action is one atomic step of one
thread : `prog t a g l` is what is left of the shared part `g` and of the part `l` of the thread
`t` after its step `a`, or `none` if the thread cannot make that step now. A run is a list of
steps of any threads in any order.

`local_step` is the rule of Owicki and Gries : a property of the shared part and one of each
thread's part are kept by every step if it keeps them for the thread that makes it, and does not
break the property of another thread. In `local_step_of_apart` that may depend on a condition on
the two threads. What a thread does when it runs alone is a run too (`leads_alone`). A quantity
added up over finitely many threads changes with a step by what it changes for one of them
(`total_step`).
-/

namespace Threads

open Traces

variable {T A G L : Type*} [DecidableEq T]

/-- The shared part, and the part of each thread. -/
structure State (T G L : Type*) where
  shared : G
  locals : T → L

/-- The thread `t` makes the step `a`. -/
def step (prog : T → A → G → L → Option (G × L)) (s : State T G L) : T × A → Option (State T G L)
  | (t, a) => (prog t a s.shared (s.locals t)).map fun r => ⟨r.1, Function.update s.locals t r.2⟩

variable {prog : T → A → G → L → Option (G × L)} {s s' : State T G L} {t : T} {a : A}

/-- A step is a step of the program, and changes no other thread. -/
theorem step_cases (h : step prog s (t, a) = some s') :
    prog t a s.shared (s.locals t) = some (s'.shared, s'.locals t) ∧
      ∀ u, u ≠ t → s'.locals u = s.locals u := by
  obtain ⟨⟨g, l⟩, hprog, rfl⟩ := Option.map_eq_some_iff.1 h
  refine ⟨?_, fun u hu => Function.update_of_ne hu _ _⟩
  rw [hprog]
  simp

/-- What a thread does when it runs alone, it can do from a state of all threads. -/
theorem leads_alone {g' : G} {l l' : L} (hl : s.locals t = l)
    (h : Leads (fun r a => prog t a r.1 r.2) (s.shared, l) (g', l')) :
    ∃ s', Leads (step prog) s s' ∧ s'.shared = g' ∧ s'.locals t = l' ∧
      ∀ u, u ≠ t → s'.locals u = s.locals u := by
  obtain ⟨acts, h⟩ := h
  induction acts generalizing s l with
  | nil =>
    cases h
    exact ⟨s, .refl s, rfl, hl, fun _ _ => rfl⟩
  | cons a acts ih =>
    obtain ⟨⟨g₁, l₁⟩, hprog, h⟩ := Option.bind_eq_some_iff.1 h
    have hstep : step prog s (t, a) = some ⟨g₁, Function.update s.locals t l₁⟩ :=
      Option.map_eq_some_iff.2 ⟨(g₁, l₁), by rw [hl]; exact hprog, rfl⟩
    obtain ⟨s', hleads, hg, hl', hsame⟩ := ih (s := ⟨g₁, Function.update s.locals t l₁⟩)
      (Function.update_self _ _ _) h
    refine ⟨s', .head hstep hleads, hg, hl', fun u hu => ?_⟩
    rw [hsame u hu]
    exact Function.update_of_ne hu _ _

section Rule

variable {I : G → Prop} {J : T → G → L → Prop} {D : A → G → L → L → Prop}

/-- The shared part has the property `I`, and the part of each thread `J`. -/
def Local (I : G → Prop) (J : T → G → L → Prop) (s : State T G L) : Prop :=
  I s.shared ∧ ∀ t, J t s.shared (s.locals t)

/-- The step keeps a distance `D` from the other threads. -/
def Apart (D : A → G → L → L → Prop) (s : State T G L) (a : T × A) : Prop :=
  ∀ u, u ≠ a.1 → D a.2 s.shared (s.locals a.1) (s.locals u)

theorem local_step_of_apart
    (hown : ∀ t a g l g' l', I g → J t g l → prog t a g l = some (g', l') → I g' ∧ J t g' l')
    (hother : ∀ t a g l g' l' u k, u ≠ t → I g → J t g l → J u g k → D a g l k →
      prog t a g l = some (g', l') → J u g' k) (s : State T G L) (a : T × A) (s' : State T G L)
    (hs : Local I J s) (ha : Apart D s a) (h : step prog s a = some s') : Local I J s' := by
  obtain ⟨t, a⟩ := a
  obtain ⟨hprog, hsame⟩ := step_cases h
  obtain ⟨hI, ht⟩ := hown t a _ _ _ _ hs.1 (hs.2 t) hprog
  refine ⟨hI, fun u => ?_⟩
  by_cases hu : u = t
  · rwa [hu]
  · rw [hsame u hu]
    exact hother t a _ _ _ _ u _ hu hs.1 (hs.2 t) (hs.2 u) (ha u hu) hprog

/-- What each step keeps for its own thread and does not break for another is kept. -/
theorem local_step
    (hown : ∀ t a g l g' l', I g → J t g l → prog t a g l = some (g', l') → I g' ∧ J t g' l')
    (hother : ∀ t a g l g' l' u k, u ≠ t → I g → J t g l → J u g k → prog t a g l = some (g', l') →
      J u g' k) (s : State T G L) (a : T × A) (s' : State T G L) (hs : Local I J s)
    (h : step prog s a = some s') : Local I J s' :=
  local_step_of_apart (D := fun _ _ _ _ => True) hown
    (fun t a g l g' l' u k hu hI ht hk _ => hother t a g l g' l' u k hu hI ht hk) s a s' hs
    (fun _ _ => trivial) h

end Rule

/-- The sum of `f` over the threads. -/
def total [Fintype T] (f : L → ℕ) (s : State T G L) : ℕ := ∑ t, f (s.locals t)

theorem total_step [Fintype T] (f : L → ℕ) (h : step prog s (t, a) = some s') :
    total f s' + f (s.locals t) = total f s + f (s'.locals t) := by
  have hsame := (step_cases h).2
  have hothers : ∑ u ∈ Finset.univ.erase t, f (s'.locals u) =
      ∑ u ∈ Finset.univ.erase t, f (s.locals u) :=
    Finset.sum_congr rfl fun u hu => by rw [hsame u (Finset.ne_of_mem_erase hu)]
  have hbefore := Finset.add_sum_erase Finset.univ (fun u => f (s.locals u)) (Finset.mem_univ t)
  have hafter := Finset.add_sum_erase Finset.univ (fun u => f (s'.locals u)) (Finset.mem_univ t)
  unfold total
  omega

end Threads
