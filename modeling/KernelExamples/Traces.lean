import Mathlib.Tactic.Common
import Mathlib.Data.List.Basic

/-!
# Runs of a step function, and loops

`step s a` is the state after the action `a`, or `none` when `a` cannot happen in `s`.
`runFrom` replays a list of actions. A property of every state a run passes through is
`Throughout`. A condition on every step it takes is `Along` if it is read on the state
before the step, and `AlongHistory` if it is read on the actions before it.
`throughout_of_step` and `of_run` are induction over a run, and `throughout_iff_along` says when a
condition on the steps is exactly what a property of the states needs : if from a good
state the next state is good exactly when the step meets the condition, then a run stays
good exactly when all its steps meet it. That there is a run from one state to another is `Leads`.

`Halts` is a `while` loop whose body is `none` once the test fails. A loop halts in one
state only (`Halts.unique`). It halts if a measure falls with every iteration
(`exists_halts`), and does not halt if some invariant keeps its test true
(`not_halts_of_invariant`).
-/

namespace Traces

variable {S A : Type*}

/-! ## Runs -/

/-- Replay the actions from `s`. -/
def runFrom (step : S → A → Option S) : S → List A → Option S
  | s, [] => some s
  | s, a :: as => (step s a).bind fun s' => runFrom step s' as

/-- `P` holds in every state the run of `as` from `s` passes through. -/
def Throughout (step : S → A → Option S) (P : S → Prop) (s : S) (as : List A) : Prop :=
  ∀ pre post t, as = pre ++ post → runFrom step s pre = some t → P t

/-- Every step the run of `as` from `s` takes satisfies `C` of the state before it. -/
def Along (step : S → A → Option S) (C : S → A → Prop) (s : S) (as : List A) : Prop :=
  ∀ pre a post t t', as = pre ++ a :: post → runFrom step s pre = some t →
    step t a = some t' → C t a

/-- Every step the run of `as` from `s` takes satisfies `C` of the actions before it. -/
def AlongHistory (step : S → A → Option S) (C : List A → A → Prop) (s : S) (as : List A) :
    Prop :=
  ∀ pre a post t t', as = pre ++ a :: post → runFrom step s pre = some t →
    step t a = some t' → C pre a

/-- An action with a guard has met it. -/
theorem of_guard {c : Prop} [Decidable c] {s t : S} (h : (if c then some s else none) = some t) :
    c ∧ s = t := by
  obtain ⟨hc, h⟩ := Option.ite_none_right_eq_some.1 h
  exact ⟨hc, Option.some.inj h⟩

variable {step : S → A → Option S} {P I : S → Prop} {C : S → A → Prop} {s : S}

theorem runFrom_append (as bs : List A) : ∀ s : S,
    runFrom step s (as ++ bs) = (runFrom step s as).bind fun t => runFrom step t bs := by
  induction as with
  | nil => exact fun s => rfl
  | cons a as ih =>
    intro s
    simp only [List.cons_append, runFrom, Option.bind_assoc, ih]

theorem throughout_nil : Throughout step P s [] ↔ P s := by
  constructor
  · intro h
    exact h [] [] s rfl rfl
  · intro h pre post t has hrun
    obtain ⟨rfl, -⟩ := List.nil_eq_append_iff.1 has
    obtain rfl : s = t := by simpa [runFrom] using hrun
    exact h

theorem throughout_cons {a : A} {as : List A} : Throughout step P s (a :: as) ↔
    P s ∧ ∀ s', step s a = some s' → Throughout step P s' as := by
  constructor
  · intro h
    refine ⟨h [] (a :: as) s rfl rfl, fun s' hs' pre post t has hrun => ?_⟩
    exact h (a :: pre) post t (by rw [has]; rfl) (by simpa [runFrom, hs'] using hrun)
  · rintro ⟨hs, h⟩ pre post t has hrun
    cases pre with
    | nil =>
      obtain rfl : s = t := by simpa [runFrom] using hrun
      exact hs
    | cons b pre =>
      obtain ⟨rfl, rfl⟩ := List.cons_eq_cons.1 has
      obtain ⟨s', hs', hrun⟩ := Option.bind_eq_some_iff.1 hrun
      exact h s' hs' pre post t rfl hrun

theorem along_nil : Along step C s [] := by
  intro pre a post t t' has
  simp at has

theorem along_cons {a : A} {as : List A} : Along step C s (a :: as) ↔
    ∀ s', step s a = some s' → C s a ∧ Along step C s' as := by
  constructor
  · intro h s' hs'
    refine ⟨h [] a as s s' rfl rfl hs', fun pre b post t t' has hrun ht => ?_⟩
    exact h (a :: pre) b post t t' (by rw [has]; rfl) (by simpa [runFrom, hs'] using hrun) ht
  · intro h pre b post t t' has hrun ht
    cases pre with
    | nil =>
      obtain ⟨rfl, rfl⟩ := List.cons_eq_cons.1 has
      obtain rfl : s = t := by simpa [runFrom] using hrun
      exact (h t' ht).1
    | cons c pre =>
      obtain ⟨rfl, rfl⟩ := List.cons_eq_cons.1 has
      obtain ⟨s', hs', hrun⟩ := Option.bind_eq_some_iff.1 hrun
      exact (h s' hs').2 pre b post t t' rfl hrun ht

/-- Induction over a run. -/
theorem throughout_of_step (hstep : ∀ s a s', P s → step s a = some s' → P s') :
    ∀ (as : List A) {s : S}, P s → Throughout step P s as
  | [], _, hs => throughout_nil.2 hs
  | a :: as, s, hs => throughout_cons.2
      ⟨hs, fun s' hs' => throughout_of_step hstep as (hstep s a s' hs hs')⟩

/-- Induction over a run whose steps meet a condition. -/
theorem throughout_of_along (hstep : ∀ s a s', P s → C s a → step s a = some s' → P s') :
    ∀ (as : List A) {s : S}, P s → Along step C s as → Throughout step P s as
  | [], _, hs, _ => throughout_nil.2 hs
  | a :: as, s, hs, hC => by
    refine throughout_cons.2 ⟨hs, fun s' hs' => ?_⟩
    obtain ⟨ha, has⟩ := along_cons.1 hC s' hs'
    exact throughout_of_along hstep as (hstep s a s' hs ha hs') has

/-- Induction over a run, with the actions so far. -/
theorem of_run {Q : List A → S → Prop} (hnil : Q [] s)
    (hstep : ∀ pre t a t', Q pre t → step t a = some t' → Q (pre ++ [a]) t') :
    ∀ (as : List A) {t : S}, runFrom step s as = some t → Q as t := by
  suffices h : ∀ (as pre : List A) (u : S), Q pre u → ∀ t, runFrom step u as = some t →
      Q (pre ++ as) t from fun as t => h as [] s hnil t
  intro as
  induction as with
  | nil =>
    intro pre u hu t ht
    obtain rfl : u = t := by simpa [runFrom] using ht
    rwa [List.append_nil]
  | cons a as ih =>
    intro pre u hu t ht
    obtain ⟨u', hu', ht⟩ := Option.bind_eq_some_iff.1 ht
    rw [List.append_cons]
    exact ih (pre ++ [a]) u' (hstep pre u a u' hu hu') t ht

/-- A run is no longer than what its steps take from a measure. -/
theorem length_add_le (μ : S → ℕ) (hμ : ∀ s a s', step s a = some s' → μ s' < μ s) (as : List A)
    {t : S} (h : runFrom step s as = some t) : as.length + μ t ≤ μ s := by
  refine of_run (Q := fun as t => as.length + μ t ≤ μ s) (by simp) (fun pre t a t' hle ht => ?_)
    as h
  have hlt := hμ t a t' ht
  rw [List.length_append, List.length_singleton]
  omega

/-- Some run leads from `s` to `t`. -/
def Leads (step : S → A → Option S) (s t : S) : Prop := ∃ as, runFrom step s as = some t

theorem Leads.refl (s : S) : Leads step s s := ⟨[], rfl⟩

theorem Leads.head {a : A} {s' t : S} (h : step s a = some s') (h' : Leads step s' t) :
    Leads step s t := by
  obtain ⟨as, has⟩ := h'
  exact ⟨a :: as, by rw [runFrom, h]; exact has⟩

theorem Leads.trans {t u : S} (h : Leads step s t) (h' : Leads step t u) : Leads step s u := by
  obtain ⟨as, has⟩ := h
  obtain ⟨bs, hbs⟩ := h'
  exact ⟨as ++ bs, by rw [runFrom_append, has]; exact hbs⟩

/-- Under an invariant, a property may be replaced by an equivalent one. -/
theorem throughout_congr {Q : S → Prop} (hI : ∀ s a s', I s → step s a = some s' → I s')
    (h : ∀ s, I s → (P s ↔ Q s)) {as : List A} (hs : I s) :
    Throughout step P s as ↔ Throughout step Q s as := by
  have hrun := throughout_of_step hI as hs
  constructor
  · intro hP pre post t has ht
    exact (h t (hrun pre post t has ht)).1 (hP pre post t has ht)
  · intro hQ pre post t has ht
    exact (h t (hrun pre post t has ht)).2 (hQ pre post t has ht)

/-- Under an invariant, a condition on the steps may be replaced by an equivalent one. -/
theorem along_congr_of_step {D : S → A → Prop} (hI : ∀ s a s', I s → step s a = some s' → I s')
    (h : ∀ s a, I s → (C s a ↔ D s a)) {as : List A} (hs : I s) :
    Along step C s as ↔ Along step D s as := by
  have hrun := throughout_of_step hI as hs
  constructor
  · intro hC pre a post t t' has ht ht'
    exact (h t a (hrun pre _ t has ht)).1 (hC pre a post t t' has ht ht')
  · intro hD pre a post t t' has ht ht'
    exact (h t a (hrun pre _ t has ht)).2 (hD pre a post t t' has ht ht')

/-- A condition on the steps may be replaced by an equivalent one. -/
theorem along_congr {D : S → A → Prop} (h : ∀ s a, C s a ↔ D s a) (as : List A) :
    Along step C s as ↔ Along step D s as :=
  along_congr_of_step (I := fun _ => True) (fun _ _ _ _ _ => trivial) (fun s a _ => h s a) trivial

/-- If, from a good state, a step leads to a good state exactly when it meets `C`, then
a run stays in good states exactly when all its steps meet `C`. The invariant `I` may be
used at every step. -/
theorem throughout_iff_along (hI : ∀ s a s', I s → step s a = some s' → I s')
    (hP : ∀ s a s', I s → P s → step s a = some s' → (P s' ↔ C s a)) :
    ∀ (as : List A) {s : S}, I s → P s → (Throughout step P s as ↔ Along step C s as)
  | [], _, _, hs => ⟨fun _ => along_nil, fun _ => throughout_nil.2 hs⟩
  | a :: as, s, hIs, hs => by
    rw [throughout_cons, along_cons]
    constructor
    · rintro ⟨-, h⟩ s' hs'
      have hs'P : P s' := by
        cases as with
        | nil => exact throughout_nil.1 (h s' hs')
        | cons b as => exact (throughout_cons.1 (h s' hs')).1
      refine ⟨(hP s a s' hIs hs hs').1 hs'P, ?_⟩
      exact (throughout_iff_along hI hP as (hI s a s' hIs hs') hs'P).1 (h s' hs')
    · intro h
      refine ⟨hs, fun s' hs' => ?_⟩
      obtain ⟨hC, halong⟩ := h s' hs'
      have hs'P : P s' := (hP s a s' hIs hs hs').2 hC
      exact (throughout_iff_along hI hP as (hI s a s' hIs hs') hs'P).2 halong

/-! ## Loops -/

/-- The loop with this body, entered in `s`, ends in `t`. -/
inductive Halts (body : S → Option S) : S → S → Prop
  | done {s : S} : body s = none → Halts body s s
  | next {s s' t : S} : body s = some s' → Halts body s' t → Halts body s t

variable {body : S → Option S}

theorem Halts.unique {s t u : S} (ht : Halts body s t) (hu : Halts body s u) : t = u := by
  induction ht with
  | done hs =>
    cases hu with
    | done _ => rfl
    | next hs' _ => rw [hs] at hs'; cases hs'
  | next hs _ ih =>
    cases hu with
    | done hs' => rw [hs] at hs'; cases hs'
    | next hs' hu' =>
      rw [hs] at hs'
      obtain rfl := Option.some.inj hs'
      exact ih hu'

/-- A loop whose body keeps an invariant and makes a measure smaller halts, under the
invariant and with its test false. -/
theorem exists_halts (μ : S → ℕ) (hI : ∀ s s', I s → body s = some s' → I s' ∧ μ s' < μ s) :
    ∀ (n : ℕ) {s : S}, μ s < n → I s → ∃ t, Halts body s t ∧ I t ∧ body t = none
  | 0, _, hn, _ => absurd hn (Nat.not_lt_zero _)
  | n + 1, s, hn, hs => by
    cases hbody : body s with
    | none => exact ⟨s, .done hbody, hs, hbody⟩
    | some s' =>
      obtain ⟨hs', hlt⟩ := hI s s' hs hbody
      obtain ⟨t, ht, hIt, hstop⟩ := exists_halts μ hI n (by omega) hs'
      exact ⟨t, .next hbody ht, hIt, hstop⟩

/-- A loop that keeps an invariant under which its test is true does not halt. -/
theorem not_halts_of_invariant (hI : ∀ s, I s → ∃ s', body s = some s' ∧ I s') {s t : S}
    (hs : I s) : ¬Halts body s t := by
  intro h
  induction h with
  | done hnone =>
    obtain ⟨s', hs', -⟩ := hI _ hs
    rw [hnone] at hs'
    cases hs'
  | next hsome _ ih =>
    obtain ⟨s', hs', hI'⟩ := hI _ hs
    rw [hsome] at hs'
    obtain rfl := Option.some.inj hs'
    exact ih hI'

end Traces
