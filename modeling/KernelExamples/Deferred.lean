import KernelExamples.Traces

/-!
# Deferred callbacks

A machine with a callback that is requested, starts later and finishes later still. A
request sets a mark, also if the mark is set already, and a start clears it (`Callback`).
The mark and the number of runs in progress can be read off the history
(`Callback.idle_iff`) : nothing is left exactly when every request was followed by a start,
and every start has its finish (`Drained`).

`Exit` is a machine that stops making requests, and from then on does not take care of the
callback. Nothing is left after it, and nothing starts, exactly when the history was drained
when it stopped (`Exit.gone_iff`).
-/

namespace Deferred

open Traces

/-! ## Histories of requests -/

inductive Event
  | request
  | start
  | finish
  deriving DecidableEq

/-- The mark after an event. -/
def mark : Bool → Event → Bool
  | _, .request => true
  | _, .start => false
  | b, .finish => b

/-- Every request is followed by a start. -/
def Answered (es : List Event) : Prop :=
  ∀ pre post, es = pre ++ .request :: post → .start ∈ post

/-- Every request is followed by a start, and every start has its finish. -/
structure Drained (es : List Event) : Prop where
  answered : Answered es
  finished : es.count .start = es.count .finish

theorem answered_nil : Answered [] := by
  intro pre post h
  simp at h

theorem answered_cons {e : Event} {es : List Event} :
    Answered (e :: es) ↔ (e = .request → .start ∈ es) ∧ Answered es := by
  constructor
  · intro h
    refine ⟨?_, fun pre post hes => h (e :: pre) post (by rw [hes]; rfl)⟩
    rintro rfl
    exact h [] es rfl
  · rintro ⟨he, hes⟩ pre post h
    cases pre with
    | nil =>
      obtain ⟨rfl, rfl⟩ := List.cons_eq_cons.1 h
      exact he rfl
    | cons e' pre =>
      obtain ⟨-, h⟩ := List.cons_eq_cons.1 h
      exact hes pre post h

/-- The mark is clear exactly when all requests, and the one before the history, were
followed by a start. -/
theorem foldl_mark_eq_false_iff : ∀ (es : List Event) (b : Bool),
    es.foldl mark b = false ↔ (b = true → .start ∈ es) ∧ Answered es
  | [], b => by simp [answered_nil]
  | .request :: es, b => by
    rw [List.foldl_cons, foldl_mark_eq_false_iff es, answered_cons]
    simp only [mark, true_imp_iff, List.mem_cons, reduceCtorEq, false_or]
    tauto
  | .start :: es, b => by
    rw [List.foldl_cons, foldl_mark_eq_false_iff es, answered_cons]
    simp [mark]
  | .finish :: es, b => by
    rw [List.foldl_cons, foldl_mark_eq_false_iff es, answered_cons]
    simp [mark]

/-! ## A callback of a machine -/

variable {S A : Type*} {step : S → A → Option S}

/-- What an event does to the mark and the number of runs in progress. -/
def Effect (b : Bool) (n : ℕ) : Option Event → Bool → ℕ → Prop
  | none, b', n' => b' = b ∧ n' = n
  | some .request, b', n' => b' = true ∧ n' = n
  | some .start, b', n' => b = true ∧ b' = false ∧ n' = n + 1
  | some .finish, b', n' => b' = b ∧ n' + 1 = n

/-- The event a step of the machine is for the callback, its mark, and its runs in
progress. -/
structure Callback (step : S → A → Option S) where
  event : A → Option Event
  pending : S → Bool
  running : S → ℕ
  effect : ∀ {s a s'}, step s a = some s' →
    Effect (pending s) (running s) (event a) (pending s') (running s')

namespace Callback

variable (c : Callback step)

/-- Neither pending nor running. -/
def Idle (s : S) : Prop := c.pending s = false ∧ c.running s = 0

/-- The events of a history. -/
def events (acts : List A) : List Event := acts.filterMap c.event

theorem step_eq {s s' : S} {a : A} (h : step s a = some s') :
    c.pending s' = (c.events [a]).foldl mark (c.pending s) ∧
      c.running s' + (c.events [a]).count .finish =
        c.running s + (c.events [a]).count .start := by
  have heffect := c.effect h
  unfold events
  match ha : c.event a, heffect with
  | none, ⟨hpending, hrunning⟩ => simp [ha, hpending, hrunning]
  | some .request, ⟨hpending, hrunning⟩ => simp [ha, mark, hpending, hrunning]
  | some .start, ⟨_, hpending, hrunning⟩ => simp [ha, mark, hpending, hrunning]
  | some .finish, ⟨hpending, hrunning⟩ => simp [ha, mark, hpending, hrunning]

/-- The mark and the runs in progress after a history. -/
theorem run_eq : ∀ {acts : List A} {s t : S}, runFrom step s acts = some t →
    c.pending t = (c.events acts).foldl mark (c.pending s) ∧
      c.running t + (c.events acts).count .finish = c.running s + (c.events acts).count .start
  | [], s, t, h => by
    obtain rfl : s = t := by simpa [runFrom] using h
    exact ⟨rfl, rfl⟩
  | a :: acts, s, t, h => by
    obtain ⟨s', hs', h⟩ := Option.bind_eq_some_iff.1 h
    obtain ⟨hpending, hrunning⟩ := c.step_eq hs'
    obtain ⟨ihpending, ihrunning⟩ := run_eq h
    have hsplit : c.events (a :: acts) = c.events [a] ++ c.events acts :=
      List.filterMap_append (l := [a])
    rw [hsplit, List.foldl_append, List.count_append, List.count_append, ihpending, hpending]
    exact ⟨rfl, by omega⟩

/-- From an idle state, the callback is idle exactly when the history is drained. -/
theorem idle_iff {acts : List A} {s t : S} (hs : c.Idle s) (h : runFrom step s acts = some t) :
    c.Idle t ↔ Drained (c.events acts) := by
  obtain ⟨hpending, hrunning⟩ := c.run_eq h
  rw [hs.1] at hpending
  rw [hs.2] at hrunning
  have hmark := foldl_mark_eq_false_iff (c.events acts) false
  rw [← hpending] at hmark
  constructor
  · rintro ⟨hp, hr⟩
    exact ⟨(hmark.1 hp).2, by omega⟩
  · rintro ⟨hanswered, hfinished⟩
    exact ⟨hmark.2 ⟨by simp, hanswered⟩, by omega⟩

end Callback

/-! ## A machine that stops -/

/-- The action that stops the machine. The invariant may be used to show that no request
comes later. -/
structure Exit (c : Callback step) where
  exited : S → Prop
  isExit : A → Prop
  inv : S → Prop
  inv_step : ∀ s a s', inv s → step s a = some s' → inv s'
  exited_iff : ∀ {s a s'}, step s a = some s' → (exited s' ↔ exited s ∨ isExit a)
  event_exit : ∀ {a}, isExit a → c.event a = none
  no_request : ∀ {s a s'}, inv s → exited s → step s a = some s' → c.event a ≠ some .request

namespace Exit

variable {c : Callback step} (e : Exit c)

/-- Once the machine has stopped, an idle callback stays so. -/
theorem idle_step {s s' : S} {a : A} (hI : e.inv s) (hexited : e.exited s) (hidle : c.Idle s)
    (h : step s a = some s') : c.Idle s' := by
  have heffect := c.effect h
  rw [hidle.1, hidle.2] at heffect
  match ha : c.event a, heffect with
  | none, ⟨hpending, hrunning⟩ => exact ⟨hpending, hrunning⟩
  | some .request, _ => exact absurd ha (e.no_request hI hexited h)

theorem idle_after_iff (s : S) (a : A) (s' : S) (hI : e.inv s) (hs : e.exited s → c.Idle s)
    (h : step s a = some s') : (e.exited s' → c.Idle s') ↔ (e.isExit a → c.Idle s) := by
  have hexited := e.exited_iff h
  by_cases ha : e.isExit a
  · have heffect := c.effect h
    rw [e.event_exit ha] at heffect
    have hidle : c.Idle s' ↔ c.Idle s := by
      rw [Callback.Idle, Callback.Idle, heffect.1, heffect.2]
    simp [hexited, ha, hidle]
  · refine iff_of_true (fun hs' => ?_) fun hexit => absurd hexit ha
    have hbefore : e.exited s := (hexited.1 hs').resolve_right ha
    exact e.idle_step hI hbefore (hs hbefore) h

/-- The callback is idle in every state after the machine has stopped exactly when the
history was drained when it stopped. -/
theorem gone_iff {s : S} (acts : List A) (hI : e.inv s) (hexited : ¬e.exited s)
    (hidle : c.Idle s) : Throughout step (fun t => e.exited t → c.Idle t) s acts ↔
      AlongHistory step (fun pre a => e.isExit a → Drained (c.events pre)) s acts := by
  rw [throughout_iff_along e.inv_step e.idle_after_iff acts hI (fun h => absurd h hexited)]
  constructor
  · intro h pre a post t t' hacts ht ht' ha
    exact (c.idle_iff hidle ht).1 (h pre a post t t' hacts ht ht' ha)
  · intro h pre a post t t' hacts ht ht' ha
    exact (c.idle_iff hidle ht).2 (h pre a post t t' hacts ht ht' ha)

end Exit

end Deferred
