import Mathlib.Data.Nat.Notation
import Mathlib.Tactic.Common

/-!
# Waveforms

A signal that is constant for some time, then at another level for some time, and so on : a
list of levels with their durations. `push` puts a piece in front and joins it with a first
piece of the same level, and `merge` joins all neighbours of one level.

A piece is joined with nothing if what follows is at another level (`push_of_away`), and a
sequence of pieces is merged by pushing its first part on the rest (`merge_append`).
-/

namespace Waveform

variable {L : Type*}

/-- The waveform is empty or starts at another level. -/
def Away (l : L) (w : List (L × ℕ)) : Prop := ∀ p ∈ w.head?, l ≠ p.1

theorem away_nil (l : L) : Away l [] := by simp [Away]

theorem away_cons {l : L} {p : L × ℕ} {w : List (L × ℕ)} : Away l (p :: w) ↔ l ≠ p.1 := by
  simp [Away]

variable [DecidableEq L]

/-- Put a piece in front. -/
def push (p : L × ℕ) : List (L × ℕ) → List (L × ℕ)
  | [] => [p]
  | q :: w => if p.1 = q.1 then (p.1, p.2 + q.2) :: w else p :: q :: w

/-- Join the neighbours of one level. -/
def merge (w : List (L × ℕ)) : List (L × ℕ) := w.foldr push []

theorem push_of_away {l : L} (n : ℕ) : ∀ {w : List (L × ℕ)}, Away l w →
    push (l, n) w = (l, n) :: w
  | [], _ => rfl
  | _ :: _, h => if_neg (away_cons.1 h)

@[simp]
theorem push_same (l : L) (m n : ℕ) (w : List (L × ℕ)) :
    push (l, m) ((l, n) :: w) = (l, m + n) :: w := if_pos rfl

theorem merge_append (w w' : List (L × ℕ)) : merge (w ++ w') = w.foldr push (merge w') :=
  List.foldr_append

end Waveform
