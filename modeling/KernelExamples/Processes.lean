import Mathlib.Data.Int.Notation
import Mathlib.Logic.Function.Basic
import Mathlib.Tactic.Common

/-!
# The process table

The tasks that are alive, by their pid in the initial pid namespace. A pid may be given
out again after the task that had it has exited, so a task has an identity (`Task.id`)
that no other task ever has. A pointer to a task that was kept over its exit is a `Task`
that is not `Alive`, also when its pid is in use again (`not_alive_change`).
-/

namespace KernelExamples

/-- A task : its identity, its pid, and the pid namespace it is active in. -/
structure Task where
  id : ℕ
  pid : Int32
  ns : ℕ
  deriving DecidableEq

/-- The live tasks by pid, and the next identity. -/
structure Processes where
  live : Int32 → Option Task
  next : ℕ
  pid_eq : ∀ {p t}, live p = some t → t.pid = p
  pos : ∀ {p t}, live p = some t → 0 < p
  id_lt : ∀ {p t}, live p = some t → t.id < next

namespace Processes

/-- `pid_task(find_pid_ns(p, &init_pid_ns), PIDTYPE_PID)`. -/
def pidTask (ps : Processes) (p : Int32) : Option Task := ps.live p

/-- The task has not exited. -/
def Alive (ps : Processes) (t : Task) : Prop := ps.live t.pid = some t

instance (ps : Processes) (t : Task) : Decidable (ps.Alive t) :=
  inferInstanceAs (Decidable (_ = _))

/-- No task. -/
def empty : Processes := ⟨fun _ => none, 0, by simp, by simp, by simp⟩

/-- A new task with the pid `p`. -/
def fork (ps : Processes) (p : Int32) (ns : ℕ) (hp : 0 < p) : Processes where
  live := Function.update ps.live p (some ⟨ps.next, p, ns⟩)
  next := ps.next + 1
  pid_eq {q t} h := by
    rcases eq_or_ne q p with rfl | hne
    · rw [Function.update_self, Option.some.injEq] at h
      rw [← h]
    · rw [Function.update_of_ne hne] at h
      exact ps.pid_eq h
  pos {q t} h := by
    rcases eq_or_ne q p with rfl | hne
    · exact hp
    · rw [Function.update_of_ne hne] at h
      exact ps.pos h
  id_lt {q t} h := by
    rcases eq_or_ne q p with rfl | hne
    · rw [Function.update_self, Option.some.injEq] at h
      rw [← h]
      exact Nat.lt_succ_self _
    · rw [Function.update_of_ne hne] at h
      exact Nat.lt_succ_of_lt (ps.id_lt h)

theorem live_of_update {live : Int32 → Option Task} {p q : Int32} {t : Task}
    (h : Function.update live p none q = some t) : live q = some t := by
  rcases eq_or_ne q p with rfl | hne
  · rw [Function.update_self] at h
    cases h
  · rwa [Function.update_of_ne hne] at h

/-- The task with this pid exits. -/
def exit (ps : Processes) (p : Int32) : Processes where
  live := Function.update ps.live p none
  next := ps.next
  pid_eq h := ps.pid_eq (live_of_update h)
  pos h := ps.pos (live_of_update h)
  id_lt h := ps.id_lt (live_of_update h)

/-- What happens to the table : a new task, or the exit of one. -/
inductive Change
  | fork (p : Int32) (ns : ℕ)
  | exit (p : Int32)

/-- A new task takes a pid that is free. -/
def change (ps : Processes) : Change → Option Processes
  | .fork p ns => if hp : 0 < p then if ps.live p = none then some (ps.fork p ns hp) else none
      else none
  | .exit p => if ps.live p = none then none else some (ps.exit p)

variable {ps ps' : Processes} {p : Int32} {t : Task} {c : Change}

theorem change_cases (h : ps.change c = some ps') :
    (∃ p ns, ∃ hp : 0 < p, c = .fork p ns ∧ ps' = ps.fork p ns hp) ∨
      ∃ p, c = .exit p ∧ ps.live p ≠ none ∧ ps' = ps.exit p := by
  cases c with
  | fork p ns =>
    obtain ⟨hp, h⟩ := Option.dite_none_right_eq_some.1 h
    obtain ⟨-, h⟩ := Option.ite_none_right_eq_some.1 h
    exact Or.inl ⟨p, ns, hp, rfl, (Option.some.inj h).symm⟩
  | exit p =>
    obtain ⟨hp, h⟩ := Option.ite_none_left_eq_some.1 h
    exact Or.inr ⟨p, rfl, hp, (Option.some.inj h).symm⟩

theorem alive_exit_iff : (ps.exit p).Alive t ↔ t.pid ≠ p ∧ ps.Alive t := by
  simp only [Alive, exit, Function.update_apply]
  split_ifs with h <;> simp [h]

theorem not_alive_fork {ns : ℕ} (hp : 0 < p) (hid : t.id < ps.next) (h : ¬ps.Alive t) :
    ¬(ps.fork p ns hp).Alive t := by
  intro hfork
  simp only [Alive, fork, Function.update_apply] at hfork
  split_ifs at hfork
  · rw [Option.some.injEq] at hfork
    rw [← hfork] at hid
    exact Nat.lt_irrefl _ hid
  · exact h hfork

/-- An exited task stays exited, also when its pid is given out again. -/
theorem not_alive_change (hid : t.id < ps.next) (h : ¬ps.Alive t)
    (hc : ps.change c = some ps') : t.id < ps'.next ∧ ¬ps'.Alive t := by
  obtain ⟨p, ns, hp, -, rfl⟩ | ⟨p, -, -, rfl⟩ := change_cases hc
  · exact ⟨Nat.lt_succ_of_lt hid, not_alive_fork hp hid h⟩
  · exact ⟨hid, fun halive => h (alive_exit_iff.1 halive).2⟩

end Processes

end KernelExamples
