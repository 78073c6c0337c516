import KernelExamples.Kernel
import KernelExamples.Traces

/-!
# Two modules and a semaphore

`synchronization/sema_mod1.c` and `sema_mod2.c`. `sema_mod1` initialises `my_sem` with one
unit and takes it, and gives it back when it is unloaded. `sema_mod2` takes it when it is
loaded. `my_open` of the device of `sema_mod1` tries to take it, and then calls `up`
whether it got it or not.

A state holds the count, where each module is, and how many `my_open` calls are past
their `down_trylock` : `holding` of them got the unit, `failing` did not. The only party
that waits is `my_init` of `sema_mod2`.

`total` is the count plus the parties that hold the unit. Every step keeps it except the
`up` of a failed `my_open`, which adds one, so the total stays `1` along a run exactly
when no failed `my_open` calls `up` (`sema_conserved_iff`).
-/

namespace KernelExamples.Sema

open Traces

/-- `sema_mod1` : loaded, with `MYDEV` registered or not, in `my_exit` between
`unregister_chrdev` and `up`, or gone. -/
inductive Mod1
  | loaded (chrdev : Bool)
  | exiting
  | gone
  deriving DecidableEq

/-- `sema_mod2` : not loaded, in `down_interruptible` of its `my_init`, or loaded. -/
inductive Mod2
  | absent
  | waiting
  | loaded
  deriving DecidableEq

structure State where
  count : ℕ
  holding : ℕ
  failing : ℕ
  mod1 : Mod1
  mod2 : Mod2
  deriving DecidableEq

/-! ## The semaphore -/

/-- `up(&my_sem)` : the unit goes to the waiter, or back to the count, an `unsigned int`. -/
def up (s : State) : State :=
  if s.mod2 = .waiting then { s with mod2 := .loaded }
  else { s with count := (s.count + 1) % 2 ^ 32 }

/-! ## `sema_mod1` -/

/-- `my_init` of `sema_mod1` : `sema_init` to `1`, then `down_interruptible`, which has a
unit to take. The result of `register_chrdev` is not looked at. -/
def myInit (chrdev : Bool) : State :=
  { count := 1 - 1, holding := 0, failing := 0, mod1 := .loaded chrdev, mod2 := .absent }

/-- `my_open` up to its `down_trylock`, which returns nonzero if there is no unit. -/
def myOpen (s : State) : State :=
  if s.count = 0 then { s with failing := s.failing + 1 }
  else { s with count := s.count - 1, holding := s.holding + 1 }

/-- The `up` of a `my_open` that got the unit. -/
def openUp (s : State) : State := up { s with holding := s.holding - 1 }

/-- The `up` of a `my_open` whose `down_trylock` failed. -/
def openErrorUp (s : State) : State := up { s with failing := s.failing - 1 }

/-- The `up` of `my_exit` of `sema_mod1`. -/
def myExit (s : State) : State := up { s with mod1 := .gone }

/-! ## `sema_mod2` -/

/-- `my_init` of `sema_mod2` : take the unit, or wait for it. -/
def mod2Init (s : State) : State :=
  if s.count = 0 then { s with mod2 := .waiting }
  else { s with count := s.count - 1, mod2 := .loaded }

/-- `my_exit` of `sema_mod2`. -/
def mod2Exit (s : State) : State := up { s with mod2 := .absent }

/-! ## Interleavings -/

inductive Act
  | myOpen
  | openUp
  | openErrorUp
  | mod2Init
  /-- The wait of `my_init` of `sema_mod2` is interrupted : it returns `-EBUSY`. -/
  | mod2Interrupted
  | mod2Exit
  | unregisterChrdev
  | myExit
  deriving DecidableEq

/-- One step of one party. `MYDEV` can be opened while it is registered, and `sema_mod2`
can be loaded while `sema_mod1` provides `my_sem`. -/
def step (s : State) : Act → Option State
  | .myOpen => if s.mod1 = .loaded true then some (myOpen s) else none
  | .openUp => if 0 < s.holding then some (openUp s) else none
  | .openErrorUp => if 0 < s.failing then some (openErrorUp s) else none
  | .mod2Init => if s.mod2 = .absent ∧ s.mod1 ≠ .gone then some (mod2Init s) else none
  | .mod2Interrupted => if s.mod2 = .waiting then some { s with mod2 := .absent } else none
  | .mod2Exit => if s.mod2 = .loaded then some (mod2Exit s) else none
  | .unregisterChrdev =>
    match s.mod1 with
    | .loaded _ => some { s with mod1 := .exiting }
    | _ => none
  | .myExit => if s.mod1 = .exiting then some (myExit s) else none

/-! ## Conservation -/

/-- `sema_mod1` has taken the unit and not given it back. -/
def Mod1.holds (m : Mod1) : Prop := m ≠ .gone

instance : DecidablePred Mod1.holds := fun _ => inferInstanceAs (Decidable (_ ≠ _))

/-- The parties that hold the semaphore. -/
def holders (s : State) : ℕ :=
  (if s.mod1.holds then 1 else 0) + (if s.mod2 = .loaded then 1 else 0) + s.holding

def total (s : State) : ℕ := s.count + holders s

/-- One unit in all, and `sema_mod2` is not loaded while `sema_mod1` holds it. -/
def Conserved (s : State) : Prop := total s = 1 ∧ ¬(s.mod2 = .loaded ∧ s.mod1.holds)

/-- The step is not the `up` of a `my_open` whose `down_trylock` failed. -/
def NoErrorUp (_ : State) (a : Act) : Prop := a ≠ .openErrorUp

theorem conserved_iff {s : State} : Conserved s ↔ total s = 1 := by
  refine ⟨And.left, fun h => ⟨h, ?_⟩⟩
  rintro ⟨hmod2, hmod1⟩
  simp only [total, holders, hmod2, hmod1, if_true] at h
  omega

/-- `up` adds one unit, wherever it goes. -/
theorem total_up {s : State} (h : s.count + 1 < 2 ^ 32) : total (up s) = total s + 1 := by
  unfold up
  split_ifs with hmod2
  · simp only [total, holders, hmod2, reduceCtorEq, if_true, if_false]
    omega
  · simp only [total, holders, Nat.mod_eq_of_lt h]
    omega

theorem total_myOpen (s : State) : total (myOpen s) = total s := by
  unfold myOpen
  split_ifs with h
  · rfl
  · simp only [total, holders]
    omega

theorem total_mod2Init {s : State} (h : s.mod2 = .absent) : total (mod2Init s) = total s := by
  unfold mod2Init
  split_ifs with hcount <;> simp only [total, holders, h, reduceCtorEq, if_true, if_false]
  omega

section Up

variable {s : State} (hs : total s = 1)

include hs

theorem count_lt : s.count + 1 < 2 ^ 32 := by
  unfold total at hs
  omega

theorem total_openUp (h : 0 < s.holding) : total (openUp s) = 1 := by
  have hup := total_up (s := { s with holding := s.holding - 1 }) (count_lt (s := s) hs)
  rw [openUp, hup]
  simp only [total, holders] at hs ⊢
  omega

theorem total_openErrorUp : total (openErrorUp s) = 2 := by
  have hup := total_up (s := { s with failing := s.failing - 1 }) (count_lt (s := s) hs)
  rw [openErrorUp, hup]
  exact congrArg (· + 1) hs

theorem total_mod2Exit (h : s.mod2 = .loaded) : total (mod2Exit s) = 1 := by
  have hup := total_up (s := { s with mod2 := .absent }) (count_lt (s := s) hs)
  rw [mod2Exit, hup]
  simp only [total, holders, h, reduceCtorEq, if_true, if_false] at hs ⊢
  omega

theorem total_myExit (h : s.mod1 = .exiting) : total (myExit s) = 1 := by
  have hup := total_up (s := { s with mod1 := .gone }) (count_lt (s := s) hs)
  rw [myExit, hup]
  simp only [total, holders, Mod1.holds, h, ne_eq, reduceCtorEq, not_true_eq_false,
    not_false_eq_true, if_true, if_false] at hs ⊢
  omega

end Up

/-- Every step but the `up` of a failed `my_open` keeps the total. -/
theorem total_step {s s' : State} {a : Act} (hs : total s = 1) (h : step s a = some s') :
    total s' = if a = .openErrorUp then 2 else 1 := by
  cases a with
  | myOpen =>
    obtain ⟨-, rfl⟩ := of_guard h
    exact (total_myOpen s).trans hs
  | openUp =>
    obtain ⟨hpos, rfl⟩ := of_guard h
    exact total_openUp hs hpos
  | openErrorUp =>
    obtain ⟨-, rfl⟩ := of_guard h
    exact total_openErrorUp hs
  | mod2Init =>
    obtain ⟨⟨hmod2, -⟩, rfl⟩ := of_guard h
    exact (total_mod2Init hmod2).trans hs
  | mod2Interrupted =>
    obtain ⟨hmod2, rfl⟩ := of_guard h
    simpa [total, holders, hmod2] using hs
  | mod2Exit =>
    obtain ⟨hmod2, rfl⟩ := of_guard h
    exact total_mod2Exit hs hmod2
  | unregisterChrdev =>
    cases hmod1 : s.mod1 with
    | loaded chrdev =>
      simp only [step, hmod1, Option.some.injEq] at h
      subst h
      simpa [total, holders, Mod1.holds, hmod1] using hs
    | exiting => simp [step, hmod1] at h
    | gone => simp [step, hmod1] at h
  | myExit =>
    obtain ⟨hmod1, rfl⟩ := of_guard h
    exact total_myExit hs hmod1

theorem conserved_myInit (chrdev : Bool) : Conserved (myInit chrdev) := by
  rw [conserved_iff]
  simp [total, holders, myInit, Mod1.holds]

/-- From `my_init` of `sema_mod1`, in every interleaving, the semaphore is conserved in
every state exactly when no `my_open` whose `down_trylock` failed calls `up`. -/
theorem sema_conserved_iff (chrdev : Bool) (acts : List Act) :
    Throughout step Conserved (myInit chrdev) acts ↔
      Along step NoErrorUp (myInit chrdev) acts := by
  refine throughout_iff_along (I := fun _ => True) (fun _ _ _ _ _ => trivial) ?_ acts trivial
    (conserved_myInit chrdev)
  intro s a s' _ hs h
  rw [conserved_iff, total_step (conserved_iff.1 hs) h, NoErrorUp]
  split_ifs with ha <;> simp [ha]

/-- `sema_mod2` waits for the unit, and one open of the device hands it over. -/
theorem sema_not_conserved :
    ¬Throughout step Conserved (myInit true) [.mod2Init, .myOpen, .openErrorUp] := by
  intro h
  have hrun : runFrom step (myInit true) [.mod2Init, .myOpen, .openErrorUp] =
      some ⟨0, 0, 0, .loaded true, .loaded⟩ := by decide
  have hlast := h _ [] _ (by simp) hrun
  exact hlast.2 ⟨rfl, by decide⟩

end KernelExamples.Sema
