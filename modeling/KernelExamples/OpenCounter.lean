import KernelExamples.Threads

/-!
# Counting opens without a lock

`mycdrv_open` of `char_dev/mydynamic.c` and `my_open` of `char_dev/mydynamic_udev.c` add one to a
static `counter` and print it. No lock is held, so the addition is a load and a store, and the
`printk` another load. A step is one of these by one process, in any order.

`opens` is the number of additions so far, and a process that is between its load and its store
has the number `before` of those before its load. The counter and all that is printed are right, up
to the width of an `int`, exactly when no store comes between another process's load and store,
or a multiple of `2 ^ 32` of them do (`counter_exact_iff`).
-/

namespace KernelExamples.OpenCounter

open Traces Threads

/-! ## The source -/

/-- `counter`, the number of additions to it, and the numbers printed, each with the number of
additions before it. -/
structure Shared where
  counter : Int32
  opens : ℕ
  printed : List (Int32 × ℕ)

/-- A process outside `open`, between the load and the store of `counter++`, and before its
`printk`. -/
inductive Process
  | outside
  | loaded (value : Int32) (before : ℕ)
  | stored
  deriving DecidableEq

inductive Act
  | load
  | store
  | print
  deriving DecidableEq

variable {T : Type*}

/-- One step of `mycdrv_open` or `my_open`. -/
def prog (_ : T) : Act → Shared → Process → Option (Shared × Process)
  | .load, g, .outside => some (g, .loaded g.counter g.opens)
  | .store, g, .loaded value _ =>
    some ({ g with counter := value + 1, opens := g.opens + 1 }, .stored)
  | .print, g, .stored =>
    some ({ g with printed := g.printed ++ [(g.counter, g.opens)] }, .outside)
  | _, _, _ => none

/-- The module as loaded. -/
def initial : Threads.State T Shared Process := ⟨⟨0, 0, []⟩, fun _ => .outside⟩

/-! ## Exactness -/

/-- The counter, and all that was printed, is the number of opens at the time, as an `int`. -/
def Exact (s : Threads.State T Shared Process) : Prop :=
  s.shared.counter = Int32.ofNat s.shared.opens ∧
    ∀ p ∈ s.shared.printed, p.1 = Int32.ofNat p.2

/-- A process stores with no open since its load, or a multiple of `2 ^ 32` of them. -/
def Undisturbed (s : Threads.State T Shared Process) (a : T × Act) : Prop :=
  ∀ value before, a.2 = .store → s.locals a.1 = .loaded value before →
    before % 2 ^ 32 = s.shared.opens % 2 ^ 32

/-- What was loaded is the number of opens at the time. -/
def LoadedExact (s : Threads.State T Shared Process) : Prop :=
  ∀ t value before, s.locals t = .loaded value before → value = Int32.ofNat before

theorem ofNat_eq_iff (m n : ℕ) : Int32.ofNat m = Int32.ofNat n ↔ m % 2 ^ 32 = n % 2 ^ 32 := by
  rw [← Int32.toBitVec_inj]
  simp [← BitVec.toNat_inj]

/-- What a step does, and when it can be made. -/
inductive Step (g : Shared) : Act → Process → Shared → Process → Prop
  | load : Step g .load .outside g (.loaded g.counter g.opens)
  | store {value : Int32} {before : ℕ} : Step g .store (.loaded value before)
      { g with counter := value + 1, opens := g.opens + 1 } .stored
  | print : Step g .print .stored
      { g with printed := g.printed ++ [(g.counter, g.opens)] } .outside

theorem step_of_prog {t : T} {a : Act} {g g' : Shared} {p p' : Process}
    (h : prog t a g p = some (g', p')) : Step g a p g' p' := by
  cases a <;> cases p <;> simp only [prog, reduceCtorEq] at h <;> cases h
  · exact .load
  · exact .store
  · exact .print

variable [DecidableEq T]

/-- What is loaded from an exact counter is exact. -/
theorem loadedExact_step (s : Threads.State T Shared Process) (a : T × Act)
    (s' : Threads.State T Shared Process) (hs : LoadedExact s) (hexact : Exact s)
    (h : step prog s a = some s') : LoadedExact s' := by
  obtain ⟨t, a⟩ := a
  obtain ⟨hprog, hsame⟩ := step_cases h
  intro u value before hu
  by_cases hut : u = t
  · subst hut
    have hstep := step_of_prog hprog
    rw [hu] at hstep
    generalize s'.shared = g', s.locals u = p at hstep
    cases hstep
    exact hexact.1
  · rw [hsame u hut] at hu
    exact hs u value before hu

/-- A store keeps the counter exact exactly if it is undisturbed. -/
theorem exact_step (s : Threads.State T Shared Process) (a : T × Act)
    (s' : Threads.State T Shared Process) (hs : LoadedExact s) (hexact : Exact s)
    (h : step prog s a = some s') : Exact s' ↔ Undisturbed s a := by
  obtain ⟨t, a⟩ := a
  have hstep := step_of_prog (step_cases h).1
  unfold Exact Undisturbed
  generalize hp : s.locals t = p at hstep
  generalize s'.shared = g', s'.locals t = p' at hstep
  dsimp only
  cases hstep with
  | load => exact iff_of_true hexact (by simp)
  | @store value before =>
    have hstore : value + 1 = Int32.ofNat (s.shared.opens + 1) ↔
        before % 2 ^ 32 = s.shared.opens % 2 ^ 32 := by
      rw [← ofNat_eq_iff, hs t value before hp, Int32.ofNat_add]
      exact Int32.add_left_inj 1
    rw [and_iff_left hexact.2, hstore]
    constructor
    · intro heq value' before' _ hloaded
      cases hloaded
      exact heq
    · intro hall
      exact hall value before rfl rfl
  | print =>
    refine iff_of_true ⟨hexact.1, fun p hp => ?_⟩ (by simp)
    rcases List.mem_append.1 hp with hp | hp
    · exact hexact.2 p hp
    · rw [List.mem_singleton.1 hp]
      exact hexact.1

omit [DecidableEq T] in
theorem loadedExact_initial : LoadedExact (initial (T := T)) := by
  intro t value before ht
  cases ht

/-- In a run that is exact, so is what was loaded. -/
theorem throughout_loadedExact (acts : List (T × Act))
    (h : Throughout (step prog) Exact (initial (T := T)) acts) :
    Throughout (step prog) LoadedExact (initial (T := T)) acts := by
  refine throughout_of_along (C := fun s _ => Exact s) loadedExact_step acts
    loadedExact_initial fun pre a post s s' hacts hs _ => ?_
  exact h pre (a :: post) s hacts hs

/-- In every interleaving of opens, the counter and what is printed are the number of opens at the
time exactly when every store is undisturbed. -/
theorem counter_exact_iff (acts : List (T × Act)) :
    Throughout (step prog) Exact (initial (T := T)) acts ↔
      Along (step prog) Undisturbed (initial (T := T)) acts := by
  have hboth : Throughout (step prog) (fun s => LoadedExact s ∧ Exact s) (initial (T := T)) acts ↔
      Along (step prog) Undisturbed (initial (T := T)) acts := by
    have hinitial : Exact (initial (T := T)) := ⟨rfl, by simp [initial]⟩
    refine throughout_iff_along (I := fun _ => True) (fun _ _ _ _ _ => trivial)
      (fun s a s' _ hs h => ?_) acts trivial ⟨loadedExact_initial, hinitial⟩
    refine ⟨fun hs' => (exact_step s a s' hs.1 hs.2 h).1 hs'.2, fun ha => ?_⟩
    exact ⟨loadedExact_step s a s' hs.1 hs.2 h, (exact_step s a s' hs.1 hs.2 h).2 ha⟩
  rw [← hboth]
  constructor
  · intro h pre post s hacts hs
    exact ⟨throughout_loadedExact acts h pre post s hacts hs, h pre post s hacts hs⟩
  · intro h pre post s hacts hs
    exact (h pre post s hacts hs).2

end KernelExamples.OpenCounter
