import KernelExamples.Lifecycle

/-!
# The resources of the dynamic character drivers

`my_init` and `my_exit` of `char_dev/mydynamic.c` and `char_dev/mydynamic_udev.c`, with what
they take from the kernel. Neither tests the result of `kmalloc`, so both may be loaded without
a buffer. When `cdev_add` fails, `mydynamic` gives everything back, and `mydynamic_udev`
only the region (`char_balance_iff`).
-/

namespace KernelExamples.CharDevLife

open Traces Lifecycle

/-- The number region, the memory of the cdev, the buffer, the entry of the cdev in the kernel's
map, and the class with its devices. -/
inductive Res
  | region
  | cdev
  | kbuf
  | added
  | devices
  deriving DecidableEq

/-- The results of the calls of `my_init`. -/
structure Outcome where
  allocChrdevRegion : Bool
  cdevAlloc : Bool
  kmalloc : Bool
  cdevAdd : Bool
  deriving DecidableEq

/-- `kbuf = kmalloc(..)`, `NULL` if it fails. -/
def acquireKbuf (o : Outcome) : List (Event Res) := if o.kmalloc then [.acquire .kbuf] else []

/-- `kfree(kbuf)`, of a `NULL` as well. -/
def releaseKbuf (o : Outcome) : List (Event Res) := if o.kmalloc then [.release .kbuf] else []

/-- `cdev_del` of a cdev that was added. -/
def cdevDel : List (Event Res) := [.release .added, .release .cdev]

/-- `my_init` of `mydynamic`. -/
def myInit (o : Outcome) : Bool × List (Event Res) :=
  if ¬o.allocChrdevRegion then (false, [])
  else if ¬o.cdevAlloc then (false, [.acquire .region, .release .region])
  else if ¬o.cdevAdd then
    (false, [.acquire .region, .acquire .cdev, .use .cdev] ++ acquireKbuf o ++
      [.release .cdev, .release .region] ++ releaseKbuf o)
  else
    (true, [.acquire .region, .acquire .cdev, .use .cdev] ++ acquireKbuf o ++ [.acquire .added])

/-- `my_exit` of `mydynamic`. A module that is loaded has a cdev. -/
def myExit (o : Outcome) : List (Event Res) := cdevDel ++ [.release .region] ++ releaseKbuf o

/-- `my_init` of `mydynamic_udev`. -/
def udevInit (o : Outcome) : Bool × List (Event Res) :=
  if ¬o.allocChrdevRegion then (false, [])
  else if ¬o.cdevAlloc then (false, [.acquire .region, .release .region])
  else if ¬o.cdevAdd then
    -- neither the buffer nor the cdev is given back
    (false, [.acquire .region, .acquire .cdev, .use .cdev] ++ acquireKbuf o ++ [.release .region])
  else
    (true, [.acquire .region, .acquire .cdev, .use .cdev] ++ acquireKbuf o ++
      [.acquire .added, .acquire .devices])

/-- `my_exit` of `mydynamic_udev`. -/
def udevExit (o : Outcome) : List (Event Res) :=
  .release .devices :: cdevDel ++ [.release .region] ++ releaseKbuf o

def mydynamic : Module Outcome Res := ⟨myInit, myExit⟩

def mydynamicUdev : Module Outcome Res := ⟨udevInit, udevExit⟩

/-- The number region, the buffer and the added cdev. -/
def Tracked (r : Res) : Prop := r = .region ∨ r = .kbuf ∨ r = .added

/-- One of each. -/
def owns (_ : Outcome) (_ : Res) : ℕ := 1

/-- A load has a buffer, unless another call fails, and so has a module that is unloaded. -/
def HasBuffer (s : State Outcome Res) : Act Outcome → Prop
  | .load o => o.allocChrdevRegion = true → o.cdevAlloc = true → o.cdevAdd = true →
      o.kmalloc = true
  | .unload => ∀ o, s.loaded = some o → o.kmalloc = true

/-- Once there is a cdev, `kmalloc` and `cdev_add` both succeed or both fail, and a module that
is unloaded has a buffer. -/
def BothOrNone (s : State Outcome Res) : Act Outcome → Prop
  | .load o => o.allocChrdevRegion = true → o.cdevAlloc = true → o.kmalloc = o.cdevAdd
  | .unload => ∀ o, s.loaded = some o → o.kmalloc = true

theorem forall_tracked {P : Res → Prop} :
    (∀ r, Tracked r → P r) ↔ P .region ∧ P .kbuf ∧ P .added := by
  simp [Tracked]

theorem loadBalanced_mydynamic (o : Outcome) : LoadBalanced mydynamic Tracked owns o ↔
    (o.allocChrdevRegion = true → o.cdevAlloc = true → o.cdevAdd = true → o.kmalloc = true) := by
  rw [LoadBalanced, forall_tracked]
  obtain ⟨_ | _, _ | _, _ | _, _ | _⟩ := o <;> decide

theorem loadBalanced_udev (o : Outcome) : LoadBalanced mydynamicUdev Tracked owns o ↔
    (o.allocChrdevRegion = true → o.cdevAlloc = true → o.kmalloc = o.cdevAdd) := by
  rw [LoadBalanced, forall_tracked]
  obtain ⟨_ | _, _ | _, _ | _, _ | _⟩ := o <;> decide

theorem unloadBalanced_mydynamic (o : Outcome) :
    UnloadBalanced mydynamic Tracked owns o ↔ o.kmalloc = true := by
  rw [UnloadBalanced, forall_tracked]
  obtain ⟨_ | _, _ | _, _ | _, _ | _⟩ := o <;> decide

theorem unloadBalanced_udev (o : Outcome) :
    UnloadBalanced mydynamicUdev Tracked owns o ↔ o.kmalloc = true := by
  rw [UnloadBalanced, forall_tracked]
  obtain ⟨_ | _, _ | _, _ | _, _ | _⟩ := o <;> decide

/-- In every run of loads and unloads, a driver that is loaded has its region, its buffer and
its cdev, and else it has none of them, and gives none back that it does not hold. That is so
of `mydynamic` exactly when it never comes through a load without a buffer, and of
`mydynamic_udev` exactly when, besides, no load fails that has a buffer. -/
theorem char_balance_iff (acts : List (Act Outcome)) :
    (Throughout (step mydynamic) (Balanced Tracked owns) initial acts ↔
        Along (step mydynamic) HasBuffer initial acts) ∧
      (Throughout (step mydynamicUdev) (Balanced Tracked owns) initial acts ↔
        Along (step mydynamicUdev) BothOrNone initial acts) := by
  refine ⟨balanced_iff (fun s a _ => ?_) acts, balanced_iff (fun s a _ => ?_) acts⟩
  · cases a with
    | load o => exact loadBalanced_mydynamic o
    | unload => exact forall_congr' fun o => forall_congr' fun _ => unloadBalanced_mydynamic o
  · cases a with
    | load o => exact loadBalanced_udev o
    | unload => exact forall_congr' fun o => forall_congr' fun _ => unloadBalanced_udev o

/-- Without memory for the buffer both drivers are loaded all the same, and when `cdev_add`
fails `mydynamic_udev` keeps the buffer. -/
theorem not_char_balance_no_memory :
    ¬Throughout (step mydynamic) (Balanced Tracked owns) initial
        [.load ⟨true, true, false, true⟩] ∧
      ¬Throughout (step mydynamicUdev) (Balanced Tracked owns) initial
        [.load ⟨true, true, true, false⟩] := by
  refine ⟨fun h => ?_, fun h => ?_⟩
  · have hkbuf := h [.load ⟨true, true, false, true⟩] [] _ rfl rfl .kbuf (.inr (.inl rfl))
    exact absurd hkbuf (by decide)
  · have hkbuf := h [.load ⟨true, true, true, false⟩] [] _ rfl rfl .kbuf (.inr (.inl rfl))
    exact absurd hkbuf (by decide)

end KernelExamples.CharDevLife
