import KernelExamples.CInt
import KernelExamples.Lifecycle
import Mathlib.Data.List.Count
import Mathlib.Data.List.Nodup

/-!
# Modules that take resources in a loop

`irq/myinterrupt.c` asks for every interrupt line, and remembers in `my_dev_id` which ones it
got. It gives exactly these back, whatever lines are refused (`irq_balance`). `io_port/morse_io.c`
makes a node for each minor number, and looks at the results of its first two calls only. So it
is balanced as long as nothing fails after these (`morse_balance_iff`).
-/

namespace KernelExamples.ModuleLife

open Traces Lifecycle

/-! ## Interrupt lines -/

/-- `my_dev_id[irq]` after `my_init`, which got `ret irq` from `request_irq`. -/
def myDevId (ret : ℕ → ℤ) (irq : ℕ) : ℤ := if ret irq < 0 then -1 else irq

/-- `my_init` of `myinterrupt`. -/
def irqInit (nrIrqs : ℕ) (ret : ℕ → ℤ) : Bool × List (Event ℕ) :=
  (true, (List.range nrIrqs).flatMap fun irq => if ret irq < 0 then [] else [.acquire irq])

/-- `my_exit` of `myinterrupt`. -/
def irqExit (nrIrqs : ℕ) (ret : ℕ → ℤ) : List (Event ℕ) :=
  (List.range nrIrqs).flatMap fun irq => if myDevId ret irq ≥ 0 then [.release irq] else []

def myinterrupt (nrIrqs : ℕ) : Lifecycle.Module (ℕ → ℤ) ℕ := ⟨irqInit nrIrqs, irqExit nrIrqs⟩

/-- The lines `request_irq` gave. -/
def lines (nrIrqs : ℕ) (ret : ℕ → ℤ) : List ℕ :=
  (List.range nrIrqs).filter fun irq => ¬ret irq < 0

theorem irqInit_eq (nrIrqs : ℕ) (ret : ℕ → ℤ) :
    (irqInit nrIrqs ret).2 = (lines nrIrqs ret).map .acquire := by
  change (List.range nrIrqs).flatMap _ = _
  unfold lines
  induction List.range nrIrqs with
  | nil => rfl
  | cons irq irqs ih =>
    rw [List.flatMap_cons, List.filter_cons, ih]
    split_ifs <;> simp_all

theorem irqExit_eq (nrIrqs : ℕ) (ret : ℕ → ℤ) :
    irqExit nrIrqs ret = (lines nrIrqs ret).map .release := by
  unfold irqExit lines myDevId
  induction List.range nrIrqs with
  | nil => rfl
  | cons irq irqs ih =>
    rw [List.flatMap_cons, List.filter_cons, ih]
    split_ifs <;> simp_all

theorem count_lines (nrIrqs : ℕ) (ret : ℕ → ℤ) (irq : ℕ) :
    (lines nrIrqs ret).count irq = if irq < nrIrqs ∧ ¬ret irq < 0 then 1 else 0 := by
  rw [lines, List.Nodup.count (List.nodup_range.filter _)]
  simp

/-- A line is held by a module that got it. -/
def ownsLine (nrIrqs : ℕ) (ret : ℕ → ℤ) (irq : ℕ) : ℕ :=
  if irq < nrIrqs ∧ ¬ret irq < 0 then 1 else 0

/-- In every run of loads and unloads, whatever lines `request_irq` refuses, `myinterrupt` holds
the lines it got while it is loaded, and no line else, and frees no line it does not hold. -/
theorem irq_balance (nrIrqs : ℕ) (acts : List (Act (ℕ → ℤ))) :
    Throughout (step (myinterrupt nrIrqs)) (Balanced (fun _ => True) (ownsLine nrIrqs))
      initial acts := by
  rw [balanced_iff (C := fun _ _ => True) (fun s a _ => iff_of_true ?_ trivial)]
  · exact fun _ _ _ _ _ _ _ _ => trivial
  · have hload : ∀ ret,
        LoadBalanced (myinterrupt nrIrqs) (fun _ => True) (ownsLine nrIrqs) ret := by
      intro ret irq _
      change account (irqInit nrIrqs ret).2 irq _ = ⟨ownsLine nrIrqs ret irq, false⟩
      rw [irqInit_eq, account_map_acquire, count_lines, zero_add]
      rfl
    have hunload : ∀ ret,
        UnloadBalanced (myinterrupt nrIrqs) (fun _ => True) (ownsLine nrIrqs) ret := by
      intro ret irq _
      have hcount := count_lines nrIrqs ret irq
      change account (irqExit nrIrqs ret) irq _ = _
      rw [irqExit_eq, account_map_release _ _ _ hcount.le, hcount]
      simp [ownsLine]
    cases a with
    | load ret => exact hload ret
    | unload => exact fun ret _ => hunload ret

/-! ## Nodes of the morse device -/

/-- The number region, the memory of the cdev, its entry in the kernel's map, the class, and the
node of a minor number. -/
inductive Res
  | region
  | cdev
  | added
  | cls
  | node (i : ℕ)
  deriving DecidableEq

/-- The results of the calls of `morse_init`. -/
structure Outcome where
  region : Bool
  cdevAlloc : Bool
  cdevAdd : Bool
  classCreate : Bool
  deviceCreate : ℕ → Bool

/-- `minor_count`. -/
def minorCount : ℕ := 3

/-- The resource is taken, or given back, if the call that takes it has come through. -/
def onSuccess (ok : Bool) (e : Event Res) : List (Event Res) := if ok then [e] else []

/-- The nodes that `device_create` makes. It makes none without a class. -/
def nodes (o : Outcome) : List Res :=
  ((List.range minorCount).filter fun i => o.classCreate && o.deviceCreate i).map .node

/-- `morse_init`. -/
def morseInit (o : Outcome) : Bool × List (Event Res) :=
  if ¬o.region then (false, [])
  else if ¬o.cdevAlloc then (false, [.acquire .region, .release .region])
  else
    (true, [.acquire .region, .acquire .cdev, .use .cdev] ++
      onSuccess o.cdevAdd (.acquire .added) ++ onSuccess o.classCreate (.acquire .cls) ++
        (nodes o).map .acquire)

/-- `morse_exit`. `device_destroy` looks for the node in the class, and `class_destroy` does
nothing for an error in the place of a class. -/
def morseExit (o : Outcome) : List (Event Res) :=
  .use .cls :: (nodes o).map .release ++ onSuccess o.classCreate (.release .cls) ++
    onSuccess o.cdevAdd (.release .added) ++ [.release .cdev, .release .region]

def morse : Lifecycle.Module Outcome Res := ⟨morseInit, morseExit⟩

/-- A driver that is loaded has all it asked for, and a node for each minor number. -/
def ownsNode (_ : Outcome) : Res → ℕ
  | .node i => if i < minorCount then 1 else 0
  | _ => 1

/-- Nothing failed that `morse_init` does not look at. -/
def Whole (o : Outcome) : Prop :=
  o.cdevAdd = true ∧ o.classCreate = true ∧ ∀ i < minorCount, o.deviceCreate i = true

/-- A load that gets its region and its cdev gets the rest, and so did a module that is
unloaded. -/
def WholeLoad (s : State Outcome Res) : Act Outcome → Prop
  | .load o => o.region = true → o.cdevAlloc = true → Whole o
  | .unload => ∀ o, s.loaded = some o → Whole o

theorem forall_res {P : Res → Prop} :
    (∀ r, P r) ↔ P .region ∧ P .cdev ∧ P .added ∧ P .cls ∧ ∀ i, P (.node i) := by
  constructor
  · intro h
    exact ⟨h _, h _, h _, h _, fun i => h _⟩
  · rintro ⟨hregion, hcdev, hadded, hcls, hnode⟩ (_ | _ | _ | _ | i)
    · exact hregion
    · exact hcdev
    · exact hadded
    · exact hcls
    · exact hnode i

theorem count_nodes (o : Outcome) {r : Res} (hr : ∀ i, r ≠ .node i) : (nodes o).count r = 0 := by
  refine List.count_eq_zero_of_not_mem fun hmem => ?_
  obtain ⟨i, -, rfl⟩ := List.mem_map.1 hmem
  exact hr i rfl

theorem count_node (o : Outcome) (i : ℕ) : (nodes o).count (.node i) =
    if i < minorCount ∧ o.classCreate = true ∧ o.deviceCreate i = true then 1 else 0 := by
  have hinjective : Function.Injective Res.node := fun i j h => Res.node.inj h
  rw [nodes, List.count_map_of_injective _ _ hinjective,
    List.Nodup.count (List.nodup_range.filter _)]
  simp

theorem forall_node_iff (o : Outcome) : (∀ i, (nodes o).count (.node i) =
    if i < minorCount then 1 else 0) ↔ ∀ i < minorCount, o.classCreate = true ∧
      o.deviceCreate i = true := by
  refine forall_congr' fun i => ?_
  rw [count_node]
  by_cases hi : i < minorCount
  · simp [hi]
  · simp [hi]

theorem whole_iff (o : Outcome) : Whole o ↔ o.cdevAdd = true ∧ o.classCreate = true ∧
    ∀ i, (nodes o).count (.node i) = if i < minorCount then 1 else 0 := by
  rw [Whole, forall_node_iff]
  refine and_congr_right fun _ => and_congr_right fun hclass => ?_
  simp [hclass]

theorem loadBalanced_morse (o : Outcome) : LoadBalanced morse (fun _ => True) ownsNode o ↔
    (o.region = true → o.cdevAlloc = true → Whole o) := by
  simp only [LoadBalanced, true_imp_iff, forall_res, morse, morseInit, whole_iff]
  have hconst : ∀ r ∈ [Res.region, .cdev, .added, .cls], (nodes o).count r = 0 :=
    fun r hr => count_nodes o (by rintro i rfl; simp at hr)
  by_cases hregion : o.region = true
  · by_cases halloc : o.cdevAlloc = true
    · simp only [hregion, halloc, not_true, if_false, account_append, account_map_acquire,
        hconst .region (by simp), hconst .cdev (by simp), hconst .added (by simp),
        hconst .cls (by simp), ownsNode]
      cases o.cdevAdd <;> cases o.classCreate <;> simp [onSuccess, Account.next]
    · simp [hregion, halloc, Account.next]
  · simp [hregion]

theorem unloadBalanced_morse (o : Outcome) :
    UnloadBalanced morse (fun _ => True) ownsNode o ↔ Whole o := by
  have hconst : ∀ r ∈ [Res.region, .cdev, .added, .cls], (nodes o).count r = 0 :=
    fun r hr => count_nodes o (by rintro i rfl; simp at hr)
  have hnode : ∀ i, (nodes o).count (.node i) ≤ if i < minorCount then 1 else 0 := by
    intro i
    rw [count_node]
    by_cases hi : i < minorCount
    · simp only [hi, true_and, if_true]
      split_ifs <;> simp
    · simp [hi]
  have hrelease : ∀ (r : Res) (m : Bool), account ((nodes o).map .release) r ⟨ownsNode o r, m⟩ =
      ⟨ownsNode o r - (nodes o).count r, m⟩ := by
    intro r m
    refine account_map_release r (nodes o) _ ?_
    cases r with
    | node i => exact hnode i
    | _ => simp [hconst]
  have hexit : ∀ r : Res, account (morseExit o) r ⟨ownsNode o r, false⟩ =
      account (onSuccess o.classCreate (.release .cls) ++ onSuccess o.cdevAdd (.release .added) ++
        [.release .cdev, .release .region]) r ⟨ownsNode o r - (nodes o).count r, false⟩ := by
    intro r
    rw [← hrelease r false, morseExit, List.append_assoc, List.append_assoc, List.cons_append,
      account_cons, account_append, ← List.append_assoc]
    cases r <;> rfl
  have hzero : ∀ i, (if i < minorCount then 1 else 0) - (nodes o).count (.node i) = 0 ↔
      (nodes o).count (.node i) = if i < minorCount then 1 else 0 := by
    intro i
    have := hnode i
    omega
  change (∀ r, True → account (morseExit o) r ⟨ownsNode o r, false⟩ = ⟨0, false⟩) ↔ _
  simp only [true_imp_iff, hexit]
  simp only [forall_res, whole_iff, hconst .region (by simp), hconst .cdev (by simp),
    hconst .added (by simp), hconst .cls (by simp), ownsNode, ← hzero]
  cases o.cdevAdd <;> cases o.classCreate <;> simp [onSuccess, Account.next]

/-- In every run of loads and unloads, the morse driver that is loaded has its region, its cdev,
its class and its nodes, and else it has none of them, and gives none back that it does not
hold, exactly when `cdev_add`, `class_create` and `device_create` never fail in a load. -/
theorem morse_balance_iff (acts : List (Act Outcome)) :
    Throughout (step morse) (Balanced (fun _ => True) ownsNode) initial acts ↔
      Along (step morse) WholeLoad initial acts := by
  refine balanced_iff (fun s a _ => ?_) acts
  cases a with
  | load o => exact loadBalanced_morse o
  | unload => exact forall_congr' fun o => forall_congr' fun _ => unloadBalanced_morse o

end KernelExamples.ModuleLife
