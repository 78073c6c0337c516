import KernelExamples.Lifecycle
import KernelExamples.Sbd

/-!
# The resources of the block driver

`sbd_init` and `sbd_exit` of `block_dev/sbd.c`, with what they take from the kernel : the data
area, the request queue, a block major and a disk. The major has its number, since
`unregister_blkdev` is given the number in `major_num` and not the one that was registered.
For a number that was asked for, `register_blkdev` returns `0`, and `major_num` is then `0`.

The label `out` frees the data area and not the queue. So a load is balanced exactly when it
does not fail after it has got the queue, and an unload exactly when the number was not
asked for (`sbd_balance_iff`).
-/

namespace KernelExamples.Sbd

open Traces Lifecycle

inductive LifeResource
  | data
  | queue
  | major (n : ℤ)
  | disk
  deriving DecidableEq

/-- A load of the module : its parameters, and the results of its calls. `register_blkdev`
returns a new number if it is asked for any, and `0` for the number it is asked for. -/
structure Load where
  params : Params
  outcome : InitOutcome
  registers : 0 ≤ outcome.registerBlkdev →
    if params.majorNum = 0 then 0 < outcome.registerBlkdev else outcome.registerBlkdev = 0

/-- The number that is registered. -/
def Load.number (l : Load) : ℤ :=
  if l.params.majorNum = 0 then l.outcome.registerBlkdev else l.params.majorNum

/-- `major_num` after the registration. -/
def Load.majorNum (l : Load) : ℤ := l.outcome.registerBlkdev

/-- What `sbd_init` does with the resources. -/
def initEvents (l : Load) : List (Lifecycle.Event LifeResource) :=
  if l.outcome.vmalloc = none then []
  else if ¬l.outcome.blkInitQueue then [.acquire .data, .release .data]
  else if l.outcome.registerBlkdev < 0 then
    [.acquire .data, .acquire .queue, .use .queue, .release .data]
  else if ¬l.outcome.allocDisk then
    [.acquire .data, .acquire .queue, .use .queue, .acquire (.major l.number),
      .release (.major l.majorNum), .release .data]
  else
    [.acquire .data, .acquire .queue, .use .queue, .acquire (.major l.number), .acquire .disk,
      .use .disk, .use .queue]

/-- What `sbd_exit` does with the resources. -/
def exitEvents (l : Load) : List (Lifecycle.Event LifeResource) :=
  [.use .disk, .release .disk, .release (.major l.majorNum), .release .queue, .release .data]

/-- The resource, without the number of a major. -/
def LifeResource.kind : LifeResource → Resource
  | .data => .data
  | .queue => .queue
  | .major _ => .major
  | .disk => .disk

/-- What is taken or given back, without numbers. -/
def taken : Lifecycle.Event LifeResource → Option ResourceEvent
  | .acquire r => some (.acquire r.kind)
  | .use _ => none
  | .release r => some (.release r.kind)

theorem taken_initEvents (l : Load) :
    (initEvents l).filterMap taken = (sbdInit l.params l.outcome).events := by
  unfold initEvents sbdInit
  cases l.outcome.vmalloc with
  | none => rfl
  | some data =>
    simp only [reduceCtorEq, if_false]
    split_ifs <;> rfl

theorem taken_exitEvents (l : Load) : (exitEvents l).filterMap taken = sbdExit := rfl

/-- The block driver under the module loader. -/
def sbd : Module Load LifeResource where
  init l := (0 ≤ (sbdInit l.params l.outcome).ret, initEvents l)
  exit := exitEvents

/-- One of each. -/
def owns (l : Load) : LifeResource → ℕ
  | .major n => if n = l.number then 1 else 0
  | _ => 1

/-- A load does not fail once it has a queue, and a module that is unloaded has a number that
was not asked for. -/
def Unwinds (s : Lifecycle.State Load LifeResource) : Act Load → Prop
  | .load l => l.outcome.vmalloc ≠ none → l.outcome.blkInitQueue = true →
      0 ≤ l.outcome.registerBlkdev ∧ l.outcome.allocDisk = true
  | .unload => ∀ l, s.loaded = some l → l.params.majorNum = 0

/-! ## Loads and unloads -/

/-- `sbd_init` succeeds exactly when all its calls do. -/
theorem ret_sbdInit (p : Params) (o : InitOutcome) : 0 ≤ (sbdInit p o).ret ↔
    o.vmalloc ≠ none ∧ o.blkInitQueue = true ∧ 0 ≤ o.registerBlkdev ∧ o.allocDisk = true := by
  have hnomem : ¬(0 : ℤ) ≤ -ENOMEM := by decide
  obtain ⟨_ | data, _ | _, number, disk⟩ := o
  · exact iff_of_false hnomem fun h => h.1 rfl
  · exact iff_of_false hnomem fun h => h.1 rfl
  · exact iff_of_false hnomem (by simp)
  · by_cases hnumber : number < 0
    · simp only [sbdInit, hnumber, not_true_eq_false, if_true, if_false]
      exact iff_of_false hnomem fun h => absurd h.2.2.1 (not_le.2 hnumber)
    · simp only [sbdInit, hnumber, not_true_eq_false, if_false]
      cases disk with
      | false => exact iff_of_false hnomem (by simp)
      | true => exact iff_of_true le_rfl ⟨by simp, trivial, not_lt.1 hnumber, rfl⟩

theorem init_sbd_iff (l : Load) : (sbd.init l).1 = true ↔ l.outcome.vmalloc ≠ none ∧
    l.outcome.blkInitQueue = true ∧ 0 ≤ l.outcome.registerBlkdev ∧
      l.outcome.allocDisk = true := by
  rw [← ret_sbdInit l.params]
  exact decide_eq_true_iff

section Init

variable {l : Load}

/-- A load that fails before there is a queue leaves nothing. -/
theorem loadBalanced_of_early (h : l.outcome.vmalloc = none ∨ ¬l.outcome.blkInitQueue = true) :
    LoadBalanced sbd (fun _ => True) owns l := by
  have hinit : (sbd.init l).1 = false := by
    rw [← Bool.not_eq_true, init_sbd_iff]
    rintro ⟨hdata, hqueue, -⟩
    exact h.elim hdata fun h => h hqueue
  intro r _
  rw [hinit]
  by_cases hdata : l.outcome.vmalloc = none
  · simp [sbd, initEvents, hdata]
  · have hqueue := h.resolve_left hdata
    cases r <;> simp [sbd, initEvents, hdata, hqueue, Account.next]

/-- A load that fails later leaves the queue. -/
theorem not_loadBalanced_of_late (hdata : l.outcome.vmalloc ≠ none)
    (hqueue : l.outcome.blkInitQueue = true)
    (h : ¬(0 ≤ l.outcome.registerBlkdev ∧ l.outcome.allocDisk = true)) :
    ¬LoadBalanced sbd (fun _ => True) owns l := by
  have hinit : (sbd.init l).1 = false := by
    rw [← Bool.not_eq_true, init_sbd_iff]
    exact fun hall => h hall.2.2
  have hheld : (account (initEvents l) LifeResource.queue ⟨0, false⟩).held = 1 := by
    rw [initEvents, if_neg hdata, if_neg (not_not.2 hqueue)]
    split_ifs with hnumber hdisk
    · rfl
    · exact absurd ⟨not_lt.1 hnumber, hdisk⟩ h
    · rfl
  intro hbalanced
  have hfreed := hbalanced .queue trivial
  rw [hinit] at hfreed
  have := hheld.symm.trans (congrArg Account.held hfreed)
  simp at this

/-- A load that succeeds has one of each. -/
theorem loadBalanced_of_success (h : (sbd.init l).1 = true) :
    LoadBalanced sbd (fun _ => True) owns l := by
  obtain ⟨hdata, hqueue, hnumber, hdisk⟩ := (init_sbd_iff l).1 h
  have hevents : (sbd.init l).2 = [.acquire .data, .acquire .queue, .use .queue,
      .acquire (.major l.number), .acquire .disk, .use .disk, .use .queue] := by
    change initEvents l = _
    rw [initEvents, if_neg hdata, if_neg (not_not.2 hqueue), if_neg (not_lt.2 hnumber),
      if_neg (not_not.2 hdisk)]
  intro r _
  rw [hevents, h]
  cases r with
  | data => rfl
  | queue => rfl
  | disk => rfl
  | major n =>
    by_cases hn : l.number = n
    · simp [Account.next, owns, hn]
    · simp [Account.next, owns, hn, Ne.symm hn]

theorem loadBalanced_iff : LoadBalanced sbd (fun _ => True) owns l ↔
    (l.outcome.vmalloc ≠ none → l.outcome.blkInitQueue = true →
      0 ≤ l.outcome.registerBlkdev ∧ l.outcome.allocDisk = true) := by
  by_cases hearly : l.outcome.vmalloc = none ∨ ¬l.outcome.blkInitQueue = true
  · refine iff_of_true (loadBalanced_of_early hearly) fun hdata hqueue => ?_
    exact absurd hearly (not_or.2 ⟨hdata, not_not.2 hqueue⟩)
  · obtain ⟨hdata, hqueue⟩ := not_or.1 hearly
    have hqueue := not_not.1 hqueue
    by_cases hrest : 0 ≤ l.outcome.registerBlkdev ∧ l.outcome.allocDisk = true
    · refine iff_of_true (loadBalanced_of_success ?_) fun _ _ => hrest
      exact (init_sbd_iff l).2 ⟨hdata, hqueue, hrest⟩
    · exact iff_of_false (not_loadBalanced_of_late hdata hqueue hrest)
        fun h => hrest (h hdata hqueue)

/-- An unload gives the number back exactly when it was not asked for. -/
theorem unloadBalanced_iff (h : (sbd.init l).1 = true) :
    UnloadBalanced sbd (fun _ => True) owns l ↔ l.params.majorNum = 0 := by
  have hnumber := l.registers ((init_sbd_iff l).1 h).2.2.1
  constructor
  · intro hbalanced
    by_contra hasked
    rw [if_neg hasked] at hnumber
    have hmajor := hbalanced (.major l.number) trivial
    have hne : (0 : ℤ) ≠ l.params.majorNum := Ne.symm hasked
    simp [sbd, exitEvents, Account.next, owns, Load.number, Load.majorNum, hasked, hnumber,
      hne] at hmajor
  · intro hzero r _
    have hsame : l.number = l.majorNum := if_pos hzero
    cases r with
    | data => rfl
    | queue => rfl
    | disk => rfl
    | major n =>
      by_cases hn : l.majorNum = n
      · simp [sbd, exitEvents, Account.next, owns, hsame, hn]
      · simp [sbd, exitEvents, Account.next, owns, hsame, hn, Ne.symm hn]

end Init

/-- In every run of loads and unloads, the driver holds one of each resource while it is loaded
and nothing else, and misuses none, exactly when no load fails once it has a queue, and no
module is unloaded whose number was asked for. -/
theorem sbd_balance_iff (acts : List (Act Load)) :
    Throughout (step sbd) (Balanced (fun _ => True) owns) initial acts ↔
      Along (step sbd) Unwinds initial acts := by
  refine balanced_iff (fun s a hs => ?_) acts
  cases a with
  | load l => exact loadBalanced_iff
  | unload => exact forall_congr' fun l => forall_congr' fun hl => unloadBalanced_iff (hs l hl)

/-- `register_blkdev` fails with `-EBUSY`. -/
def busyLoad : Load where
  params := ⟨0, 512, 1024⟩
  outcome := ⟨some fun _ => 0, true, -16, true⟩
  registers h := absurd h (by decide)

/-- The queue of `busyLoad` is still held after the load has failed. -/
theorem not_sbd_balance_busy :
    ¬Throughout (step sbd) (Balanced (fun _ => True) owns) initial [.load busyLoad] := by
  intro h
  have hheld := h [.load busyLoad] [] _ rfl rfl .queue trivial
  exact absurd hheld (by decide)

end KernelExamples.Sbd
