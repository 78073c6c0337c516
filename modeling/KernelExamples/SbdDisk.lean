import KernelExamples.Sbd
import Mathlib.Algebra.Order.BigOperators.Group.List

/-!
# The block driver : a disk

With 512-byte blocks the device is an array of sectors, 512 cells of `Device.data` each
(`blocks 512`). A write segment is one write to that array (`Call.toWrite`). A read
segment returns what the latest earlier write left.

`sbd_refines_disk` is that statement for any queues of filesystem requests inside the
device, over any number of calls of `sbd_request`, after a load that succeeded. The
bounds check of `sbd_transfer` passes on every segment of such a request, and none of its
products wraps (`sbdTransfer_of_inRange`).
-/

namespace KernelExamples.Sbd

open CInt Mem Traces

/-! ## The calls a run makes -/

/-- The calls of `sbd_transfer` in a log, with what each left. -/
def transfers (log : List Event) : List (Call × Transfer) :=
  log.filterMap fun
    | .transfer _ call t => some (call, t)
    | _ => none

/-- `sbd_request` is called on each queue in turn, and ends on each. -/
inductive Runs (logicalBlockSize : ℤ) :
    Device → List (List Request) → Device → List Event → Prop
  | nil (dev : Device) : Runs logicalBlockSize dev [] dev []
  | cons {dev dev' : Device} {q : List Request} {qs : List (List Request)} {log : List Event}
      {final : LoopState} : Halts (requestLoop logicalBlockSize) (sbdRequest dev q) final →
      Runs logicalBlockSize final.dev qs dev' log →
      Runs logicalBlockSize dev (q :: qs) dev' (final.log ++ log)

/-- The segments from position `pos`, each at its own sector. -/
def callsFrom (write : Bool) : ℤ → List Segment → List Call
  | _, [] => []
  | pos, s :: rest => ⟨pos, s, write⟩ :: callsFrom write (pos + s.nsect) rest

/-- The segments of a request. -/
def Request.calls (r : Request) : List Call := callsFrom r.write r.pos r.segs

/-- `blk_rq_sectors`. -/
def Request.sectors (r : Request) : ℤ := (r.segs.map Segment.nsect).sum

/-- The device after the transfers. -/
def devAfter (dev : Device) : List (Call × Transfer) → Device
  | [] => dev
  | (_, t) :: ts => devAfter t.dev ts

theorem Runs.unique {b : ℤ} {dev dev₁ dev₂ : Device} {qs : List (List Request)}
    {log₁ log₂ : List Event} (h₁ : Runs b dev qs dev₁ log₁) (h₂ : Runs b dev qs dev₂ log₂) :
    dev₁ = dev₂ ∧ log₁ = log₂ := by
  induction h₁ generalizing dev₂ log₂ with
  | nil dev =>
    cases h₂
    exact ⟨rfl, rfl⟩
  | cons hhalts _ ih =>
    cases h₂ with
    | cons hhalts' hruns' =>
      obtain rfl := hhalts.unique hhalts'
      obtain ⟨rfl, rfl⟩ := ih hruns'
      exact ⟨rfl, rfl⟩

/-! ## The array of sectors -/

/-- A write segment as a write to the array of sectors. -/
def Call.toWrite (c : Call) : Option (Write (Fin 512 → UInt8)) :=
  if c.write then some ⟨c.sector, c.seg.nsect, blocks 512 c.seg.buffer⟩ else none

/-- The writes to the array of sectors, in order. -/
def writesOf (ts : List (Call × Transfer)) : List (Write (Fin 512 → UInt8)) :=
  (ts.map Prod.fst).filterMap Call.toWrite

/-- The transfers `ts` of the segments `cs`, from the device `dev`, are those of an array
of sectors. -/
structure RefinesDisk (dev : Device) (cs : List Call) (ts : List (Call × Transfer)) : Prop where
  /-- Each segment is transferred once, in order. -/
  calls : ts.map Prod.fst = cs
  /-- At every moment the device holds the array after the writes so far. -/
  array : ∀ pre post, ts = pre ++ post →
    blocks 512 (devAfter dev pre).data = replay (blocks 512 dev.data) (writesOf pre)
  /-- A read returns the latest earlier write of each sector. -/
  read : ∀ pre c t post, ts = pre ++ (c, t) :: post → c.write = false →
    ∀ k, 0 ≤ k → k < c.seg.nsect →
      blocks 512 t.buffer k = latest (blocks 512 dev.data) (writesOf pre) (c.sector + k)
  /-- A read changes nothing. -/
  read_dev : ∀ pre c t post, ts = pre ++ (c, t) :: post → c.write = false →
    t.dev = devAfter dev pre
  /-- A write changes the bytes of its own sectors and no other byte. -/
  write : ∀ pre c t post, ts = pre ++ (c, t) :: post → c.write = true →
    ∀ a, t.dev.data a =
      if 512 * c.sector ≤ a ∧ a < 512 * (c.sector + c.seg.nsect) then
        c.seg.buffer (a - 512 * c.sector)
      else (devAfter dev pre).data a

/-! ## From the log to the calls -/

/-- The transfers of the calls `cs` from the device `dev`. -/
def runCalls (logicalBlockSize : ℤ) : Device → List Call → List (Call × Transfer)
  | _, [] => []
  | dev, c :: cs =>
    let t := sbdTransfer logicalBlockSize dev c.sector c.seg.nsect c.seg.buffer c.write
    (c, t) :: runCalls logicalBlockSize t.dev cs

section Calls

variable {b : ℤ}

theorem transfers_append (log log' : List Event) :
    transfers (log ++ log') = transfers log ++ transfers log' :=
  List.filterMap_append

theorem runCalls_append : ∀ (cs cs' : List Call) (dev : Device),
    runCalls b dev (cs ++ cs') =
      runCalls b dev cs ++ runCalls b (devAfter dev (runCalls b dev cs)) cs'
  | [], _, _ => rfl
  | c :: cs, cs', dev => by simp [runCalls, devAfter, runCalls_append cs cs']

theorem devAfter_append : ∀ (ts ts' : List (Call × Transfer)) (dev : Device),
    devAfter dev (ts ++ ts') = devAfter (devAfter dev ts) ts'
  | [], _, _ => rfl
  | (_, t) :: ts, ts', _ => devAfter_append ts ts' t.dev

theorem sum_nsect_nonneg (segs : List Segment) : 0 ≤ (segs.map Segment.nsect).sum := by
  refine List.sum_nonneg fun x hx => ?_
  obtain ⟨s, -, rfl⟩ := List.mem_map.1 hx
  exact s.nsect_nonneg

theorem serveSegs_eq_runCalls (i : ℕ) (write : Bool) : ∀ (segs : List Segment) (dev : Device)
    (pos : ℤ), 0 ≤ pos → pos + (segs.map Segment.nsect).sum < 2 ^ 64 →
      transfers (serveSegs b i write dev pos segs).2 =
          runCalls b dev (callsFrom write pos segs) ∧
        (serveSegs b i write dev pos segs).1 =
          devAfter dev (runCalls b dev (callsFrom write pos segs))
  | [], _, _, _, _ => ⟨rfl, rfl⟩
  | s :: rest, dev, pos, hpos, hlt => by
    have hs := s.nsect_nonneg
    have hrest := sum_nsect_nonneg rest
    simp only [List.map_cons, List.sum_cons] at hlt
    have hnext : uint64 (pos + s.nsect) = pos + s.nsect :=
      uint64_of_mem (by omega) (by omega)
    have ih := serveSegs_eq_runCalls i write rest
      (sbdTransfer b dev pos s.nsect s.buffer write).dev (pos + s.nsect) (by omega) (by omega)
    constructor
    · simpa [serveSegs, transfers, List.filterMap_cons, callsFrom, runCalls, hnext] using ih.1
    · simpa [serveSegs, callsFrom, runCalls, devAfter, hnext] using ih.2

theorem serveQueue_eq_runCalls : ∀ (q : List Request) (n : ℕ) (dev : Device),
    (∀ r ∈ q, r.pos + r.sectors < 2 ^ 64) →
      transfers (serveQueue b n dev q).2 = runCalls b dev (q.flatMap Request.calls) ∧
        (serveQueue b n dev q).1 = devAfter dev (runCalls b dev (q.flatMap Request.calls))
  | [], _, _, _ => ⟨rfl, rfl⟩
  | r :: q, n, dev, hlt => by
    obtain ⟨htr, hdev⟩ := serveSegs_eq_runCalls (b := b) n r.write r.segs dev r.pos r.pos_nonneg
      (hlt r (by simp))
    have ih := serveQueue_eq_runCalls q (n + 1) (serveSegs b n r.write dev r.pos r.segs).1
      fun r' hr' => hlt r' (by simp [hr'])
    rw [hdev] at ih
    rw [List.flatMap_cons, runCalls_append, devAfter_append]
    constructor
    · rw [serveQueue, transfers_append, htr, hdev, ih.1, Request.calls]
    · rw [serveQueue, hdev, ih.2, Request.calls]

/-- Every sequence of queues of filesystem requests is served. -/
theorem runs_of_fs : ∀ (qs : List (List Request)) (dev : Device),
    (∀ q ∈ qs, ∀ r ∈ q, r.cmdType = .fs) → (∀ q ∈ qs, ∀ r ∈ q, r.pos + r.sectors < 2 ^ 64) →
      ∃ log, transfers log = runCalls b dev (qs.flatten.flatMap Request.calls) ∧
        Runs b dev qs (devAfter dev (transfers log)) log
  | [], dev, _, _ => ⟨[], rfl, .nil dev⟩
  | q :: qs, dev, hfs, hlt => by
    have hhalts : Halts (requestLoop b) (sbdRequest dev q) _ :=
      halts_of_fs q 0 none dev [] (hfs q (by simp))
    obtain ⟨htr, hdev⟩ := serveQueue_eq_runCalls (b := b) q 0 dev (hlt q (by simp))
    obtain ⟨log, hlog, hruns⟩ := runs_of_fs qs (serveQueue b 0 dev q).1
      (fun q' hq' => hfs q' (by simp [hq'])) (fun q' hq' => hlt q' (by simp [hq']))
    refine ⟨(serveQueue b 0 dev q).2 ++ log, ?_, ?_⟩
    · rw [List.flatten_cons, List.flatMap_append, runCalls_append, ← hdev, transfers_append, htr,
        hlog]
    · rw [transfers_append, devAfter_append, htr, ← hdev]
      exact .cons hhalts hruns

end Calls

/-! ## Segments inside the device -/

/-- The segment lies in a device of `n` sectors. -/
def Call.InRange (n : ℤ) (c : Call) : Prop := 0 ≤ c.sector ∧ c.sector + c.seg.nsect ≤ n

theorem inRange_callsFrom {n : ℤ} (write : Bool) : ∀ (segs : List Segment) (pos : ℤ), 0 ≤ pos →
    pos + (segs.map Segment.nsect).sum ≤ n → ∀ c ∈ callsFrom write pos segs, c.InRange n
  | [], _, _, _, c, hc => by simp [callsFrom] at hc
  | s :: rest, pos, hpos, hle, c, hc => by
    have hs := s.nsect_nonneg
    have hrest := sum_nsect_nonneg rest
    simp only [List.map_cons, List.sum_cons] at hle
    rcases List.mem_cons.1 hc with rfl | hc
    · exact ⟨hpos, by simp only; omega⟩
    · exact inRange_callsFrom write rest (pos + s.nsect) (by omega) (by omega) c hc

/-- Inside a device of `n` sectors the check passes and nothing wraps. -/
theorem sbdTransfer_of_inRange {n : ℤ} (hn : n * 512 < 2 ^ 31) {dev : Device}
    (hsize : dev.size = n * 512) {c : Call} (hc : c.InRange n) :
    sbdTransfer 512 dev c.sector c.seg.nsect c.seg.buffer c.write =
      if c.write then
        ⟨{ dev with data := memcpy dev.data (512 * c.sector) c.seg.buffer 0 (512 * c.seg.nsect) },
          c.seg.buffer, some (512 * c.sector, 512 * c.seg.nsect)⟩
      else ⟨dev, memcpy c.seg.buffer 0 dev.data (512 * c.sector) (512 * c.seg.nsect),
        some (512 * c.sector, 512 * c.seg.nsect)⟩ := by
  obtain ⟨hsector, hle⟩ := hc
  have hnsect := c.seg.nsect_nonneg
  have hoffset : uint64 (c.sector * 512) = 512 * c.sector := by
    rw [uint64_of_mem (by omega) (by omega)]
    omega
  have hnbytes : uint64 (c.seg.nsect * 512) = 512 * c.seg.nsect := by
    rw [uint64_of_mem (by omega) (by omega)]
    omega
  have hend : uint64 (512 * c.sector + 512 * c.seg.nsect) = 512 * c.sector + 512 * c.seg.nsect :=
    uint64_of_mem (by omega) (by omega)
  simp only [sbdTransfer, hoffset, hnbytes, hend]
  rw [if_neg (by rw [hsize]; omega),
    memcpyMod_eq_memcpy _ _ (by omega) (by omega) le_rfl (by omega),
    memcpyMod_eq_memcpy _ _ le_rfl (by omega) (by omega) (by omega)]

section InRange

variable {n : ℤ} (hn : n * 512 < 2 ^ 31) {dev : Device} (hsize : dev.size = n * 512) {c : Call}
  (hc : c.InRange n)

include hn hsize hc

theorem size_sbdTransfer :
    (sbdTransfer 512 dev c.sector c.seg.nsect c.seg.buffer c.write).dev.size = n * 512 := by
  rw [sbdTransfer_of_inRange hn hsize hc]
  split_ifs <;> exact hsize

/-- One segment is one step of the array of sectors. -/
theorem blocks_sbdTransfer (t : Transfer) :
    blocks 512 (sbdTransfer 512 dev c.sector c.seg.nsect c.seg.buffer c.write).dev.data =
      replay (blocks 512 dev.data) (writesOf [(c, t)]) := by
  rw [sbdTransfer_of_inRange hn hsize hc]
  cases hw : c.write with
  | false => simp [writesOf, Call.toWrite, hw, replay]
  | true =>
    have h := blocks_memcpy 512 dev.data c.seg.buffer c.sector 0 c.seg.nsect
    simpa [writesOf, Call.toWrite, hw, replay, Write.apply] using h

theorem read_sbdTransfer (hw : c.write = false) {k : ℤ} (hk : 0 ≤ k) (hk' : k < c.seg.nsect) :
    blocks 512 (sbdTransfer 512 dev c.sector c.seg.nsect c.seg.buffer c.write).buffer k =
      blocks 512 dev.data (c.sector + k) := by
  rw [sbdTransfer_of_inRange hn hsize hc, if_neg (by simp [hw])]
  have h := blocks_memcpy 512 c.seg.buffer dev.data 0 c.sector c.seg.nsect
  simp only [Nat.cast_ofNat, mul_zero] at h
  rw [h, memcpy_of_mem hk (by omega), sub_zero]

theorem read_dev_sbdTransfer (hw : c.write = false) :
    (sbdTransfer 512 dev c.sector c.seg.nsect c.seg.buffer c.write).dev = dev := by
  rw [sbdTransfer_of_inRange hn hsize hc, if_neg (by simp [hw])]

theorem write_sbdTransfer (hw : c.write = true) (a : ℤ) :
    (sbdTransfer 512 dev c.sector c.seg.nsect c.seg.buffer c.write).dev.data a =
      if 512 * c.sector ≤ a ∧ a < 512 * (c.sector + c.seg.nsect) then
        c.seg.buffer (a - 512 * c.sector)
      else dev.data a := by
  rw [sbdTransfer_of_inRange hn hsize hc, if_pos hw, mul_add]
  simp only [memcpy, zero_add]

end InRange

theorem writesOf_cons (x : Call × Transfer) (ts : List (Call × Transfer)) :
    writesOf (x :: ts) = writesOf [x] ++ writesOf ts := by
  rw [← List.singleton_append, writesOf, List.map_append, List.filterMap_append]
  rfl

theorem map_fst_runCalls {b : ℤ} : ∀ (cs : List Call) (dev : Device),
    (runCalls b dev cs).map Prod.fst = cs
  | [], _ => rfl
  | c :: cs, dev => by simp [runCalls, map_fst_runCalls cs]

/-- A transfer is made on the device the earlier ones left. -/
theorem runCalls_split {b : ℤ} : ∀ (cs : List Call) (dev : Device)
    (pre post : List (Call × Transfer)) (c : Call) (t : Transfer),
      runCalls b dev cs = pre ++ (c, t) :: post → c ∈ cs ∧
        t = sbdTransfer b (devAfter dev pre) c.sector c.seg.nsect c.seg.buffer c.write
  | [], _, pre, post, c, t, h => by simp [runCalls] at h
  | c' :: cs, dev, [], post, c, t, h => by
    obtain ⟨hx, -⟩ := List.cons_eq_cons.1 h
    obtain ⟨rfl, rfl⟩ := Prod.mk.inj hx
    exact ⟨by simp, rfl⟩
  | c' :: cs, dev, x :: pre, post, c, t, h => by
    obtain ⟨rfl, hrest⟩ := List.cons_eq_cons.1 h
    obtain ⟨hmem, ht⟩ := runCalls_split cs _ pre post c t hrest
    exact ⟨by simp [hmem], ht⟩

/-- The device keeps its size and follows the array of sectors. -/
theorem devAfter_runCalls {n : ℤ} (hn : n * 512 < 2 ^ 31) : ∀ (cs : List Call) (dev : Device)
    (pre post : List (Call × Transfer)), dev.size = n * 512 → (∀ c ∈ cs, c.InRange n) →
      runCalls 512 dev cs = pre ++ post → (devAfter dev pre).size = n * 512 ∧
        blocks 512 (devAfter dev pre).data = replay (blocks 512 dev.data) (writesOf pre)
  | _, _, [], _, hsize, _, _ => ⟨hsize, rfl⟩
  | [], _, x :: pre, _, _, _, h => by simp [runCalls] at h
  | c :: cs, dev, x :: pre, post, hsize, hin, h => by
    obtain ⟨rfl, hrest⟩ := List.cons_eq_cons.1 h
    have hc : c.InRange n := hin c (by simp)
    obtain ⟨hsize', hblocks⟩ := devAfter_runCalls hn cs _ pre post (size_sbdTransfer hn hsize hc)
      (fun c' hc' => hin c' (by simp [hc'])) hrest
    refine ⟨hsize', ?_⟩
    rw [devAfter, hblocks, writesOf_cons, replay_append]
    exact congrArg (replay · (writesOf pre)) (blocks_sbdTransfer hn hsize hc _)

/-- The transfers of segments inside the device are those of an array of sectors. -/
theorem refinesDisk_runCalls {n : ℤ} (hn : n * 512 < 2 ^ 31) {cs : List Call} {dev : Device}
    (hsize : dev.size = n * 512) (hin : ∀ c ∈ cs, c.InRange n) :
    RefinesDisk dev cs (runCalls 512 dev cs) := by
  refine ⟨map_fst_runCalls cs dev, ?_, ?_, ?_, ?_⟩
  · intro pre post h
    exact (devAfter_runCalls hn cs dev pre post hsize hin h).2
  · intro pre c t post h hw k hk hk'
    obtain ⟨hc, rfl⟩ := runCalls_split cs dev pre post c t h
    obtain ⟨hsize', hblocks⟩ := devAfter_runCalls hn cs dev pre _ hsize hin h
    rw [read_sbdTransfer hn hsize' (hin c hc) hw hk hk', hblocks, replay_eq_latest]
  · intro pre c t post h hw
    obtain ⟨hc, rfl⟩ := runCalls_split cs dev pre post c t h
    obtain ⟨hsize', -⟩ := devAfter_runCalls hn cs dev pre _ hsize hin h
    exact read_dev_sbdTransfer hn hsize' (hin c hc) hw
  · intro pre c t post h hw a
    obtain ⟨hc, rfl⟩ := runCalls_split cs dev pre post c t h
    obtain ⟨hsize', -⟩ := devAfter_runCalls hn cs dev pre _ hsize hin h
    exact write_sbdTransfer hn hsize' (hin c hc) hw a

/-- After a load with 512-byte blocks, filesystem requests inside the device are served,
and serving them is an array of `nsectors` sectors that starts with the contents of the
data area. -/
theorem sbd_refines_disk {p : Params} {o : InitOutcome} (hlbs : p.logicalBlockSize = 512)
    (hpos : 0 < p.nsectors) (hlt : p.nsectors * 512 < 2 ^ 31) (hinit : (sbdInit p o).ret = 0)
    (qs : List (List Request)) (hfs : ∀ q ∈ qs, ∀ r ∈ q, r.cmdType = .fs)
    (hin : ∀ q ∈ qs, ∀ r ∈ q, r.pos + r.sectors ≤ p.nsectors) :
    ∃ data, o.vmalloc = some data ∧ (sbdInit p o).dev = ⟨p.nsectors * 512, data⟩ ∧
      (∀ c ∈ qs.flatten.flatMap Request.calls, c.InRange p.nsectors) ∧
      (∃ dev log, Runs p.logicalBlockSize (sbdInit p o).dev qs dev log) ∧
      ∀ dev log, Runs p.logicalBlockSize (sbdInit p o).dev qs dev log →
        dev = devAfter (sbdInit p o).dev (transfers log) ∧
        RefinesDisk (sbdInit p o).dev (qs.flatten.flatMap Request.calls) (transfers log) := by
  obtain ⟨data, hdata, hdev⟩ := dev_of_sbdInit hinit
  have hsize : uint64 (int32 (p.nsectors * p.logicalBlockSize)) = p.nsectors * 512 := by
    rw [hlbs, int32_of_mem (by omega) (by omega), uint64_of_mem (by omega) (by omega)]
  rw [hsize] at hdev
  have hcalls : ∀ c ∈ qs.flatten.flatMap Request.calls, c.InRange p.nsectors := by
    intro c hc
    obtain ⟨r, hr, hc⟩ := List.mem_flatMap.1 hc
    obtain ⟨q, hq, hr⟩ := List.mem_flatten.1 hr
    exact inRange_callsFrom r.write r.segs r.pos r.pos_nonneg (hin q hq r hr) c hc
  obtain ⟨log, hlog, hruns⟩ := runs_of_fs (b := 512) qs (sbdInit p o).dev hfs fun q hq r hr => by
    have := hin q hq r hr
    omega
  rw [hlbs]
  refine ⟨data, hdata, hdev, hcalls, ⟨_, log, hruns⟩, fun dev' log' hruns' => ?_⟩
  obtain ⟨rfl, rfl⟩ := hruns.unique hruns'
  refine ⟨rfl, ?_⟩
  rw [hlog]
  exact refinesDisk_runCalls hlt (by rw [hdev]) hcalls

/-- One sector written, then the first two sectors read, in two calls of the driver. -/
def sampleQueues : List (List Request) :=
  [[fsRequest 1 true (.ofCount 1 fun _ => 7) []],
    [fsRequest 0 false (.ofCount 1 fun _ => 0) [.ofCount 1 fun _ => 0]]]

theorem sbd_refines_disk_sample :
    ∃ dev log, Runs 512 ⟨2 * 512, fun _ => 0⟩ sampleQueues dev log ∧
      RefinesDisk ⟨2 * 512, fun _ => 0⟩ (sampleQueues.flatten.flatMap Request.calls)
        (transfers log) := by
  obtain ⟨data, -, -, -, ⟨dev, log, hruns⟩, hdisk⟩ := sbd_refines_disk (p := ⟨0, 512, 2⟩)
    (o := ⟨some fun _ => 0, true, 250, true⟩) rfl (by decide) (by decide) rfl sampleQueues
    (by simp [sampleQueues, fsRequest])
    (by simp [sampleQueues, fsRequest, Segment.ofCount, Request.sectors])
  exact ⟨dev, log, hruns, (hdisk dev log hruns).2⟩

end KernelExamples.Sbd
