import KernelExamples.Kernel
import KernelExamples.Traces

/-!
# The block driver : requests

`block_dev/sbd.c`. `sbdTransfer` moves one segment between a request's buffer and
`Device.data`. The device's bytes are numbered from `Device.data` on, and go round with
the pointers, so an offset that wraps reaches memory before the device
(`copied_sbdTransfer`). `requestLoop` is the body of the `while` loop of `sbd_request`, one
iteration a step, so a run of the driver that does not end is a loop that does not halt.

The block layer is modelled by what the driver uses of it : `blk_fetch_request` pops the
queue, `__blk_end_request_cur` drops the current segment and advances the position,
`__blk_end_request_all` completes the request. The driver's `req` still points at a
request it has completed until it fetches the next one. Every use of a request goes to
the log.

On a queue of filesystem requests the loop halts, with the device and the log
`serveQueue` computes (`halts_of_fs`). A request of another type is completed and not
replaced, and the loop completes it for ever (`not_halts_of_not_fs`).
-/

namespace KernelExamples.Sbd

open CInt Mem Traces

/-! ## The device -/

/-- `struct sbd_device`, without its lock and its `gendisk`. -/
structure Device where
  size : ℤ
  data : Bytes

/-- What `sbd_transfer` leaves : the device, the buffer, and the offset and length of the
`memcpy`, if it made one. -/
structure Transfer where
  dev : Device
  buffer : Bytes
  moved : Option (ℤ × ℤ)

/-- `sbd_transfer`. -/
def sbdTransfer (logicalBlockSize : ℤ) (dev : Device) (sector nsect : ℤ) (buffer : Bytes)
    (write : Bool) : Transfer :=
  let offset := uint64 (sector * logicalBlockSize)
  let nbytes := uint64 (nsect * logicalBlockSize)
  if uint64 (offset + nbytes) > dev.size then ⟨dev, buffer, none⟩
  else if write then
    ⟨{ dev with data := memcpyMod (2 ^ 64) dev.data offset buffer 0 nbytes }, buffer,
      some (offset, nbytes)⟩
  else ⟨dev, memcpyMod (2 ^ 64) buffer 0 dev.data offset nbytes, some (offset, nbytes)⟩

/-- `t` is what a copy of `n` bytes leaves, between the device from `off` on and the start
of the buffer. No other byte changes. -/
structure Copied (dev : Device) (buffer : Bytes) (write : Bool) (off n : ℤ) (t : Transfer) :
    Prop where
  size : t.dev.size = dev.size
  stored : write = true → ∀ a, t.dev.data a =
    if CoversMod (2 ^ 64) off n a then buffer (uint64 (a - off)) else dev.data a
  buffer_kept : write = true → t.buffer = buffer
  loaded : write = false → ∀ i, t.buffer i =
    if 0 ≤ i ∧ i < n then dev.data (uint64 (off + i)) else buffer i
  dev_kept : write = false → t.dev = dev

/-- The range recorded is the range copied, and without one nothing changes. -/
theorem copied_sbdTransfer (b : ℤ) (dev : Device) (sector nsect : ℤ) (buffer : Bytes)
    (write : Bool) :
    match (sbdTransfer b dev sector nsect buffer write).moved with
    | some (off, n) => Copied dev buffer write off n (sbdTransfer b dev sector nsect buffer write)
    | none => (sbdTransfer b dev sector nsect buffer write).dev = dev ∧
        (sbdTransfer b dev sector nsect buffer write).buffer = buffer := by
  unfold sbdTransfer
  dsimp only
  have hn := uint64_lt (nsect * b)
  generalize uint64 (sector * b) = off, uint64 (nsect * b) = n at hn ⊢
  split_ifs with hbeyond hw
  · exact ⟨rfl, rfl⟩
  · refine ⟨rfl, fun _ a => ?_, fun _ => rfl, fun h => ?_, fun h => ?_⟩
    · simp only [memcpyMod, zero_add, Int.emod_emod, uint64]
    · rw [hw] at h
      cases h
    · rw [hw] at h
      cases h
  · refine ⟨rfl, fun h => absurd h hw, fun h => absurd h hw, fun _ i => ?_, fun _ => rfl⟩
    have hcovers : CoversMod (2 ^ 64) 0 n i ↔ 0 ≤ i ∧ i < n := by
      rw [coversMod_iff le_rfl (by omega), zero_add]
    simp only [memcpyMod, hcovers, sub_zero, Int.add_emod_emod, uint64]

/-! ## Requests -/

/-- `req->cmd_type`. -/
inductive CmdType
  | fs
  | other (code : ℕ)
  deriving DecidableEq

/-- A segment : `blk_rq_cur_sectors` sectors at `req->buffer`. -/
structure Segment where
  nsect : ℤ
  nsect_nonneg : 0 ≤ nsect
  nsect_lt : nsect < 2 ^ 32
  buffer : Bytes

/-- A request, with the segments that are not completed. -/
structure Request where
  cmdType : CmdType
  pos : ℤ
  pos_nonneg : 0 ≤ pos
  pos_lt : pos < 2 ^ 64
  write : Bool
  segs : List Segment
  segs_ne : cmdType = .fs → segs ≠ []

/-- A segment of `nsect` sectors. -/
def Segment.ofCount (nsect : UInt32) (buffer : Bytes) : Segment where
  nsect := nsect.toNat
  nsect_nonneg := Int.natCast_nonneg _
  nsect_lt := by exact_mod_cast nsect.toNat_lt
  buffer := buffer

/-- A filesystem request for one segment or more, from the sector `pos` on. -/
def fsRequest (pos : UInt64) (write : Bool) (s : Segment) (rest : List Segment) : Request where
  cmdType := .fs
  pos := pos.toNat
  pos_nonneg := Int.natCast_nonneg _
  pos_lt := by exact_mod_cast pos.toNat_lt
  write := write
  segs := s :: rest
  segs_ne _ := List.cons_ne_nil s rest

/-- `__blk_end_request_cur` : the request with its current segment completed, or `none`
if that was the last one and the request is finished. -/
def blkEndRequestCur (r : Request) : Option Request :=
  match r.segs with
  | s :: s' :: rest =>
    some { r with
      pos := uint64 (r.pos + s.nsect)
      pos_nonneg := uint64_nonneg _
      pos_lt := uint64_lt _
      segs := s' :: rest
      segs_ne := by simp }
  | _ => none

/-- The arguments of a call of `sbd_transfer`. -/
structure Call where
  sector : ℤ
  seg : Segment
  write : Bool

/-- A use of the request `id` by the driver. -/
inductive Event
  /-- The test of `req->cmd_type`. -/
  | cmdType (id : ℕ)
  /-- A call of `sbd_transfer`, with what it left. -/
  | transfer (id : ℕ) (call : Call) (result : Transfer)
  /-- `__blk_end_request_cur(req, error)`, which returned `more`. -/
  | endCur (id : ℕ) (error : ℤ) (more : Bool)
  /-- `__blk_end_request_all(req, error)`. -/
  | endAll (id : ℕ) (error : ℤ)

namespace Event

/-- The request used. -/
def id : Event → ℕ
  | cmdType i => i
  | transfer i _ _ => i
  | endCur i _ _ => i
  | endAll i _ => i

/-- The request is complete after this use. -/
def completes : Event → Bool
  | endCur _ _ more => !more
  | endAll _ _ => true
  | _ => false

end Event

/-- The state of the loop of `sbd_request`. Requests carry their index in the queue the
driver was called with. -/
structure LoopState where
  req : Option (ℕ × Request)
  queue : List (ℕ × Request)
  dev : Device
  log : List Event

/-- `req = blk_fetch_request(q)`. -/
def blkFetchRequest (st : LoopState) : LoopState :=
  match st.queue with
  | [] => { st with req := none }
  | r :: queue => { st with req := some r, queue := queue }

/-- One iteration of the loop of `sbd_request`. -/
def requestLoop (logicalBlockSize : ℤ) (st : LoopState) : Option LoopState :=
  match st.req with
  | none => none
  | some (i, r) =>
    if h : r.cmdType = .fs then
      let call : Call := ⟨r.pos, r.segs.head (r.segs_ne h), r.write⟩
      let t := sbdTransfer logicalBlockSize st.dev call.sector call.seg.nsect call.seg.buffer
        call.write
      let log := st.log ++ [.cmdType i, .transfer i call t]
      match blkEndRequestCur r with
      | some r' => some
          { st with req := some (i, r'), dev := t.dev, log := log ++ [.endCur i 0 true] }
      | none => some (blkFetchRequest
          { st with dev := t.dev, log := log ++ [.endCur i 0 false] })
    else
      -- `continue` comes before the fetch, so `req` stays
      some { st with log := st.log ++ [.cmdType i, .endAll i (- EIO)] }

/-- The requests with their indices, from `n`. -/
def index (n : ℕ) : List Request → List (ℕ × Request)
  | [] => []
  | r :: q => (n, r) :: index (n + 1) q

/-- `sbd_request(q)` up to the test of its loop. -/
def sbdRequest (dev : Device) (q : List Request) : LoopState :=
  blkFetchRequest ⟨none, index 0 q, dev, []⟩

/-! ## Loading and unloading -/

/-- The module parameters. -/
structure Params where
  majorNum : ℤ
  logicalBlockSize : ℤ
  nsectors : ℤ

/-- What the module acquires from the kernel. -/
inductive Resource
  | data
  | queue
  | major
  | disk
  deriving DecidableEq

/-- A resource taken or given back. -/
inductive ResourceEvent
  | acquire (r : Resource)
  | release (r : Resource)
  deriving DecidableEq

/-- The results of the calls `sbd_init` makes : the area `vmalloc` returns with its
contents, or `NULL`, whether there is a queue, the number `register_blkdev` returns,
and whether there is a disk. -/
structure InitOutcome where
  vmalloc : Option Bytes
  blkInitQueue : Bool
  registerBlkdev : ℤ
  allocDisk : Bool

/-- What `sbd_init` returns and leaves. `capacity` is what `set_capacity` was given for
the disk it added. -/
structure InitResult where
  ret : ℤ
  dev : Device
  majorNum : ℤ
  capacity : Option ℤ
  events : List ResourceEvent

/-- `sbd_init`. -/
def sbdInit (p : Params) (o : InitOutcome) : InitResult :=
  let size := uint64 (int32 (p.nsectors * p.logicalBlockSize))
  match o.vmalloc with
  | none => ⟨-ENOMEM, ⟨size, fun _ => 0⟩, p.majorNum, none, []⟩
  | some data =>
    let dev : Device := ⟨size, data⟩
    if ¬o.blkInitQueue then
      ⟨-ENOMEM, dev, p.majorNum, none, [.acquire .data, .release .data]⟩
    else if o.registerBlkdev < 0 then
      -- `out` frees the data and leaves the queue
      ⟨-ENOMEM, dev, o.registerBlkdev, none, [.acquire .data, .acquire .queue, .release .data]⟩
    else if ¬o.allocDisk then
      ⟨-ENOMEM, dev, o.registerBlkdev, none, [.acquire .data, .acquire .queue, .acquire .major,
        .release .major, .release .data]⟩
    else ⟨0, dev, o.registerBlkdev, some p.nsectors, [.acquire .data, .acquire .queue,
        .acquire .major, .acquire .disk]⟩

/-- `sbd_exit`. -/
def sbdExit : List ResourceEvent :=
  [.release .disk, .release .major, .release .queue, .release .data]

/-- After a successful load the device is the area `vmalloc` returned. -/
theorem dev_of_sbdInit {p : Params} {o : InitOutcome} (h : (sbdInit p o).ret = 0) :
    ∃ data, o.vmalloc = some data ∧
      (sbdInit p o).dev = ⟨uint64 (int32 (p.nsectors * p.logicalBlockSize)), data⟩ := by
  unfold sbdInit at h ⊢
  cases hv : o.vmalloc with
  | none => simp [hv, ENOMEM] at h
  | some data =>
    refine ⟨data, rfl, ?_⟩
    dsimp only
    split_ifs <;> rfl

/-! ## Filesystem requests -/

/-- The device and the log after the segments of a filesystem request, from position
`pos`. -/
def serveSegs (logicalBlockSize : ℤ) (i : ℕ) (write : Bool) :
    Device → ℤ → List Segment → Device × List Event
  | dev, _, [] => (dev, [])
  | dev, pos, s :: rest =>
    let t := sbdTransfer logicalBlockSize dev pos s.nsect s.buffer write
    let next := serveSegs logicalBlockSize i write t.dev (uint64 (pos + s.nsect)) rest
    (next.1, .cmdType i :: .transfer i ⟨pos, s, write⟩ t :: .endCur i 0 (!rest.isEmpty) :: next.2)

/-- The device and the log after a queue of filesystem requests, indexed from `n`. -/
def serveQueue (logicalBlockSize : ℤ) : ℕ → Device → List Request → Device × List Event
  | _, dev, [] => (dev, [])
  | n, dev, r :: q =>
    let served := serveSegs logicalBlockSize n r.write dev r.pos r.segs
    let next := serveQueue logicalBlockSize (n + 1) served.1 q
    (next.1, served.2 ++ next.2)

variable {b : ℤ}

/-- The loop finishes a filesystem request, then fetches the next one. -/
theorem halts_segs (i : ℕ) (queue : List (ℕ × Request)) (old : Option (ℕ × Request))
    {final : LoopState} : ∀ (segs : List Segment) (r : Request) (dev : Device) (log : List Event),
      r.cmdType = .fs → r.segs = segs →
      Halts (requestLoop b) (blkFetchRequest ⟨old, queue, (serveSegs b i r.write dev r.pos segs).1,
        log ++ (serveSegs b i r.write dev r.pos segs).2⟩) final →
      Halts (requestLoop b) ⟨some (i, r), queue, dev, log⟩ final
  | [], r, _, _, hfs, hsegs, _ => absurd hsegs (r.segs_ne hfs)
  | [s], r, dev, log, hfs, hsegs, h => by
    refine .next ?_ h
    simp [requestLoop, blkEndRequestCur, serveSegs, blkFetchRequest, hfs, hsegs]
  | s :: s' :: rest, r, dev, log, hfs, hsegs, h => by
    let r' : Request := { r with
      pos := uint64 (r.pos + s.nsect)
      pos_nonneg := uint64_nonneg _
      pos_lt := uint64_lt _
      segs := s' :: rest
      segs_ne := by simp }
    let t := sbdTransfer b dev r.pos s.nsect s.buffer r.write
    have hbody : requestLoop b ⟨some (i, r), queue, dev, log⟩ =
        some ⟨some (i, r'), queue, t.dev,
          log ++ [.cmdType i, .transfer i ⟨r.pos, s, r.write⟩ t] ++ [.endCur i 0 true]⟩ := by
      simp [requestLoop, blkEndRequestCur, hfs, hsegs, r', t]
    refine .next hbody (halts_segs i queue old (s' :: rest) r' _ _ hfs rfl ?_)
    simpa [serveSegs, r', t] using h

/-- The loop halts on a queue of filesystem requests. -/
theorem halts_of_fs : ∀ (q : List Request) (n : ℕ) (old : Option (ℕ × Request)) (dev : Device)
    (log : List Event), (∀ r ∈ q, r.cmdType = .fs) →
      Halts (requestLoop b) (blkFetchRequest ⟨old, index n q, dev, log⟩)
        ⟨none, [], (serveQueue b n dev q).1, log ++ (serveQueue b n dev q).2⟩
  | [], n, old, dev, log, _ => by
    simpa [blkFetchRequest, index, serveQueue] using Halts.done rfl
  | r :: q, n, old, dev, log, hfs => by
    refine halts_segs n (index (n + 1) q) old r.segs r dev log (hfs r (by simp)) rfl ?_
    have h := halts_of_fs q (n + 1) old (serveSegs b n r.write dev r.pos r.segs).1
      (log ++ (serveSegs b n r.write dev r.pos r.segs).2) fun r' hr' => hfs r' (by simp [hr'])
    simpa [serveQueue] using h

/-! ## Other requests -/

/-- The driver holds a request, and one it holds or has not fetched is not a filesystem
request. -/
def Stuck (st : LoopState) : Prop :=
  ∃ x, st.req = some x ∧ ∃ y ∈ x :: st.queue, y.2.cmdType ≠ .fs

theorem stuck_blkFetchRequest {st : LoopState} (h : ∃ y ∈ st.queue, y.2.cmdType ≠ .fs) :
    Stuck (blkFetchRequest st) := by
  obtain ⟨y, hy, hfs⟩ := h
  cases hq : st.queue with
  | nil => simp [hq] at hy
  | cons x queue =>
    rw [hq] at hy
    exact ⟨x, by simp [blkFetchRequest, hq], y, by simpa [blkFetchRequest, hq] using hy, hfs⟩

/-- An iteration never loses the request that is not a filesystem request. -/
theorem stuck_requestLoop (st : LoopState) (h : Stuck st) :
    ∃ st', requestLoop b st = some st' ∧ Stuck st' := by
  obtain ⟨⟨i, r⟩, hreq, y, hy, hother⟩ := h
  by_cases hfs : r.cmdType = .fs
  · -- the current request is served, so the other one is still in the queue
    have hq : y ∈ st.queue := by
      rcases List.mem_cons.1 hy with rfl | hq
      · exact absurd hfs hother
      · exact hq
    cases hend : blkEndRequestCur r with
    | some r' =>
      refine ⟨_, by simp [requestLoop, hreq, hfs, hend]; rfl, (i, r'), rfl, y, ?_, hother⟩
      exact List.mem_cons_of_mem _ hq
    | none =>
      refine ⟨_, by simp [requestLoop, hreq, hfs, hend]; rfl, stuck_blkFetchRequest ?_⟩
      exact ⟨y, hq, hother⟩
  · refine ⟨{ st with log := st.log ++ [.cmdType i, .endAll i (- EIO)] }, ?_, (i, r), hreq, y,
      hy, hother⟩
    simp [requestLoop, hreq, hfs]

theorem mem_index {q : List Request} {r : Request} (h : r ∈ q) (n : ℕ) :
    ∃ i, (i, r) ∈ index n q := by
  induction q generalizing n with
  | nil => simp at h
  | cons r' q ih =>
    rcases List.mem_cons.1 h with rfl | h
    · exact ⟨n, by simp [index]⟩
    · obtain ⟨i, hi⟩ := ih h (n + 1)
      exact ⟨i, by simp [index, hi]⟩

/-- The loop does not halt on a queue with a request of another type. -/
theorem not_halts_of_not_fs {q : List Request} {r : Request} (hr : r ∈ q)
    (hother : r.cmdType ≠ .fs) (dev : Device) (final : LoopState) :
    ¬Halts (requestLoop b) (sbdRequest dev q) final := by
  obtain ⟨i, hi⟩ := mem_index hr 0
  exact not_halts_of_invariant stuck_requestLoop (stuck_blkFetchRequest ⟨(i, r), hi, hother⟩)

/-! ## Completion -/

/-- The call of `sbd_transfer`, if the event is one for the request `i`. -/
def Event.callFor (i : ℕ) : Event → Option Call
  | transfer j call _ => if j = i then some call else none
  | _ => none

/-- The calls of `sbd_transfer` for the request `i`, in order. -/
def handed (i : ℕ) (log : List Event) : List Call := log.filterMap (Event.callFor i)

/-- The number of times the request `i` is completed. -/
def completions (i : ℕ) (log : List Event) : ℕ :=
  log.countP fun e => e.id = i ∧ e.completes

/-- The requests of `q`, indexed from `n`, are completed as the block layer expects. -/
structure Completed (n : ℕ) (q : List Request) (log : List Event) : Prop where
  once : ∀ i r, q[i]? = some r → completions (n + i) log = 1
  /-- A request of another type is failed, and no data of it is transferred. -/
  other : ∀ i r, q[i]? = some r → r.cmdType ≠ .fs →
    Event.endAll (n + i) (- EIO) ∈ log ∧ handed (n + i) log = []
  /-- Each segment of a filesystem request is transferred once, in order. -/
  fs : ∀ i r, q[i]? = some r → r.cmdType = .fs → (handed (n + i) log).map Call.seg = r.segs
  /-- A completed request is not used again, in particular its segments were handed over
  before. -/
  untouched : ∀ pre e post, log = pre ++ e :: post → e.completes → ∀ e' ∈ post, e'.id ≠ e.id

theorem Event.callFor_of_ne {i : ℕ} {e : Event} (h : e.id ≠ i) : e.callFor i = none := by
  cases e with
  | transfer j call t => exact if_neg h
  | cmdType j => rfl
  | endCur j err more => rfl
  | endAll j err => rfl

theorem handed_append (i : ℕ) (log log' : List Event) :
    handed i (log ++ log') = handed i log ++ handed i log' :=
  List.filterMap_append

theorem handed_of_ne {i : ℕ} {log : List Event} (h : ∀ e ∈ log, e.id ≠ i) : handed i log = [] :=
  List.filterMap_eq_nil_iff.2 fun e he => Event.callFor_of_ne (h e he)

theorem completions_append (i : ℕ) (log log' : List Event) :
    completions i (log ++ log') = completions i log + completions i log' :=
  List.countP_append

theorem completions_of_ne {i : ℕ} {log : List Event} (h : ∀ e ∈ log, e.id ≠ i) :
    completions i log = 0 :=
  List.countP_eq_zero.2 fun e he => by simp [h e he]

section Segments

variable (i : ℕ) (write : Bool)

theorem id_serveSegs : ∀ (segs : List Segment) (dev : Device) (pos : ℤ),
    ∀ e ∈ (serveSegs b i write dev pos segs).2, e.id = i
  | [], _, _, e, he => by simp [serveSegs] at he
  | s :: rest, dev, pos, e, he => by
    simp only [serveSegs, List.mem_cons] at he
    rcases he with rfl | rfl | rfl | he
    · rfl
    · rfl
    · rfl
    · exact id_serveSegs rest _ _ e he

theorem handed_serveSegs : ∀ (segs : List Segment) (dev : Device) (pos : ℤ),
    (handed i (serveSegs b i write dev pos segs).2).map Call.seg = segs
  | [], _, _ => rfl
  | s :: rest, dev, pos => by
    have ih := handed_serveSegs rest (sbdTransfer b dev pos s.nsect s.buffer write).dev
      (uint64 (pos + s.nsect))
    simpa [serveSegs, handed, List.filterMap_cons, Event.callFor] using ih

/-- A request is completed by the last use of it, and only then. -/
theorem serveSegs_eq_append : ∀ (segs : List Segment) (dev : Device) (pos : ℤ), segs ≠ [] →
    ∃ log, (serveSegs b i write dev pos segs).2 = log ++ [.endCur i 0 false] ∧
      ∀ e ∈ log, e.completes = false
  | [], _, _, h => absurd rfl h
  | [s], dev, pos, _ => by
    let t := sbdTransfer b dev pos s.nsect s.buffer write
    exact ⟨[.cmdType i, .transfer i ⟨pos, s, write⟩ t], rfl, by simp [Event.completes]⟩
  | s :: s' :: rest, dev, pos, _ => by
    obtain ⟨log, hlog, hnot⟩ := serveSegs_eq_append (s' :: rest)
      (sbdTransfer b dev pos s.nsect s.buffer write).dev (uint64 (pos + s.nsect)) (by simp)
    let t := sbdTransfer b dev pos s.nsect s.buffer write
    refine ⟨.cmdType i :: .transfer i ⟨pos, s, write⟩ t :: .endCur i 0 true :: log, ?_, ?_⟩
    · rw [serveSegs, hlog]
      rfl
    · intro e he
      simp only [List.mem_cons] at he
      rcases he with rfl | rfl | rfl | he
      · rfl
      · rfl
      · rfl
      · exact hnot e he

theorem completions_serveSegs {segs : List Segment} (h : segs ≠ []) (dev : Device) (pos : ℤ) :
    completions i (serveSegs b i write dev pos segs).2 = 1 := by
  obtain ⟨log, hlog, hnot⟩ := serveSegs_eq_append (b := b) i write segs dev pos h
  have h0 : completions i log = 0 := List.countP_eq_zero.2 fun e he => by simp [hnot e he]
  rw [hlog, completions_append, h0]
  simp [completions, Event.id, Event.completes]

/-- No use of the request follows its completion. -/
theorem serveSegs_untouched {segs : List Segment} (h : segs ≠ []) (dev : Device) (pos : ℤ)
    {pre post : List Event} {e : Event}
    (hsplit : (serveSegs b i write dev pos segs).2 = pre ++ e :: post) (he : e.completes) :
    post = [] := by
  obtain ⟨log, hlog, hnot⟩ := serveSegs_eq_append (b := b) i write segs dev pos h
  rw [hlog] at hsplit
  rcases List.eq_nil_or_concat post with rfl | ⟨post', e', rfl⟩
  · rfl
  · have hsplit' : log ++ [.endCur i 0 false] = (pre ++ e :: post') ++ [e'] := by
      simpa using hsplit
    obtain ⟨rfl, -⟩ := List.append_inj' hsplit' rfl
    have := hnot e (by simp)
    rw [he] at this
    cases this

end Segments

theorem le_id_serveQueue : ∀ (q : List Request) (n : ℕ) (dev : Device),
    ∀ e ∈ (serveQueue b n dev q).2, n ≤ e.id
  | [], _, _, e, he => by simp [serveQueue] at he
  | r :: q, n, dev, e, he => by
    rcases List.mem_append.1 he with he | he
    · exact (id_serveSegs n r.write r.segs dev r.pos e he).ge
    · have := le_id_serveQueue q (n + 1) _ e he
      omega

/-- A served filesystem request before a completed queue is a completed queue. -/
theorem Completed.cons_fs {n : ℕ} {r : Request} {q : List Request} {dev : Device}
    {log : List Event} (hfs : r.cmdType = .fs) (hlog : Completed (n + 1) q log)
    (hid : ∀ e ∈ log, n + 1 ≤ e.id) :
    Completed n (r :: q) ((serveSegs b n r.write dev r.pos r.segs).2 ++ log) := by
  have hn : ∀ e ∈ (serveSegs b n r.write dev r.pos r.segs).2, e.id = n :=
    id_serveSegs n r.write r.segs dev r.pos
  have hnlog : ∀ e ∈ log, e.id ≠ n := fun e he => by
    have := hid e he
    omega
  have hlater : ∀ i, ∀ e ∈ (serveSegs b n r.write dev r.pos r.segs).2, e.id ≠ n + 1 + i :=
    fun i e he => by
      have := hn e he
      omega
  refine ⟨?_, ?_, ?_, ?_⟩
  · rintro (_ | i) r' hr'
    · rw [completions_append, Nat.add_zero, completions_of_ne hnlog,
        completions_serveSegs n r.write (r.segs_ne hfs)]
    · rw [completions_append, show n + (i + 1) = n + 1 + i by omega, completions_of_ne (hlater i),
        Nat.zero_add]
      exact hlog.once i r' hr'
  · rintro (_ | i) r' hr' hother
    · obtain rfl : r = r' := by simpa using hr'
      exact absurd hfs hother
    · obtain ⟨hend, hhanded⟩ := hlog.other i r' hr' hother
      rw [show n + (i + 1) = n + 1 + i by omega, handed_append, handed_of_ne (hlater i)]
      exact ⟨List.mem_append_right _ hend, hhanded⟩
  · rintro (_ | i) r' hr' hfs'
    · obtain rfl : r = r' := by simpa using hr'
      rw [handed_append, Nat.add_zero, handed_of_ne hnlog, List.append_nil]
      exact handed_serveSegs n r.write r.segs dev r.pos
    · rw [handed_append, show n + (i + 1) = n + 1 + i by omega, handed_of_ne (hlater i)]
      exact hlog.fs i r' hr' hfs'
  · intro pre e post hsplit he e' he'
    rcases List.append_eq_append_iff.1 hsplit with ⟨as, hpre, hpost⟩ | ⟨bs, hseg, hrest⟩
    · exact hlog.untouched as e post hpost he e' he'
    · cases bs with
      | nil => exact hlog.untouched [] e post hrest.symm he e' he'
      | cons x bs =>
        -- the completion is inside the request's own uses, so it is the last of them
        obtain ⟨rfl, rfl⟩ := List.cons_eq_cons.1 hrest
        obtain rfl := serveSegs_untouched n r.write (r.segs_ne hfs) dev r.pos hseg he
        have hen := hn e (by rw [hseg]; simp)
        have := hid e' (by simpa using he')
        omega

/-- On filesystem requests the log completes each request as expected. -/
theorem completed_serveQueue : ∀ (q : List Request) (n : ℕ) (dev : Device),
    (∀ r ∈ q, r.cmdType = .fs) → Completed n q (serveQueue b n dev q).2
  | [], n, dev, _ =>
    ⟨by simp, by simp, by simp, fun pre e post h => by simp [serveQueue] at h⟩
  | r :: q, n, dev, hfs => by
    have hq : ∀ r' ∈ q, r'.cmdType = .fs := fun r' hr' => hfs r' (by simp [hr'])
    exact .cons_fs (hfs r (by simp)) (completed_serveQueue q (n + 1) _ hq)
      (le_id_serveQueue q (n + 1) _)

/-- `sbd_request` ends, drains the queue and completes every request once. -/
def Drains (logicalBlockSize : ℤ) (dev : Device) (q : List Request) : Prop :=
  ∃ final, Halts (requestLoop logicalBlockSize) (sbdRequest dev q) final ∧ final.queue = [] ∧
    Completed 0 q final.log

/-- The driver serves a queue exactly when all its requests are filesystem requests. -/
theorem drains_iff_fs (logicalBlockSize : ℤ) (dev : Device) (q : List Request) :
    Drains logicalBlockSize dev q ↔ ∀ r ∈ q, r.cmdType = .fs := by
  constructor
  · rintro ⟨final, hhalts, -, -⟩ r hr
    by_contra hother
    exact not_halts_of_not_fs hr hother dev final hhalts
  · intro hfs
    exact ⟨_, halts_of_fs q 0 none dev [] hfs, rfl, completed_serveQueue q 0 dev hfs⟩

/-- A queue with one request of type `REQ_TYPE_BLOCK_PC`. -/
def packetQueue : List Request :=
  [⟨.other 2, 0, le_rfl, by decide, false, [], fun h => nomatch h⟩]

/-- A single request of another type is never fetched past. -/
theorem not_drains_packetQueue : ¬Drains 512 ⟨1024 * 512, fun _ => 0⟩ packetQueue := by
  rintro ⟨final, hhalts, -, -⟩
  exact not_halts_of_not_fs (List.mem_singleton.2 rfl) (by decide) _ final hhalts

end KernelExamples.Sbd
