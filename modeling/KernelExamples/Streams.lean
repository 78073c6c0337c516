import KernelExamples.MyDynamic
import KernelExamples.MyDynamicUdev
import KernelExamples.Traces

/-!
# Writing everything, and reading to the end

The loops a program runs on the drivers. `writeAll` writes what is left of its data to
`mydynamic` until nothing is left or a call fails. At the end of the buffer `mycdrv_write`
returns `0`, which is no progress and no error, so the loop ends exactly when the data fits
(`write_all_iff`).

`my_read` of `mydynamic_udev` has one answer, `-ENOSPC`, for a read of no bytes and for a read
at the end of the buffer. So a sequence of reads is a stream as expected exactly when neither
occurs (`streams_iff`), and a loop that reads until it gets `0` always ends with an error
(`readLoop_halts`).
-/

namespace KernelExamples.Streams

open CInt Mem Traces

/-- The size of a call, at least one byte. -/
structure ChunkSize where
  val : UInt64
  pos : 0 < val.toNat

/-! ## Writing everything to `mydynamic` -/

section Write

variable (A : Arch) (chunk : ℕ → ChunkSize)

/-- User memory with these bytes at its start. -/
def userBuf (data : List UInt8) : Bytes := fun a => data.getD a.toNat 0

/-- The loop : what is left to write, the position of the file, the buffer of the driver, the
calls so far, and whether a call has failed. -/
structure WriteAll where
  rest : List UInt8
  pos : ℤ
  kbuf : Bytes
  calls : ℕ
  error : Bool

/-- One call of `mycdrv_write`, on at most a chunk of what is left. -/
def writeAll (s : WriteAll) : Option WriteAll :=
  if s.error = true ∨ s.rest = [] then none
  else
    let io := MyDynamic.mycdrvWrite A s.kbuf (userBuf s.rest)
      (min (chunk s.calls).val.toNat s.rest.length : ℕ) s.pos 0
    if io.ret < 0 then some { s with error := true }
    else some ⟨s.rest.drop io.ret.toNat, io.ppos, io.kbuf, s.calls + 1, false⟩

/-- The loop on `data`, with the file at `start`. -/
def begin (data : List UInt8) (start : ℤ) (kbuf : Bytes) : WriteAll := ⟨data, start, kbuf, 0, false⟩

/-- The loop ends, with as much of the data stored as there is room for, and with an error if
that is not all. -/
def WritesAll (data : List UInt8) (start : ℤ) (kbuf : Bytes) : Prop :=
  ∃ final, Halts (writeAll A chunk) (begin data start kbuf) final ∧
    final.kbuf = memcpy kbuf start (userBuf data) 0 (min data.length (10 * A.pageSize - start)) ∧
    (final.error = true ↔ 10 * A.pageSize - start < data.length)

/-- The loop has stored the data up to its position, and no call has failed. -/
structure Stored (data : List UInt8) (start : ℤ) (kbuf : Bytes) (s : WriteAll) : Prop where
  start_le : start ≤ s.pos
  pos_le : s.pos ≤ 10 * A.pageSize
  len : s.pos - start ≤ data.length
  rest : s.rest = data.drop (s.pos - start).toNat
  kbuf : s.kbuf = memcpy kbuf start (userBuf data) 0 (s.pos - start)
  error : s.error = false

variable {A} {data : List UInt8} {start : ℤ} {kbuf : Bytes} {s : WriteAll}

/-- Storing what follows after what is there. -/
theorem memcpy_userBuf_drop (kbuf : Bytes) (start : ℤ) (data : List UInt8) {m n : ℤ}
    (hm : 0 ≤ m) (hn : 0 ≤ n) :
    memcpy (memcpy kbuf start (userBuf data) 0 m) (start + m) (userBuf (data.drop m.toNat)) 0 n =
      memcpy kbuf start (userBuf data) 0 (m + n) := by
  funext a
  by_cases hnew : start + m ≤ a ∧ a < start + m + n
  · rw [memcpy_of_mem hnew.1 hnew.2, memcpy_of_mem (by omega) (by omega)]
    simp only [userBuf, List.getD_eq_getElem?_getD, List.getElem?_drop]
    congr 2
    omega
  · rw [memcpy_of_not_mem hnew]
    by_cases hold : start ≤ a ∧ a < start + m
    · rw [memcpy_of_mem hold.1 hold.2, memcpy_of_mem hold.1 (by omega)]
    · rw [memcpy_of_not_mem hold, memcpy_of_not_mem (by omega)]

/-- The data that is left, in bytes. -/
theorem length_rest (hs : Stored A data start kbuf s) :
    (s.rest.length : ℤ) = data.length - (s.pos - start) := by
  have hle := hs.start_le
  have hlen := hs.len
  rw [hs.rest, List.length_drop]
  omega

/-- What a write does at a position in the buffer. -/
theorem mycdrvWrite_eq (kbuf buf : Bytes) {pos lbuf : ℤ} (hp : 0 ≤ pos)
    (hp' : pos ≤ 10 * A.pageSize) (hl : 0 ≤ lbuf) {n : ℤ}
    (hn : n = min lbuf (10 * A.pageSize - pos)) :
    MyDynamic.mycdrvWrite A kbuf buf lbuf pos 0 =
      ⟨n, pos + n, memcpy kbuf pos buf 0 n, buf, pos, n⟩ := by
  have hpage := A.pageSize_le
  rw [← MyDynamic.kbufSize_eq A] at hp' hn
  rw [MyDynamic.mycdrvWrite, MyDynamic.bytesToDo_maxbytes hp hp' hl, ← hn]
  rw [MyDynamic.kbufSize_eq] at hp' hn
  exact copyIn_zero (by omega) (by omega) kbuf buf hp (by omega)

/-- While there is data, a call writes what fits of its chunk. -/
theorem writeAll_of_stored (hstart : 0 ≤ start) (hs : Stored A data start kbuf s)
    (hrest : s.rest ≠ []) : ∃ s', writeAll A chunk s = some s' ∧ Stored A data start kbuf s' ∧
      s'.pos = s.pos + min ((min (chunk s.calls).val.toNat s.rest.length : ℕ) : ℤ)
        (10 * A.pageSize - s.pos) := by
  have hrestlen := length_rest hs
  obtain ⟨hle, hle', hlen, hdrop, hkbuf, herror⟩ := hs
  set lbuf := min (chunk s.calls).val.toNat s.rest.length with hlbuf
  set n := min (lbuf : ℤ) (10 * A.pageSize - s.pos) with hn
  have hn0 : 0 ≤ n := by omega
  have hnlen : n ≤ s.rest.length := by omega
  have hio := mycdrvWrite_eq s.kbuf (userBuf s.rest) (hstart.trans hle) hle'
    (Int.natCast_nonneg lbuf) hn
  refine ⟨⟨s.rest.drop n.toNat, s.pos + n, memcpy s.kbuf s.pos (userBuf s.rest) 0 n, s.calls + 1,
    false⟩, ?_, ⟨by simp only; omega, by simp only; omega, by simp only; omega, ?_, ?_, rfl⟩, rfl⟩
  · rw [writeAll, if_neg (by simp [herror, hrest]), hio]
    exact if_neg (by simpa using hn0)
  · simp only [hdrop, List.drop_drop]
    congr 1
    omega
  · have hmem := memcpy_userBuf_drop kbuf start data (show 0 ≤ s.pos - start by omega) hn0
    rw [add_sub_cancel, ← hkbuf, ← hdrop, ← add_sub_right_comm] at hmem
    exact hmem

/-- Data that fits is written to its end. -/
theorem writes_all_of_fits (hstart : 0 ≤ start)
    (hfits : (data.length : ℤ) ≤ 10 * A.pageSize - start) (hs : Stored A data start kbuf s) :
    ∃ t, Halts (writeAll A chunk) s t ∧ Stored A data start kbuf t ∧
      writeAll A chunk t = none := by
  refine exists_halts (fun s => s.rest.length) (fun s s' hs hbody => ?_) _ (Nat.lt_succ_self _) hs
  have hrest : s.rest ≠ [] := fun h => by simp [writeAll, h] at hbody
  obtain ⟨s₁, hs₁, hstored, hpos⟩ := writeAll_of_stored chunk hstart hs hrest
  obtain rfl : s₁ = s' := Option.some.inj (hs₁.symm.trans hbody)
  refine ⟨hstored, ?_⟩
  have hlen := length_rest hs
  have hlen' := length_rest hstored
  have hchunk := (chunk s.calls).pos
  have := List.length_pos_iff.2 hrest
  omega

/-- Data that does not fit is never written to its end, and no call fails. -/
theorem not_halts_of_long (hstart : 0 ≤ start)
    (hlong : 10 * A.pageSize - start < (data.length : ℤ)) (hs : Stored A data start kbuf s)
    (t : WriteAll) : ¬Halts (writeAll A chunk) s t := by
  refine not_halts_of_invariant (I := Stored A data start kbuf) (fun s hs => ?_) hs
  have hrest : s.rest ≠ [] := by
    have hlen := length_rest hs
    have hle := hs.pos_le
    exact List.ne_nil_of_length_pos (by omega)
  obtain ⟨s', hs', hstored, -⟩ := writeAll_of_stored chunk hstart hs hrest
  exact ⟨s', hs', hstored⟩

end Write

/-- For every data, every position in the buffer and every sequence of chunks, the loop ends
as it should exactly when the data fits the rest of the buffer. -/
theorem write_all_iff (A : Arch) (chunk : ℕ → ChunkSize) (data : List UInt8)
    (start : BufPos (10 * A.pageSize)) (kbuf : Bytes) :
    WritesAll A chunk data start.val kbuf ↔ (data.length : ℤ) ≤ 10 * A.pageSize - start.val := by
  have hbegin : Stored A data start.val kbuf (begin data start.val kbuf) :=
    ⟨le_rfl, start.le, by simp [begin], by simp [begin], by simp [begin, memcpy_of_nonpos], rfl⟩
  constructor
  · rintro ⟨t, ht, -⟩
    by_contra hlong
    exact not_halts_of_long chunk start.nonneg (by omega) hbegin t ht
  · intro hfits
    obtain ⟨t, ht, hstored, hstop⟩ := writes_all_of_fits chunk start.nonneg hfits hbegin
    have hrest : t.rest = [] := by
      by_contra hne
      obtain ⟨s, hs, -⟩ := writeAll_of_stored chunk start.nonneg hstored hne
      rw [hstop] at hs
      cases hs
    have hpos : t.pos - start.val = data.length := by
      have := length_rest hstored
      rw [hrest, List.length_nil] at this
      omega
    refine ⟨t, ht, ?_, ?_⟩
    · rw [hstored.kbuf, hpos, min_eq_left hfits]
    · rw [hstored.error]
      simpa using hfits

/-- One byte for a file at the end of a buffer of ten pages : every call returns `0`. -/
theorem not_writes_all_at_end :
    ¬WritesAll .x86 (fun _ => ⟨1, by decide⟩) [1] 40960 fun _ => 0 := by
  rintro ⟨t, ht, -⟩
  have hbegin : Stored .x86 [1] 40960 (fun _ => 0) (begin [1] 40960 fun _ => 0) :=
    ⟨le_rfl, by decide, by decide, rfl, (memcpy_of_nonpos (by decide)).symm, rfl⟩
  exact not_halts_of_long _ (by decide) (by decide) hbegin t ht

/-! ## Reading `mydynamic_udev` to the end -/

section Read

variable (A : Arch) (kbuf : Bytes)

/-- The bytes from `start` up to `stop`. -/
def slice (start stop : ℤ) : List UInt8 :=
  (List.range (stop - start).toNat).map fun i : ℕ => kbuf (start + i)

/-- The bytes a read puts into the user buffer. -/
def delivered (io : Io) : List UInt8 := (List.range io.ret.toNat).map fun i : ℕ => io.buf i

/-- A call of `my_read` : the position before it, the size asked for, and what it does. -/
structure ReadCall where
  pos : ℤ
  size : ℤ
  io : Io

/-- The calls with these sizes, from `pos`, without a copy fault. -/
def readCalls (buf : Bytes) : ℤ → List UInt64 → List ReadCall
  | _, [] => []
  | pos, n :: ns =>
    ⟨pos, n.toNat, MyDynamicUdev.myRead A kbuf buf n.toNat pos 0⟩ ::
      readCalls buf (MyDynamicUdev.myRead A kbuf buf n.toNat pos 0).ppos ns

/-- The position after the calls. -/
def posAfter (buf : Bytes) (pos : ℤ) (sizes : List UInt64) : ℤ :=
  sizes.foldl (fun pos n => (MyDynamicUdev.myRead A kbuf buf n.toNat pos 0).ppos) pos

/-- The calls give the bytes of the buffer one after the other, a call for no bytes returns `0`
and moves nothing, and a call at the end returns `0`. -/
structure StreamOk (buf : Bytes) (start : ℤ) (sizes : List UInt64) : Prop where
  pieces : (readCalls A kbuf buf start sizes).flatMap (fun c => delivered c.io) =
    slice kbuf start (posAfter A kbuf buf start sizes)
  zero : ∀ c ∈ readCalls A kbuf buf start sizes, c.size = 0 → c.io.ret = 0 ∧ c.io.ppos = c.pos
  atEnd : ∀ c ∈ readCalls A kbuf buf start sizes, c.pos = 10 * A.pageSize → c.io.ret = 0

/-- No size is `0`, and no call is made at the end : each moves the position by its size, up to
the end. -/
def AwayFromEnd : ℤ → List UInt64 → Prop
  | _, [] => True
  | pos, n :: ns =>
    0 < n.toNat ∧ pos < 10 * A.pageSize ∧ AwayFromEnd (min (pos + n.toNat) (10 * A.pageSize)) ns

variable {A kbuf}

theorem slice_append {a b c : ℤ} (hab : a ≤ b) (hbc : b ≤ c) :
    slice kbuf a b ++ slice kbuf b c = slice kbuf a c := by
  have hlen : (c - a).toNat = (b - a).toNat + (c - b).toNat := by omega
  rw [slice, slice, slice, hlen, List.range_add, List.map_append, List.map_map]
  congr 1
  refine List.map_congr_left fun i _ => ?_
  simp only [Function.comp_apply]
  congr 1
  push_cast
  omega

/-- What a read does at a position in the buffer. -/
theorem myRead_eq (kbuf buf : Bytes) {pos lbuf : ℤ} (hp : 0 ≤ pos) (hp' : pos ≤ 10 * A.pageSize)
    (hl : 0 ≤ lbuf) {n : ℤ} (hn : n = min lbuf (10 * A.pageSize - pos)) :
    (MyDynamicUdev.myRead A kbuf buf lbuf pos 0).ret = (if n = 0 then -ENOSPC else n) ∧
      (MyDynamicUdev.myRead A kbuf buf lbuf pos 0).ppos = pos + n ∧
      delivered (MyDynamicUdev.myRead A kbuf buf lbuf pos 0) = slice kbuf pos (pos + n) := by
  have hsize := MyDynamicUdev.kbufSize_eq A
  rw [← hsize] at hp' hn
  rw [MyDynamicUdev.myRead_of_mem hp hp' hl hn]
  refine ⟨rfl, rfl, ?_⟩
  have hlen : (if n = 0 then -ENOSPC else n).toNat = (pos + n - pos).toNat := by
    split_ifs with h0
    · simp [h0, ENOSPC]
    · omega
  rw [delivered, slice, hlen]
  refine List.map_congr_left fun i hi => ?_
  have hi' := List.mem_range.1 hi
  simp only
  rw [memcpy_of_mem (by omega) (by omega), sub_zero]

/-- The position after a read is in the buffer, and not before the one it started from. -/
theorem myRead_ppos_mem (kbuf buf : Bytes) {pos lbuf : ℤ} (hp : 0 ≤ pos)
    (hp' : pos ≤ 10 * A.pageSize) (hl : 0 ≤ lbuf) :
    pos ≤ (MyDynamicUdev.myRead A kbuf buf lbuf pos 0).ppos ∧
      (MyDynamicUdev.myRead A kbuf buf lbuf pos 0).ppos ≤ 10 * A.pageSize := by
  rw [(myRead_eq kbuf buf hp hp' hl rfl).2.1]
  omega

theorem posAfter_mem (kbuf buf : Bytes) : ∀ (sizes : List UInt64) {pos : ℤ}, 0 ≤ pos →
    pos ≤ 10 * A.pageSize → pos ≤ posAfter A kbuf buf pos sizes ∧
      posAfter A kbuf buf pos sizes ≤ 10 * A.pageSize
  | [], _, _, hp' => ⟨le_rfl, hp'⟩
  | n :: ns, pos, hp, hp' => by
    obtain ⟨hle, hle'⟩ := myRead_ppos_mem kbuf buf hp hp' (Int.natCast_nonneg n.toNat)
    obtain ⟨ih, ih'⟩ := posAfter_mem kbuf buf ns (hp.trans hle) hle'
    rw [posAfter, List.foldl_cons]
    exact ⟨hle.trans ih, ih'⟩

/-- Whatever the sizes, the calls deliver the bytes they pass over. -/
theorem readCalls_pieces (kbuf buf : Bytes) : ∀ (sizes : List UInt64) {pos : ℤ}, 0 ≤ pos →
    pos ≤ 10 * A.pageSize → (readCalls A kbuf buf pos sizes).flatMap (fun c => delivered c.io) =
      slice kbuf pos (posAfter A kbuf buf pos sizes)
  | [], _, _, _ => by simp [readCalls, posAfter, slice]
  | n :: ns, pos, hp, hp' => by
    have hl := Int.natCast_nonneg n.toNat
    obtain ⟨hle, hle'⟩ := myRead_ppos_mem kbuf buf hp hp' hl
    have hafter := (posAfter_mem kbuf buf ns (hp.trans hle) hle').1
    have hpiece := (myRead_eq kbuf buf hp hp' hl rfl).2
    rw [readCalls, posAfter, List.foldl_cons, List.flatMap_cons,
      readCalls_pieces kbuf buf ns (hp.trans hle) hle', hpiece.2, ← hpiece.1]
    exact slice_append hle hafter

/-- A call for no bytes and a call at the end both fail, so the calls are answered as they should
be only if there is none. -/
theorem quiet_iff (kbuf buf : Bytes) : ∀ (sizes : List UInt64) {pos : ℤ}, 0 ≤ pos →
    pos ≤ 10 * A.pageSize →
    ((∀ c ∈ readCalls A kbuf buf pos sizes, (c.size = 0 → c.io.ret = 0 ∧ c.io.ppos = c.pos) ∧
      (c.pos = 10 * A.pageSize → c.io.ret = 0)) ↔ AwayFromEnd A pos sizes)
  | [], _, _, _ => by simp [readCalls, AwayFromEnd]
  | n :: ns, pos, hp, hp' => by
    have hl := Int.natCast_nonneg n.toNat
    obtain ⟨hle, hle'⟩ := myRead_ppos_mem kbuf buf hp hp' hl
    obtain ⟨hret, hppos, -⟩ := myRead_eq kbuf buf hp hp' hl rfl
    have hmin : pos + min ((n.toNat : ℕ) : ℤ) (10 * A.pageSize - pos) =
        min (pos + n.toNat) (10 * A.pageSize) := by omega
    rw [readCalls, List.forall_mem_cons, quiet_iff kbuf buf ns (hp.trans hle) hle', AwayFromEnd,
      hret, hppos, hmin, ← and_assoc]
    refine and_congr_left fun _ => ?_
    by_cases h0 : min ((n.toNat : ℕ) : ℤ) (10 * A.pageSize - pos) = 0
    · rw [if_pos h0]
      simp only [ENOSPC]
      omega
    · have hn : ((n.toNat : ℕ) : ℤ) ≠ 0 ∧ pos ≠ 10 * A.pageSize := by omega
      rw [if_neg h0]
      exact iff_of_true ⟨fun h => absurd h hn.1, fun h => absurd h hn.2⟩ (by omega)

end Read

section ReadLoop

variable (A : Arch) (kbuf buf : Bytes) (chunk : ℕ → ChunkSize)

/-- The loop that reads until it gets `0` or an error : the position of the file, the calls so
far, what they delivered, and what the last call returned. -/
structure ReadLoop where
  pos : ℤ
  calls : ℕ
  got : List UInt8
  result : Option ℤ

/-- One call of `my_read`. -/
def readLoop (s : ReadLoop) : Option ReadLoop :=
  if s.result.isSome then none
  else
    let io := MyDynamicUdev.myRead A kbuf buf (chunk s.calls).val.toNat s.pos 0
    if io.ret ≤ 0 then some { s with result := some io.ret }
    else some ⟨io.ppos, s.calls + 1, s.got ++ delivered io, none⟩

/-- The loop ends with `0`, and has got the rest of the buffer. -/
def ReadsToEnd (start : ℤ) : Prop :=
  ∃ final, Halts (readLoop A kbuf buf chunk) ⟨start, 0, [], none⟩ final ∧
    final.result = some 0 ∧ final.got = slice kbuf start (10 * A.pageSize)

/-- The loop has got the bytes up to its position, and if it has ended, then at the end of the
buffer and with an error. -/
structure Got (start : ℤ) (s : ReadLoop) : Prop where
  start_le : start ≤ s.pos
  pos_le : s.pos ≤ 10 * A.pageSize
  got : s.got = slice kbuf start s.pos
  result : s.result = none ∨ s.result = some (-ENOSPC) ∧ s.pos = 10 * A.pageSize

variable {A} {start : ℤ} {s s' : ReadLoop}

/-- The calls left, and one for the end. -/
def ReadLoop.measure (A : Arch) (s : ReadLoop) : ℕ :=
  (10 * A.pageSize - s.pos).toNat + if s.result.isSome then 0 else 1

theorem readLoop_got (hstart : 0 ≤ start) (hs : Got A kbuf start s)
    (hbody : readLoop A kbuf buf chunk s = some s') :
    Got A kbuf start s' ∧ s'.measure A < s.measure A := by
  obtain ⟨hle, hle', hgot, -⟩ := hs
  have hchunk := (chunk s.calls).pos
  obtain ⟨hret, hppos, hpiece⟩ := myRead_eq kbuf buf (hstart.trans hle) hle'
    (Int.natCast_nonneg (chunk s.calls).val.toNat) rfl
  have hsome : ¬s.result.isSome := fun hsome => by simp [readLoop, hsome] at hbody
  rw [readLoop, if_neg hsome] at hbody
  simp only [hret, hppos, hpiece] at hbody
  by_cases hend : s.pos = 10 * A.pageSize
  · rw [if_pos (show min ((chunk s.calls).val.toNat : ℤ) (10 * A.pageSize - s.pos) = 0 by omega),
      if_pos (by decide)] at hbody
    obtain rfl := Option.some.inj hbody
    exact ⟨⟨hle, hle', hgot, .inr ⟨rfl, hend⟩⟩, by simp [ReadLoop.measure, hsome]⟩
  · rw [if_neg (show ¬min ((chunk s.calls).val.toNat : ℤ) (10 * A.pageSize - s.pos) = 0 by omega),
      if_neg (by omega)] at hbody
    obtain rfl := Option.some.inj hbody
    refine ⟨⟨by simp only; omega, by simp only; omega, ?_, .inl rfl⟩, ?_⟩
    · rw [hgot]
      exact slice_append hle (by omega)
    · simp only [ReadLoop.measure, hsome, Option.isSome_none, if_false, Bool.false_eq_true]
      omega

/-- Whatever the chunks, the loop gets the rest of the buffer and ends with `-ENOSPC`. -/
theorem readLoop_halts (hstart : 0 ≤ start) (hstart' : start ≤ 10 * A.pageSize) :
    ∃ final, Halts (readLoop A kbuf buf chunk) ⟨start, 0, [], none⟩ final ∧
      final.result = some (-ENOSPC) ∧ final.got = slice kbuf start (10 * A.pageSize) := by
  have hbegin : Got A kbuf start ⟨start, 0, [], none⟩ :=
    ⟨le_rfl, hstart', by simp [slice], .inl rfl⟩
  obtain ⟨t, ht, hgot, hstop⟩ := exists_halts (ReadLoop.measure A)
    (fun _ _ hs hbody => readLoop_got kbuf buf chunk hstart hs hbody) _ (Nat.lt_succ_self _) hbegin
  have hsome : t.result.isSome := by
    by_contra hnone
    rw [readLoop, if_neg hnone] at hstop
    simp only at hstop
    split_ifs at hstop
  rcases hgot.result with hnone | ⟨hres, hend⟩
  · simp [hnone] at hsome
  · exact ⟨t, ht, hres, by rw [hgot.got, hend]⟩

theorem not_readsToEnd (hstart : 0 ≤ start) (hstart' : start ≤ 10 * A.pageSize) :
    ¬ReadsToEnd A kbuf buf chunk start := by
  rintro ⟨final, hfinal, hzero, -⟩
  obtain ⟨t, ht, hres, -⟩ := readLoop_halts kbuf buf chunk hstart hstart'
  rw [hfinal.unique ht, hres] at hzero
  simp [ENOSPC] at hzero

end ReadLoop

/-- For every content, every position in the buffer and every sequence of sizes, the reads are a
stream exactly when none is for no bytes or at the end. The loop that reads until it gets `0`
never gets it. -/
theorem streams_iff (A : Arch) (kbuf buf : Bytes) (start : BufPos (10 * A.pageSize))
    (sizes : List UInt64) (chunk : ℕ → ChunkSize) :
    (StreamOk A kbuf buf start.val sizes ↔ AwayFromEnd A start.val sizes) ∧
      ¬ReadsToEnd A kbuf buf chunk start.val := by
  refine ⟨?_, not_readsToEnd kbuf buf chunk start.nonneg start.le⟩
  rw [← quiet_iff kbuf buf sizes start.nonneg start.le]
  constructor
  · intro h c hc
    exact ⟨h.zero c hc, h.atEnd c hc⟩
  · intro h
    exact ⟨readCalls_pieces kbuf buf sizes start.nonneg start.le, fun c hc => (h c hc).1,
      fun c hc => (h c hc).2⟩

/-- A file at the end of a buffer of ten pages, and a read of one byte : `-ENOSPC`, in place
of `0`. So too for a read of no bytes at the start of the file. -/
theorem not_stream_at_end :
    ¬StreamOk .x86 (fun _ => 7) (fun _ => 0) 40960 [1] ∧
      ¬StreamOk .x86 (fun _ => 7) (fun _ => 0) 0 [0] ∧
      ¬ReadsToEnd .x86 (fun _ => 7) (fun _ => 0) (fun _ => ⟨4096, by decide⟩) 0 := by
  refine ⟨fun h => ?_, fun h => ?_, not_readsToEnd _ _ _ (by decide) (by decide)⟩
  · exact absurd (h.atEnd _ (List.mem_singleton_self _) rfl) (by decide)
  · exact absurd (h.zero _ (List.mem_singleton_self _) rfl).1 (by decide)

end KernelExamples.Streams
