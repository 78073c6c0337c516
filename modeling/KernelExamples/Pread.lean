import KernelExamples.MyDynamic
import KernelExamples.MyDynamicUdev

/-!
# Access at any position

`pread` and `pwrite` hand a driver a position of their own, which may be past the end of
the buffer. `KBUF_SIZE - *ppos` is then narrowed to an `int` and compared as a `size_t` : a
negative rest counts as a large one, and clamps nothing (`bytesToDo_eq`). A call at such a
position reaches out of the buffer unless it asks for no byte, or the rest is narrowed to
`0` (`outside_iff`).

`positional_iff` is that for the four handlers of `mydynamic` and `mydynamic_udev`. What they
return is between `0` and `lbuf` at any position, or `-ENOSPC`.
-/

namespace KernelExamples.Pread

open CInt Mem

/-- The call stays in a buffer of `size` bytes, and returns an error or at most `lbuf`. -/
def Positional (size lbuf : ℤ) (io : Io) : Prop :=
  io.InBounds size ∧ (io.ret < 0 ∨ (0 ≤ io.ret ∧ io.ret ≤ lbuf))

/-- `convert`, which runs over the bytes the call returns, stays in the buffer. -/
def ConvertInBounds (size : ℤ) (io : Io) : Prop :=
  ∀ a, io.start ≤ a → a < io.start + io.ret → 0 ≤ a ∧ a < size

/-- The position is in the buffer or at its end, or no byte is asked for, or the position
is past the end by a multiple of `2 ^ 32`. -/
def NothingPastEnd (size ppos lbuf : ℤ) : Prop :=
  ppos ≤ size ∨ lbuf = 0 ∨ (ppos - size) % 2 ^ 32 = 0

/-! ## The count -/

/-- A rest that is negative as an `int` clamps nothing. -/
theorem bytesToDo_eq {A : Arch} {m : ℤ} (hm : -2 ^ 31 ≤ m) (hm' : m < 2 ^ 31)
    (lbuf : RwCount A) :
    bytesToDo m lbuf.val = if m < 0 then lbuf.val else min lbuf.val m := by
  have hnonneg := lbuf.nonneg
  have hlt := lbuf.lt
  split_ifs with hneg
  · have huint : uint64 m = m + 2 ^ 64 := by
      unfold uint64
      omega
    rw [bytesToDo, huint, if_pos (by omega), int32_of_mem (by omega) hlt]
  · exact bytesToDo_eq_min (by omega) hm' hnonneg

section Count

variable {A : Arch} (size : ℤ) (ppos : FilePos) (lbuf : RwCount A)

/-- The bytes a handler asks for at `ppos`. -/
def count : ℤ := bytesToDo (int32 (size - ppos.val)) lbuf.val

theorem count_eq : count size ppos lbuf =
    if int32 (size - ppos.val) < 0 then lbuf.val
    else min lbuf.val (int32 (size - ppos.val)) :=
  bytesToDo_eq (by unfold int32; omega) (by unfold int32; omega) lbuf

theorem count_mem : 0 ≤ count size ppos lbuf ∧ count size ppos lbuf ≤ lbuf.val := by
  have hnonneg := lbuf.nonneg
  rw [count_eq]
  split_ifs <;> omega

variable {size}

/-- Past the end, a handler asks for nothing exactly when it is asked for nothing or the
rest is narrowed to `0`. -/
theorem count_eq_zero_iff (h : size < ppos.val) :
    count size ppos lbuf = 0 ↔ NothingPastEnd size ppos.val lbuf.val := by
  have hnonneg := lbuf.nonneg
  have hzero : int32 (size - ppos.val) = 0 ↔ (ppos.val - size) % 2 ^ 32 = 0 := by
    unfold int32
    omega
  rw [count_eq, NothingPastEnd, ← hzero]
  split_ifs with hneg
  · omega
  · omega

/-- The bytes asked for are in the buffer exactly when none of them is past the end. -/
theorem outside_iff (hsize : 0 ≤ size) (hsize' : size < 2 ^ 31) :
    (∀ a, ppos.val ≤ a → a < ppos.val + count size ppos lbuf → 0 ≤ a ∧ a < size) ↔
      NothingPastEnd size ppos.val lbuf.val := by
  have hp := ppos.nonneg
  have hcount := count_mem size ppos lbuf
  rcases le_or_gt ppos.val size with hle | hgt
  · refine iff_of_true (fun a ha ha' => ?_) (Or.inl hle)
    have hn := count_eq size ppos lbuf
    rw [int32_of_mem (by omega) (by omega), if_neg (by omega)] at hn
    omega
  · rw [← count_eq_zero_iff ppos lbuf hgt]
    constructor
    · intro h
      by_contra hne
      have := (h ppos.val le_rfl (by omega)).2
      omega
    · intro h a ha ha'
      omega

/-! ## The handlers -/

/-- A handler that asks for `count` bytes at `ppos`, and returns an error or at most that. -/
structure AsksAt (size : ℤ) (ppos : FilePos) (lbuf : RwCount A) (io : Io) : Prop where
  start : io.start = ppos.val
  len : io.len = count size ppos lbuf
  ret : io.ret < 0 ∨ (0 ≤ io.ret ∧ io.ret ≤ count size ppos lbuf)

theorem asksAt_copyOut (size : ℤ) (kbuf buf : Bytes) (fault : ℕ) :
    AsksAt size ppos lbuf (copyOut kbuf buf ppos.val (uint64 (count size ppos lbuf)) fault) := by
  obtain ⟨hnonneg, hle⟩ := count_mem size ppos lbuf
  have hlt := lbuf.lt
  rw [uint64_of_mem hnonneg (by omega)]
  refine ⟨rfl, rfl, Or.inr ?_⟩
  have h := uncopied_nonneg fault hnonneg
  have h' := uncopied_le fault (count size ppos lbuf)
  simp only [copyOut, nbytes_eq hnonneg (by omega) fault]
  omega

/-- `copyIn` asks and returns like `copyOut`. -/
theorem asksAt_copyIn (size : ℤ) (kbuf buf : Bytes) (fault : ℕ) :
    AsksAt size ppos lbuf (copyIn kbuf buf ppos.val (uint64 (count size ppos lbuf)) fault) := by
  obtain ⟨hstart, hlen, hret⟩ := asksAt_copyOut ppos lbuf size kbuf buf fault
  exact ⟨hstart, hlen, hret⟩

variable {ppos lbuf} {io : Io}

/-- Such a handler is fine exactly when nothing is asked for past the end. -/
theorem positional_iff_of_asksAt (hsize : 0 ≤ size) (hsize' : size < 2 ^ 31)
    (h : AsksAt size ppos lbuf io) :
    Positional size lbuf.val io ↔ NothingPastEnd size ppos.val lbuf.val := by
  rw [← outside_iff ppos lbuf hsize hsize', Positional, Io.InBounds, h.start, h.len]
  refine and_iff_left (h.ret.imp id fun hret => ?_)
  exact ⟨hret.1, hret.2.trans (count_mem size ppos lbuf).2⟩

/-- The bytes `convert` runs over are among those asked for. -/
theorem convertInBounds_of_asksAt (h : AsksAt size ppos lbuf io)
    (hio : Positional size lbuf.val io) : ConvertInBounds size io := by
  intro a ha ha'
  refine hio.1 a ha ?_
  have hret := h.ret
  have hlen := h.len
  omega

end Count

section Handlers

variable (A : Arch) (ppos : FilePos) (lbuf : RwCount A) (kbuf buf : Bytes) (fault : ℕ)

theorem asksAt_mycdrvRead : AsksAt (MyDynamic.kbufSize A) ppos lbuf
    (MyDynamic.mycdrvRead A kbuf buf lbuf.val ppos.val fault) := by
  rw [MyDynamic.mycdrvRead, MyDynamic.maxbytes, int32_uint64]
  exact asksAt_copyOut ppos lbuf _ kbuf buf fault

theorem asksAt_mycdrvWrite : AsksAt (MyDynamic.kbufSize A) ppos lbuf
    (MyDynamic.mycdrvWrite A kbuf buf lbuf.val ppos.val fault) := by
  rw [MyDynamic.mycdrvWrite, MyDynamic.maxbytes, int32_uint64]
  exact asksAt_copyIn ppos lbuf _ kbuf buf fault

theorem asksAt_myRead : AsksAt (MyDynamicUdev.kbufSize A) ppos lbuf
    (MyDynamicUdev.myRead A kbuf buf lbuf.val ppos.val fault) := by
  rw [MyDynamicUdev.myRead, MyDynamicUdev.maxbytes, int32_int64]
  split_ifs with hzero
  · exact ⟨rfl, hzero.symm, Or.inl (show -ENOSPC < 0 from by decide)⟩
  · exact asksAt_copyOut ppos lbuf _ kbuf buf fault

theorem asksAt_myWrite (minor : ℤ) : AsksAt (MyDynamicUdev.kbufSize A) ppos lbuf
    (MyDynamicUdev.myWrite A minor kbuf buf lbuf.val ppos.val fault) := by
  rw [MyDynamicUdev.myWrite, MyDynamicUdev.maxbytes, int32_int64]
  dsimp only
  split_ifs with hzero
  · exact ⟨rfl, hzero.symm, Or.inl (show -ENOSPC < 0 from by decide)⟩
  · obtain ⟨hstart, hlen, hret⟩ :=
      asksAt_copyIn ppos lbuf (MyDynamicUdev.kbufSize A) kbuf buf fault
    exact ⟨hstart, hlen, hret⟩

/-- The four handlers, at a position and a count, whatever the copies do : each stays in the
buffer and returns an error or at most `lbuf`. -/
structure AllPositional (minor : ℤ) : Prop where
  mycdrvRead : ∀ kbuf buf fault, Positional (MyDynamic.kbufSize A) lbuf.val
    (MyDynamic.mycdrvRead A kbuf buf lbuf.val ppos.val fault)
  mycdrvWrite : ∀ kbuf buf fault, Positional (MyDynamic.kbufSize A) lbuf.val
    (MyDynamic.mycdrvWrite A kbuf buf lbuf.val ppos.val fault)
  myRead : ∀ kbuf buf fault, Positional (MyDynamicUdev.kbufSize A) lbuf.val
    (MyDynamicUdev.myRead A kbuf buf lbuf.val ppos.val fault)
  myWrite : ∀ kbuf buf fault, Positional (MyDynamicUdev.kbufSize A) lbuf.val
      (MyDynamicUdev.myWrite A minor kbuf buf lbuf.val ppos.val fault) ∧
    ConvertInBounds (MyDynamicUdev.kbufSize A)
      (MyDynamicUdev.myWrite A minor kbuf buf lbuf.val ppos.val fault)

theorem kbufSize_udev_eq : MyDynamicUdev.kbufSize A = MyDynamic.kbufSize A := by
  rw [MyDynamic.kbufSize_eq, MyDynamicUdev.kbufSize_eq]

end Handlers

/-- At every position and for every count, the handlers of both drivers stay in the buffer
exactly when nothing is asked for past its end. -/
theorem positional_iff (A : Arch) (ppos : FilePos) (lbuf : RwCount A) (minor : ℤ) :
    AllPositional A ppos lbuf minor ↔
      NothingPastEnd (MyDynamic.kbufSize A) ppos.val lbuf.val := by
  obtain ⟨hsize, hsize'⟩ := MyDynamic.kbufSize_mem A
  have hudev := kbufSize_udev_eq A
  constructor
  · intro h
    exact (positional_iff_of_asksAt hsize hsize'
      (asksAt_mycdrvRead A ppos lbuf (fun _ => 0) (fun _ => 0) 0)).1 (h.mycdrvRead _ _ _)
  · intro h
    have h' : NothingPastEnd (MyDynamicUdev.kbufSize A) ppos.val lbuf.val := by rwa [hudev]
    rw [← hudev] at hsize hsize'
    refine ⟨fun kbuf buf fault => ?_, fun kbuf buf fault => ?_, fun kbuf buf fault => ?_,
      fun kbuf buf fault => ?_⟩
    · exact (positional_iff_of_asksAt (hudev ▸ hsize) (hudev ▸ hsize')
        (asksAt_mycdrvRead A ppos lbuf kbuf buf fault)).2 h
    · exact (positional_iff_of_asksAt (hudev ▸ hsize) (hudev ▸ hsize')
        (asksAt_mycdrvWrite A ppos lbuf kbuf buf fault)).2 h
    · exact (positional_iff_of_asksAt hsize hsize' (asksAt_myRead A ppos lbuf kbuf buf fault)).2 h'
    · have hasks := asksAt_myWrite A ppos lbuf kbuf buf fault minor
      have hio := (positional_iff_of_asksAt hsize hsize' hasks).2 h'
      exact ⟨hio, convertInBounds_of_asksAt hasks hio⟩

/-- One byte past the end of ten pages of 4 KiB. -/
theorem not_positional_past_end : ¬AllPositional .x86 ⟨40961, by decide, by decide⟩
    ⟨1, by decide, by decide⟩ 0 := by
  intro h
  have := ((h.mycdrvRead (fun _ => 0) (fun _ => 0) 0).1 40961 (by decide) (by decide)).2
  revert this
  decide

end KernelExamples.Pread
