import KernelExamples.CharDev

/-!
# The driver with a dynamic number

`char_dev/mydynamic.c`. `KBUF_SIZE` is a `size_t`, so `KBUF_SIZE - *ppos` is unsigned and
is then narrowed to an `int`. While the position is in the buffer none of the conversions
of a `read` or `write` changes a value (`bytesToDo_maxbytes`), and a seek puts it back in
the buffer whatever the offset. `mydynamic_in_bounds` is that for every sequence of calls
on one file.
-/

namespace KernelExamples.MyDynamic

open CInt Mem

variable (A : Arch)

/-- `KBUF_SIZE`. -/
def kbufSize : ℤ := uint64 (10 * A.pageSize)

/-- `maxbytes = KBUF_SIZE - *ppos`. -/
def maxbytes (ppos : ℤ) : ℤ := int32 (uint64 (kbufSize A - ppos))

/-- `mycdrv_read`. -/
def mycdrvRead (kbuf buf : Bytes) (lbuf ppos : ℤ) (fault : ℕ) : Io :=
  copyOut kbuf buf ppos (uint64 (bytesToDo (maxbytes A ppos) lbuf)) fault

/-- `mycdrv_write`. -/
def mycdrvWrite (kbuf buf : Bytes) (lbuf ppos : ℤ) (fault : ℕ) : Io :=
  copyIn kbuf buf ppos (uint64 (bytesToDo (maxbytes A ppos) lbuf)) fault

/-- `mycdrv_lseek` : the result and the new `f_pos`. -/
def mycdrvLseek (fPos offset orig : ℤ) : ℤ × ℤ := lseek (kbufSize A) fPos offset orig

/-! ## Sequences of calls -/

/-- A call on the file. -/
inductive Call
  | lseek (offset : Loff) (orig : ℤ)
  | read (buf : Bytes) (lbuf : RwCount A) (fault : ℕ)
  | write (buf : Bytes) (lbuf : RwCount A) (fault : ℕ)

/-- The position of the file and the buffer of the driver. -/
structure State where
  fPos : ℤ
  kbuf : Bytes

variable {A}

/-- The file and the buffer after the call. -/
def next (s : State) : Call A → State
  | .lseek offset orig => { s with fPos := (mycdrvLseek A s.fPos offset.val orig).2 }
  | .read buf lbuf fault => { s with fPos := (mycdrvRead A s.kbuf buf lbuf.val s.fPos fault).ppos }
  | .write buf lbuf fault =>
    let io := mycdrvWrite A s.kbuf buf lbuf.val s.fPos fault
    ⟨io.ppos, io.kbuf⟩

/-- The value the call returns, and the user buffer after a `read`. -/
def answer (s : State) : Call A → ℤ × Option Bytes
  | .lseek offset orig => ((mycdrvLseek A s.fPos offset.val orig).1, none)
  | .read buf lbuf fault =>
    let io := mycdrvRead A s.kbuf buf lbuf.val s.fPos fault
    (io.ret, some io.buf)
  | .write buf lbuf fault => ((mycdrvWrite A s.kbuf buf lbuf.val s.fPos fault).ret, none)

/-- The position is in the buffer. -/
def InBuffer (A : Arch) (s : State) : Prop := 0 ≤ s.fPos ∧ s.fPos ≤ kbufSize A

/-- A `read` or `write` of at most `lbuf` bytes from `fPos` that stays in the buffer and
reports what it did. -/
structure Served (A : Arch) (fPos lbuf : ℤ) (io : Io) : Prop where
  inBounds : io.InBounds (kbufSize A)
  ret_nonneg : 0 ≤ io.ret
  ret_le : io.ret ≤ lbuf
  advance : io.ppos = fPos + io.ret

/-- The call does what its caller expects in the state `s`. -/
def Sound (s : State) : Call A → Prop
  | .lseek offset orig => orig ≠ 0 ∧ orig ≠ 1 ∧ orig ≠ 2 →
      (mycdrvLseek A s.fPos offset.val orig).1 = -EINVAL ∧ next s (.lseek offset orig : Call A) = s
  | .read buf lbuf fault =>
      Served A s.fPos lbuf.val (mycdrvRead A s.kbuf buf lbuf.val s.fPos fault)
  | .write buf lbuf fault =>
      Served A s.fPos lbuf.val (mycdrvWrite A s.kbuf buf lbuf.val s.fPos fault)

/-! ## The position stays in the buffer -/

variable (A) in
theorem kbufSize_eq : kbufSize A = 10 * A.pageSize := by
  have h := A.le_pageSize
  have h' := A.pageSize_le
  exact uint64_of_mem (by omega) (by omega)

variable (A) in
theorem kbufSize_mem : 0 ≤ kbufSize A ∧ kbufSize A < 2 ^ 31 := by
  have h := A.le_pageSize
  have h' := A.pageSize_le
  rw [kbufSize_eq]
  omega

section InBuffer

variable {ppos : ℤ} (hp : 0 ≤ ppos) (hp' : ppos ≤ kbufSize A) (lbuf : RwCount A)

include hp hp'

/-- In the buffer the count is the minimum of what is asked and what is left. -/
theorem bytesToDo_maxbytes {lbuf : ℤ} (hl : 0 ≤ lbuf) :
    uint64 (bytesToDo (maxbytes A ppos) lbuf) = min lbuf (kbufSize A - ppos) := by
  have hsize := kbufSize_mem A
  have hmax : maxbytes A ppos = kbufSize A - ppos := by
    unfold maxbytes
    rw [uint64_of_mem (by omega) (by omega), int32_of_mem (by omega) (by omega)]
  have hnonneg : 0 ≤ min lbuf (kbufSize A - ppos) := le_min hl (by omega)
  have hlt : min lbuf (kbufSize A - ppos) < 2 ^ 31 := min_lt_of_right_lt (by omega)
  rw [hmax, bytesToDo_eq_min (by omega) (by omega) hl, uint64_of_mem hnonneg (by omega)]

/-- A copy of that count is served, and ends in the buffer. -/
theorem served_of_copy {n : ℤ} (hn : n = min lbuf.val (kbufSize A - ppos)) (fault : ℕ) {io : Io}
    (hstart : io.start = ppos) (hlen : io.len = n) (hret : io.ret = n - uncopied fault n)
    (hpos : io.ppos = ppos + (n - uncopied fault n)) :
    Served A ppos lbuf.val io ∧ 0 ≤ io.ppos ∧ io.ppos ≤ kbufSize A := by
  have hnonneg : 0 ≤ n := hn ▸ le_min lbuf.nonneg (by omega)
  have hle : n ≤ lbuf.val := hn ▸ min_le_left _ _
  have hle' : n ≤ kbufSize A - ppos := hn ▸ min_le_right _ _
  have h := uncopied_nonneg fault hnonneg
  have h' := uncopied_le fault n
  refine ⟨⟨?_, by omega, by omega, by omega⟩, by omega, by omega⟩
  intro a ha ha'
  omega

theorem served_mycdrvRead (kbuf buf : Bytes) (fault : ℕ) :
    Served A ppos lbuf.val (mycdrvRead A kbuf buf lbuf.val ppos fault) ∧
      0 ≤ (mycdrvRead A kbuf buf lbuf.val ppos fault).ppos ∧
      (mycdrvRead A kbuf buf lbuf.val ppos fault).ppos ≤ kbufSize A := by
  have hn := bytesToDo_maxbytes hp hp' lbuf.nonneg
  have hsize := kbufSize_mem A
  have hlt := lbuf.lt
  have hnonneg := lbuf.nonneg
  obtain ⟨hret, hpos⟩ := copyOut_spec (n := uint64 (bytesToDo (maxbytes A ppos) lbuf.val))
    (by omega) (by omega) fault kbuf buf hp (by omega)
  exact served_of_copy hp hp' lbuf hn fault rfl rfl hret hpos

/-- A write returns and moves like a read. -/
theorem served_mycdrvWrite (kbuf buf : Bytes) (fault : ℕ) :
    Served A ppos lbuf.val (mycdrvWrite A kbuf buf lbuf.val ppos fault) ∧
      0 ≤ (mycdrvWrite A kbuf buf lbuf.val ppos fault).ppos ∧
      (mycdrvWrite A kbuf buf lbuf.val ppos fault).ppos ≤ kbufSize A := by
  obtain ⟨⟨hin, hnonneg, hle, hadvance⟩, hpos⟩ := served_mycdrvRead hp hp' lbuf kbuf buf fault
  exact ⟨⟨hin, hnonneg, hle, hadvance⟩, hpos⟩

end InBuffer

/-- A call keeps the position in the buffer. -/
theorem inBuffer_next {s : State} (hs : InBuffer A s) (c : Call A) : InBuffer A (next s c) := by
  cases c with
  | lseek offset orig =>
    exact lseek_mem (kbufSize_mem A).1 (kbufSize_mem A).2 hs offset.val orig
  | read buf lbuf fault => exact (served_mycdrvRead hs.1 hs.2 lbuf s.kbuf buf fault).2
  | write buf lbuf fault => exact (served_mycdrvWrite hs.1 hs.2 lbuf s.kbuf buf fault).2

theorem sound_of_inBuffer {s : State} (hs : InBuffer A s) (c : Call A) : Sound s c := by
  cases c with
  | lseek offset orig =>
    intro horig
    have h : mycdrvLseek A s.fPos offset.val orig = (-EINVAL, s.fPos) := lseek_of_unknown horig
    exact ⟨by rw [h], by simp only [next, h]⟩
  | read buf lbuf fault => exact (served_mycdrvRead hs.1 hs.2 lbuf s.kbuf buf fault).1
  | write buf lbuf fault => exact (served_mycdrvWrite hs.1 hs.2 lbuf s.kbuf buf fault).1

/-- After any sequence of calls on a file opened at `0`, the position is in the buffer and
the next call, whatever it is, does what its caller expects. -/
theorem mydynamic_in_bounds (kbuf : Bytes) (calls : List (Call A)) (c : Call A) :
    InBuffer A (calls.foldl next ⟨0, kbuf⟩) ∧ Sound (calls.foldl next ⟨0, kbuf⟩) c := by
  have h : InBuffer A (calls.foldl next ⟨0, kbuf⟩) :=
    List.foldlRecOn calls next ⟨le_rfl, (kbufSize_mem A).1⟩ fun _ hs c _ => inBuffer_next hs c
  exact ⟨h, sound_of_inBuffer h c⟩

end KernelExamples.MyDynamic
