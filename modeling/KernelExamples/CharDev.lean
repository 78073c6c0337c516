import KernelExamples.Kernel

/-!
# Character drivers over one buffer

What the `read`, `write` and `llseek` handlers of the drivers in `char_dev` share. A
handler works on `kbuf` at the position `*ppos`. It asks for a number of bytes, copies
them to or from user memory, and advances the position by the number copied
(`copyOut`, `copyIn`). `mydynamic` and `mydynamic_udev` cut the count at the end of the
buffer (`bytesToDo`), in `int` arithmetic compared with a `size_t`. Inside the buffer
that is the minimum of the two (`bytesToDo_eq_min`).

`Io` is what one call returns and leaves, with the bytes of `kbuf` it asks for. Those are the
bytes it copies, up to a fault, and no other byte changes (`copiesOut_copyOut`,
`copiesIn_copyIn`).
-/

namespace KernelExamples

open CInt Mem

/-- What a `read` or `write` handler returns and leaves. `start` and `len` are the bytes of
`kbuf` it asks to copy. -/
structure Io where
  ret : ℤ
  ppos : ℤ
  kbuf : Bytes
  buf : Bytes
  start : ℤ
  len : ℤ

/-- The call touches no byte outside a buffer of `size` bytes. -/
def Io.InBounds (io : Io) (size : ℤ) : Prop :=
  ∀ a, io.start ≤ a → a < io.start + io.len → 0 ≤ a ∧ a < size

/-- `bytes_to_do = maxbytes > lbuf ? lbuf : maxbytes`, with `maxbytes` an `int`. -/
def bytesToDo (maxbytes lbuf : ℤ) : ℤ :=
  int32 (if uint64 maxbytes > lbuf then lbuf else uint64 maxbytes)

/-- `nbytes = n - copy_to_user(buf, kbuf + *ppos, n); *ppos += nbytes; return nbytes`. -/
def copyOut (kbuf buf : Bytes) (ppos n : ℤ) (fault : ℕ) : Io :=
  let nbytes := int32 (uint64 (n - uncopied fault n))
  ⟨nbytes, int64 (ppos + nbytes), kbuf, copyToUser buf kbuf ppos n fault, ppos, n⟩

/-- `nbytes = n - copy_from_user(kbuf + *ppos, buf, n); *ppos += nbytes; return nbytes`. -/
def copyIn (kbuf buf : Bytes) (ppos n : ℤ) (fault : ℕ) : Io :=
  let nbytes := int32 (uint64 (n - uncopied fault n))
  ⟨nbytes, int64 (ppos + nbytes), copyFromUser kbuf ppos buf n fault, buf, ppos, n⟩

/-- A read copies the bytes it asks for, up to the fault, to the start of the user buffer, and
changes nothing else. -/
structure Io.CopiesOut (kbuf buf : Bytes) (fault : ℕ) (io : Io) : Prop where
  kbuf_eq : io.kbuf = kbuf
  buf_eq : ∀ a, io.buf a =
    if 0 ≤ a ∧ a < io.len - uncopied fault io.len then kbuf (io.start + a) else buf a

/-- A write stores the user's bytes where it asks for them, zeros from the fault on, and changes
nothing else. -/
structure Io.CopiesIn (kbuf buf : Bytes) (fault : ℕ) (io : Io) : Prop where
  buf_eq : io.buf = buf
  kbuf_eq : ∀ a, io.kbuf a =
    if io.start ≤ a ∧ a < io.start + (io.len - uncopied fault io.len) then buf (a - io.start)
    else if io.start ≤ a ∧ a < io.start + io.len then 0
    else kbuf a

/-- The `switch` of `llseek` : where the seek asks to go, if `orig` is known. -/
def seekTarget (kbufSize fPos offset orig : ℤ) : Option ℤ :=
  if orig = 0 then some offset
  else if orig = 1 then some (int64 (fPos + offset))
  else if orig = 2 then some (int64 (uint64 (kbufSize + offset)))
  else none

/-- The two clamps of `llseek`. `KBUF_SIZE` is unsigned, so the first comparison is. -/
def seekClamp (kbufSize testpos : ℤ) : ℤ :=
  let testpos := int64 (if uint64 testpos < kbufSize then uint64 testpos else kbufSize)
  if testpos ≥ 0 then testpos else 0

/-- `llseek` of `mydynamic` and `mychar` : the result and the new `f_pos`. -/
def lseek (kbufSize fPos offset orig : ℤ) : ℤ × ℤ :=
  match seekTarget kbufSize fPos offset orig with
  | some testpos => (seekClamp kbufSize testpos, seekClamp kbufSize testpos)
  | none => (-EINVAL, fPos)

/-! ## Inside the buffer -/

theorem bytesToDo_eq_min {maxbytes lbuf : ℤ} (h : 0 ≤ maxbytes) (h' : maxbytes < 2 ^ 31)
    (hl : 0 ≤ lbuf) : bytesToDo maxbytes lbuf = min lbuf maxbytes := by
  unfold bytesToDo
  rw [uint64_of_mem h (by omega)]
  split_ifs with hlt
  · rw [int32_of_mem (by omega) (by omega), min_eq_left (by omega)]
  · rw [int32_of_mem (by omega) h', min_eq_right (by omega)]

theorem copiesOut_copyOut (kbuf buf : Bytes) (ppos n : ℤ) (fault : ℕ) :
    (copyOut kbuf buf ppos n fault).CopiesOut kbuf buf fault :=
  ⟨rfl, copyToUser_apply buf kbuf ppos n fault⟩

theorem copiesIn_copyIn (kbuf buf : Bytes) (ppos : ℤ) {n : ℤ} (hn : 0 ≤ n) (fault : ℕ) :
    (copyIn kbuf buf ppos n fault).CopiesIn kbuf buf fault :=
  ⟨rfl, copyFromUser_apply kbuf ppos buf hn fault⟩

section Copy

variable {n : ℤ} (hn : 0 ≤ n) (hn' : n < 2 ^ 31) (fault : ℕ)

include hn hn'

/-- The number of bytes copied, as an `int`. -/
theorem nbytes_eq : int32 (uint64 (n - uncopied fault n)) = n - uncopied fault n := by
  have h := uncopied_nonneg fault hn
  have h' := uncopied_le fault n
  rw [uint64_of_mem (by omega) (by omega), int32_of_mem (by omega) (by omega)]

/-- A copy returns between `0` and the count, and advances the position by what it
returns. -/
theorem copyOut_spec (kbuf buf : Bytes) {ppos : ℤ} (hp : 0 ≤ ppos) (hp' : ppos < 2 ^ 31) :
    (copyOut kbuf buf ppos n fault).ret = n - uncopied fault n ∧
      (copyOut kbuf buf ppos n fault).ppos = ppos + (n - uncopied fault n) := by
  have h := uncopied_nonneg fault hn
  have h' := uncopied_le fault n
  refine ⟨nbytes_eq hn hn' fault, ?_⟩
  simp only [copyOut, nbytes_eq hn hn' fault]
  exact int64_of_mem (by omega) (by omega)

theorem copyIn_spec (kbuf buf : Bytes) {ppos : ℤ} (hp : 0 ≤ ppos) (hp' : ppos < 2 ^ 31) :
    (copyIn kbuf buf ppos n fault).ret = n - uncopied fault n ∧
      (copyIn kbuf buf ppos n fault).ppos = ppos + (n - uncopied fault n) :=
  copyOut_spec hn hn' fault kbuf buf hp hp'

/-- Without a fault all the bytes are copied. -/
theorem copyOut_zero (kbuf buf : Bytes) {ppos : ℤ} (hp : 0 ≤ ppos) (hp' : ppos < 2 ^ 31) :
    copyOut kbuf buf ppos n 0 = ⟨n, ppos + n, kbuf, memcpy buf 0 kbuf ppos n, ppos, n⟩ := by
  obtain ⟨hret, hpos⟩ := copyOut_spec hn hn' 0 kbuf buf hp hp'
  rw [uncopied_zero hn, sub_zero] at hret hpos
  rw [← hpos]
  nth_rewrite 2 [← hret]
  simp only [copyOut, copyToUser, uncopied_zero hn, sub_zero]

theorem copyIn_zero (kbuf buf : Bytes) {ppos : ℤ} (hp : 0 ≤ ppos) (hp' : ppos < 2 ^ 31) :
    copyIn kbuf buf ppos n 0 = ⟨n, ppos + n, memcpy kbuf ppos buf 0 n, buf, ppos, n⟩ := by
  obtain ⟨hret, hpos⟩ := copyIn_spec hn hn' 0 kbuf buf hp hp'
  rw [uncopied_zero hn, sub_zero] at hret hpos
  rw [← hpos]
  nth_rewrite 2 [← hret]
  simp only [copyIn, copyFromUser, uncopied_zero hn, sub_zero, memcpy_of_nonpos le_rfl]

end Copy

/-- Every target is sent into the buffer. -/
theorem seekClamp_mem {kbufSize : ℤ} (h : 0 ≤ kbufSize) (h' : kbufSize < 2 ^ 31) (testpos : ℤ) :
    0 ≤ seekClamp kbufSize testpos ∧ seekClamp kbufSize testpos ≤ kbufSize := by
  have hnonneg := uint64_nonneg testpos
  unfold seekClamp
  split_ifs with hlt
  · rw [int64_of_mem (by omega) (by omega)]
    simp only [ge_iff_le, hnonneg, if_true]
    exact ⟨trivial, hlt.le⟩
  · rw [int64_of_mem (by omega) (by omega)]
    simp only [ge_iff_le, h, if_true]
    exact ⟨trivial, le_rfl⟩

theorem lseek_mem {kbufSize fPos : ℤ} (h : 0 ≤ kbufSize) (h' : kbufSize < 2 ^ 31)
    (hp : 0 ≤ fPos ∧ fPos ≤ kbufSize) (offset orig : ℤ) :
    0 ≤ (lseek kbufSize fPos offset orig).2 ∧ (lseek kbufSize fPos offset orig).2 ≤ kbufSize := by
  unfold lseek
  cases seekTarget kbufSize fPos offset orig with
  | some testpos => exact seekClamp_mem h h' testpos
  | none => exact hp

/-- A seek with an unknown `orig` is refused and moves nothing. -/
theorem lseek_of_unknown {kbufSize fPos offset orig : ℤ} (h : orig ≠ 0 ∧ orig ≠ 1 ∧ orig ≠ 2) :
    lseek kbufSize fPos offset orig = (-EINVAL, fPos) := by
  simp [lseek, seekTarget, h]

end KernelExamples
