import KernelExamples.Kernel
import KernelExamples.Text

/-!
# Reading and writing a proc node

What `my_proc_read` and `my_proc_write` of `my_proc.c`, `my_new_proc.c`, `sig_proc.c` and
`task_proc.c` have in common. A read formats a value into a local array, and then does
the same in all of them (`procRead`) : nothing if `*offset` is past the text, else it moves
`*offset` past the text and copies the text to the user buffer. `len` is not looked at.

A write copies the user's bytes to a block of that size (`WriteCall.copied`) and hands the
block to `sscanf`, which reads on past its end if no byte of it is a NUL.

`reads` is one reader who calls read again and again, and `collected` the bytes it has got
by the first fault or the first `0`. `Pieces` is what such a reader expects, for any sizes
of its buffer. The first read gives the whole text and all others nothing
(`reads_procRead`), so the expectation is met exactly when what the first read copies fits
the first buffer (`pieces_iff`).
-/

namespace KernelExamples.Proc

open CInt Text

/-- The text of `sprintf(data, "%d\n", n)`. -/
def line (n : Int32) : List UInt8 := decimal n ++ [10]

theorem length_line_le (n : Int32) : (line n).length ≤ 12 := by
  have := length_decimal_le n
  rw [line, List.length_append, List.length_singleton]
  omega

/-! ## A read -/

/-- A call of read : the value returned, `*offset` after it, the bytes stored from the start
of the user buffer, and the result of `copy_to_user`, `0` if it was not called. -/
structure ReadResult where
  ret : ℤ
  offset : ℤ
  stored : List UInt8
  left : ℤ

/-- The end of `my_proc_read`, with the text in `data`. `*offset` is compared as a
`size_t`. -/
def procRead (data : List UInt8) (_len : ℕ) (offset : ℤ) (fault : ℕ) : ReadResult :=
  if (data.length : ℤ) < uint64 offset then ⟨0, offset, [], 0⟩
  else
    let left := uncopied fault data.length
    ⟨int64 (uint64 (data.length - left)), data.length + 1,
      data.take (data.length - left).toNat, left⟩

/-! ## A write -/

/-- A call of write : the user's bytes, how many of them `copy_from_user` cannot copy, and
what memory holds after the block of `kmalloc(count)`. -/
structure WriteCall where
  text : List UInt8
  fault : ℕ
  after : List UInt8

def WriteCall.count (w : WriteCall) : ℤ := w.text.length

/-- What `sscanf` finds at `str`, or `none` if `copy_from_user` leaves bytes uncopied. -/
def WriteCall.copied (w : WriteCall) : Option (List UInt8) :=
  if uncopied w.fault w.count ≠ 0 then none else some (w.text ++ w.after)

/-- The number the bytes start with, if the copy succeeds and they start with one. -/
def WriteCall.number (w : WriteCall) : Option Int32 := w.copied.bind scanInt

/-- A text with its NUL is read as such, whatever follows the block. -/
theorem WriteCall.scanInt_of_copied {w : WriteCall} (hnul : 0 ∈ w.text) {str : List UInt8}
    (h : w.copied = some str) : scanInt str = scanInt w.text := by
  rw [WriteCall.copied] at h
  split_ifs at h
  rw [← Option.some.inj h, scanInt_append (ends_of_nul hnul)]

/-! ## A reader -/

/-- The size of the buffer for a read, and the bytes `copy_to_user` cannot copy in it. -/
structure Request where
  len : ℕ
  fault : ℕ

/-- The reads of one reader, from `offset`. -/
def reads (read : ℕ → ℤ → ℕ → ReadResult) : ℤ → List Request → List (Request × ReadResult)
  | _, [] => []
  | offset, q :: qs =>
    (q, read q.len offset q.fault) :: reads read (read q.len offset q.fault).offset qs

/-- The bytes got by the first fault or the first `0`. -/
def collected : List (Request × ReadResult) → List UInt8
  | [] => []
  | (_, r) :: rest =>
    if r.ret = 0 then []
    else if r.left ≠ 0 then r.stored.take r.ret.toNat
    else r.stored.take r.ret.toNat ++ collected rest

/-- Reading `text` in pieces : no read goes over its buffer, and what is collected is a
part of the text from its start, all of it once a `0` came without a fault. -/
structure Pieces (text : List UInt8) (read : ℕ → ℤ → ℕ → ReadResult) (qs : List Request) :
    Prop where
  fits : ∀ e ∈ reads read 0 qs, e.2.stored.length ≤ e.1.len ∧ e.2.ret ≤ e.1.len
  isPrefix : collected (reads read 0 qs) <+: text
  whole : (∀ e ∈ reads read 0 qs, e.2.left = 0) → (∃ e ∈ reads read 0 qs, e.2.ret = 0) →
    collected (reads read 0 qs) = text

/-- What the first read can copy fits its buffer. -/
def FirstFits (text : List UInt8) (qs : List Request) : Prop :=
  ∀ q ∈ qs.head?, text.length ≤ q.len + q.fault

section Reader

/-- The first read of `data`. The bytes it copies are the first `data.length - fault`. -/
def firstRead (data : List UInt8) (fault : ℕ) : ReadResult :=
  ⟨(data.length - fault : ℕ), data.length + 1, data.take (data.length - fault),
    (min fault data.length : ℕ)⟩

/-- A read at the end mark. -/
def endRead (data : List UInt8) : ReadResult := ⟨0, data.length + 1, [], 0⟩

variable {data : List UInt8} (hlen : data.length < 2 ^ 32)

include hlen

theorem procRead_zero (len fault : ℕ) : procRead data len 0 fault = firstRead data fault := by
  have hleft : uncopied fault data.length = (min fault data.length : ℕ) := by
    rw [uncopied, Nat.cast_min]
  have hcopied : (data.length : ℤ) - (min fault data.length : ℕ) = (data.length - fault : ℕ) := by
    omega
  rw [procRead, if_neg (by simp [uint64])]
  simp only [hleft, hcopied, firstRead, Int.toNat_natCast]
  rw [uint64_of_mem (by omega) (by omega), int64_of_mem (by omega) (by omega)]

theorem procRead_end (len fault : ℕ) :
    procRead data len (data.length + 1) fault = endRead data := by
  rw [procRead, if_pos, endRead]
  rw [uint64_of_mem (by omega) (by omega)]
  omega

theorem reads_end : ∀ qs : List Request,
    reads (procRead data) (data.length + 1) qs = qs.map fun q => (q, endRead data)
  | [] => rfl
  | q :: qs => by
    rw [reads, procRead_end hlen, endRead, reads_end qs]
    rfl

/-- The first read gives what it can copy of the text, and every other read nothing. -/
theorem reads_procRead (q : Request) (qs : List Request) :
    reads (procRead data) 0 (q :: qs) =
      (q, firstRead data q.fault) :: qs.map fun q => (q, endRead data) := by
  rw [reads, procRead_zero hlen, firstRead, reads_end hlen]

/-- A reader gets what its first read copied. -/
theorem collected_procRead (q : Request) (qs : List Request) :
    collected (reads (procRead data) 0 (q :: qs)) = data.take (data.length - q.fault) := by
  have hrest : collected (qs.map fun q => (q, endRead data)) = [] := by
    cases qs <;> simp [collected, endRead]
  rw [reads_procRead hlen, collected, hrest]
  simp only [firstRead, Int.toNat_natCast, List.take_take, min_self, List.append_nil]
  split_ifs with hret hleft
  · rw [Int.natCast_eq_zero.1 hret, List.take_zero]
  · rfl
  · rfl

/-- Reading in pieces works exactly when the first buffer takes what the first read
copies. -/
theorem pieces_iff (qs : List Request) : Pieces data (procRead data) qs ↔ FirstFits data qs := by
  cases qs with
  | nil =>
    refine ⟨fun _ q hq => by simp at hq, fun _ => ⟨?_, ?_, ?_⟩⟩ <;> simp [reads, collected]
  | cons q qs =>
    have hfirst : FirstFits data (q :: qs) ↔ data.length ≤ q.len + q.fault := by
      simp [FirstFits]
    have hmem : (q, firstRead data q.fault) ∈ reads (procRead data) 0 (q :: qs) := by
      rw [reads_procRead hlen]
      exact List.mem_cons_self
    rw [hfirst]
    constructor
    · intro h
      have hret : ((data.length - q.fault : ℕ) : ℤ) ≤ q.len := (h.fits _ hmem).2
      omega
    · intro h
      refine ⟨fun e he => ?_, ?_, fun hleft _ => ?_⟩
      · rw [reads_procRead hlen] at he
        rcases List.mem_cons.1 he with rfl | he
        · simp only [firstRead, List.length_take]
          omega
        · obtain ⟨p, -, rfl⟩ := List.mem_map.1 he
          simp [endRead]
      · rw [collected_procRead hlen]
        exact List.take_prefix _ _
      · have hq : ((min q.fault data.length : ℕ) : ℤ) = 0 := hleft _ hmem
        rw [collected_procRead hlen, List.take_of_length_le]
        omega

end Reader

end KernelExamples.Proc
