import KernelExamples.CInt
import KernelExamples.Memory
import Mathlib.Tactic.NormNum
import Mathlib.Algebra.Order.Ring.Int

/-!
# What the modules take from the kernel

Error numbers, the page size, the largest count the VFS hands to a `read` or `write`
handler, and the copies between kernel and user memory.

A copy between kernel and user memory reports how many bytes it did not copy. The
outcome is an arbitrary number `fault`, cut to the bytes asked for (`uncopied`), so every
number from `0` to the count occurs. `copy_from_user` fills the bytes it did not copy
with zeros.
-/

namespace KernelExamples

open CInt Mem

/-- Memory, from the first byte of a buffer. -/
abbrev Bytes := ℤ → UInt8

def EIO : ℤ := 5
def ENOMEM : ℤ := 12
def EFAULT : ℤ := 14
def EINVAL : ℤ := 22
def ENOSPC : ℤ := 28

/-! ## Pages -/

/-- The page size of the machine, between 4 KiB and 1 MiB. -/
structure Arch where
  pageShift : ℕ
  le_pageShift : 12 ≤ pageShift
  pageShift_le : pageShift ≤ 20

namespace Arch

variable (A : Arch)

/-- `PAGE_SIZE`. -/
def pageSize : ℤ := 2 ^ A.pageShift

/-- `MAX_RW_COUNT`, that is `INT_MAX & PAGE_MASK`. -/
def maxRwCount : ℤ := (2 ^ 31 - 1) - (2 ^ 31 - 1) % A.pageSize

theorem le_pageSize : 2 ^ 12 ≤ A.pageSize :=
  pow_le_pow_right₀ (by norm_num) A.le_pageShift

theorem pageSize_le : A.pageSize ≤ 2 ^ 20 :=
  pow_le_pow_right₀ (by norm_num) A.pageShift_le

theorem maxRwCount_lt : A.maxRwCount < 2 ^ 31 := by
  have h := A.le_pageSize
  have := Int.emod_nonneg (2 ^ 31 - 1) (b := A.pageSize) (by omega)
  unfold maxRwCount
  omega

/-- 4 KiB pages. -/
def x86 : Arch := ⟨12, by decide, by decide⟩

end Arch

/-- A count the VFS passes to a `read` or `write` handler. -/
structure RwCount (A : Arch) where
  val : ℤ
  nonneg : 0 ≤ val
  le : val ≤ A.maxRwCount

theorem RwCount.lt {A : Arch} (n : RwCount A) : n.val < 2 ^ 31 :=
  n.le.trans_lt A.maxRwCount_lt

/-- A file offset. -/
structure Loff where
  val : ℤ
  ge : -2 ^ 63 ≤ val
  lt : val < 2 ^ 63

/-- A file position, as the VFS passes it : an offset that is not negative. -/
structure FilePos where
  val : ℤ
  nonneg : 0 ≤ val
  lt : val < 2 ^ 63

/-- A position in a buffer of `size` bytes, or at its end. -/
structure BufPos (size : ℤ) where
  val : ℤ
  nonneg : 0 ≤ val
  le : val ≤ size

/-! ## User memory -/

/-- The bytes a copy of `n` bytes leaves uncopied. -/
def uncopied (fault : ℕ) (n : ℤ) : ℤ := min fault n

theorem uncopied_nonneg (fault : ℕ) {n : ℤ} (h : 0 ≤ n) : 0 ≤ uncopied fault n :=
  le_min (by omega) h

theorem uncopied_le (fault : ℕ) (n : ℤ) : uncopied fault n ≤ n :=
  min_le_right _ _

theorem uncopied_zero {n : ℤ} (h : 0 ≤ n) : uncopied 0 n = 0 :=
  min_eq_left h

/-- The user buffer after `copy_to_user(buf, src + s, n)`. -/
def copyToUser (buf : Bytes) (src : Bytes) (s n : ℤ) (fault : ℕ) : Bytes :=
  memcpy buf 0 src s (n - uncopied fault n)

/-- The kernel buffer after `copy_from_user(dst + d, buf, n)`. -/
def copyFromUser (dst : Bytes) (d : ℤ) (buf : Bytes) (n : ℤ) (fault : ℕ) : Bytes :=
  memcpy (memcpy dst d buf 0 (n - uncopied fault n)) (d + (n - uncopied fault n)) (fun _ => 0) 0
    (uncopied fault n)

theorem copyToUser_apply (buf src : Bytes) (s n : ℤ) (fault : ℕ) (a : ℤ) :
    copyToUser buf src s n fault a =
      if 0 ≤ a ∧ a < n - uncopied fault n then src (s + a) else buf a := by
  rw [copyToUser, memcpy, zero_add, sub_zero]

/-- The bytes that are copied, then zeros, and every other byte as before. -/
theorem copyFromUser_apply (dst : Bytes) (d : ℤ) (buf : Bytes) {n : ℤ} (hn : 0 ≤ n) (fault : ℕ)
    (a : ℤ) : copyFromUser dst d buf n fault a =
      if d ≤ a ∧ a < d + (n - uncopied fault n) then buf (a - d)
      else if d ≤ a ∧ a < d + n then 0
      else dst a := by
  have hle := uncopied_le fault n
  have hnonneg := uncopied_nonneg fault hn
  rw [copyFromUser]
  split_ifs with hcopied hrest
  · rw [memcpy_of_not_mem (by omega), memcpy_of_mem hcopied.1 hcopied.2, zero_add]
  · exact memcpy_of_mem (by omega) (by omega)
  · rw [memcpy_of_not_mem (by omega), memcpy_of_not_mem hcopied]

end KernelExamples
