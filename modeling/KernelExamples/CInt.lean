import Mathlib.Algebra.Order.Ring.Int
import Mathlib.Tactic.Common

/-!
# Machine integers of C

A C value is an integer. A conversion to a type of `w` bits reduces it modulo `2 ^ w`
to the range of that type : `int32` and `int64` to two's complement, `uint64` to the
unsigned range. A value already in range is unchanged
(`int32_of_mem`, `uint64_of_mem`), which is how a proof drops a conversion.

Signed addition wraps, as the kernel is built (`-fno-strict-overflow`).
-/

namespace CInt

/-- Conversion to `int`. -/
def int32 (x : ℤ) : ℤ := (x + 2 ^ 31) % 2 ^ 32 - 2 ^ 31

/-- Conversion to `long`, `loff_t` or `ssize_t`. -/
def int64 (x : ℤ) : ℤ := (x + 2 ^ 63) % 2 ^ 64 - 2 ^ 63

/-- Conversion to `unsigned long`, `size_t` or `sector_t`. -/
def uint64 (x : ℤ) : ℤ := x % 2 ^ 64

/-- A property of bytes may be checked on all 256 of them. -/
@[elab_as_elim]
theorem forall_byte {motive : UInt8 → Prop} (h : ∀ k : Fin 256, motive (UInt8.ofFin k))
    (c : UInt8) : motive c := by
  simpa using h c.toFin

theorem int32_of_mem {x : ℤ} (h : -2 ^ 31 ≤ x) (h' : x < 2 ^ 31) : int32 x = x := by
  unfold int32
  omega

theorem int64_of_mem {x : ℤ} (h : -2 ^ 63 ≤ x) (h' : x < 2 ^ 63) : int64 x = x := by
  unfold int64
  omega

theorem uint64_of_mem {x : ℤ} (h : 0 ≤ x) (h' : x < 2 ^ 64) : uint64 x = x := by
  unfold uint64
  omega

theorem int32_add (x y : ℤ) : int32 (int32 x + y) = int32 (x + y) := by
  unfold int32
  omega

theorem int32_uint64 (x : ℤ) : int32 (uint64 x) = int32 x := by
  unfold int32 uint64
  omega

theorem int32_int64 (x : ℤ) : int32 (int64 x) = int32 x := by
  unfold int32 int64
  omega

theorem uint64_nonneg (x : ℤ) : 0 ≤ uint64 x :=
  Int.emod_nonneg _ (by decide)

theorem uint64_lt (x : ℤ) : uint64 x < 2 ^ 64 :=
  Int.emod_lt_of_pos _ (by decide)

end CInt
