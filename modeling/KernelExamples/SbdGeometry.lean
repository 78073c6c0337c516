import KernelExamples.SbdBounds
import Mathlib.Data.Int.ModEq
import Mathlib.Tactic.LinearCombination

/-!
# The geometry of the disk

`sbd_getgeo` of `block_dev/sbd.c` answers with cylinders of 4 heads and 16 sectors. It scales
`Device.size`, which counts bytes, as if it counted blocks, and so divides a number of bytes
by 64 (`cylinders_eq`). The cylinders fit the disk only where the 16 bits of the answer
happen to agree with the right number. That congruence determines the cylinders from the
sectors after the last whole cylinder (`cylinders_solve`), which leaves at most 63 sizes
of a disk for each block size (`geometry_iff`), and none with blocks of 32 KiB or more
(`not_fittingSize`).
-/

namespace KernelExamples.Sbd

open CInt

/-- `struct hd_geometry`. -/
structure HdGeometry where
  heads : UInt8
  sectors : UInt8
  cylinders : UInt16
  start : UInt64

/-- `sbd_getgeo`. -/
def sbdGetgeo (p : Params) (dev : Device) : HdGeometry :=
  let size := UInt64.ofInt dev.size * UInt64.ofInt (p.logicalBlockSize.tdiv 512)
  ⟨4, 16, ((size &&& ~~~0x3f) >>> 6).toUInt16, 0⟩

/-- The cylinders are on the disk, and one more is not. -/
def GeometryFits (g : HdGeometry) (dev : Device) : Prop :=
  (g.cylinders.toNat * g.heads.toNat * g.sectors.toNat : ℤ) ≤ dev.size / 512 ∧
    dev.size / 512 < (g.cylinders.toNat + 1) * g.heads.toNat * g.sectors.toNat

/-- Clearing six bits and shifting by six is a division by 64. -/
theorem toNat_cylinders (x : UInt64) :
    ((x &&& ~~~0x3f) >>> 6).toUInt16.toNat = x.toNat / 64 % 2 ^ 16 := by
  have hmask : (~~~(0x3f : UInt64)).toNat >>> 6 = 2 ^ 58 - 1 := by decide
  have hlt := x.toNat_lt
  rw [UInt64.toNat_toUInt16, UInt64.toNat_shiftRight, UInt64.toNat_and]
  rw [show (6 : UInt64).toNat % 64 = 6 by decide, Nat.shiftRight_and_distrib, hmask,
    Nat.and_two_pow_sub_one_eq_mod, Nat.shiftRight_eq_div_pow]
  omega

theorem toNat_ofInt {x : ℤ} (h : 0 ≤ x) (h' : x < 2 ^ 64) : (UInt64.ofInt x).toNat = x.toNat := by
  have hlt : x.toNat < 2 ^ 64 := by omega
  rw [UInt64.ofInt, Int.emod_eq_of_lt h h', UInt64.toNat_ofNat_of_lt' hlt]

section Params

variable {b : BlockSize} {p : Params} {o : InitOutcome} (hlbs : p.logicalBlockSize = b.val)
  (hpos : 0 < p.nsectors) (hlt : p.nsectors * p.logicalBlockSize < 2 ^ 31)
  (hinit : (sbdInit p o).ret = 0)

include hlbs hpos hlt hinit

/-- Below `2 ^ 31` the size is the product of the parameters. -/
theorem size_of_sbdInit : (sbdInit p o).dev.size = p.nsectors * b.val := by
  have hnonneg : 0 ≤ p.nsectors * p.logicalBlockSize := by
    rw [hlbs]
    exact (mul_pos hpos b.val_pos).le
  obtain ⟨data, -, hdev⟩ := dev_of_sbdInit hinit
  rw [hdev, int32_of_mem (by omega) hlt, uint64_of_mem hnonneg (by omega), hlbs]

/-- The cylinders are eight times what the number of blocks of 512 bytes would give, once more
times the scale of the block size, in 16 bits. -/
theorem cylinders_eq : ((sbdGetgeo p (sbdInit p o).dev).cylinders.toNat : ℤ) =
    8 * p.nsectors * (2 ^ b.shift) ^ 2 % 2 ^ 16 := by
  have hsize := size_of_sbdInit hlbs hpos hlt hinit
  have hshift : (2 : ℤ) ^ b.shift ≤ 2 ^ 21 := pow_le_pow_right₀ (by norm_num) b.shift_le
  have hshift0 : (0 : ℤ) < 2 ^ b.shift := pow_pos (by norm_num) _
  have hscale : p.logicalBlockSize.tdiv 512 = 2 ^ b.shift := by
    rw [hlbs, BlockSize.val, Int.mul_tdiv_cancel_left _ (by norm_num)]
  rw [hlbs] at hlt
  have hprod : (UInt64.ofInt (p.nsectors * b.val) * UInt64.ofInt (2 ^ b.shift)).toNat =
      (64 * (8 * p.nsectors * (2 ^ b.shift) ^ 2)).toNat := by
    have hbytes : 0 ≤ p.nsectors * b.val := (mul_pos hpos b.val_pos).le
    have heq : p.nsectors * b.val * 2 ^ b.shift =
        64 * (8 * p.nsectors * (2 ^ b.shift) ^ 2) := by
      rw [BlockSize.val]
      ring
    have hfits : p.nsectors * b.val * 2 ^ b.shift < 2 ^ 64 :=
      (mul_le_mul hlt.le hshift hshift0.le (by norm_num)).trans_lt (by norm_num)
    rw [← UInt64.ofInt_mul, ← heq, toNat_ofInt (mul_nonneg hbytes hshift0.le) hfits]
  simp only [sbdGetgeo, hsize, hscale]
  rw [toNat_cylinders, hprod]
  have h0 : 0 ≤ 8 * p.nsectors * (2 ^ b.shift) ^ 2 := by positivity
  omega

end Params

/-- `1 - 512 k` has the inverse `1 + 512 k` modulo `2 ^ 16`. -/
theorem cylinders_solve {k q r : ℤ} (hq : 0 ≤ q) (hq' : q < 2 ^ 16) :
    8 * k * (64 * q + r) % 2 ^ 16 = q ↔ (8 * k * r + 4096 * k ^ 2 * r) % 2 ^ 16 = q := by
  have hmod : ∀ x : ℤ, x % 2 ^ 16 = q ↔ 2 ^ 16 ∣ q - x := fun x => by
    rw [← Int.modEq_iff_dvd, Int.ModEq, Int.emod_eq_of_lt hq hq']
  rw [hmod, hmod]
  constructor
  · rintro ⟨c, hc⟩
    exact ⟨(1 + 512 * k) * c + 4 * k ^ 2 * q, by linear_combination (1 + 512 * k) * hc⟩
  · rintro ⟨c, hc⟩
    exact ⟨(1 - 512 * k) * c - 32 * k ^ 3 * r, by linear_combination (1 - 512 * k) * hc⟩

/-- In blocks of `k` times 512 bytes, the disk has `r` sectors after its last whole cylinder,
and as many cylinders as that determines. -/
def FittingSize (k nsectors : ℤ) : Prop :=
  ∃ r, 0 < r ∧ r < 64 ∧ nsectors * k = 64 * ((8 * k * r + 4096 * k ^ 2 * r) % 2 ^ 16) + r

theorem fittingSize_iff {k nsectors : ℤ} (hpos : 0 < nsectors * k) (hlt : nsectors * k < 2 ^ 22) :
    8 * k * (nsectors * k) % 2 ^ 16 = nsectors * k / 64 ↔ FittingSize k nsectors := by
  unfold FittingSize
  generalize nsectors * k = n at hpos hlt ⊢
  constructor
  · intro h
    have hsolve := (cylinders_solve (k := k) (q := n / 64) (r := n % 64) (by omega) (by omega)).1
      (by rwa [Int.mul_ediv_add_emod])
    have hdiv := Int.mul_ediv_add_emod n 64
    refine ⟨n % 64, ?_, by omega, by rw [hsolve, hdiv]⟩
    -- without sectors after the last cylinder there would be no cylinder
    rcases eq_or_ne (n % 64) 0 with hr | hr
    · rw [hr] at hsolve hdiv
      simp only [mul_zero, add_zero, Int.zero_emod] at hsolve
      omega
    · omega
  · rintro ⟨r, hr, hr', hn⟩
    have hq : n / 64 = (8 * k * r + 4096 * k ^ 2 * r) % 2 ^ 16 := by omega
    rw [← hq] at hn
    conv_lhs => rw [hn]
    exact (cylinders_solve (by omega) (by omega)).2 hq.symm

/-- Blocks of whole cylinders leave no sectors after the last one. -/
theorem not_fittingSize {k nsectors : ℤ} (h : 64 ∣ k) : ¬FittingSize k nsectors := by
  rintro ⟨r, hr, hr', hn⟩
  have := h.mul_left nsectors
  omega

/-- After a load that succeeded, with a product of the parameters below `2 ^ 31`, the geometry
fits the disk exactly for the sizes that the sectors after the last whole cylinder determine. -/
theorem geometry_iff (b : BlockSize) {p : Params} {o : InitOutcome}
    (hlbs : p.logicalBlockSize = b.val) (hpos : 0 < p.nsectors)
    (hlt : p.nsectors * p.logicalBlockSize < 2 ^ 31) (hinit : (sbdInit p o).ret = 0) :
    GeometryFits (sbdGetgeo p (sbdInit p o).dev) (sbdInit p o).dev ↔
      FittingSize (2 ^ b.shift) p.nsectors := by
  have hblocks : p.nsectors * b.val = 512 * (p.nsectors * 2 ^ b.shift) := by
    rw [BlockSize.val]
    ring
  have hsize : (sbdInit p o).dev.size / 512 = p.nsectors * 2 ^ b.shift := by
    rw [size_of_sbdInit hlbs hpos hlt hinit, hblocks, Int.mul_ediv_cancel_left _ (by norm_num)]
  have hcyl : 8 * p.nsectors * (2 ^ b.shift) ^ 2 =
      8 * 2 ^ b.shift * (p.nsectors * 2 ^ b.shift) := by
    ring
  rw [GeometryFits, cylinders_eq hlbs hpos hlt hinit, hsize, hcyl]
  rw [hlbs, hblocks] at hlt
  rw [← fittingSize_iff (mul_pos hpos (pow_pos (by norm_num) _)) (by omega)]
  have hheads : (sbdGetgeo p (sbdInit p o).dev).heads.toNat = 4 := rfl
  have hsectors : (sbdGetgeo p (sbdInit p o).dev).sectors.toNat = 16 := rfl
  rw [hheads, hsectors]
  omega

/-- A disk of 8208 sectors, 16 more than the 128 cylinders they determine. -/
theorem geometry_8208 :
    GeometryFits (sbdGetgeo ⟨0, 512, 8208⟩
        (sbdInit ⟨0, 512, 8208⟩ ⟨some fun _ => 0, true, 250, true⟩).dev)
      (sbdInit ⟨0, 512, 8208⟩ ⟨some fun _ => 0, true, 250, true⟩).dev :=
  (geometry_iff ⟨0, by decide⟩ rfl (by decide) (by decide) rfl).2 ⟨16, by decide⟩

/-- The disk of 1024 sectors that the module has by default gets 8192 cylinders in place of
16. -/
theorem not_geometry_fits_default :
    ¬GeometryFits (sbdGetgeo ⟨0, 512, 1024⟩
        (sbdInit ⟨0, 512, 1024⟩ ⟨some fun _ => 0, true, 250, true⟩).dev)
      (sbdInit ⟨0, 512, 1024⟩ ⟨some fun _ => 0, true, 250, true⟩).dev := by
  intro h
  have hle := h.1
  revert hle
  decide

end KernelExamples.Sbd
