import KernelExamples.SbdDisk
import Mathlib.RingTheory.Coprime.Lemmas

/-!
# The block driver : sizes and bounds

The arithmetic of `sbd_transfer` for any block size. `offset`, `nbytes` and their sum are
reduced modulo `2 ^ 64`, and the check of `sbd_transfer` sees the sum only : it accepts a
transfer exactly when `(sector + nsect) * logical_block_size`, reduced, is at most the
size (`accepts_iff`). So the check is exact only while that product does not wrap
(`check_safe_iff`).

The block layer counts in sectors of 512 bytes. `sbd_transfer` counts in blocks, and moves
`nsect` blocks of a segment of `nsect` sectors. Even with blocks of 512 bytes a segment
whose end wraps reaches the bytes of another one (`units_iff`). `Device.size` is a product of
two `int`s, and agrees with the capacity only below `2 ^ 31` (`capacity_backed_iff`).

`sbd_transfer` returns nothing, and `sbd_request` completes every segment with status `0`,
whether it was copied to or from the device or not (`honest_iff`).
-/

namespace KernelExamples.Sbd

open CInt Mem Traces

/-- A block size that is 512 times a power of two, as an `int`. -/
structure BlockSize where
  shift : ℕ
  shift_le : shift ≤ 21

def BlockSize.val (b : BlockSize) : ℤ := 512 * 2 ^ b.shift

theorem BlockSize.val_pos (b : BlockSize) : 0 < b.val :=
  mul_pos (by norm_num) (pow_pos (by norm_num) _)

/-! ## The check -/

/-- The check of `sbd_transfer` lets the transfer pass. -/
def Accepts (logicalBlockSize size sector nsect : ℤ) : Prop :=
  uint64 (uint64 (sector * logicalBlockSize) + uint64 (nsect * logicalBlockSize)) ≤ size

instance (b size sector nsect : ℤ) : Decidable (Accepts b size sector nsect) :=
  inferInstanceAs (Decidable (_ ≤ _))

variable {b : ℤ}

theorem accepts_iff {size sector nsect : ℤ} :
    Accepts b size sector nsect ↔ uint64 ((sector + nsect) * b) ≤ size := by
  rw [Accepts, uint64, uint64, uint64, ← Int.add_emod, ← add_mul, uint64]

theorem moved_sbdTransfer (dev : Device) (sector nsect : ℤ) (buffer : Bytes) (write : Bool) :
    (sbdTransfer b dev sector nsect buffer write).moved =
      if Accepts b dev.size sector nsect then
        some (uint64 (sector * b), uint64 (nsect * b))
      else none := by
  unfold sbdTransfer
  by_cases h : Accepts b dev.size sector nsect
  · rw [if_pos h]
    simp only [if_neg (not_lt.2 h)]
    split_ifs <;> rfl
  · rw [if_neg h]
    simp only [if_pos (not_le.1 h)]

theorem moved_ne_none_iff {dev : Device} {sector nsect : ℤ} {buffer : Bytes} {write : Bool} :
    (sbdTransfer b dev sector nsect buffer write).moved ≠ none ↔
      Accepts b dev.size sector nsect := by
  rw [moved_sbdTransfer]
  split_ifs with h <;> simp [h]

theorem moved_eq_some {dev : Device} {sector nsect : ℤ} {buffer : Bytes} {write : Bool}
    {off n : ℤ} (h : (sbdTransfer b dev sector nsect buffer write).moved = some (off, n)) :
    Accepts b dev.size sector nsect ∧ off = uint64 (sector * b) ∧ n = uint64 (nsect * b) := by
  rw [moved_sbdTransfer] at h
  obtain ⟨haccepts, h⟩ := Option.ite_none_right_eq_some.1 h
  obtain ⟨rfl, rfl⟩ := Prod.mk.inj (Option.some.inj h)
  exact ⟨haccepts, rfl, rfl⟩

theorem size_dev_sbdTransfer (dev : Device) (sector nsect : ℤ) (buffer : Bytes) (write : Bool) :
    (sbdTransfer b dev sector nsect buffer write).dev.size = dev.size := by
  unfold sbdTransfer
  dsimp only
  split_ifs <;> rfl

/-- A transfer that is made lies in the device, in exact integers. -/
def CheckSafe (logicalBlockSize : ℤ) (dev : Device) (sector nsect : ℤ) : Prop :=
  ∀ buffer write off n, (sbdTransfer logicalBlockSize dev sector nsect buffer write).moved =
    some (off, n) → (sector + nsect) * logicalBlockSize ≤ dev.size ∧
      ∀ a, off ≤ a → a < off + n → 0 ≤ a ∧ a < dev.size

/-- The check of `sbd_transfer` is safe, for every device, exactly when the end of the
transfer does not wrap. -/
theorem check_safe_iff (b : BlockSize) (sector nsect : UInt64) :
    (∀ dev : Device, 0 ≤ dev.size → dev.size < 2 ^ 64 →
        CheckSafe b.val dev sector.toNat nsect.toNat) ↔
      ((sector.toNat : ℤ) + nsect.toNat) * b.val < 2 ^ 64 := by
  have hb := b.val_pos
  have hsector : 0 ≤ (sector.toNat : ℤ) * b.val := mul_nonneg (by omega) hb.le
  have hnsect : 0 ≤ (nsect.toNat : ℤ) * b.val := mul_nonneg (by omega) hb.le
  constructor
  · intro h
    -- a device as large as the wrapped sum accepts the transfer
    have hmoved := moved_sbdTransfer (b := b.val)
      ⟨uint64 ((sector.toNat + nsect.toNat) * b.val), fun _ => 0⟩ sector.toNat nsect.toNat
      (fun _ => 0) false
    rw [if_pos (accepts_iff.2 le_rfl)] at hmoved
    have hle := (h _ (uint64_nonneg _) (uint64_lt _) _ _ _ _ hmoved).1
    exact hle.trans_lt (uint64_lt _)
  · intro h dev _ _ buffer write off n hmoved
    obtain ⟨haccepts, rfl, rfl⟩ := moved_eq_some hmoved
    rw [accepts_iff] at haccepts
    rw [add_mul] at h haccepts ⊢
    rw [uint64_of_mem (by omega) h] at haccepts
    refine ⟨haccepts, fun a ha ha' => ?_⟩
    rw [uint64_of_mem hsector (by omega)] at ha ha'
    rw [uint64_of_mem hnsect (by omega)] at ha'
    omega

/-- Sector `2 ^ 55` of 512 bytes has offset `0` : the check lets it pass on a device of one
sector. -/
theorem not_check_safe_wrapped :
    ¬CheckSafe (BlockSize.val ⟨0, by decide⟩) ⟨512, fun _ => 0⟩ (2 ^ 55) 1 := by
  intro h
  have hmoved := moved_sbdTransfer (b := BlockSize.val ⟨0, by decide⟩) ⟨512, fun _ => 0⟩ (2 ^ 55) 1
    (fun _ => 0) false
  rw [if_pos (by decide)] at hmoved
  have hle := (h _ _ _ _ hmoved).1
  revert hle
  decide

/-! ## Units -/

/-- The ranges of `n` sectors from `a` and of `m` sectors from `c` have none in common. -/
def Apart (a n c m : ℤ) : Prop := ∀ x, a ≤ x → x < a + n → ¬(c ≤ x ∧ x < c + m)

/-- A transfer, if it is made, copies the bytes of `nsect` kernel sectors between the device
and the buffer. -/
def MovesSectors (logicalBlockSize : ℤ) (dev : Device) (sector nsect : ℤ) : Prop :=
  ∀ buffer write off n,
    (sbdTransfer logicalBlockSize dev sector nsect buffer write).moved = some (off, n) →
      n = 512 * nsect ∧ Copied dev buffer write off n
        (sbdTransfer logicalBlockSize dev sector nsect buffer write)

/-- Two transfers on one device, if they are made, move whole kernel sectors, and disjoint
sectors are disjoint bytes of the device. -/
structure UnitsOk (logicalBlockSize : ℤ) (dev : Device) (s₁ n₁ s₂ n₂ : ℤ) : Prop where
  first : MovesSectors logicalBlockSize dev s₁ n₁
  second : MovesSectors logicalBlockSize dev s₂ n₂
  apart : Apart s₁ n₁ s₂ n₂ → ∀ buffer₁ write₁ buffer₂ write₂ off₁ m₁ off₂ m₂,
    (sbdTransfer logicalBlockSize dev s₁ n₁ buffer₁ write₁).moved = some (off₁, m₁) →
    (sbdTransfer logicalBlockSize dev s₂ n₂ buffer₂ write₂).moved = some (off₂, m₂) →
      ApartMod (2 ^ 64) off₁ m₁ off₂ m₂

/-- The segment is empty, or blocks are sectors and its length in bytes does not wrap. -/
def SectorUnits (b : BlockSize) (n : ℤ) : Prop := n = 0 ∨ (b.shift = 0 ∧ n < 2 ^ 55)

theorem isCoprime_pow_sub_one {k : ℕ} (hk : k ≠ 0) : IsCoprime ((2 : ℤ) ^ 55) (2 ^ k - 1) := by
  refine IsCoprime.pow_left ?_
  obtain ⟨j, rfl⟩ := Nat.exists_eq_succ_of_ne_zero hk
  exact ⟨2 ^ j, -1, by rw [pow_succ]; ring⟩

/-- The bytes moved are those of the segment exactly when the units agree. -/
theorem uint64_mul_val_iff (b : BlockSize) {n : ℤ} (hn : 0 ≤ n) :
    uint64 (n * b.val) = 512 * n ↔ SectorUnits b n := by
  constructor
  · intro h
    have hlt : n < 2 ^ 55 := by
      have := uint64_lt (n * b.val)
      omega
    by_cases hshift : b.shift = 0
    · exact Or.inr ⟨hshift, hlt⟩
    · -- `512 * n * (2 ^ shift - 1)` is a multiple of `2 ^ 64`, and the last factor is odd
      have hdvd : (512 * 2 ^ 55 : ℤ) ∣ 512 * (n * (2 ^ b.shift - 1)) := by
        have hdiv := Int.mul_ediv_add_emod (n * b.val) (2 ^ 64)
        have hval : n * b.val = 512 * (n * 2 ^ b.shift) := by
          rw [BlockSize.val]
          ring
        rw [show n * b.val % 2 ^ 64 = 512 * n from h] at hdiv
        exact ⟨n * b.val / 2 ^ 64, by linarith⟩
      have hn0 : (2 : ℤ) ^ 55 ∣ n :=
        (isCoprime_pow_sub_one hshift).dvd_of_dvd_mul_right
          (Int.dvd_of_mul_dvd_mul_left (by norm_num) hdvd)
      exact Or.inl (Int.eq_zero_of_dvd_of_nonneg_of_lt hn hlt hn0)
  · rintro (rfl | ⟨hshift, hlt⟩)
    · simp [uint64]
    · have hval : b.val = 512 := by simp [BlockSize.val, hshift]
      rw [hval, uint64_of_mem (by omega) (by omega)]
      omega

theorem movesSectors_of_units {b : BlockSize} {dev : Device} {sector nsect : ℤ} (hn : 0 ≤ nsect)
    (h : SectorUnits b nsect) : MovesSectors b.val dev sector nsect := by
  intro buffer write off n hmoved
  have hcopied := copied_sbdTransfer b.val dev sector nsect buffer write
  rw [hmoved] at hcopied
  obtain ⟨-, -, rfl⟩ := moved_eq_some hmoved
  exact ⟨(uint64_mul_val_iff b hn).2 h, hcopied⟩

/-- A transfer that is made has its length in kernel sectors only if the units agree. -/
theorem MovesSectors.units {b : BlockSize} {dev : Device} {sector nsect : ℤ} (hn : 0 ≤ nsect)
    (hdev : Accepts b.val dev.size sector nsect) (h : MovesSectors b.val dev sector nsect) :
    SectorUnits b nsect := by
  have hmoved := moved_sbdTransfer (b := b.val) dev sector nsect (fun _ => 0) false
  rw [if_pos hdev] at hmoved
  exact (uint64_mul_val_iff b hn).1 (h _ _ _ _ hmoved).1

/-- A device of `2 ^ 64 - 1` bytes accepts every transfer. -/
theorem accepts_largest (sector nsect : ℤ) : Accepts b (2 ^ 64 - 1) sector nsect := by
  rw [accepts_iff]
  have := uint64_lt ((sector + nsect) * b)
  omega

/-- Two segments that are disjoint stay disjoint on a circle of `2 ^ 55` sectors : one of
them is empty, or each ends before the other starts, going round. -/
def ApartWrapped (s₁ n₁ s₂ n₂ : ℤ) : Prop :=
  Apart s₁ n₁ s₂ n₂ →
    n₁ = 0 ∨ n₂ = 0 ∨ n₁ ≤ (s₂ - s₁) % 2 ^ 55 ∧ n₂ ≤ (s₁ - s₂) % 2 ^ 55

/-- With agreeing units, the bytes of two segments are apart exactly when their sectors are,
on the circle. -/
theorem apartMod_moved_iff {b : BlockSize} {s₁ n₁ s₂ n₂ : ℤ} (hn₁ : 0 ≤ n₁) (hn₂ : 0 ≤ n₂)
    (h₁ : SectorUnits b n₁) (h₂ : SectorUnits b n₂) :
    ApartMod (2 ^ 64) (uint64 (s₁ * b.val)) (uint64 (n₁ * b.val)) (uint64 (s₂ * b.val))
        (uint64 (n₂ * b.val)) ↔
      n₁ = 0 ∨ n₂ = 0 ∨ n₁ ≤ (s₂ - s₁) % 2 ^ 55 ∧ n₂ ≤ (s₁ - s₂) % 2 ^ 55 := by
  rw [(uint64_mul_val_iff b hn₁).2 h₁, (uint64_mul_val_iff b hn₂).2 h₂,
    apartMod_iff (by norm_num) (by omega) (by omega)]
  rcases h₁ with rfl | ⟨hshift, -⟩
  · simp
  · have hval : b.val = 512 := by simp [BlockSize.val, hshift]
    rw [hval, uint64, uint64]
    omega

/-- On every device, two transfers move their own sectors and disjoint sectors to disjoint
bytes exactly when each is empty or in blocks of 512 bytes, and neither wraps onto the
other. -/
theorem units_iff (b : BlockSize) (s₁ n₁ s₂ n₂ : UInt64) :
    (∀ dev : Device, 0 ≤ dev.size → dev.size < 2 ^ 64 →
        UnitsOk b.val dev s₁.toNat n₁.toNat s₂.toNat n₂.toNat) ↔
      SectorUnits b n₁.toNat ∧ SectorUnits b n₂.toNat ∧
        ApartWrapped s₁.toNat n₁.toNat s₂.toNat n₂.toNat := by
  have hn₁ : (0 : ℤ) ≤ n₁.toNat := by omega
  have hn₂ : (0 : ℤ) ≤ n₂.toNat := by omega
  constructor
  · intro h
    let dev : Device := ⟨2 ^ 64 - 1, fun _ => 0⟩
    have hdev : ∀ s n, Accepts b.val dev.size s n := accepts_largest
    obtain ⟨hfirst, hsecond, hapart⟩ := h dev (by norm_num [dev]) (by norm_num [dev])
    have h₁ := hfirst.units hn₁ (hdev _ _)
    have h₂ := hsecond.units hn₂ (hdev _ _)
    refine ⟨h₁, h₂, fun hsectors => (apartMod_moved_iff hn₁ hn₂ h₁ h₂).1 ?_⟩
    refine hapart hsectors (fun _ => 0) false (fun _ => 0) false _ _ _ _ ?_ ?_
    · rw [moved_sbdTransfer, if_pos (hdev _ _)]
    · rw [moved_sbdTransfer, if_pos (hdev _ _)]
  · rintro ⟨h₁, h₂, hwrapped⟩ dev - -
    refine ⟨movesSectors_of_units hn₁ h₁, movesSectors_of_units hn₂ h₂, ?_⟩
    intro hsectors buffer₁ write₁ buffer₂ write₂ off₁ m₁ off₂ m₂ hmoved₁ hmoved₂
    obtain ⟨-, rfl, rfl⟩ := moved_eq_some hmoved₁
    obtain ⟨-, rfl, rfl⟩ := moved_eq_some hmoved₂
    exact (apartMod_moved_iff hn₁ hn₂ h₁ h₂).2 (hwrapped hsectors)

/-- With blocks of 1024 bytes a segment of one sector is read or written with 1024 bytes. -/
theorem not_units_ok_double :
    ¬UnitsOk (BlockSize.val ⟨1, by decide⟩) ⟨1024 * 1024, fun _ => 0⟩ 0 1 1 1 := by
  intro h
  have hmoved := moved_sbdTransfer (b := BlockSize.val ⟨1, by decide⟩) ⟨1024 * 1024, fun _ => 0⟩ 0 1
    (fun _ => 0) false
  rw [if_pos (by decide)] at hmoved
  have hlen := (h.first _ _ _ _ hmoved).1
  revert hlen
  decide

/-! ## Capacity -/

/-- `vmalloc` gives no area larger than the memory there is. -/
def VmallocWithin (avail : ℤ) (p : Params) (o : InitOutcome) : Prop :=
  o.vmalloc ≠ none → (sbdInit p o).dev.size ≤ avail

/-- Every transfer inside the capacity of the disk is made. -/
def CapacityBacked (p : Params) (o : InitOutcome) : Prop :=
  ∀ cap, (sbdInit p o).capacity = some cap → ∀ sector nsect, 0 ≤ sector → 0 ≤ nsect →
    sector + nsect ≤ cap → ∀ buffer write,
      (sbdTransfer p.logicalBlockSize (sbdInit p o).dev sector nsect buffer write).moved ≠ none

theorem capacity_of_sbdInit {p : Params} {o : InitOutcome} (h : (sbdInit p o).ret = 0) :
    (sbdInit p o).capacity = some p.nsectors := by
  unfold sbdInit at h ⊢
  cases hv : o.vmalloc with
  | none => simp [hv, ENOMEM] at h
  | some data =>
    simp only [hv] at h ⊢
    split_ifs at h ⊢ <;> first | rfl | simp [ENOMEM] at h

/-- An area that `vmalloc` can give has the size that was meant only if nothing wrapped. -/
theorem le_size_iff {x avail : ℤ} (hx : 0 ≤ x) (havail : avail < 2 ^ 63)
    (hle : uint64 (int32 x) ≤ avail) : x ≤ uint64 (int32 x) ↔ x < 2 ^ 31 := by
  constructor
  · intro h
    by_contra hlarge
    rcases lt_or_ge (int32 x) 0 with hneg | hnonneg
    · unfold uint64 int32 at *
      omega
    · rw [uint64_of_mem hnonneg (by unfold int32; omega)] at h
      unfold int32 at h
      omega
  · intro h
    rw [int32_of_mem (by omega) h, uint64_of_mem hx (by omega)]

/-- After a load that succeeded, the capacity is backed by memory exactly when the product
of the two parameters fits an `int`. -/
theorem capacity_backed_iff (A : Arch) (b : BlockSize) {p : Params} {o : InitOutcome} (avail : ℤ)
    (hlbs : p.logicalBlockSize = b.val) (hpage : b.val ≤ A.pageSize) (hpos : 0 < p.nsectors)
    (hint : p.nsectors < 2 ^ 31) (havail : avail < 2 ^ 63) (hmem : VmallocWithin avail p o)
    (hinit : (sbdInit p o).ret = 0) :
    CapacityBacked p o ↔ p.nsectors * p.logicalBlockSize < 2 ^ 31 := by
  have hb : 0 < p.logicalBlockSize := hlbs ▸ b.val_pos
  have hb' : p.logicalBlockSize ≤ 2 ^ 20 := by
    rw [hlbs]
    exact hpage.trans A.pageSize_le
  have hnonneg : 0 ≤ p.nsectors * p.logicalBlockSize := (mul_pos hpos hb).le
  have hlt : p.nsectors * p.logicalBlockSize < 2 ^ 64 :=
    (mul_le_mul hint.le hb' hb.le (by norm_num)).trans_lt (by norm_num)
  obtain ⟨data, hdata, hdev⟩ := dev_of_sbdInit hinit
  have hsize := hmem (by simp [hdata])
  rw [hdev] at hsize
  rw [← le_size_iff hnonneg havail hsize]
  constructor
  · intro h
    have hwhole := h _ (capacity_of_sbdInit hinit) 0 p.nsectors le_rfl hpos.le (by omega)
      (fun _ => 0) false
    rw [moved_ne_none_iff, accepts_iff, zero_add, hdev, uint64_of_mem hnonneg hlt] at hwhole
    exact hwhole
  · intro h cap hcap sector nsect hsector hnsect hle buffer write
    rw [capacity_of_sbdInit hinit] at hcap
    obtain rfl := Option.some.inj hcap
    have hend : (sector + nsect) * p.logicalBlockSize ≤ p.nsectors * p.logicalBlockSize :=
      mul_le_mul_of_nonneg_right hle hb.le
    have hend0 : 0 ≤ (sector + nsect) * p.logicalBlockSize := mul_nonneg (by omega) hb.le
    rw [moved_ne_none_iff, accepts_iff, hdev, uint64_of_mem hend0 (hend.trans_lt hlt)]
    exact hend.trans h

/-- The default parameters, on a machine with 4 KiB pages and 1 GiB of memory. -/
theorem capacity_backed_default :
    CapacityBacked ⟨0, 512, 1024⟩ ⟨some fun _ => 0, true, 250, true⟩ ↔
      (1024 : ℤ) * 512 < 2 ^ 31 :=
  capacity_backed_iff .x86 ⟨0, by decide⟩ (p := ⟨0, 512, 1024⟩)
    (o := ⟨some fun _ => 0, true, 250, true⟩) (2 ^ 30) rfl (by decide) (by decide)
    (by decide) (by decide) (fun _ => by decide) rfl

/-- With `2 ^ 22 + 1` sectors and blocks of 1024 bytes the load gets an area of 1024 bytes,
and a transfer at sector `1` is dropped. -/
theorem not_capacity_backed_wrapped :
    (sbdInit ⟨0, 1024, 2 ^ 22 + 1⟩ ⟨some fun _ => 0, true, 250, true⟩).ret = 0 ∧
      ¬CapacityBacked ⟨0, 1024, 2 ^ 22 + 1⟩ ⟨some fun _ => 0, true, 250, true⟩ := by
  refine ⟨rfl, fun h => ?_⟩
  have hmoved := h (2 ^ 22 + 1) rfl 1 1 (by decide) (by decide) (by decide) (fun _ => 0) true
  rw [moved_ne_none_iff] at hmoved
  revert hmoved
  decide

/-! ## Completion status -/

/-- The segment lies in a device of `size` bytes, in exact integers. -/
structure Inside (logicalBlockSize size sector nsect : ℤ) : Prop where
  offset_nonneg : 0 ≤ sector * logicalBlockSize
  nbytes_nonneg : 0 ≤ nsect * logicalBlockSize
  fits : (sector + nsect) * logicalBlockSize ≤ size

/-- The segment was copied, between its own bytes inside the device and its buffer. -/
structure ReallyCopied (logicalBlockSize : ℤ) (dev : Device) (c : Call) (t : Transfer) : Prop where
  inside : Inside logicalBlockSize dev.size c.sector c.seg.nsect
  copied : Copied dev c.seg.buffer c.write (c.sector * logicalBlockSize)
    (c.seg.nsect * logicalBlockSize) t

/-- Status `0` means that the segment was copied, and one that `sbd_transfer` rejects has an
error. -/
structure StatusHonest (logicalBlockSize : ℤ) (dev : Device) (c : Call) (t : Transfer) (err : ℤ) :
    Prop where
  copied : err = 0 → ReallyCopied logicalBlockSize dev c t
  rejected : ¬Accepts logicalBlockSize dev.size c.sector c.seg.nsect → err ≠ 0

/-- Every completion of a segment follows its own transfer, made on the device the earlier
ones left, and has an honest status. -/
def Honest (logicalBlockSize : ℤ) (dev : Device) (log : List Event) : Prop :=
  ∀ pre i err more post, log = pre ++ .endCur i err more :: post →
    ∃ pre' call t, pre = pre' ++ [.transfer i call t] ∧
      StatusHonest logicalBlockSize (devAfter dev (transfers pre')) call t err

/-- `sbd_request` ends with an honest log. -/
def CompletesHonestly (logicalBlockSize : ℤ) (dev : Device) (q : List Request) : Prop :=
  ∃ final, Halts (requestLoop logicalBlockSize) (sbdRequest dev q) final ∧
    Honest logicalBlockSize dev final.log

/-- The segments from position `pos`, each with the position the block layer has for it. -/
def segmentsAt : ℤ → List Segment → List (ℤ × Segment)
  | _, [] => []
  | pos, s :: rest => (pos, s) :: segmentsAt (uint64 (pos + s.nsect)) rest

/-- Every segment lies in the device. -/
def AllInside (logicalBlockSize size : ℤ) (q : List Request) : Prop :=
  ∀ r ∈ q, ∀ e ∈ segmentsAt r.pos r.segs, Inside logicalBlockSize size e.1 e.2.nsect

/-- The check lets every segment inside the device pass. -/
theorem Inside.accepts {size sector nsect : ℤ} (h : Inside b size sector nsect)
    (hsize : size < 2 ^ 64) : Accepts b size sector nsect := by
  obtain ⟨hoff, hn, hfits⟩ := h
  rw [accepts_iff, uint64_of_mem (by rw [add_mul]; omega) (by omega)]
  exact hfits

/-- Status `0` is honest exactly for a segment inside the device. -/
theorem statusHonest_zero_iff {dev : Device} (hsize : dev.size < 2 ^ 64) (c : Call) :
    StatusHonest b dev c (sbdTransfer b dev c.sector c.seg.nsect c.seg.buffer c.write) 0 ↔
      Inside b dev.size c.sector c.seg.nsect := by
  constructor
  · intro h
    exact (h.copied rfl).inside
  · intro hinside
    have haccepts := hinside.accepts hsize
    refine ⟨fun _ => ⟨hinside, ?_⟩, fun h => absurd haccepts h⟩
    have hcopied := copied_sbdTransfer b dev c.sector c.seg.nsect c.seg.buffer c.write
    rw [moved_sbdTransfer, if_pos haccepts] at hcopied
    obtain ⟨hoff, hn, hfits⟩ := hinside
    rw [add_mul] at hfits
    simpa only [uint64_of_mem hoff (by omega), uint64_of_mem hn (by omega)] using hcopied

theorem honest_nil (dev : Device) : Honest b dev [] := by
  intro pre i err more post h
  simp at h

/-- The uses of one segment, before a log. -/
theorem honest_segment {dev : Device} {i : ℕ} {call : Call} {t : Transfer} {more : Bool}
    {log : List Event} :
    Honest b dev (.cmdType i :: .transfer i call t :: .endCur i 0 more :: log) ↔
      StatusHonest b dev call t 0 ∧ Honest b t.dev log := by
  constructor
  · intro h
    constructor
    · obtain ⟨pre', call', t', hpre, hstatus⟩ :=
        h [.cmdType i, .transfer i call t] i 0 more log rfl
      rw [← List.singleton_append] at hpre
      obtain ⟨rfl, hlast⟩ := List.append_inj' hpre rfl
      obtain ⟨-, rfl, rfl⟩ := Event.transfer.inj (List.singleton_inj.1 hlast)
      exact hstatus
    · intro pre j err more' post hlog
      obtain ⟨pre', call', t', hpre, hstatus⟩ :=
        h (.cmdType i :: .transfer i call t :: .endCur i 0 more :: pre) j err more' post
          (by rw [hlog]; rfl)
      rcases List.eq_nil_or_concat pre with rfl | ⟨pre₀, e, rfl⟩
      · -- the completion before the log is no transfer
        have hpre : [.cmdType i, .transfer i call t] ++ [.endCur i 0 more] =
          pre' ++ [Event.transfer j call' t'] := hpre
        obtain ⟨-, hlast⟩ := List.append_inj' hpre rfl
        simp at hlast
      · rw [List.concat_eq_append, ← List.cons_append, ← List.cons_append,
          ← List.cons_append] at hpre
        obtain ⟨rfl, hlast⟩ := List.append_inj' hpre rfl
        exact ⟨pre₀, call', t', by rw [List.concat_eq_append, hlast], hstatus⟩
  · rintro ⟨hstatus, hlog⟩ pre j err more' post hsplit
    match pre, hsplit with
    | [], hsplit => simp at hsplit
    | [_], hsplit => simp at hsplit
    | [_, _], hsplit =>
      simp only [List.cons_append, List.nil_append, List.cons.injEq, Event.endCur.injEq] at hsplit
      obtain ⟨rfl, rfl, ⟨rfl, rfl, -⟩, -⟩ := hsplit
      exact ⟨[.cmdType i], call, t, rfl, hstatus⟩
    | _ :: _ :: _ :: pre, hsplit =>
      simp only [List.cons_append, List.cons.injEq] at hsplit
      obtain ⟨rfl, rfl, rfl, hsplit⟩ := hsplit
      obtain ⟨pre', call', t', rfl, hstatus'⟩ := hlog pre j err more' post hsplit
      exact ⟨_ :: _ :: _ :: pre', call', t', rfl, hstatus'⟩

theorem honest_serveSegs (i : ℕ) (write : Bool) (log : List Event) :
    ∀ (segs : List Segment) (dev : Device) (pos : ℤ), dev.size < 2 ^ 64 →
      (Honest b dev ((serveSegs b i write dev pos segs).2 ++ log) ↔
        (∀ e ∈ segmentsAt pos segs, Inside b dev.size e.1 e.2.nsect) ∧
          Honest b (serveSegs b i write dev pos segs).1 log)
  | [], dev, pos, _ => by simp [serveSegs, segmentsAt]
  | s :: rest, dev, pos, hsize => by
    have ih := honest_serveSegs i write log rest (sbdTransfer b dev pos s.nsect s.buffer write).dev
      (uint64 (pos + s.nsect))
    rw [size_dev_sbdTransfer] at ih
    have hstatus := statusHonest_zero_iff (b := b) hsize ⟨pos, s, write⟩
    simp only [serveSegs, List.cons_append, honest_segment, segmentsAt, List.forall_mem_cons]
    rw [ih hsize, hstatus, and_assoc]

theorem size_serveSegs (i : ℕ) (write : Bool) : ∀ (segs : List Segment) (dev : Device) (pos : ℤ),
    (serveSegs b i write dev pos segs).1.size = dev.size
  | [], _, _ => rfl
  | s :: rest, dev, pos => by
    rw [serveSegs, size_serveSegs i write rest, size_dev_sbdTransfer]

theorem honest_serveQueue : ∀ (q : List Request) (n : ℕ) (dev : Device), dev.size < 2 ^ 64 →
    (Honest b dev (serveQueue b n dev q).2 ↔ AllInside b dev.size q)
  | [], _, dev, _ => by simp [serveQueue, AllInside, honest_nil]
  | r :: q, n, dev, hsize => by
    have ih := honest_serveQueue q (n + 1) (serveSegs b n r.write dev r.pos r.segs).1
    rw [size_serveSegs] at ih
    rw [serveQueue, honest_serveSegs n r.write _ r.segs dev r.pos hsize, ih hsize, AllInside,
      AllInside, List.forall_mem_cons]

/-- On filesystem requests, every status is honest exactly when every segment lies in the
device. -/
theorem honest_iff (logicalBlockSize : ℤ) {dev : Device} (hsize : dev.size < 2 ^ 64)
    {q : List Request} (hfs : ∀ r ∈ q, r.cmdType = .fs) :
    CompletesHonestly logicalBlockSize dev q ↔ AllInside logicalBlockSize dev.size q := by
  have hhalts : Halts (requestLoop logicalBlockSize) (sbdRequest dev q) _ :=
    halts_of_fs q 0 none dev [] hfs
  rw [← honest_serveQueue q 0 dev hsize]
  constructor
  · rintro ⟨final, hfinal, hhonest⟩
    rw [hfinal.unique hhalts] at hhonest
    exact hhonest
  · intro h
    exact ⟨_, hhalts, h⟩

/-- One segment past the end of a device of two sectors. -/
def beyondQueue : List Request := [fsRequest 2 true (.ofCount 1 fun _ => 7) []]

theorem honest_iff_beyondQueue :
    CompletesHonestly 512 ⟨2 * 512, fun _ => 0⟩ beyondQueue ↔ AllInside 512 (2 * 512) beyondQueue :=
  honest_iff 512 (by decide) (by simp [beyondQueue, fsRequest])

/-- The write is completed with status `0`, and nothing was written. -/
theorem not_completes_honestly_beyondQueue :
    ¬CompletesHonestly 512 ⟨2 * 512, fun _ => 0⟩ beyondQueue := by
  rintro ⟨final, hfinal, hhonest⟩
  have hfs : ∀ r ∈ beyondQueue, r.cmdType = .fs := by simp [beyondQueue, fsRequest]
  rw [hfinal.unique (halts_of_fs beyondQueue 0 none _ [] hfs)] at hhonest
  have hinside := (honest_serveQueue beyondQueue 0 ⟨2 * 512, fun _ => 0⟩ (by decide)).1 hhonest _
    List.mem_cons_self (2, .ofCount 1 fun _ => 7) List.mem_cons_self
  have hfits := hinside.fits
  revert hfits
  decide

end KernelExamples.Sbd
