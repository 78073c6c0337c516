import KernelExamples.MyDynamic
import KernelExamples.MyDynamicUdev

/-!
# A write that is copied in part

`mycdrv_write` of `mydynamic` and `my_write` of `mydynamic_udev` copy straight into `kbuf`.
When `copy_from_user` stops early, they return and advance by the bytes it copied, but the
rest of the range it was asked for is filled with zeros (`copyFromUser_apply`). So a write
changes only the bytes it reports exactly when the rest of the range was zero before
(`partial_write_iff`), in particular when nothing is left uncopied.
-/

namespace KernelExamples.PartialWrite

open CInt Mem

/-- A write at `pos` changes only the bytes it reports, and nothing if it reports an error,
and advances the position by what it reports. -/
structure ChangesReported (kbuf : Bytes) (pos : ℤ) (io : Io) : Prop where
  kept : 0 ≤ io.ret → ∀ a, ¬(pos ≤ a ∧ a < pos + io.ret) → io.kbuf a = kbuf a
  advance : 0 ≤ io.ret → io.ppos = pos + io.ret
  error : io.ret < 0 → io.kbuf = kbuf ∧ io.ppos = pos

/-- Of the `n` bytes from `pos`, those that would be left uncopied are zero. -/
def RestZero (kbuf : Bytes) (pos n : ℤ) (fault : ℕ) : Prop :=
  ∀ a, pos + (n - uncopied fault n) ≤ a → a < pos + n → kbuf a = 0

section Io

variable {kbuf : Bytes} {pos n : ℤ} {fault : ℕ} {io : Io}

/-- A write that is like `copy_from_user` outside the bytes it reports. -/
theorem changesReported_iff (buf : Bytes) (hn : 0 ≤ n) (hret : io.ret = n - uncopied fault n)
    (hpos : io.ppos = pos + io.ret) (hkbuf : ∀ a, ¬(pos ≤ a ∧ a < pos + io.ret) →
      io.kbuf a = copyFromUser kbuf pos buf n fault a) :
    ChangesReported kbuf pos io ↔ RestZero kbuf pos n fault := by
  have hle := uncopied_le fault n
  rw [hret] at hkbuf
  constructor
  · intro h a ha ha'
    have hout : ¬(pos ≤ a ∧ a < pos + (n - uncopied fault n)) := by omega
    have hrest : pos ≤ a ∧ a < pos + n := by
      have := uncopied_nonneg fault hn
      omega
    have hkept := h.kept (by omega) a (by rwa [hret])
    rw [hkbuf a hout, copyFromUser_apply kbuf pos buf hn, if_neg hout, if_pos hrest] at hkept
    exact hkept.symm
  · intro h
    refine ⟨fun _ a hout => ?_, fun _ => hpos, fun hneg => by omega⟩
    rw [hret] at hout
    rw [hkbuf a hout, copyFromUser_apply kbuf pos buf hn, if_neg hout]
    split_ifs with hrest
    · exact (h a (by omega) hrest.2).symm
    · rfl

/-- A write of nothing that reports an error. -/
theorem changesReported_of_error (herror : io.ret < 0) (hkbuf : io.kbuf = kbuf)
    (hpos : io.ppos = pos) : ChangesReported kbuf pos io ↔ RestZero kbuf pos 0 fault := by
  refine iff_of_true ⟨fun h => by omega, fun h => by omega, fun _ => ⟨hkbuf, hpos⟩⟩ ?_
  intro a ha ha'
  have := uncopied_le fault 0
  omega

end Io

section Drivers

variable (A : Arch) (pos : BufPos (10 * A.pageSize)) (lbuf : UInt64) (kbuf buf : Bytes) (fault : ℕ)

/-- The bytes a write asks for. -/
def count : ℤ := min (lbuf.toNat : ℤ) (10 * A.pageSize - pos.val)

theorem count_mem : 0 ≤ count A pos lbuf ∧ count A pos lbuf < 2 ^ 31 := by
  have h := pos.nonneg
  have h' := pos.le
  have hpage := A.pageSize_le
  unfold count
  omega

theorem mycdrvWrite_iff :
    ChangesReported kbuf pos.val (MyDynamic.mycdrvWrite A kbuf buf lbuf.toNat pos.val fault) ↔
      RestZero kbuf pos.val (count A pos lbuf) fault := by
  have hsize := MyDynamic.kbufSize_eq A
  have hpage := A.pageSize_le
  have hle := pos.le
  obtain ⟨hnonneg, hlt⟩ := count_mem A pos lbuf
  have hcount : uint64 (bytesToDo (MyDynamic.maxbytes A pos.val) lbuf.toNat) =
      count A pos lbuf := by
    rw [MyDynamic.bytesToDo_maxbytes pos.nonneg (by rwa [hsize]) (by omega), hsize]
    rfl
  rw [MyDynamic.mycdrvWrite, hcount]
  obtain ⟨hret, hpos⟩ := copyIn_spec hnonneg hlt fault kbuf buf pos.nonneg (by omega)
  exact changesReported_iff buf hnonneg hret (by rw [hpos, hret]) fun _ _ => rfl

/-- `convert` works on the bytes that are reported. -/
theorem convert_of_not_mem {kbuf : Bytes} {start n minor a : ℤ}
    (h : ¬(start ≤ a ∧ a < start + n)) :
    MyDynamicUdev.convert kbuf start n minor a = kbuf a := by
  rw [MyDynamicUdev.convert, MyDynamicUdev.convertLoop_apply]
  exact if_neg (by omega)

theorem myWrite_iff (minor : ℤ) :
    ChangesReported kbuf pos.val
        (MyDynamicUdev.myWrite A minor kbuf buf lbuf.toNat pos.val fault) ↔
      RestZero kbuf pos.val (count A pos lbuf) fault := by
  have hsize := MyDynamicUdev.kbufSize_eq A
  have hpage := A.pageSize_le
  have hle := pos.le
  obtain ⟨hnonneg, hlt⟩ := count_mem A pos lbuf
  have hcount : bytesToDo (MyDynamicUdev.maxbytes A pos.val) lbuf.toNat = count A pos lbuf :=
    MyDynamicUdev.bytesToDo_maxbytes pos.nonneg (by rwa [hsize]) (by omega) (by rw [hsize]; rfl)
  rw [MyDynamicUdev.myWrite, hcount]
  rcases eq_or_ne (count A pos lbuf) 0 with h0 | h0
  · simp only [h0, if_true]
    exact changesReported_of_error (show -ENOSPC < 0 by decide) rfl rfl
  · simp only [h0, if_false, uint64_of_mem hnonneg (show count A pos lbuf < 2 ^ 64 by omega)]
    obtain ⟨hret, hpos⟩ := copyIn_spec hnonneg hlt fault kbuf buf pos.nonneg (by omega)
    have hle' := uncopied_le fault (count A pos lbuf)
    have hnonneg' := uncopied_nonneg fault hnonneg
    refine changesReported_iff buf hnonneg hret (by rw [hpos, hret]) fun a ha => ?_
    dsimp only at ha ⊢
    rw [hret, uint64_of_mem (by omega) (by omega)]
    rw [hret] at ha
    rw [convert_of_not_mem ha]
    rfl

end Drivers

/-- At every position in the buffer, for every count, every data and every fault, a write of
either driver changes only the bytes it reports exactly when the bytes that are left uncopied
were zero before. -/
theorem partial_write_iff (A : Arch) (pos : BufPos (10 * A.pageSize)) (lbuf : UInt64)
    (kbuf buf : Bytes) (fault : ℕ) (minor : ℤ) :
    (ChangesReported kbuf pos.val (MyDynamic.mycdrvWrite A kbuf buf lbuf.toNat pos.val fault) ↔
        RestZero kbuf pos.val (count A pos lbuf) fault) ∧
      (ChangesReported kbuf pos.val
          (MyDynamicUdev.myWrite A minor kbuf buf lbuf.toNat pos.val fault) ↔
        RestZero kbuf pos.val (count A pos lbuf) fault) :=
  ⟨mycdrvWrite_iff A pos lbuf kbuf buf fault, myWrite_iff A pos lbuf kbuf buf fault minor⟩

/-- Of ten bytes six are copied, and the four after them are lost. -/
theorem not_changes_reported_six :
    ¬ChangesReported (fun _ => 7) 0
      (MyDynamic.mycdrvWrite .x86 (fun _ => 7) (fun _ => 1) 10 0 4) := by
  intro h
  have := h.kept (by decide) 6 (by decide)
  revert this
  decide

end KernelExamples.PartialWrite
