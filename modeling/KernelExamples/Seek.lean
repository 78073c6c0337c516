import KernelExamples.MyChar

/-!
# Where a seek lands

`llseek` of `mydynamic` and `mychar` sends the target of a seek to the nearest end of the
buffer by two clamps, the upper one first. `KBUF_SIZE` is unsigned, so a target before the
start counts as a large one and is sent to the end, and the lower clamp has nothing left to
do (`seekClamp_eq`). The seek lands where it should exactly when its target is not before the
start (`seek_clamps_iff`).
-/

namespace KernelExamples.Seek

open CInt

/-- `SEEK_SET`, `SEEK_CUR` and `SEEK_END`. -/
inductive Origin
  | set
  | cur
  | fromEnd

def Origin.val : Origin → ℤ
  | set => 0
  | cur => 1
  | fromEnd => 2

/-- Where the seek asks to go, in exact integers. -/
def target (size fPos offset : ℤ) : Origin → ℤ
  | .set => offset
  | .cur => fPos + offset
  | .fromEnd => size + offset

/-- The number is a `loff_t`. -/
def FitsLoff (x : ℤ) : Prop := -2 ^ 63 ≤ x ∧ x < 2 ^ 63

/-- A seek sets and returns the position in the buffer that is nearest to its target, and a
seek with a larger offset lands no earlier. -/
structure Clamps (size fPos : ℤ) (lseek : ℤ → ℤ → ℤ → ℤ × ℤ) (offset : ℤ) (orig : Origin) :
    Prop where
  ret : (lseek fPos offset orig.val).1 = max 0 (min (target size fPos offset orig) size)
  pos : (lseek fPos offset orig.val).2 = max 0 (min (target size fPos offset orig) size)
  mono : ∀ offset' : Loff, offset ≤ offset'.val → FitsLoff (target size fPos offset'.val orig) →
    (lseek fPos offset orig.val).1 ≤ (lseek fPos offset'.val orig.val).1

variable {size fPos : ℤ}

/-- A target before the start is sent to the end. -/
theorem seekClamp_eq (hsize : 0 ≤ size) (hsize' : size < 2 ^ 31) {t : ℤ} (ht : FitsLoff t) :
    seekClamp size t = if 0 ≤ t then min t size else size := by
  obtain ⟨hge, hlt⟩ := ht
  -- the lower clamp, on a value that is not negative
  have hlower : ∀ x, 0 ≤ x → x < 2 ^ 63 → (if int64 x ≥ 0 then int64 x else 0) = x := by
    intro x hx hx'
    rw [int64_of_mem (by omega) hx', if_pos hx]
  unfold seekClamp
  by_cases h : 0 ≤ t
  · rw [if_pos h, uint64_of_mem h (by omega)]
    split_ifs with hend
    · exact (hlower t h hlt).trans (min_eq_left hend.le).symm
    · exact (hlower size hsize (by omega)).trans (min_eq_right (by omega)).symm
  · have hwrap : uint64 t = t + 2 ^ 64 := by
      unfold uint64
      omega
    have hend : ¬t + 2 ^ 64 < size := by omega
    rw [if_neg h, hwrap, if_neg hend]
    exact hlower size hsize (by omega)

/-- A seek to a target that fits goes there before it is clamped. -/
theorem seekTarget_eq {offset : ℤ} {orig : Origin} (h : FitsLoff (target size fPos offset orig)) :
    seekTarget size fPos offset orig.val = some (target size fPos offset orig) := by
  cases orig with
  | set => rfl
  | cur => exact congrArg some (int64_of_mem h.1 h.2)
  | fromEnd =>
    refine congrArg some ?_
    have h1 := h.1
    have h2 := h.2
    simp only [target] at h1 h2 ⊢
    unfold int64 uint64
    omega

theorem lseek_eq (hsize : 0 ≤ size) (hsize' : size < 2 ^ 31) {offset : ℤ} {orig : Origin}
    (h : FitsLoff (target size fPos offset orig)) :
    lseek size fPos offset orig.val =
      let p := if 0 ≤ target size fPos offset orig then min (target size fPos offset orig) size
        else size
      (p, p) := by
  rw [lseek, seekTarget_eq h]
  exact Prod.ext (seekClamp_eq hsize hsize' h) (seekClamp_eq hsize hsize' h)

theorem target_mono (size fPos : ℤ) {offset offset' : ℤ} (h : offset ≤ offset')
    (orig : Origin) : target size fPos offset orig ≤ target size fPos offset' orig := by
  cases orig <;> simp only [target] <;> omega

theorem clamps_iff (hsize : 0 < size) (hsize' : size < 2 ^ 31) {offset : ℤ} {orig : Origin}
    (h : FitsLoff (target size fPos offset orig)) :
    Clamps size fPos (lseek size) offset orig ↔ 0 ≤ target size fPos offset orig := by
  have hseek := lseek_eq hsize.le hsize' h
  constructor
  · intro hclamps
    by_contra hneg
    have hret := hclamps.ret
    rw [hseek] at hret
    simp only [hneg, if_false] at hret
    omega
  · intro ht
    simp only [ht, if_true] at hseek
    have hnearest : min (target size fPos offset orig) size =
        max 0 (min (target size fPos offset orig) size) :=
      (max_eq_right (le_min ht hsize.le)).symm
    refine ⟨by rw [hseek]; exact hnearest, by rw [hseek]; exact hnearest, ?_⟩
    intro offset' hle h'
    have hmono := target_mono size fPos hle orig
    rw [hseek, lseek_eq hsize.le hsize' h']
    simp only [ht.trans hmono, if_true]
    exact min_le_min_right size hmono

/-- From every position in the buffer, and for every seek whose target fits a `loff_t`, both
drivers land in the right place exactly when the target is not before the start. -/
theorem seek_clamps_iff (A : Arch) (fPos : BufPos (10 * A.pageSize)) (offset : Loff)
    (orig : Origin) (h : FitsLoff (target (10 * A.pageSize) fPos.val offset.val orig)) :
    Clamps (10 * A.pageSize) fPos.val (MyDynamic.mycdrvLseek A) offset.val orig ∧
        Clamps (10 * A.pageSize) fPos.val (MyChar.myLseek A) offset.val orig ↔
      0 ≤ target (10 * A.pageSize) fPos.val offset.val orig := by
  have hpage := A.le_pageSize
  have hpage' := A.pageSize_le
  have hdynamic : MyDynamic.mycdrvLseek A = lseek (10 * A.pageSize) := by
    funext fPos offset orig
    rw [MyDynamic.mycdrvLseek, MyDynamic.kbufSize_eq]
  have hchar : MyChar.myLseek A = MyDynamic.mycdrvLseek A := rfl
  rw [hchar, hdynamic, and_self]
  exact clamps_iff (by omega) (by omega) h

/-- A seek to one byte before the end. -/
theorem seek_clamps_last :
    Clamps (10 * Arch.x86.pageSize) 0 (MyDynamic.mycdrvLseek .x86) (-1) .fromEnd ∧
      Clamps (10 * Arch.x86.pageSize) 0 (MyChar.myLseek .x86) (-1) .fromEnd :=
  (seek_clamps_iff .x86 ⟨0, by decide, by decide⟩ ⟨-1, by decide, by decide⟩ .fromEnd
    (by unfold FitsLoff; decide)).2 (by decide)

/-- A seek to one byte before the start lands at the end. -/
theorem not_seek_clamps_before_start :
    ¬Clamps (10 * Arch.x86.pageSize) 0 (MyDynamic.mycdrvLseek .x86) (-1) .cur := by
  intro h
  have := h.ret
  revert this
  decide

end KernelExamples.Seek
