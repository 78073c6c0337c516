import Mathlib.Tactic.Common
import Mathlib.Tactic.Linarith
import Mathlib.Tactic.Ring
import Mathlib.Data.List.Induction

/-!
# Memory as a function of the address

A block of memory is a function of the offset from its first cell. `memcpy` copies a
range. A `Mem.Write` is a range with its contents, `replay` applies writes in order, and
`latest` reads an address off the last write that covers it. The two agree
(`replay_eq_latest`), and writes may be made cell by cell (`foldl_cells`).

`blocks n` groups `n` consecutive cells into one. A copy of whole blocks is a copy of
the cells of the grouped memory (`blocks_memcpy`).

`memcpyMod M` copies in a memory of `M` cells whose addresses wrap, as pointers do. Between
ranges that do not wrap it is `memcpy` (`memcpyMod_eq_memcpy`). Two ranges of such a memory
have no cell in common when each ends before the other starts, going round
(`apartMod_iff`).
-/

namespace Mem

variable {V : Type*}

/-- `memcpy(dst + d, src + s, n)`. -/
def memcpy (dst : ℤ → V) (d : ℤ) (src : ℤ → V) (s n : ℤ) : ℤ → V :=
  fun a => if d ≤ a ∧ a < d + n then src (s + (a - d)) else dst a

theorem memcpy_of_mem {dst src : ℤ → V} {d s n a : ℤ} (h : d ≤ a) (h' : a < d + n) :
    memcpy dst d src s n a = src (s + (a - d)) :=
  if_pos ⟨h, h'⟩

theorem memcpy_of_not_mem {dst src : ℤ → V} {d s n a : ℤ} (h : ¬(d ≤ a ∧ a < d + n)) :
    memcpy dst d src s n a = dst a :=
  if_neg h

theorem memcpy_of_nonpos {dst src : ℤ → V} {d s n : ℤ} (h : n ≤ 0) :
    memcpy dst d src s n = dst := by
  funext a
  exact memcpy_of_not_mem (by omega)

/-! ## Addresses that wrap -/

/-- The cell `a` is one of the `n` from `d` on, in a memory of `M` cells whose addresses
wrap. -/
def CoversMod (M d n a : ℤ) : Prop := 0 ≤ a ∧ a < M ∧ (a - d) % M < n

instance (M d n a : ℤ) : Decidable (CoversMod M d n a) :=
  inferInstanceAs (Decidable (_ ∧ _))

/-- `memcpy(dst + d, src + s, n)` in a memory of `M` cells whose addresses wrap. -/
def memcpyMod (M : ℤ) (dst : ℤ → V) (d : ℤ) (src : ℤ → V) (s n : ℤ) : ℤ → V :=
  fun a => if CoversMod M d n a then src ((s + (a - d) % M) % M) else dst a

/-- A range that does not wrap is an interval. -/
theorem coversMod_iff {M d n a : ℤ} (hd : 0 ≤ d) (hdn : d + n ≤ M) :
    CoversMod M d n a ↔ d ≤ a ∧ a < d + n := by
  constructor
  · rintro ⟨ha, haM, hlt⟩
    have hM : 0 < M := by omega
    rcases le_or_gt d a with hda | hda
    · rw [Int.emod_eq_of_lt (by omega) (by omega)] at hlt
      omega
    · -- before the start, the distance from the start goes round
      rcases lt_or_ge d M with hdM | hdM
      · rw [← Int.add_emod_right, Int.emod_eq_of_lt (by omega) (by omega)] at hlt
        omega
      · have := Int.emod_nonneg (a - d) hM.ne'
        omega
  · rintro ⟨hda, han⟩
    refine ⟨by omega, by omega, ?_⟩
    rw [Int.emod_eq_of_lt (by omega) (by omega)]
    omega

/-- Between ranges that do not wrap, addresses may be taken as they are. -/
theorem memcpyMod_eq_memcpy {M d s n : ℤ} (dst src : ℤ → V) (hd : 0 ≤ d) (hdn : d + n ≤ M)
    (hs : 0 ≤ s) (hsn : s + n ≤ M) : memcpyMod M dst d src s n = memcpy dst d src s n := by
  funext a
  unfold memcpyMod memcpy
  by_cases h : d ≤ a ∧ a < d + n
  · rw [if_pos h, if_pos ((coversMod_iff hd hdn).2 h), Int.emod_eq_of_lt (a := a - d) (by omega)
      (by omega), Int.emod_eq_of_lt (by omega) (by omega)]
  · rw [if_neg h, if_neg fun h' => h ((coversMod_iff hd hdn).1 h')]

theorem coversMod_emod {M d n : ℤ} (hM : 0 < M) (x : ℤ) :
    CoversMod M d n (x % M) ↔ (x - d) % M < n := by
  rw [CoversMod, Int.emod_sub_emod]
  have hx := Int.emod_nonneg x hM.ne'
  have hxM := Int.emod_lt_of_pos x hM
  tauto

/-- The ranges have no cell in common. -/
def ApartMod (M c n d m : ℤ) : Prop := ∀ a, CoversMod M c n a → ¬CoversMod M d m a

/-- Going round from the start of either range, it ends before the other one starts. -/
theorem apartMod_iff {M c n d m : ℤ} (hM : 0 < M) (hn : 0 ≤ n) (hm : 0 ≤ m) :
    ApartMod M c n d m ↔ n = 0 ∨ m = 0 ∨ n ≤ (d - c) % M ∧ m ≤ (c - d) % M := by
  constructor
  · intro h
    by_contra hne
    push Not at hne
    obtain ⟨hn0, hm0, hlt⟩ := hne
    have hself : ∀ x k : ℤ, 0 ≤ k → k ≠ 0 → (x - x) % M < k := fun x k hk hk0 => by
      rw [sub_self, Int.zero_emod]
      omega
    rcases lt_or_ge ((d - c) % M) n with hd | hd
    · -- the second range starts inside the first
      exact h (d % M) ((coversMod_emod hM d).2 hd) ((coversMod_emod hM d).2 (hself d m hm hm0))
    · exact h (c % M) ((coversMod_emod hM c).2 (hself c n hn hn0))
        ((coversMod_emod hM c).2 (hlt hd))
  · rintro hdisj a ⟨-, -, hc⟩ ⟨-, -, hd⟩
    have hc0 := Int.emod_nonneg (a - c) hM.ne'
    have hd0 := Int.emod_nonneg (a - d) hM.ne'
    have hsub : ∀ x y : ℤ, y % M ≤ x % M → (x - y) % M = x % M - y % M := fun x y hle => by
      have hx := Int.emod_lt_of_pos x hM
      have hy := Int.emod_nonneg y hM.ne'
      rw [Int.sub_emod, Int.emod_eq_of_lt (by omega) (by omega)]
    rcases hdisj with rfl | rfl | ⟨hn', hm'⟩
    · omega
    · omega
    · -- the start that is farther behind the cell is before the other start
      rcases le_total ((a - d) % M) ((a - c) % M) with hle | hle
      · have heq := hsub _ _ hle
        rw [sub_sub_sub_cancel_left] at heq
        omega
      · have heq := hsub _ _ hle
        rw [sub_sub_sub_cancel_left] at heq
        omega

/-! ## Histories of writes -/

/-- `data` stored at the `len` cells from `start`. -/
structure Write (V : Type*) where
  start : ℤ
  len : ℤ
  data : ℤ → V

/-- The write stores to the cell `a`. -/
def Write.Covers (w : Write V) (a : ℤ) : Prop := w.start ≤ a ∧ a < w.start + w.len

instance (w : Write V) (a : ℤ) : Decidable (w.Covers a) :=
  inferInstanceAs (Decidable (_ ∧ _))

/-- The memory after the write. -/
def Write.apply (m : ℤ → V) (w : Write V) : ℤ → V := memcpy m w.start w.data 0 w.len

/-- The memory after the writes, in order. -/
def replay (m : ℤ → V) (ws : List (Write V)) : ℤ → V := ws.foldl Write.apply m

/-- What the last of the writes that covers `a` left there, or the initial contents. -/
def latest (m : ℤ → V) (ws : List (Write V)) (a : ℤ) : V :=
  match ws.reverse.find? fun w => w.Covers a with
  | some w => w.data (a - w.start)
  | none => m a

theorem replay_append (m : ℤ → V) (ws ws' : List (Write V)) :
    replay m (ws ++ ws') = replay (replay m ws) ws' :=
  List.foldl_append

theorem latest_append_singleton (m : ℤ → V) (ws : List (Write V)) (w : Write V) (a : ℤ) :
    latest m (ws ++ [w]) a = if w.Covers a then w.data (a - w.start) else latest m ws a := by
  unfold latest
  by_cases h : w.Covers a <;> simp [h]

theorem Write.apply_apply (m : ℤ → V) (w : Write V) (a : ℤ) :
    w.apply m a = if w.Covers a then w.data (a - w.start) else m a := by
  split_ifs with h
  · rw [Write.apply, memcpy_of_mem h.1 h.2, zero_add]
  · exact memcpy_of_not_mem h

theorem replay_eq_latest (m : ℤ → V) (ws : List (Write V)) (a : ℤ) :
    replay m ws a = latest m ws a := by
  induction ws using List.reverseRecOn with
  | nil => rfl
  | append_singleton ws w ih =>
    rw [replay_append, latest_append_singleton, ← ih]
    exact Write.apply_apply (replay m ws) w a

/-! ## Cell by cell -/

/-- The cells a write stores, with what it stores there, in order. -/
def Write.cells (w : Write V) : List (ℤ × V) :=
  (List.range w.len.toNat).map fun i : ℕ => (w.start + i, w.data i)

theorem Write.mem_cells {w : Write V} {c : ℤ × V} (h : c ∈ w.cells) :
    w.Covers c.1 ∧ c.2 = w.data (c.1 - w.start) := by
  obtain ⟨i, hi, rfl⟩ := List.mem_map.1 h
  rw [List.mem_range] at hi
  refine ⟨⟨by dsimp only; omega, by dsimp only; omega⟩, ?_⟩
  rw [add_sub_cancel_left]

/-- The cells of a write stored one after the other. -/
theorem Write.foldl_cells (m : ℤ → V) (w : Write V) :
    w.cells.foldl (fun m c => Function.update m c.1 c.2) m = w.apply m := by
  suffices h : ∀ n : ℕ, ((List.range n).map fun i : ℕ => (w.start + i, w.data i)).foldl
      (fun m c => Function.update m c.1 c.2) m = memcpy m w.start w.data 0 n by
    rw [Write.cells, h]
    funext a
    unfold Write.apply memcpy
    exact if_congr (by omega) rfl rfl
  intro n
  induction n with
  | zero => exact (memcpy_of_nonpos le_rfl).symm
  | succ n ih =>
    rw [List.range_succ, List.map_append, List.foldl_append, ih]
    funext a
    rcases eq_or_ne a (w.start + n) with rfl | hne
    · rw [memcpy_of_mem (by omega) (by push_cast; omega), zero_add, add_sub_cancel_left]
      exact Function.update_self _ _ _
    · refine (Function.update_of_ne hne _ _).trans ?_
      unfold memcpy
      exact if_congr (by push_cast; omega) rfl rfl

/-- Writes made cell by cell. -/
theorem foldl_cells (m : ℤ → V) (ws : List (Write V)) :
    (ws.flatMap Write.cells).foldl (fun m c => Function.update m c.1 c.2) m = replay m ws := by
  rw [List.foldl_flatMap, replay]
  simp only [Write.foldl_cells]

/-! ## Grouping cells -/

/-- The `n` cells of each block, as one cell. -/
def blocks (n : ℕ) (m : ℤ → V) (k : ℤ) (b : Fin n) : V := m (n * k + b)

theorem block_mem_iff {n : ℕ} {d c k : ℤ} (b : Fin n) :
    (n * d ≤ n * k + b ∧ n * k + b < n * d + n * c) ↔ d ≤ k ∧ k < d + c := by
  have hb : (b : ℤ) < n := by exact_mod_cast b.isLt
  have hb0 : (0 : ℤ) ≤ b := by positivity
  constructor
  · rintro ⟨h, h'⟩
    constructor
    · by_contra hk
      have : (n : ℤ) * (k + 1) ≤ n * d := Int.mul_le_mul_of_nonneg_left (by omega) (by omega)
      linarith
    · by_contra hk
      have : (n : ℤ) * (d + c) ≤ n * k := Int.mul_le_mul_of_nonneg_left (by omega) (by omega)
      linarith
  · rintro ⟨h, h'⟩
    have h1 : (n : ℤ) * d ≤ n * k := Int.mul_le_mul_of_nonneg_left h (by omega)
    have h2 : (n : ℤ) * (k + 1) ≤ n * (d + c) :=
      Int.mul_le_mul_of_nonneg_left (by omega) (by omega)
    constructor <;> linarith

/-- A copy of whole blocks copies the grouped cells. -/
theorem blocks_memcpy (n : ℕ) (dst src : ℤ → V) (d s c : ℤ) :
    blocks n (memcpy dst (n * d) src (n * s) (n * c)) =
      memcpy (blocks n dst) d (blocks n src) s c := by
  funext k b
  by_cases h : d ≤ k ∧ k < d + c
  · have h' := (block_mem_iff b).2 h
    rw [blocks, memcpy_of_mem h'.1 h'.2, memcpy_of_mem h.1 h.2, blocks]
    congr 1
    ring
  · rw [blocks, memcpy_of_not_mem (fun h' => h ((block_mem_iff b).1 h')), memcpy_of_not_mem h,
      blocks]

end Mem
