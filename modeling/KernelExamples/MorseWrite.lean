import KernelExamples.Kernel
import KernelExamples.Morse

/-!
# Writing to the morse device

`m_write` of `io_port/morse_io.c` copies the text to a block of `length` bytes, stores a NUL after
the bytes that were copied and hands the block to `morse`, which reads up to a NUL. The loop of
`morse` ends at that NUL at the latest (`morseLoop_halts`).

When all bytes are copied, the NUL is stored after the block. So the accesses are in the block
only if `copy_from_user` left some byte out (`m_write_iff`).
-/

namespace KernelExamples.Morse

open CInt Mem Traces

/-! ## The source -/

/-- A length, and what `kmalloc` gives for it : `none` if there is no memory, else what a block of
this length holds. There is no block of `2 ^ 63` bytes. -/
structure Request where
  length : ℤ
  nonneg : 0 ≤ length
  lt : length < 2 ^ 64
  block : Option Bytes
  length_lt : block.isSome → length < 2 ^ 63

/-- What `morse` reads from `cp` on, each byte with its index, with a bound on the iterations of
its loop. -/
def morseReads (data : Bytes) : ℕ → ℤ → List (ℤ × UInt8)
  | 0, _ => []
  | n + 1, cp => (cp, data cp) :: if data cp = 0 then [] else morseReads data n (cp + 1)

/-- The outer loop of `morse` : the index, and what was done. -/
def morseLoop (signed : Bool) (minorNo : ℤ) (data : Bytes) :
    ℤ × List Event → Option (ℤ × List Event)
  | (cp, es) =>
    if data cp = 0 then none else some (cp + 1, es ++ morseChar signed minorNo (data cp))

/-- What happens to the block : the stores of `m_write`, the bytes after them, and what `morse`
reads and does. -/
structure Handed where
  stores : List (Write UInt8)
  data : Bytes
  reads : List (ℤ × UInt8)
  events : List Event

/-- The stores of `copy_from_user`, which clears what it did not copy. -/
def copyStores (buffer : Bytes) (length : ℤ) (fault : ℕ) : List (Write UInt8) :=
  [⟨0, length - uncopied fault length, buffer⟩,
    ⟨length - uncopied fault length, uncopied fault length, fun _ => 0⟩]

theorem replay_copyStores (data buffer : Bytes) (length : ℤ) (fault : ℕ) :
    replay data (copyStores buffer length fault) = copyFromUser data 0 buffer length fault := by
  rw [copyFromUser, zero_add]
  rfl

/-- What happens to the block, if there is one, and the value returned. -/
def mWrite (signed : Bool) (minor : ℤ) (r : Request) (buffer : Bytes) (fault : ℕ) :
    Option Handed × ℤ :=
  match r.block with
  | none => (none, 0)
  | some data =>
    let minorNo := minor + 1
    let length := uint64 (r.length - uncopied fault r.length)
    let stores := copyStores buffer r.length fault ++ [⟨length, 1, fun _ => 0⟩]
    let data := replay data stores
    let reads := morseReads data (length.toNat + 1) 0
    (some ⟨stores, data, reads, morse signed minorNo (reads.map Prod.snd)⟩, int64 length)

/-! ## What is asked of it -/

/-- The bytes copied. -/
def Request.copied (r : Request) (fault : ℕ) : ℤ :=
  if r.block.isSome then r.length - uncopied fault r.length else 0

/-- All accesses are in the block, and `morse` ends after it read some of the copied bytes and a
NUL. -/
structure HandsString (signed : Bool) (minorNo : ℤ) (r : Request) (buffer : Bytes) (fault : ℕ)
    (w : Handed) : Prop where
  stores_mem : ∀ s ∈ w.stores, ∀ a, s.Covers a → 0 ≤ a ∧ a < r.length
  reads_mem : ∀ x ∈ w.reads, 0 ≤ x.1 ∧ x.1 < r.length
  reads_eq : ∃ n : ℕ, n ≤ r.copied fault ∧
    w.reads = (List.range n).map (fun i : ℕ => ((i : ℤ), buffer i)) ++ [((n : ℤ), 0)] ∧
    Halts (morseLoop signed minorNo w.data) (0, []) (n, w.events)

/-! ## The loop of morse -/

/-- The first NUL from `cp` on is the one `n` bytes after it. -/
def FirstNul (data : Bytes) (cp : ℤ) (n : ℕ) : Prop :=
  (∀ i < n, data (cp + i) ≠ 0) ∧ data (cp + n) = 0

theorem add_one_add_cast (cp : ℤ) (i : ℕ) : cp + 1 + i = cp + (i + 1 : ℕ) := by
  push_cast
  ring

theorem FirstNul.of_succ {data : Bytes} {cp : ℤ} {n : ℕ} (h : FirstNul data cp (n + 1)) :
    data cp ≠ 0 ∧ FirstNul data (cp + 1) n := by
  refine ⟨by simpa using h.1 0 (Nat.succ_pos n), fun i hi => ?_, ?_⟩
  · rw [add_one_add_cast]
    exact h.1 (i + 1) (Nat.succ_lt_succ hi)
  · rw [add_one_add_cast]
    exact h.2

theorem exists_firstNul {data : Bytes} {k : ℕ} (h : data k = 0) : ∃ n ≤ k, FirstNul data 0 n := by
  have hex : ∃ n : ℕ, data n = 0 := ⟨k, h⟩
  refine ⟨Nat.find hex, Nat.find_min' hex h, fun i hi => ?_, ?_⟩
  · rw [zero_add]
    exact Nat.find_min hex hi
  · rw [zero_add]
    exact Nat.find_spec hex

/-- The reads go up to the first NUL. -/
theorem morseReads_eq {data : Bytes} : ∀ {n fuel : ℕ} {cp : ℤ}, n < fuel → FirstNul data cp n →
    morseReads data fuel cp =
      (List.range n).map (fun i : ℕ => (cp + i, data (cp + i))) ++ [(cp + n, 0)]
  | 0, fuel + 1, cp, _, h => by
    have hnul : data cp = 0 := by simpa using h.2
    simp [morseReads, hnul]
  | n + 1, fuel + 1, cp, hn, h => by
    have ih := morseReads_eq (Nat.lt_of_succ_lt_succ hn) h.of_succ.2
    rw [morseReads, if_neg h.of_succ.1, ih, List.range_succ_eq_map, List.map_cons, List.map_map]
    simp [add_one_add_cast, Function.comp_def]

/-- The loop ends at the first NUL. -/
theorem morseLoop_halts (signed : Bool) (minorNo : ℤ) {data : Bytes} :
    ∀ {n fuel : ℕ} {cp : ℤ} (es : List Event), n < fuel → FirstNul data cp n →
      Halts (morseLoop signed minorNo data) (cp, es)
        (cp + n, es ++ morse signed minorNo ((morseReads data fuel cp).map Prod.snd))
  | 0, fuel + 1, cp, es, _, h => by
    have hnul : data cp = 0 := by simpa using h.2
    simpa [morseReads, hnul, morse] using Halts.done (by simp [morseLoop, hnul])
  | n + 1, fuel + 1, cp, es, hn, h => by
    have hne := h.of_succ.1
    have ih := morseLoop_halts signed minorNo (es ++ morseChar signed minorNo (data cp))
      (Nat.lt_of_succ_lt_succ hn) h.of_succ.2
    refine .next (by rw [morseLoop, if_neg hne]) ?_
    rw [morseReads, if_neg hne, List.map_cons, morse, if_neg hne, ← List.append_assoc,
      ← add_one_add_cast]
    exact ih

/-! ## The block -/

variable {r : Request} {fault : ℕ} {data : Bytes}

theorem Request.copied_of_some (h : r.block = some data) (fault : ℕ) :
    r.copied fault = r.length - uncopied fault r.length := by
  rw [Request.copied, h]
  rfl

theorem Request.copied_nonneg (r : Request) (fault : ℕ) : 0 ≤ r.copied fault := by
  have := uncopied_le fault r.length
  unfold Request.copied
  split_ifs <;> omega

theorem Request.copied_lt (h : r.block = some data) (fault : ℕ) : r.copied fault < 2 ^ 63 := by
  have := r.length_lt (by rw [h]; rfl)
  have := uncopied_nonneg fault r.nonneg
  rw [r.copied_of_some h]
  omega

/-- The stores of `m_write`. -/
def Request.stores (r : Request) (buffer : Bytes) (fault : ℕ) : List (Write UInt8) :=
  copyStores buffer r.length fault ++ [⟨r.copied fault, 1, fun _ => 0⟩]

/-- The bytes of the block after the stores. -/
def Request.stored (r : Request) (buffer : Bytes) (fault : ℕ) (data : Bytes) : Bytes :=
  replay data (r.stores buffer fault)

/-- What `morse` reads of them. -/
def Request.reads (r : Request) (buffer : Bytes) (fault : ℕ) (data : Bytes) : List (ℤ × UInt8) :=
  morseReads (r.stored buffer fault data) ((r.copied fault).toNat + 1) 0

theorem mWrite_of_some (signed : Bool) (minor : ℤ) (buffer : Bytes) (h : r.block = some data) :
    mWrite signed minor r buffer fault =
      (some ⟨r.stores buffer fault, r.stored buffer fault data, r.reads buffer fault data,
        morse signed (minor + 1) ((r.reads buffer fault data).map Prod.snd)⟩, r.copied fault) := by
  have hnonneg := r.copied_nonneg fault
  have hlt := Request.copied_lt h fault
  have huint : uint64 (r.copied fault) = r.copied fault := uint64_of_mem hnonneg (by omega)
  have hint : int64 (r.copied fault) = r.copied fault := int64_of_mem (by omega) hlt
  simp only [mWrite, h, ← r.copied_of_some h, huint, hint, Request.stores, Request.stored,
    Request.reads]

/-- There is a NUL after the copied bytes. -/
theorem stored_copied (r : Request) (buffer : Bytes) (fault : ℕ) (data : Bytes) :
    r.stored buffer fault data (r.copied fault) = 0 := by
  rw [Request.stored, Request.stores, replay_append]
  exact (Write.apply_apply _ _ _).trans (if_pos ⟨le_rfl, lt_add_one _⟩)

theorem stored_of_lt (buffer : Bytes) (h : r.block = some data) {a : ℤ} (ha : 0 ≤ a)
    (ha' : a < r.copied fault) : r.stored buffer fault data a = buffer a := by
  have hcopied := r.copied_of_some h fault
  simp only [Request.stored, Request.stores, copyStores, replay, List.cons_append,
    List.nil_append, List.foldl_cons, List.foldl_nil, Write.apply_apply, ← hcopied]
  rw [if_neg fun h => absurd h.1 (by dsimp only; omega),
    if_neg fun h => absurd h.1 (by dsimp only; omega), if_pos ⟨ha, by dsimp only; omega⟩, sub_zero]

/-- The stores are in the block exactly when the copy is not complete. -/
theorem stores_mem_iff (buffer : Bytes) (h : r.block = some data) :
    (∀ s ∈ r.stores buffer fault, ∀ a, s.Covers a → 0 ≤ a ∧ a < r.length) ↔
      0 < uncopied fault r.length := by
  have hcopied := r.copied_of_some h fault
  have hnonneg := r.copied_nonneg fault
  have hle := uncopied_nonneg fault r.nonneg
  simp only [Request.stores, copyStores, List.cons_append, List.nil_append, List.forall_mem_cons,
    List.not_mem_nil, false_imp_iff, implies_true, and_true, Write.Covers, ← hcopied]
  constructor
  · rintro ⟨-, -, hnul⟩
    have := hnul (r.copied fault) (by omega)
    omega
  · intro hpos
    refine ⟨fun a ha => ?_, fun a ha => ?_, fun a ha => ?_⟩ <;> omega

/-- `morse` ends after it read some of the copied bytes and a NUL. -/
theorem reads_eq_copied (signed : Bool) (minorNo : ℤ) (buffer : Bytes) (h : r.block = some data) :
    ∃ n : ℕ, n ≤ r.copied fault ∧
      r.reads buffer fault data =
        (List.range n).map (fun i : ℕ => ((i : ℤ), buffer i)) ++ [((n : ℤ), 0)] ∧
      Halts (morseLoop signed minorNo (r.stored buffer fault data)) (0, [])
        (n, morse signed minorNo ((r.reads buffer fault data).map Prod.snd)) := by
  have hcast := Int.toNat_of_nonneg (r.copied_nonneg fault)
  have hnul := stored_copied r buffer fault data
  rw [← hcast] at hnul
  obtain ⟨n, hn, hfirst⟩ := exists_firstNul hnul
  refine ⟨n, by omega, ?_, ?_⟩
  · rw [Request.reads, morseReads_eq (Nat.lt_succ_of_le hn) hfirst]
    simp only [zero_add]
    congr 1
    refine List.map_congr_left fun i hi => ?_
    have hi := List.mem_range.1 hi
    rw [stored_of_lt buffer h (by omega) (by omega)]
  · simpa [Request.reads] using morseLoop_halts signed minorNo [] (Nat.lt_succ_of_le hn) hfirst

/-- The accesses of `m_write` and of `morse` are right exactly when there is no block, or
`copy_from_user` left a byte out. -/
theorem m_write_iff (signed : Bool) (minor : ℤ) (r : Request) (buffer : Bytes) (fault : ℕ) :
    ((∀ w ∈ (mWrite signed minor r buffer fault).1,
        HandsString signed (minor + 1) r buffer fault w) ∧
      (mWrite signed minor r buffer fault).2 = r.copied fault) ↔
    r.block.isNone ∨ 0 < uncopied fault r.length := by
  cases hblock : r.block with
  | none => simp [mWrite, Request.copied, hblock]
  | some data =>
    rw [mWrite_of_some signed minor buffer hblock]
    simp only [Option.mem_def, Option.some.injEq, forall_eq', and_true, Option.isNone_some,
      Bool.false_eq_true, false_or]
    constructor
    · intro hw
      exact (stores_mem_iff buffer hblock).1 hw.stores_mem
    · intro hpos
      obtain ⟨n, hn, hreads, hhalts⟩ := reads_eq_copied signed (minor + 1) buffer hblock
      have hcopied := r.copied_of_some hblock fault
      refine ⟨(stores_mem_iff buffer hblock).2 hpos, fun x hx => ?_, n, hn, hreads, hhalts⟩
      simp only [hreads, List.mem_append, List.mem_map, List.mem_range, List.mem_singleton] at hx
      rcases hx with ⟨i, hi, rfl⟩ | rfl
      · dsimp only
        omega
      · dsimp only
        omega

/-- A whole `A` is copied to its block of one byte, and the NUL is stored after the block. -/
theorem not_m_write_whole :
    ¬((∀ w ∈ (mWrite true 0 ⟨1, by decide, by decide, some fun _ => 0, fun _ => by decide⟩
          (fun _ => 65) 0).1,
        HandsString true 1 ⟨1, by decide, by decide, some fun _ => 0, fun _ => by decide⟩
          (fun _ => 65) 0 w) ∧
      (mWrite true 0 ⟨1, by decide, by decide, some fun _ => 0, fun _ => by decide⟩
        (fun _ => 65) 0).2 = 1) := by
  rintro ⟨hw, -⟩
  have hnul := (hw _ rfl).stores_mem _ (List.mem_append_right _ List.mem_cons_self) 1 (by decide)
  exact absurd hnul.2 (by decide)

end KernelExamples.Morse
