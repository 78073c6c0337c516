import KernelExamples.Memory
import KernelExamples.Traces
import Mathlib.Data.List.GetD

/-!
# Text built up in a buffer

A `Writer` has the stores made to a buffer so far and the index of the next one. `clear` is
`memset`, `put` stores one character, and `print` stores a text and a NUL after it, as `sprintf`
does.

If the buffer `Holds` a text, the stores were inside it and the text is in its first cells.
Both operations append to the text as long as there is room (`Holds.put`, `Holds.print`), and what
was `Cleared` stays so after the text. What is stored on the way `Spells` the text : each cell gets
its character, or a NUL.

A loop that reads characters up to a NUL ends after the text that `IsString` there
(`halts_readChar_iff`).
-/

namespace Buffer

open Mem Traces

variable {V : Type*}

/-- The cells of a list, stored from `start` on. -/
def storeList [Zero V] (start : ℤ) (vs : List V) : Write V :=
  ⟨start, vs.length, fun i => vs.getD i.toNat 0⟩

/-- The stores made, and the index of the next one. -/
structure Writer (V : Type*) where
  stores : List (Write V)
  cnt : ℤ

namespace Writer

variable [Zero V]

/-- `memset(buf, 0, size)`. -/
def clear (size : ℤ) : Writer V := ⟨[⟨0, size, fun _ => 0⟩], 0⟩

/-- `buf[cnt++] = c`. -/
def put (w : Writer V) (c : V) : Writer V := ⟨w.stores ++ [⟨w.cnt, 1, fun _ => c⟩], w.cnt + 1⟩

/-- `cnt += sprintf(buf + cnt, t)`. -/
def print (w : Writer V) (t : List V) : Writer V :=
  ⟨w.stores ++ [storeList w.cnt (t ++ [0])], w.cnt + t.length⟩

/-- The buffer after the stores. -/
def memory (w : Writer V) (m : ℤ → V) : ℤ → V := replay m w.stores

end Writer

theorem memory_append (stores : List (Write V)) (s : Write V) (cnt : ℤ) (m : ℤ → V) (a : ℤ) :
    Writer.memory ⟨stores ++ [s], cnt⟩ m a =
      if s.Covers a then s.data (a - s.start) else replay m stores a := by
  rw [Writer.memory, replay_append]
  exact Write.apply_apply _ _ _

variable [Zero V]

/-- The stores were inside the buffer, and its first cells have the text. -/
structure Holds (size : ℤ) (m : ℤ → V) (w : Writer V) (text : List V) : Prop where
  cnt_eq : w.cnt = text.length
  stores_mem : ∀ s ∈ w.stores, ∀ a, s.Covers a → 0 ≤ a ∧ a < size
  cell : ∀ i < text.length, w.memory m i = text.getD i 0

/-- The cells from the next one on are NUL. -/
def Cleared (size : ℤ) (m : ℤ → V) (w : Writer V) : Prop :=
  ∀ a, w.cnt ≤ a → a < size → w.memory m a = 0

variable {size : ℤ} {m : ℤ → V} {w : Writer V} {text t : List V}

theorem holds_clear (size : ℤ) (m : ℤ → V) : Holds size m (.clear size) [] := by
  refine ⟨rfl, fun s hs a ha => ?_, fun i hi => absurd hi (Nat.not_lt_zero i)⟩
  obtain rfl := List.mem_singleton.1 hs
  simpa [Write.Covers] using ha

theorem cleared_clear (size : ℤ) (m : ℤ → V) : Cleared size m (.clear size) := by
  intro a ha ha'
  exact (Write.apply_apply m _ a).trans (if_pos ⟨ha, by simpa using ha'⟩)

/-- A store of a list after the text appends to it. -/
theorem Holds.append (h : Holds size m w text) {s : Write V} (hstart : s.start = w.cnt)
    (hlen : (t.length : ℤ) ≤ s.len) (hroom : w.cnt + s.len ≤ size)
    (hdata : ∀ i < t.length, s.data i = t.getD i 0) :
    Holds size m ⟨w.stores ++ [s], w.cnt + t.length⟩ (text ++ t) := by
  have hcnt := h.cnt_eq
  refine ⟨by rw [List.length_append, hcnt]; push_cast; rfl, fun s' hs' a ha => ?_, fun i hi => ?_⟩
  · rcases List.mem_append.1 hs' with hs' | hs'
    · exact h.stores_mem s' hs' a ha
    · obtain rfl := List.mem_singleton.1 hs'
      unfold Write.Covers at ha
      omega
  · rw [List.length_append] at hi
    rw [memory_append]
    by_cases hlt : i < text.length
    · rw [if_neg fun hcov => absurd hcov.1 (by omega), List.getD_append _ _ _ _ hlt]
      exact h.cell i hlt
    · rw [if_pos ⟨by omega, by omega⟩, List.getD_append_right _ _ _ _ (by omega),
        ← hdata (i - text.length) (by omega), hstart, hcnt]
      congr 1
      omega

theorem Holds.put (h : Holds size m w text) (c : V) (hroom : text.length < size) :
    Holds size m (w.put c) (text ++ [c]) := by
  have hcnt := h.cnt_eq
  refine h.append (t := [c]) (s := ⟨w.cnt, 1, fun _ => c⟩) rfl (by simp) (by dsimp only; omega)
    fun i hi => ?_
  obtain rfl : i = 0 := by simpa using hi
  rfl

theorem Holds.print (h : Holds size m w text) (t : List V)
    (hroom : text.length + t.length < size) : Holds size m (w.print t) (text ++ t) := by
  have hcnt := h.cnt_eq
  have hlen : ((t ++ [(0 : V)]).length : ℤ) = t.length + 1 := by simp
  refine h.append rfl ?_ ?_ fun i hi => ?_
  · dsimp only [storeList]
    omega
  · dsimp only [storeList]
    omega
  · dsimp only [storeList]
    rw [Int.toNat_natCast, List.getD_append _ _ _ _ hi]

/-- Texts are printed one after the other. -/
theorem Holds.foldl_print : ∀ {ts : List (List V)} {text : List V} {w : Writer V},
    Holds size m w text → text.length + ts.flatten.length < size →
      Holds size m (ts.foldl Writer.print w) (text ++ ts.flatten)
  | [], text, w, h, _ => by
    rw [List.flatten_nil, List.append_nil]
    exact h
  | t :: ts, text, w, h, hroom => by
    rw [List.flatten_cons, List.length_append] at hroom
    push_cast at hroom
    have hroom' : ((text ++ t).length : ℤ) + ts.flatten.length < size := by
      rw [List.length_append]
      push_cast
      omega
    have ih := Holds.foldl_print (h.print t (by omega)) hroom'
    rwa [List.append_assoc, ← List.flatten_cons] at ih

/-- The text can be read from the buffer. -/
theorem Holds.read (h : Holds size m w text) :
    (List.range text.length).map (fun i : ℕ => w.memory m i) = text := by
  refine List.ext_getElem (by simp) fun i hi hi' => ?_
  rw [List.getElem_map, List.getElem_range, h.cell i hi', List.getD_eq_getElem _ _ hi']

/-- There is a NUL after a text that was printed. -/
theorem memory_print_cnt (w : Writer V) (t : List V) :
    (w.print t).memory m (w.print t).cnt = 0 := by
  have hlen : ((t ++ [(0 : V)]).length : ℤ) = t.length + 1 := by simp
  have hcov : (storeList w.cnt (t ++ [0])).Covers (w.cnt + t.length) := by
    constructor <;> dsimp only [storeList] <;> omega
  rw [Writer.print, memory_append, if_pos hcov]
  dsimp only [storeList]
  rw [add_sub_cancel_left, Int.toNat_natCast, List.getD_append_right _ _ _ _ le_rfl, Nat.sub_self]
  rfl

theorem Cleared.put (h : Cleared size m w) (c : V) : Cleared size m (w.put c) := by
  intro a ha ha'
  rw [Writer.put] at ha ⊢
  dsimp only at ha
  rw [memory_append, if_neg fun hcov => absurd hcov.2 (by dsimp only; omega)]
  exact h a (by omega) ha'

/-- A list is put there character by character. -/
theorem Holds.foldl_put : ∀ {t text : List V} {w : Writer V}, Holds size m w text →
    Cleared size m w → text.length + t.length ≤ size →
      Holds size m (t.foldl Writer.put w) (text ++ t) ∧ Cleared size m (t.foldl Writer.put w)
  | [], text, w, h, hc, _ => by
    rw [List.append_nil]
    exact ⟨h, hc⟩
  | c :: t, text, w, h, hc, hroom => by
    rw [List.length_cons] at hroom
    have ih := Holds.foldl_put (t := t) (h.put c (by omega)) (hc.put c)
      (by rw [List.length_append, List.length_singleton]; push_cast at hroom ⊢; omega)
    rwa [List.append_assoc, List.singleton_append] at ih

/-! ## What is stored -/

/-- Every cell that was stored got a NUL or the character of the text there. -/
structure Spells (w : Writer V) (text : List V) : Prop where
  cnt_eq : w.cnt = text.length
  data : ∀ s ∈ w.stores, ∀ a, s.Covers a →
    s.data (a - s.start) = 0 ∨ text[a.toNat]? = some (s.data (a - s.start))

omit [Zero V] in
theorem getElem?_append_of_eq_some {c : V} {i : ℕ} (h : text[i]? = some c) (t : List V) :
    (text ++ t)[i]? = some c := by
  rw [List.getElem?_append_left (List.getElem?_eq_some_iff.1 h).1, h]

theorem spells_clear (size : ℤ) : Spells (.clear size : Writer V) [] := by
  refine ⟨rfl, fun s hs a _ => .inl ?_⟩
  obtain rfl := List.mem_singleton.1 hs
  rfl

theorem Spells.append (h : Spells w text) {s : Write V} (hstart : s.start = w.cnt)
    (hdata : ∀ i : ℕ, i < s.len → s.data i = 0 ∨ t[i]? = some (s.data i)) :
    Spells ⟨w.stores ++ [s], w.cnt + t.length⟩ (text ++ t) := by
  have hcnt := h.cnt_eq
  refine ⟨by rw [List.length_append, hcnt]; push_cast; rfl, fun s' hs' a ha => ?_⟩
  rcases List.mem_append.1 hs' with hs' | hs'
  · exact (h.data s' hs' a ha).imp_right fun hget => getElem?_append_of_eq_some hget t
  · obtain rfl := List.mem_singleton.1 hs'
    obtain ⟨ha, ha'⟩ := ha
    obtain ⟨i, hi⟩ : ∃ i : ℕ, a - s'.start = i := ⟨(a - s'.start).toNat, by omega⟩
    rw [hi, List.getElem?_append_right (by omega), show a.toNat - text.length = i by omega]
    exact hdata i (by omega)

theorem Spells.put (h : Spells w text) (c : V) : Spells (w.put c) (text ++ [c]) := by
  refine h.append (t := [c]) (s := ⟨w.cnt, 1, fun _ => c⟩) rfl fun i hi => .inr ?_
  obtain rfl : i = 0 := by dsimp only at hi; omega
  rfl

theorem Spells.print (h : Spells w text) (t : List V) : Spells (w.print t) (text ++ t) := by
  refine h.append rfl fun i _ => ?_
  dsimp only [storeList]
  rw [Int.toNat_natCast]
  by_cases hi : i < t.length
  · rw [List.getD_append _ _ _ _ hi, List.getD_eq_getElem _ _ hi]
    exact .inr (List.getElem?_eq_getElem hi)
  · rw [List.getD_append_right _ _ _ _ (by omega)]
    exact .inl (by cases h : i - t.length <;> rfl)

theorem Spells.foldl_print : ∀ (ts : List (List V)) {text : List V} {w : Writer V},
    Spells w text → Spells (ts.foldl Writer.print w) (text ++ ts.flatten)
  | [], text, w, h => by
    rw [List.flatten_nil, List.append_nil]
    exact h
  | t :: ts, text, w, h => by
    have ih := Spells.foldl_print ts (h.print t)
    rwa [List.append_assoc, ← List.flatten_cons] at ih

theorem Spells.foldl_put : ∀ {t text : List V} {w : Writer V}, Spells w text →
    Spells (t.foldl Writer.put w) (text ++ t)
  | [], text, w, h => by
    rw [List.append_nil]
    exact h
  | c :: t, text, w, h => by
    have ih := Spells.foldl_put (t := t) (h.put c)
    rwa [List.append_assoc, List.singleton_append] at ih

/-! ## Strings -/

/-- The text is what stands before the first NUL. -/
structure IsString (m : ℤ → V) (text : List V) : Prop where
  cell : ∀ i : ℕ, i < text.length → text[i]? = some (m i)
  nul_free : 0 ∉ text
  nul : m text.length = 0

theorem IsString.ne_zero (h : IsString m text) {i : ℕ} (hi : i < text.length) : m i ≠ 0 := by
  intro hz
  have hcell := h.cell i hi
  rw [hz] at hcell
  exact h.nul_free (List.mem_of_getElem? hcell)

/-- There is a string if there is a NUL. -/
theorem exists_isString [DecidableEq V] {k : ℕ} (h : m k = 0) :
    ∃ text, IsString m text ∧ text.length ≤ k := by
  have hex : ∃ n : ℕ, m n = 0 := ⟨k, h⟩
  have hlen : ((List.range (Nat.find hex)).map fun i : ℕ => m i).length = Nat.find hex := by simp
  refine ⟨(List.range (Nat.find hex)).map fun i : ℕ => m i, ⟨fun i hi => ?_, ?_, ?_⟩, ?_⟩
  · rw [hlen] at hi
    rw [List.getElem?_map, List.getElem?_range hi]
    rfl
  · intro hmem
    obtain ⟨i, hi, hz⟩ := List.mem_map.1 hmem
    exact Nat.find_min hex (List.mem_range.1 hi) hz
  · rw [hlen]
    exact Nat.find_spec hex
  · rw [hlen]
    exact Nat.find_min' hex h

/-- A loop that reads up to a NUL : the index, and what it has read. -/
def readChar [DecidableEq V] (m : ℤ → V) : ℤ × List V → Option (ℤ × List V)
  | (a, got) => if m a = 0 then none else some (a + 1, got ++ [m a])

/-- What was read so far. -/
structure ReadSoFar (m : ℤ → V) (s : ℤ × List V) : Prop where
  index_eq : s.1 = s.2.length
  cell : ∀ i : ℕ, i < s.2.length → s.2[i]? = some (m i)
  nul_free : 0 ∉ s.2

theorem readSoFar_nil (m : ℤ → V) : ReadSoFar m (0, []) :=
  ⟨rfl, fun _ hi => absurd hi (Nat.not_lt_zero _), List.not_mem_nil⟩

theorem ReadSoFar.step [DecidableEq V] {s s' : ℤ × List V} (h : ReadSoFar m s)
    (hs : readChar m s = some s') : ReadSoFar m s' := by
  obtain ⟨a, got⟩ := s
  obtain ⟨hindex, hcell, hnul⟩ := h
  dsimp only at hindex hcell hnul
  simp only [readChar] at hs
  split_ifs at hs with ha
  obtain rfl := Option.some.inj hs
  refine ⟨by rw [List.length_append, hindex]; rfl, fun i hi => ?_, ?_⟩
  · rw [List.length_append, List.length_singleton] at hi
    rcases Nat.lt_or_ge i got.length with hlt | hge
    · rw [List.getElem?_append_left hlt]
      exact hcell i hlt
    · obtain rfl : i = got.length := by omega
      rw [List.getElem?_concat_length, hindex]
  · rw [List.mem_append, List.mem_singleton]
    rintro (h | h)
    · exact hnul h
    · exact ha h.symm

theorem isString_of_halts [DecidableEq V] {s : ℤ × List V} {n : ℤ}
    (h : Halts (readChar m) s (n, text)) (hs : ReadSoFar m s) :
    n = text.length ∧ IsString m text := by
  generalize ht : (n, text) = t at h
  induction h with
  | done hstop =>
    subst ht
    obtain ⟨hindex, hcell, hnul⟩ := hs
    refine ⟨hindex, hcell, hnul, ?_⟩
    rw [← hindex]
    by_contra hne
    simp [readChar, hne] at hstop
  | next hnext _ ih => exact ih (hs.step hnext) ht

theorem IsString.halts_from [DecidableEq V] (h : IsString m text) : ∀ k ≤ text.length,
    Halts (readChar m) ((text.length - k : ℕ), text.take (text.length - k)) (text.length, text)
  | 0, _ => by
    rw [Nat.sub_zero, List.take_length]
    exact .done (if_pos h.nul)
  | k + 1, hk => by
    have hlt : text.length - (k + 1) < text.length := by omega
    have hcell := h.cell _ hlt
    have hsucc : text.length - (k + 1) + 1 = text.length - k := by omega
    refine .next (if_neg (h.ne_zero hlt)) ?_
    have ih := h.halts_from k (by omega)
    rw [← hsucc, List.take_add_one, hcell] at ih
    simpa using ih

/-- The loop ends exactly after the string. -/
theorem halts_readChar_iff [DecidableEq V] {n : ℤ} :
    Halts (readChar m) (0, []) (n, text) ↔ n = text.length ∧ IsString m text := by
  constructor
  · intro h
    exact isString_of_halts h (readSoFar_nil m)
  · rintro ⟨rfl, h⟩
    have hhalts := h.halts_from text.length le_rfl
    rwa [Nat.sub_self, List.take_zero] at hhalts

end Buffer
