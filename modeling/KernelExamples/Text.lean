import KernelExamples.CInt
import Mathlib.Data.Nat.Digits.Lemmas
import Mathlib.Tactic.Common
import Mathlib.Tactic.IntervalCases

/-!
# Decimal text

`%d` of the kernel's `sprintf` and `sscanf`, on byte strings. `decimal` writes an integer
without leading zeros. `scanInt` skips blanks, takes one optional minus sign and at least
one digit, and stores the value reduced to an `int`. It reads nothing past the first byte
that cannot go on the number, in particular nothing past a NUL, and the end of the list
stands for a NUL. It reads back every integer `decimal` writes (`scanInt_decimal`).

`scanned` counts the bytes it looks at. They are inside a text, whatever follows it, exactly
when the number ends there (`scanned_le_iff`), and then what follows does not matter
(`scanInt_append`).
-/

namespace Text

open CInt

/-- The text of a literal. -/
def ascii (s : String) : List UInt8 := s.toList.map fun c => UInt8.ofNat c.toNat

/-- The ASCII digit of `d`. -/
def digitByte (d : ℕ) : UInt8 := UInt8.ofNat (48 + d)

/-- Decimal digits, most significant first. -/
def decimalNat (n : ℕ) : List UInt8 :=
  if n = 0 then [48] else (Nat.digits 10 n).reverse.map digitByte

/-- `%d` of `sprintf`. -/
def decimal (n : Int32) : List UInt8 :=
  if n.toInt < 0 then 45 :: decimalNat n.toInt.natAbs else decimalNat n.toInt.natAbs

/-- `isspace` of the kernel, with the no-break space of Latin-1. -/
def isSpace (c : UInt8) : Bool := c == 32 || (9 ≤ c && c ≤ 13) || c == 160

def isDigit (c : UInt8) : Bool := 48 ≤ c && c ≤ 57

/-- The value of the digits at the front. -/
def leadingNat (s : List UInt8) : ℕ :=
  (s.takeWhile isDigit).foldl (fun n c => 10 * n + (c.toNat - 48)) 0

/-- `%d` of `sscanf` : the value it stores, or `none` if it converts nothing. -/
def scanInt (s : List UInt8) : Option Int32 :=
  match s.dropWhile isSpace with
  | [] => none
  | c :: rest =>
    if isDigit c then some (Int32.ofInt (leadingNat (c :: rest)))
    else if c = 45 ∧ rest.head?.any isDigit then some (Int32.ofInt (-leadingNat rest))
    else none

/-! ## Lengths -/

theorem length_decimalNat_le {n k : ℕ} (h : n < 10 ^ k) (hk : 0 < k) :
    (decimalNat n).length ≤ k := by
  unfold decimalNat
  split_ifs with h0
  · exact hk
  · simpa using (Nat.digits_length_le_iff (by decide) n).2 h

/-- The text of an `int` has at most 11 bytes. -/
theorem length_decimal_le (n : Int32) : (decimal n).length ≤ 11 := by
  have h := n.le_toInt
  have h' := n.toInt_lt
  have hlen : (decimalNat n.toInt.natAbs).length ≤ 10 :=
    length_decimalNat_le (by omega) (by decide)
  unfold decimal
  split_ifs
  · rw [List.length_cons]
    omega
  · omega

/-! ## Reading back -/

theorem isDigit_digitByte {d : ℕ} (h : d < 10) : isDigit (digitByte d) = true := by
  interval_cases d <;> decide

theorem toNat_digitByte {d : ℕ} (h : d < 10) : (digitByte d).toNat - 48 = d := by
  interval_cases d <;> decide

/-- The value of digits in the base `b`, most significant first. -/
theorem foldl_digits {b : ℕ} {digit : ℕ → UInt8} {value : UInt8 → ℕ}
    (hvalue : ∀ d < b, value (digit d) = d) : ∀ L : List ℕ, (∀ d ∈ L, d < b) →
      (L.reverse.map digit).foldl (fun n c => b * n + value c) 0 = Nat.ofDigits b L
  | [], _ => rfl
  | d :: L, h => by
    have ih := foldl_digits hvalue L fun d' hd' => h d' (List.mem_cons_of_mem d hd')
    rw [List.reverse_cons, List.map_append, List.foldl_append, ih]
    simp only [List.map_cons, List.map_nil, List.foldl_cons, List.foldl_nil]
    rw [hvalue d (h d List.mem_cons_self), Nat.ofDigits_cons, add_comm]

theorem isDigit_of_mem_decimalNat {n : ℕ} {c : UInt8} (h : c ∈ decimalNat n) :
    isDigit c = true := by
  unfold decimalNat at h
  split_ifs at h
  · rw [List.mem_singleton.1 h]
    rfl
  · obtain ⟨d, hd, rfl⟩ := List.mem_map.1 h
    exact isDigit_digitByte (Nat.digits_lt_base (by decide) (List.mem_reverse.1 hd))

theorem decimalNat_ne_nil (n : ℕ) : decimalNat n ≠ [] := by
  unfold decimalNat
  split_ifs with h
  · simp
  · simpa [Nat.digits_eq_nil_iff_eq_zero] using h

theorem leadingNat_decimalNat (n : ℕ) {sep : UInt8} (hsep : isDigit sep = false)
    (rest : List UInt8) :
    leadingNat (decimalNat n ++ sep :: rest) = n := by
  have htake : (decimalNat n ++ sep :: rest).takeWhile isDigit = decimalNat n := by
    rw [List.takeWhile_append_of_pos fun c hc => isDigit_of_mem_decimalNat hc,
      List.takeWhile_cons_of_neg (by simp [hsep]), List.append_nil]
  rw [leadingNat, htake]
  unfold decimalNat
  split_ifs with h
  · rw [h]
    rfl
  · rw [foldl_digits (fun d hd => toNat_digitByte hd) _
      fun d hd => Nat.digits_lt_base (by decide) hd, Nat.ofDigits_digits]

theorem isSpace_of_isDigit {c : UInt8} (h : isDigit c = true) : isSpace c = false := by
  revert h
  refine forall_byte ?_ c
  decide +kernel

/-- `sscanf` reads back what `sprintf` wrote, after blanks and before a byte that is no
digit. -/
theorem scanInt_decimal {blanks : List UInt8} (hblanks : ∀ c ∈ blanks, isSpace c = true)
    (n : Int32) {sep : UInt8} (hsep : isDigit sep = false) (rest : List UInt8) :
    scanInt (blanks ++ decimal n ++ sep :: rest) = some n := by
  obtain ⟨c, cs, hdec⟩ := List.exists_cons_of_ne_nil (decimalNat_ne_nil n.toInt.natAbs)
  have hc : isDigit c = true := isDigit_of_mem_decimalNat (by rw [hdec]; exact List.mem_cons_self)
  have hnum := leadingNat_decimalNat n.toInt.natAbs hsep rest
  rw [hdec, List.cons_append] at hnum
  unfold scanInt
  rw [List.append_assoc, List.dropWhile_append_of_pos hblanks]
  unfold decimal
  split_ifs with hneg
  · rw [hdec, List.cons_append, List.dropWhile_cons_of_neg (by decide)]
    have hvalue : -((n.toInt.natAbs : ℕ) : ℤ) = n.toInt := by omega
    simp only [List.cons_append, List.head?_cons, Option.any_some, hc, and_self, if_true, hnum,
      hvalue, Int32.ofInt_toInt]
    rfl
  · rw [hdec, List.cons_append, List.dropWhile_cons_of_neg (by simp [isSpace_of_isDigit hc])]
    have hvalue : ((n.toInt.natAbs : ℕ) : ℤ) = n.toInt := by omega
    simp only [hc, if_true, hnum, hvalue, Int32.ofInt_toInt]

/-- Nothing is converted if the first byte after the blanks cannot start a number. -/
theorem scanInt_of_unparsable {blanks : List UInt8} (hblanks : ∀ c ∈ blanks, isSpace c = true)
    {c : UInt8} (hspace : isSpace c = false) (hdigit : isDigit c = false) (hminus : c ≠ 45)
    (rest : List UInt8) : scanInt (blanks ++ c :: rest) = none := by
  rw [scanInt, List.dropWhile_append_of_pos hblanks,
    List.dropWhile_cons_of_neg (by simp [hspace])]
  simp [hdigit, hminus]

/-! ## What is looked at -/

/-- Past one minus sign. -/
def skipMinus : List UInt8 → List UInt8
  | [] => []
  | c :: s => if c = 45 then s else c :: s

/-- What follows the blanks, the minus sign and the digits. -/
def afterNumber (s : List UInt8) : List UInt8 :=
  (skipMinus (s.dropWhile isSpace)).dropWhile isDigit

/-- The number of bytes `%d` of `sscanf` looks at : the blanks, the minus sign, the digits,
and the byte after them that ends the number, a NUL at the end of the list. -/
def scanned (s : List UInt8) : ℕ := s.length - (afterNumber s).length + 1

/-- The number, or the attempt at one, ends inside the text. -/
def Ends (text : List UInt8) : Prop := afterNumber text ≠ []

instance (text : List UInt8) : Decidable (Ends text) := inferInstanceAs (Decidable (_ ≠ _))

theorem dropWhile_append_of_ne_nil {p : UInt8 → Bool} {s : List UInt8} (h : s.dropWhile p ≠ [])
    (after : List UInt8) : (s ++ after).dropWhile p = s.dropWhile p ++ after := by
  rw [List.dropWhile_append, if_neg (by simpa using h)]

theorem takeWhile_append_of_ne_nil {p : UInt8 → Bool} : ∀ {s : List UInt8}, s.dropWhile p ≠ [] →
    ∀ after : List UInt8, (s ++ after).takeWhile p = s.takeWhile p
  | [], h, _ => absurd rfl h
  | c :: s, h, after => by
    by_cases hc : p c = true
    · rw [List.dropWhile_cons_of_pos hc] at h
      rw [List.cons_append, List.takeWhile_cons_of_pos hc, List.takeWhile_cons_of_pos hc,
        takeWhile_append_of_ne_nil h]
    · rw [List.cons_append, List.takeWhile_cons_of_neg hc, List.takeWhile_cons_of_neg hc]

/-- A number that ends inside the text starts inside it. -/
theorem dropWhile_isSpace_ne_nil {text : List UInt8} (h : Ends text) :
    text.dropWhile isSpace ≠ [] := fun hnil => h (by rw [afterNumber, hnil]; rfl)

theorem skipMinus_append {s : List UInt8} (h : s ≠ []) (after : List UInt8) :
    skipMinus (s ++ after) = skipMinus s ++ after := by
  obtain ⟨c, rest, rfl⟩ := List.exists_cons_of_ne_nil h
  by_cases hc : c = 45 <;> simp [skipMinus, hc]

theorem afterNumber_append {text : List UInt8} (h : Ends text) (after : List UInt8) :
    afterNumber (text ++ after) = afterNumber text ++ after := by
  have hstart := dropWhile_isSpace_ne_nil h
  rw [afterNumber, dropWhile_append_of_ne_nil hstart, skipMinus_append hstart,
    dropWhile_append_of_ne_nil h, afterNumber]

theorem skipMinus_suffix : ∀ s : List UInt8, skipMinus s <:+ s
  | [] => List.suffix_rfl
  | c :: s => by
    by_cases hc : c = 45
    · rw [skipMinus, if_pos hc]
      exact List.suffix_cons c s
    · rw [skipMinus, if_neg hc]

theorem length_afterNumber_le (s : List UInt8) : (afterNumber s).length ≤ s.length :=
  ((List.dropWhile_suffix _).trans
    ((skipMinus_suffix _).trans (List.dropWhile_suffix _))).length_le

/-- `sscanf` stays inside the text, whatever follows it, exactly when the number ends inside. -/
theorem scanned_le_iff (text : List UInt8) :
    (∀ after, scanned (text ++ after) ≤ text.length) ↔ Ends text := by
  constructor
  · intro h hnil
    have := h []
    rw [List.append_nil, scanned, hnil, List.length_nil] at this
    omega
  · intro h after
    have hpos := List.length_pos_iff.2 h
    have hle := length_afterNumber_le text
    rw [scanned, afterNumber_append h, List.length_append, List.length_append]
    omega

/-- What follows such a text does not matter. -/
theorem scanInt_append {text : List UInt8} (h : Ends text) (after : List UInt8) :
    scanInt (text ++ after) = scanInt text := by
  obtain ⟨c, rest, hcons⟩ := List.exists_cons_of_ne_nil (dropWhile_isSpace_ne_nil h)
  have hend : (skipMinus (c :: rest)).dropWhile isDigit ≠ [] := hcons ▸ h
  rw [scanInt, scanInt, dropWhile_append_of_ne_nil (dropWhile_isSpace_ne_nil h), hcons,
    List.cons_append]
  by_cases hc : c = 45
  · rw [skipMinus, if_pos hc] at hend
    have hhead : (rest ++ after).head? = rest.head? := by
      rw [List.head?_append_of_ne_nil _ fun hnil => hend (by rw [hnil]; rfl)]
    simp only [hc, hhead, leadingNat, takeWhile_append_of_ne_nil hend]
    rfl
  · rw [skipMinus, if_neg hc] at hend
    simp only [hc, false_and, if_false, leadingNat, ← List.cons_append,
      takeWhile_append_of_ne_nil hend]

theorem mem_dropWhile_of_neg {p : UInt8 → Bool} {c : UInt8} {s : List UInt8} (hc : ¬p c)
    (h : c ∈ s) : c ∈ s.dropWhile p := by
  rw [← List.takeWhile_append_dropWhile (p := p) (l := s), List.mem_append] at h
  exact h.resolve_left fun htake => hc (List.all_eq_true.1 List.all_takeWhile c htake)

theorem mem_skipMinus : ∀ {c : UInt8} {s : List UInt8}, c ≠ 45 → c ∈ s → c ∈ skipMinus s
  | c, d :: s, hc, h => by
    by_cases hd : d = 45
    · rw [skipMinus, if_pos hd]
      exact (List.mem_cons.1 h).resolve_left fun hcd => hc (hcd.trans hd)
    · rw [skipMinus, if_neg hd]
      exact h

/-- A text with a NUL in it ends its number. -/
theorem ends_of_nul {text : List UInt8} (h : 0 ∈ text) : Ends text :=
  List.ne_nil_of_mem (mem_dropWhile_of_neg (by decide)
    (mem_skipMinus (by decide) (mem_dropWhile_of_neg (by decide) h)))

end Text
