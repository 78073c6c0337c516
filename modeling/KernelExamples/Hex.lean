import KernelExamples.Text

/-!
# Hexadecimal text

`%02x` and `%08zx` of the kernel's `sprintf`, on byte strings. `hexByte` writes a byte as two
lower-case digits, and `hexNat` a number with zeros in front up to a width. `readBytes` and
`readNat` read them back (`readBytes_hexByte`, `readNat_hexNat`).
-/

namespace Hex

open CInt Text

/-- The ASCII digit of `d`, in lower case. -/
def hexDigit (d : ℕ) : UInt8 := UInt8.ofNat (if d < 10 then 48 + d else 87 + d)

/-- `%02x` of a byte. -/
def hexByte (b : UInt8) : List UInt8 := [hexDigit (b.toNat / 16), hexDigit (b.toNat % 16)]

/-- `%x` of a number, with zeros in front up to `width` digits. -/
def hexNat (width n : ℕ) : List UInt8 :=
  ((Nat.digits 16 n).reverse.map hexDigit).leftpad width 48

/-- The value of a lower-case digit. -/
def digitValue (c : UInt8) : Option ℕ :=
  if 48 ≤ c ∧ c ≤ 57 then some (c.toNat - 48)
  else if 97 ≤ c ∧ c ≤ 102 then some (c.toNat - 87)
  else none

def isHexDigit (c : UInt8) : Bool := (digitValue c).isSome

/-- The byte with these two digits. -/
def readByte (hi lo : UInt8) : Option UInt8 :=
  (digitValue hi).bind fun x => (digitValue lo).map fun y => UInt8.ofNat (16 * x + y)

/-- The bytes of an even number of digits. -/
def readBytes : List UInt8 → Option (List UInt8)
  | [] => some []
  | [_] => none
  | hi :: lo :: s => (readByte hi lo).bind fun b => (readBytes s).map fun bs => b :: bs

/-- The number with these digits, most significant first. -/
def readNat (s : List UInt8) : ℕ := s.foldl (fun n c => 16 * n + (digitValue c).getD 0) 0

/-! ## Bytes -/

theorem readByte_hexByte (b : UInt8) :
    readByte (hexDigit (b.toNat / 16)) (hexDigit (b.toNat % 16)) = some b := by
  refine forall_byte ?_ b
  decide +kernel

theorem readBytes_hexByte : ∀ bs : List UInt8, readBytes (bs.flatMap hexByte) = some bs
  | [] => rfl
  | b :: bs => by
    rw [List.flatMap_cons, hexByte, List.cons_append, List.cons_append, List.nil_append, readBytes,
      readByte_hexByte, readBytes_hexByte bs]
    rfl

theorem length_hexByte (b : UInt8) : (hexByte b).length = 2 := rfl

theorem isHexDigit_of_mem_hexByte {b c : UInt8} (hc : c ∈ hexByte b) : isHexDigit c = true := by
  have hall : (hexByte b).all isHexDigit = true := by
    refine forall_byte ?_ b
    decide +kernel
  exact List.all_eq_true.1 hall c hc

/-! ## Numbers -/

theorem digitValue_hexDigit {d : ℕ} (h : d < 16) : digitValue (hexDigit d) = some d := by
  interval_cases d <;> decide

theorem isHexDigit_of_mem_hexNat {width n : ℕ} {c : UInt8} (hc : c ∈ hexNat width n) :
    isHexDigit c = true := by
  rw [hexNat, List.leftpad, List.mem_append] at hc
  rcases hc with hc | hc
  · rw [List.eq_of_mem_replicate hc]
    rfl
  · obtain ⟨d, hd, rfl⟩ := List.mem_map.1 hc
    rw [isHexDigit, digitValue_hexDigit (Nat.digits_lt_base (by decide) (List.mem_reverse.1 hd))]
    rfl

theorem readNat_zeros (s : List UInt8) : ∀ z : ℕ, readNat (List.replicate z 48 ++ s) = readNat s
  | 0 => rfl
  | z + 1 => by
    rw [List.replicate_succ, List.cons_append, ← readNat_zeros s z]
    rfl

theorem readNat_hexNat (width n : ℕ) : readNat (hexNat width n) = n := by
  have hvalue : ∀ d < 16, (digitValue (hexDigit d)).getD 0 = d := by
    intro d hd
    rw [digitValue_hexDigit hd]
    rfl
  rw [hexNat, List.leftpad, readNat_zeros, readNat,
    foldl_digits hvalue _ fun d hd => Nat.digits_lt_base (by decide) hd, Nat.ofDigits_digits]

theorem le_length_hexNat (width n : ℕ) : width ≤ (hexNat width n).length := by
  rw [hexNat, List.length_leftpad]
  exact le_max_left _ _

theorem length_hexNat_le {width n k : ℕ} (hwidth : width ≤ k) (hn : n < 16 ^ k) :
    (hexNat width n).length ≤ k := by
  rw [hexNat, List.length_leftpad, List.length_map, List.length_reverse]
  exact max_le hwidth ((Nat.digits_length_le_iff (by decide) n).2 hn)

end Hex
