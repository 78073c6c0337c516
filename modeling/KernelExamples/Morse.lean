import KernelExamples.CInt
import KernelExamples.Traces
import KernelExamples.Waveform
import Mathlib.Data.Nat.Bits
import Mathlib.Tactic.IntervalCases

/-!
# Morse code on the speaker

`io_port/morse_io.c`. `morse` looks each character up in a table of bits and keys them, lowest
bit first, by calls of `sound`, `nosound` and `morse_mdelay`. The bit above the last symbol is
a `1` that ends the inner loop (`keyBit_halts`).

The calls give a waveform of tones and silences, whatever the durations of the delays are.
`morse` skips everything that is no letter, also the characters below `A` that the table has
(`tableIndex_eq`), so its waveform is that of the letters one after the other
(`waveformIn_morse`). `decode` is how a listener reads the waveform in units, with the
characters of the table. It gets the letters back (`decode_morse`), and the whole text
exactly when it has letters only (`morse_faithful_iff`).
-/

namespace KernelExamples.Morse

open CInt Traces Waveform

/-! ## The source -/

/-- What `morse` does : a load of `codes[i]`, and calls of `sound`, `nosound` and
`morse_mdelay`. -/
inductive Event
  | load (i : UInt32)
  | sound (freq : ℤ)
  | nosound
  | mdelay (ms : ℤ)
  deriving DecidableEq

def morseSpaceMask : UInt32 := (1 : UInt32) <<< 15

def morseBitMask : UInt32 := 0xFE

/-- `MORSE_UNIT_TIME`, in milliseconds. -/
def morseUnitTime : ℤ := 60

def morseFrequency : ℤ := 2000

def sendDot (minorNo : ℤ) : List Event :=
  [.sound (morseFrequency * minorNo), .mdelay morseUnitTime, .nosound, .mdelay morseUnitTime]

def sendDash (minorNo : ℤ) : List Event :=
  [.sound (morseFrequency * minorNo), .mdelay (morseUnitTime * 3), .nosound, .mdelay morseUnitTime]

def letterSpace : List Event := [.mdelay (morseUnitTime * 2)]

def wordSpace : List Event := [.mdelay (morseUnitTime * 4)]

/-- The table of `morse`. Its last five entries are not given, so they are `0`. -/
def codes : List UInt32 :=
  [morseSpaceMask, 0, 0, 0, 0, 0, 0, 0,
    0, 0, 0, 0, 115, 49, 106, 41,
    63, 62, 60, 56, 48, 32, 33, 35,
    39, 47, 0, 0, 0, 0, 0, 76,
    0, 6, 17, 21, 9, 2, 20, 11,
    16, 4, 30, 13, 18, 7, 5, 15,
    22, 27, 10, 8, 3, 12, 24, 14,
    25, 29, 19, 0, 0, 0, 0, 0]

/-- `codes[i]`. -/
def code (i : UInt32) : UInt32 := codes.getD i.toNat 0

/-- A plain `char` as an `unsigned int`. -/
def promote (signed : Bool) (c : UInt8) : UInt32 :=
  if signed then c.toInt8.toInt32.toUInt32 else c.toUInt32

/-- The index for a character, or `none` if `morse` goes on with the next one. -/
def tableIndex (signed : Bool) (c : UInt8) : Option UInt32 :=
  let c := promote signed c
  -- `A` is 65, `a` and `z` are 97 and 122, and a space is 32
  if c < 65 then none
  else
    let c := (if 97 ≤ c ∧ c ≤ 122 then c - 97 + 65 else c) - 32
    if 58 < c then none else some c

/-- The inner loop : the bits left, and what was keyed. -/
def keyBit (minorNo : ℤ) : UInt32 × List Event → Option (UInt32 × List Event)
  | (c, keyed) =>
    if c &&& morseBitMask = 0 then none
    else some (c >>> 1, keyed ++ if c &&& 1 ≠ 0 then sendDash minorNo else sendDot minorNo)

/-- What the inner loop keys, with a bound on its iterations. -/
def keyBits (minorNo : ℤ) : ℕ → UInt32 → List Event
  | 0, _ => []
  | n + 1, c =>
    if c &&& morseBitMask = 0 then []
    else (if c &&& 1 ≠ 0 then sendDash minorNo else sendDot minorNo) ++ keyBits minorNo n (c >>> 1)

/-- The body of the outer loop. -/
def morseChar (signed : Bool) (minorNo : ℤ) (c : UInt8) : List Event :=
  match tableIndex signed c with
  | none => []
  | some i =>
    .load i :: if code i &&& morseSpaceMask ≠ 0 then wordSpace
      else keyBits minorNo 32 (code i) ++ letterSpace

def morse (signed : Bool) (minorNo : ℤ) : List UInt8 → List Event
  | [] => []
  | c :: cp => if c = 0 then [] else morseChar signed minorNo c ++ morse signed minorNo cp

theorem toNat_shiftRight_one (c : UInt32) : (c >>> 1).toNat = c.toNat / 2 := by
  simp [UInt32.toNat_shiftRight, Nat.shiftRight_eq_div_pow]

/-- The inner loop ends for every entry, and keys `keyBits`. -/
theorem keyBit_halts (minorNo : ℤ) : ∀ (n : ℕ) {c : UInt32} (keyed : List Event),
    c.toNat < 2 ^ n →
    ∃ c', Halts (keyBit minorNo) (c, keyed) (c', keyed ++ keyBits minorNo n c)
  | 0, c, keyed, hc => by
    obtain rfl : c = 0 := UInt32.toNat_inj.1 (by simpa using hc)
    exact ⟨0, by simpa [keyBits] using Halts.done (by simp [keyBit])⟩
  | n + 1, c, keyed, hc => by
    by_cases hmask : c &&& morseBitMask = 0
    · exact ⟨c, by simpa [keyBits, hmask] using Halts.done (by simp [keyBit, hmask])⟩
    · have hhalf : (c >>> 1).toNat < 2 ^ n := by
        rw [toNat_shiftRight_one]
        omega
      obtain ⟨c', hc'⟩ := keyBit_halts minorNo n
        (keyed ++ if c &&& 1 ≠ 0 then sendDash minorNo else sendDot minorNo) hhalf
      refine ⟨c', .next (by rw [keyBit, if_neg hmask]) ?_⟩
      rw [keyBits, if_neg hmask, ← List.append_assoc]
      exact hc'

/-! ## The waveform -/

inductive Level
  | tone
  | silence
  deriving DecidableEq

/-- The levels between the calls, with the duration `f` of each delay. -/
def pieces (f : ℤ → ℕ) : Level → List Event → List (Level × ℕ)
  | _, [] => []
  | l, .load _ :: es => pieces f l es
  | _, .sound _ :: es => pieces f .tone es
  | _, .nosound :: es => pieces f .silence es
  | l, .mdelay ms :: es => (l, f ms) :: pieces f l es

/-- The merged waveform of what is keyed. -/
def waveformIn (f : ℤ → ℕ) (es : List Event) : List (Level × ℕ) := merge (pieces f .silence es)

def inUnits (ms : ℤ) : ℕ := (ms / morseUnitTime).toNat

/-- The waveform in units. -/
def waveform (es : List Event) : List (Level × ℕ) := waveformIn inUnits es

/-! ## Reading a waveform -/

inductive Symbol
  | dot
  | dash
  deriving DecidableEq

/-- The bits of a table entry below its leading `1`, least significant first. -/
def symbols (n : ℕ) : List Symbol := n.bits.dropLast.map fun b => if b then .dash else .dot

/-- The character with these symbols in the table. -/
def charOf (ds : List Symbol) : Option UInt8 :=
  ((List.range 64).find? fun i => codes.getD i 0 ≠ 0 ∧ codes.getD i 0 &&& morseSpaceMask = 0 ∧
    symbols (codes.getD i 0).toNat = ds).map fun i => UInt8.ofNat (32 + i)

/-- The text of a waveform, after the symbols `ds`. A silence of `3 + 4 * k` units ends a letter
and is followed by `k` spaces. -/
def decodeFrom : List Symbol → List (Level × ℕ) → Option (List UInt8)
  | ds, [] => if ds = [] then some [] else none
  | ds, (.tone, n) :: w =>
    if n = 1 then decodeFrom (ds ++ [.dot]) w
    else if n = 3 then decodeFrom (ds ++ [.dash]) w
    else none
  | ds, (.silence, n) :: w =>
    if n = 1 then decodeFrom ds w
    else if 3 ≤ n ∧ (n - 3) % 4 = 0 then
      (charOf ds).bind fun c =>
        (decodeFrom [] w).map fun text => c :: (List.replicate ((n - 3) / 4) 32 ++ text)
    else none

def decode (w : List (Level × ℕ)) : Option (List UInt8) := decodeFrom [] w

/-! ## Letters -/

def isLetter (c : UInt8) : Bool := (65 ≤ c && c ≤ 90) || (97 ≤ c && c ≤ 122)

def toUpper (c : UInt8) : UInt8 := if 97 ≤ c ∧ c ≤ 122 then c - 32 else c

/-- The letters of a string, in upper case. -/
def letters (s : List UInt8) : List UInt8 := (s.filter isLetter).map toUpper

/-- The entry of a character in the table. -/
def entry (c : UInt8) : UInt32 := code ((toUpper c).toUInt32 - 32)

/-- `morse` looks a letter up in upper case, and skips all other characters, whether a `char`
is signed or not. -/
theorem tableIndex_eq (signed : Bool) (c : UInt8) :
    tableIndex signed c = if isLetter c then some ((toUpper c).toUInt32 - 32) else none := by
  refine forall_byte ?_ c
  revert signed
  decide +kernel

/-- The entry of a letter is in the table and is a byte with some symbols, which are read as the
letter. -/
theorem entry_of_letter {c : UInt8} (hc : isLetter c) :
    (toUpper c).toUInt32 - 32 < 64 ∧ entry c &&& morseSpaceMask = 0 ∧ (entry c).toNat < 256 ∧
      symbols (entry c).toNat ≠ [] ∧ charOf (symbols (entry c).toNat) = some (toUpper c) := by
  revert hc
  refine forall_byte ?_ c
  decide +kernel

/-! ## One letter -/

/-- The milliseconds of the tone of a symbol. -/
def Symbol.ms : Symbol → ℤ
  | .dot => morseUnitTime
  | .dash => morseUnitTime * 3

/-- The tone of a symbol and the silence after it. -/
def Symbol.pieces (f : ℤ → ℕ) (d : Symbol) : List (Level × ℕ) :=
  [(.tone, f d.ms), (.silence, f morseUnitTime)]

/-- The merged waveform of a letter. -/
def letterWave (f : ℤ → ℕ) : List Symbol → List (Level × ℕ)
  | [] => []
  | [d] => [(.tone, f d.ms), (.silence, f morseUnitTime + f (morseUnitTime * 2))]
  | d :: ds => (.tone, f d.ms) :: (.silence, f morseUnitTime) :: letterWave f ds

theorem letterWave_cons (f : ℤ → ℕ) (d d' : Symbol) (ds : List Symbol) :
    letterWave f (d :: d' :: ds) =
      (.tone, f d.ms) :: (.silence, f morseUnitTime) :: letterWave f (d' :: ds) := rfl

theorem bits_of_pos {n : ℕ} (hn : 0 < n) : n.bits = decide (n % 2 = 1) :: (n / 2).bits := by
  rcases Nat.mod_two_eq_zero_or_one n with h | h
  · have heven := Nat.bit0_bits (n / 2) (by omega)
    rw [show 2 * (n / 2) = n by omega] at heven
    rw [heven, h]
    rfl
  · have hodd := Nat.bit1_bits (n / 2)
    rw [show 2 * (n / 2) + 1 = n by omega] at hodd
    rw [hodd, h]
    rfl

/-- The symbols of an entry from `2` on : its lowest bit, and the symbols of the other bits. -/
theorem symbols_of_two_le {n : ℕ} (hn : 2 ≤ n) :
    symbols n = (if n % 2 = 1 then .dash else .dot) :: symbols (n / 2) := by
  have hne : (n / 2).bits ≠ [] := by
    rw [bits_of_pos (by omega)]
    exact List.cons_ne_nil _ _
  rw [symbols, bits_of_pos (by omega), List.dropLast_cons_of_ne_nil hne, List.map_cons]
  simp [symbols]

theorem symbols_of_lt_two {n : ℕ} (hn : n < 2) : symbols n = [] := by
  interval_cases n
  · rfl
  · rfl

/-- In an entry of one byte, the mask leaves the bits above the lowest. -/
theorem and_bitMask_eq_zero_iff {c : UInt32} (hc : c.toNat < 256) :
    c &&& morseBitMask = 0 ↔ c.toNat < 2 := by
  have hall : ∀ k : Fin 256, UInt32.ofNat k &&& morseBitMask = 0 ↔ (k : ℕ) < 2 := by
    decide +kernel
  simpa using hall ⟨c.toNat, hc⟩

theorem and_one_ne_zero_iff (c : UInt32) : c &&& 1 ≠ 0 ↔ c.toNat % 2 = 1 := by
  rw [ne_eq, ← UInt32.toNat_inj, UInt32.toNat_and]
  simp [Nat.and_one_is_mod]

section Duration

variable (f : ℤ → ℕ)

/-- The inner loop keys the symbols of an entry of one byte. -/
theorem pieces_keyBits (minorNo : ℤ) (es : List Event) : ∀ (n : ℕ) {c : UInt32},
    c.toNat < 2 ^ n → c.toNat < 256 → pieces f .silence (keyBits minorNo n c ++ es) =
      (symbols c.toNat).flatMap (Symbol.pieces f) ++ pieces f .silence es
  | 0, c, hc, _ => by
    rw [symbols_of_lt_two (by omega)]
    rfl
  | n + 1, c, hc, hc' => by
    have hmask := and_bitMask_eq_zero_iff hc'
    by_cases hlt : c.toNat < 2
    · rw [keyBits, if_pos (hmask.2 hlt), symbols_of_lt_two hlt]
      rfl
    · have ih := pieces_keyBits minorNo es n (c := c >>> 1)
        (by rw [toNat_shiftRight_one]; omega) (by rw [toNat_shiftRight_one]; omega)
      rw [keyBits, if_neg fun h => hlt (hmask.1 h), symbols_of_two_le (by omega),
        ← toNat_shiftRight_one, List.flatMap_cons, List.append_assoc, List.append_assoc, ← ih]
      simp only [and_one_ne_zero_iff]
      split_ifs
      · rfl
      · rfl

/-- A letter starts with a tone. -/
theorem away_letterWave (w : List (Level × ℕ)) : ∀ {ds : List Symbol}, ds ≠ [] →
    Away .silence (letterWave f ds ++ w)
  | [_], _ => away_cons.2 (by simp)
  | _ :: _ :: _, _ => away_cons.2 (by simp)

/-- The silence after the last symbol and the one after the letter are one. -/
theorem push_letter {w : List (Level × ℕ)} (hw : Away .silence w) :
    ∀ {ds : List Symbol}, ds ≠ [] →
      (ds.flatMap (Symbol.pieces f) ++ [(Level.silence, f (morseUnitTime * 2))]).foldr push w =
        letterWave f ds ++ w
  | [d], _ => by
    simp only [List.flatMap_cons, List.flatMap_nil, List.append_nil, Symbol.pieces,
      List.cons_append, List.nil_append, List.foldr_cons, List.foldr_nil]
    rw [push_of_away _ hw, push_same, push_of_away _ (away_cons.2 (by simp))]
    rfl
  | d :: d' :: ds, _ => by
    have hne := List.cons_ne_nil d' ds
    rw [List.flatMap_cons, List.append_assoc, List.foldr_append, push_letter hw hne]
    simp only [Symbol.pieces, List.foldr_cons, List.foldr_nil]
    rw [push_of_away _ (away_letterWave f w hne), push_of_away _ (away_cons.2 (by simp))]
    rfl

end Duration

/-- A letter is read as the character with its symbols. -/
theorem decodeFrom_letterWave (w : List (Level × ℕ)) : ∀ (acc : List Symbol) {ds : List Symbol},
    ds ≠ [] → decodeFrom acc (letterWave inUnits ds ++ w) =
      (charOf (acc ++ ds)).bind fun c => (decodeFrom [] w).map fun text => c :: text
  | acc, [d], _ => by
    cases d <;> simp [letterWave, decodeFrom, Symbol.ms, inUnits, morseUnitTime]
  | acc, d :: d' :: ds, _ => by
    have ih := decodeFrom_letterWave w (acc ++ [d]) (List.cons_ne_nil d' ds)
    rw [List.append_assoc, List.singleton_append] at ih
    rw [← ih, letterWave_cons]
    cases d <;> simp [decodeFrom, Symbol.ms, inUnits, morseUnitTime]

/-! ## A string -/

/-- The merged waveform of a letter of the alphabet. -/
def charWave (f : ℤ → ℕ) (c : UInt8) : List (Level × ℕ) := letterWave f (symbols (entry c).toNat)

theorem entry_toUpper (c : UInt8) : entry (toUpper c) = entry c := by
  have htwice : toUpper (toUpper c) = toUpper c := by
    refine forall_byte ?_ c
    decide +kernel
  rw [entry, htwice, entry]

theorem morseChar_of_letter (signed : Bool) (minorNo : ℤ) {c : UInt8} (hc : isLetter c) :
    morseChar signed minorNo c =
      .load ((toUpper c).toUInt32 - 32) :: (keyBits minorNo 32 (entry c) ++ letterSpace) := by
  have hspace : ¬code ((toUpper c).toUInt32 - 32) &&& morseSpaceMask ≠ 0 :=
    not_not.2 (entry_of_letter hc).2.1
  rw [morseChar, tableIndex_eq, if_pos hc]
  simp only [if_neg hspace, entry]

theorem morseChar_of_not_letter (signed : Bool) (minorNo : ℤ) {c : UInt8} (hc : ¬isLetter c) :
    morseChar signed minorNo c = [] := by
  rw [morseChar, tableIndex_eq, if_neg hc]

theorem letters_of_letter {c : UInt8} (hc : isLetter c) (s : List UInt8) :
    letters (c :: s) = toUpper c :: letters s := by
  rw [letters, List.filter_cons_of_pos hc, List.map_cons, letters]

theorem letters_of_not_letter {c : UInt8} (hc : ¬isLetter c) (s : List UInt8) :
    letters (c :: s) = letters s := by
  rw [letters, List.filter_cons_of_neg hc, letters]

/-- A string as C has it, without a NUL in it. -/
structure CString where
  bytes : List UInt8
  nul_free : 0 ∉ bytes

theorem away_letters (f : ℤ → ℕ) : ∀ s : List UInt8,
    Away .silence ((letters s).flatMap (charWave f))
  | [] => away_nil _
  | c :: s => by
    by_cases hc : isLetter c
    · rw [letters_of_letter hc, List.flatMap_cons, charWave, entry_toUpper]
      exact away_letterWave f _ (entry_of_letter hc).2.2.2.1
    · rw [letters_of_not_letter hc]
      exact away_letters f s

/-- The waveform of a string is that of its letters, one after the other. -/
theorem waveformIn_morse (f : ℤ → ℕ) (signed : Bool) (minorNo : ℤ) : ∀ {s : List UInt8}, 0 ∉ s →
    waveformIn f (morse signed minorNo s) = (letters s).flatMap (charWave f)
  | [], _ => rfl
  | c :: s, hs => by
    rw [List.mem_cons, not_or] at hs
    have ih := waveformIn_morse f signed minorNo hs.2
    rw [morse, if_neg (Ne.symm hs.1)]
    by_cases hc : isLetter c
    · obtain ⟨-, -, hbyte, hne, -⟩ := entry_of_letter hc
      have hkey : pieces f .silence (morseChar signed minorNo c ++ morse signed minorNo s) =
          (symbols (entry c).toNat).flatMap (Symbol.pieces f) ++
            [(.silence, f (morseUnitTime * 2))] ++
              pieces f .silence (morse signed minorNo s) := by
        rw [morseChar_of_letter signed minorNo hc, List.cons_append, pieces, List.append_assoc,
          pieces_keyBits f minorNo _ 32 (hbyte.trans (by decide)) hbyte, List.append_assoc]
        rfl
      rw [waveformIn, hkey, merge_append, ← waveformIn, ih, push_letter f (away_letters f s) hne,
        letters_of_letter hc, List.flatMap_cons, charWave, entry_toUpper]
    · rw [morseChar_of_not_letter signed minorNo hc, letters_of_not_letter hc, List.nil_append, ih]

/-- The letters can be read back. -/
theorem decode_charWave : ∀ s : List UInt8,
    decode ((letters s).flatMap (charWave inUnits)) = some (letters s)
  | [] => rfl
  | c :: s => by
    have ih := decode_charWave s
    by_cases hc : isLetter c
    · obtain ⟨-, -, -, hne, hchar⟩ := entry_of_letter hc
      rw [decode] at ih ⊢
      rw [letters_of_letter hc, List.flatMap_cons, charWave, entry_toUpper,
        decodeFrom_letterWave _ _ hne, List.nil_append, hchar, ih]
      rfl
    · rwa [letters_of_not_letter hc]

theorem decode_morse (signed : Bool) (minorNo : ℤ) {s : List UInt8} (hs : 0 ∉ s) :
    decode (waveform (morse signed minorNo s)) = some (letters s) := by
  rw [waveform, waveformIn_morse inUnits signed minorNo hs, decode_charWave]

/-! ## The table is used in its bounds -/

theorem load_not_mem_keyBits (minorNo : ℤ) (i : UInt32) : ∀ (n : ℕ) (c : UInt32),
    .load i ∉ keyBits minorNo n c
  | 0, _ => by simp [keyBits]
  | n + 1, c => by
    have ih := load_not_mem_keyBits minorNo i n (c >>> 1)
    rw [keyBits]
    split_ifs
    · simp
    · simp [sendDash, ih]
    · simp [sendDot, ih]

/-- What `morse` does, it does for a letter. -/
theorem mem_morse {signed : Bool} {minorNo : ℤ} {e : Event} : ∀ {s : List UInt8},
    e ∈ morse signed minorNo s → ∃ c, isLetter c ∧
      e ∈ .load ((toUpper c).toUInt32 - 32) :: (keyBits minorNo 32 (entry c) ++ letterSpace)
  | c :: s, h => by
    rw [morse] at h
    split_ifs at h
    · simp at h
    · rcases List.mem_append.1 h with h | h
      · by_cases hc : isLetter c
        · rw [morseChar_of_letter signed minorNo hc] at h
          exact ⟨c, hc, h⟩
        · rw [morseChar_of_not_letter signed minorNo hc] at h
          simp at h
      · exact mem_morse h

/-- The loads of `morse` are from the table. -/
theorem lt_of_load_mem (signed : Bool) (minorNo : ℤ) {i : UInt32} {s : List UInt8}
    (h : .load i ∈ morse signed minorNo s) : i.toNat < codes.length := by
  obtain ⟨c, hc, h⟩ := mem_morse h
  have hlt := (entry_of_letter hc).1
  simp only [List.mem_cons, List.mem_append, load_not_mem_keyBits, letterSpace,
    Event.load.injEq, reduceCtorEq, List.not_mem_nil, or_false] at h
  rw [h]
  exact UInt32.lt_iff_toNat_lt.1 hlt

/-! ## Every string -/

/-- A character with an entry in the table, a letter in either case. -/
structure CodedChar where
  val : UInt8
  coded : entry val ≠ 0

theorem nul_not_mem_coded (text : List CodedChar) : 0 ∉ text.map CodedChar.val := by
  intro h
  obtain ⟨c, -, hc⟩ := List.mem_map.1 h
  have hcoded := c.coded
  rw [hc] at hcoded
  exact hcoded (by decide)

/-- For every string of characters that are in the table, the waveform can be read back exactly
when they are all letters. -/
theorem morse_faithful_iff (signed : Bool) (minorNo : ℤ) (text : List CodedChar) :
    decode (waveform (morse signed minorNo (text.map CodedChar.val))) =
      some (text.map fun c => toUpper c.val) ↔ ∀ c ∈ text, isLetter c.val = true := by
  rw [decode_morse signed minorNo (nul_not_mem_coded text), Option.some.injEq, letters]
  constructor
  · intro h
    have hlen := congrArg List.length h
    rw [List.length_map, List.length_map, ← List.length_map CodedChar.val,
      List.length_filter_eq_length_iff] at hlen
    exact fun c hc => hlen c.val (List.mem_map_of_mem hc)
  · intro h
    have hall : ∀ c ∈ text.map CodedChar.val, isLetter c = true := by
      simpa using h
    rw [List.filter_eq_self.2 hall, List.map_map]
    rfl

/-- The text `A B` is read back as `AB`, and `5` as nothing. -/
theorem not_morse_faithful_space :
    decode (waveform (morse true 1 [65, 32, 66])) ≠ some [65, 32, 66] ∧
      decode (waveform (morse true 1 [53])) ≠ some [53] := by
  decide

/-- For any two strings, and a `char` of either kind : every load of `morse` is from its table,
the inner loop ends, and the waveforms are equal exactly when the letters of the strings
are, up to case. -/
theorem waveform_eq_iff (signed signed' : Bool) (minorNo minorNo' : ℤ) (a b : CString) :
    (∀ i, .load i ∈ morse signed minorNo a.bytes → i.toNat < codes.length ∧
      ∃ c, Halts (keyBit minorNo) (code i, []) (c, keyBits minorNo 32 (code i))) ∧
    (waveform (morse signed minorNo a.bytes) = waveform (morse signed' minorNo' b.bytes) ↔
      letters a.bytes = letters b.bytes) := by
  refine ⟨fun i hi => ⟨lt_of_load_mem signed minorNo hi, ?_⟩, fun h => ?_, fun h => ?_⟩
  · simpa using keyBit_halts minorNo 32 [] (code i).toNat_lt
  · have hdecode := congrArg decode h
    rw [decode_morse signed minorNo a.nul_free, decode_morse signed' minorNo' b.nul_free] at hdecode
    exact Option.some.inj hdecode
  · rw [waveform, waveform, waveformIn_morse _ signed minorNo a.nul_free,
      waveformIn_morse _ signed' minorNo' b.nul_free, h]

end KernelExamples.Morse
