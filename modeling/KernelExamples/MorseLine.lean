import KernelExamples.MorseWrite
import Mathlib.Data.List.TakeWhile

/-!
# Morse code from the writer to the listener

The whole way through `io_port/morse_io.c` : programs write texts to the device, `m_write` copies
each and hands it to `morse`, and `morse_mdelay` turns the milliseconds into ticks of the
clock, rounded down. So a dash is not always three dots long, and the listener here goes by what
is closest : a tone below two units is a dot, a silence below two units is inside a letter, and
one from five units on is between words.

The writes are keyed as one text (`keyed_eq_morse`), of which each letter has its waveform in
ticks (`waveformIn_morse`). It is read back whenever a unit is at least one tick, that is from
17 ticks a second on, and not below (`writes_heard_iff`).
-/

namespace KernelExamples.Morse

open CInt Waveform

/-! ## The source -/

/-- `HZ`, for which `ms * HZ` of the longest delay is an `int`. -/
structure Hz where
  val : ℕ
  lt : 240 * val < 2 ^ 31

/-- The ticks that `morse_mdelay` asks of `schedule_timeout`. -/
def morseMdelay (hz : Hz) (ms : ℤ) : ℤ := (int32 (ms * hz.val)).tdiv 1000

/-- The writes to a device, each with the user's memory and where a copy from it fails. -/
abbrev Writes := List (Request × Bytes × ℕ)

/-- What is keyed by the writes, one after the other. A write without memory keys nothing. -/
def keyed (signed : Bool) (minor : ℤ) (ws : Writes) : List Event :=
  ws.flatMap fun w => ((mWrite signed minor w.1 w.2.1 w.2.2).1.map Handed.events).getD []

/-! ## What is heard -/

/-- The text that is heard after the symbols `ds`, with this many ticks in a unit. -/
def listen (unit : ℕ) : List Symbol → List (Level × ℕ) → Option (List UInt8)
  | ds, [] => if ds = [] then some [] else none
  | ds, (.tone, n) :: w => listen unit (ds ++ [if n < 2 * unit then .dot else .dash]) w
  | ds, (.silence, n) :: w =>
    if n < 2 * unit then listen unit ds w
    else
      (charOf ds).bind fun c => (listen unit [] w).map fun text =>
        c :: if n < 5 * unit then text else 32 :: text

/-- The text a write hands to `morse` : the bytes that were copied, up to a NUL. -/
def sentText (w : Request × Bytes × ℕ) : List UInt8 :=
  ((List.range (w.1.copied w.2.2).toNat).map fun i : ℕ => w.2.1 i).takeWhile (· ≠ 0)

/-! ## The writes as one text -/

theorem morse_append (signed : Bool) (minorNo : ℤ) (s' : List UInt8) : ∀ {s : List UInt8}, 0 ∉ s →
    morse signed minorNo (s ++ s') = morse signed minorNo s ++ morse signed minorNo s'
  | [], _ => rfl
  | c :: s, hs => by
    rw [List.mem_cons, not_or] at hs
    rw [List.cons_append, morse, morse, if_neg (Ne.symm hs.1), if_neg (Ne.symm hs.1),
      morse_append signed minorNo s' hs.2, List.append_assoc]

theorem takeWhile_map_range {α : Type*} {p : α → Bool} {g : ℕ → α} {n m : ℕ} (hnm : n ≤ m)
    (hpos : ∀ i < n, p (g i) = true) (hneg : n < m → p (g n) = false) :
    ((List.range m).map g).takeWhile p = (List.range n).map g := by
  obtain ⟨k, rfl⟩ := Nat.exists_eq_add_of_le hnm
  have hall : ∀ a ∈ (List.range n).map g, p a = true := by simpa using hpos
  rw [List.range_add, List.map_append, List.takeWhile_append_of_pos hall]
  cases k with
  | zero => simp
  | succ k => simp [List.range_succ_eq_map, hneg (by omega)]

theorem nul_not_mem_sentText (w : Request × Bytes × ℕ) : 0 ∉ sentText w := by
  intro h
  simpa using List.mem_takeWhile_imp h

/-- `morse` reads the text and a NUL. -/
theorem reads_eq_sentText {r : Request} {fault : ℕ} {data : Bytes} (buffer : Bytes)
    (h : r.block = some data) :
    (r.reads buffer fault data).map Prod.snd = sentText (r, buffer, fault) ++ [0] := by
  have hcast := Int.toNat_of_nonneg (r.copied_nonneg fault)
  have hnul := stored_copied r buffer fault data
  rw [← hcast] at hnul
  obtain ⟨n, hn, hne, hend⟩ := exists_firstNul hnul
  have hsame : ∀ i : ℕ, i < (r.copied fault).toNat → r.stored buffer fault data i = buffer i :=
    fun i hi => stored_of_lt buffer h (by omega) (by omega)
  simp only [zero_add] at hne hend
  have htext : sentText (r, buffer, fault) = (List.range n).map fun i : ℕ => buffer i := by
    refine takeWhile_map_range hn (fun i hi => ?_) fun hlt => ?_
    · simpa [hsame i (by omega)] using hne i hi
    · simpa [hsame n hlt] using hend
  rw [htext, Request.reads, morseReads_eq (Nat.lt_succ_of_le hn) ⟨by simpa using hne, by simpa⟩,
    List.map_append, List.map_map]
  simp only [zero_add, List.map_singleton]
  refine congrArg (· ++ [(0 : UInt8)]) (List.map_congr_left fun i hi => ?_)
  have hi := List.mem_range.1 hi
  exact hsame i (by omega)

/-- What is keyed by the writes is what `morse` keys for their texts in a row. -/
theorem keyed_eq_morse (signed : Bool) (minor : ℤ) : ∀ ws : Writes,
    keyed signed minor ws = morse signed (minor + 1) (ws.flatMap sentText)
  | [] => rfl
  | w :: ws => by
    have ih := keyed_eq_morse signed minor ws
    rw [List.flatMap_cons, morse_append _ _ _ (nul_not_mem_sentText w), ← ih]
    refine congrArg (· ++ keyed signed minor ws) ?_
    obtain ⟨r, buffer, fault⟩ := w
    cases hblock : r.block with
    | none => simp [mWrite, hblock, sentText, Request.copied, morse]
    | some data =>
      dsimp only
      rw [mWrite_of_some signed minor buffer hblock, Option.map_some, Option.getD_some]
      rw [reads_eq_sentText buffer hblock, morse_append _ _ _ (nul_not_mem_sentText _)]
      simp [morse]

/-! ## The listener -/

variable {f : ℤ → ℕ}

/-- A unit is not nothing, and the longer delays are close to their number of units. -/
structure Clear (f : ℤ → ℕ) : Prop where
  pos : 0 < f morseUnitTime
  dash : 2 * f morseUnitTime ≤ f (morseUnitTime * 3)
  le_letter : f morseUnitTime ≤ f (morseUnitTime * 2)
  letter_lt : f (morseUnitTime * 2) < 4 * f morseUnitTime

theorem listen_tone (hf : Clear f) (ds : List Symbol) (d : Symbol) (w : List (Level × ℕ)) :
    listen (f morseUnitTime) ds ((.tone, f d.ms) :: w) =
      listen (f morseUnitTime) (ds ++ [d]) w := by
  have hpos := hf.pos
  have hdash := hf.dash
  cases d with
  | dot => rw [listen, Symbol.ms, if_pos (by omega)]
  | dash => rw [listen, Symbol.ms, if_neg (by omega)]

theorem listen_letterWave (hf : Clear f) (w : List (Level × ℕ)) :
    ∀ (acc : List Symbol) {ds : List Symbol}, ds ≠ [] →
      listen (f morseUnitTime) acc (letterWave f ds ++ w) =
        (charOf (acc ++ ds)).bind fun c =>
          (listen (f morseUnitTime) [] w).map fun text => c :: text
  | acc, [d], _ => by
    have hle := hf.le_letter
    have hlt := hf.letter_lt
    have hshort : f morseUnitTime + f (morseUnitTime * 2) < 5 * f morseUnitTime := by omega
    rw [letterWave, List.cons_append, listen_tone hf, List.cons_append, List.nil_append, listen,
      if_neg (by omega)]
    simp only [if_pos hshort]
  | acc, d :: d' :: ds, _ => by
    have hpos := hf.pos
    have ih := listen_letterWave hf w (acc ++ [d]) (List.cons_ne_nil d' ds)
    rw [List.append_assoc, List.singleton_append] at ih
    rw [← ih, letterWave_cons, List.cons_append, listen_tone hf, List.cons_append, listen,
      if_pos (by omega)]

theorem listen_letters (hf : Clear f) : ∀ s : List UInt8,
    listen (f morseUnitTime) [] ((letters s).flatMap (charWave f)) = some (letters s)
  | [] => rfl
  | c :: s => by
    have ih := listen_letters hf s
    by_cases hc : isLetter c
    · obtain ⟨-, -, -, hne, hchar⟩ := entry_of_letter hc
      rw [letters_of_letter hc, List.flatMap_cons, charWave, entry_toUpper,
        listen_letterWave hf _ _ hne, List.nil_append, hchar, ih]
      rfl
    · rwa [letters_of_not_letter hc]

/-- A letter has a tone and a silence. -/
theorem letterWave_eq (w : List (Level × ℕ)) : ∀ {ds : List Symbol}, ds ≠ [] →
    ∃ n m w', letterWave f ds ++ w = (.tone, n) :: (.silence, m) :: w'
  | [_], _ => ⟨_, _, _, rfl⟩
  | _ :: _ :: _, _ => ⟨_, _, _, rfl⟩

theorem space_not_mem_letters (s : List UInt8) : 32 ∉ letters s := by
  have hupper : ∀ c : UInt8, isLetter c = true → toUpper c ≠ 32 := by
    intro c
    refine forall_byte ?_ c
    decide +kernel
  intro h
  obtain ⟨c, hc, hspace⟩ := List.mem_map.1 h
  exact hupper c (List.mem_filter.1 hc).2 hspace

/-- If a unit is nothing, every silence is heard as one between words. -/
theorem not_listen_letters (hf : f morseUnitTime = 0) : ∀ {s : List UInt8}, letters s ≠ [] →
    listen (f morseUnitTime) [] ((letters s).flatMap (charWave f)) ≠ some (letters s)
  | [], h => absurd rfl h
  | c :: s, h => by
    by_cases hc : isLetter c
    · obtain ⟨-, -, -, hne, -⟩ := entry_of_letter hc
      have hspace := space_not_mem_letters (c :: s)
      rw [letters_of_letter hc] at hspace ⊢
      rw [List.flatMap_cons, charWave, entry_toUpper, hf]
      obtain ⟨n, m, w, hw⟩ := letterWave_eq (f := f) ((letters s).flatMap (charWave f)) hne
      intro heard
      simp only [hw, listen, Nat.mul_zero, Nat.not_lt_zero, if_false, Option.bind_eq_some_iff,
        Option.map_eq_some_iff] at heard
      obtain ⟨d, -, text, -, heq⟩ := heard
      rw [← heq] at hspace
      simp at hspace
    · rw [letters_of_not_letter hc] at h ⊢
      exact not_listen_letters hf h

/-! ## The line -/

/-- The ticks of a delay. -/
def ticks (hz : Hz) (ms : ℤ) : ℕ := (morseMdelay hz ms).toNat

theorem ticks_eq (hz : Hz) {k : ℕ} (hk : k ≤ 240) : ticks hz k = k * hz.val / 1000 := by
  have hlt : k * hz.val ≤ 240 * hz.val := Nat.mul_le_mul_right _ hk
  have hbound := hz.lt
  have hint : int32 ((k : ℤ) * hz.val) = ((k * hz.val : ℕ) : ℤ) := by
    rw [Nat.cast_mul, int32_of_mem]
    · exact le_trans (by decide) (mul_nonneg (Int.natCast_nonneg _) (Int.natCast_nonneg _))
    · rw [← Nat.cast_mul]
      omega
  rw [ticks, morseMdelay, hint, Int.tdiv_eq_ediv_of_nonneg (Int.natCast_nonneg _)]
  omega

theorem clear_ticks {hz : Hz} (h : 17 ≤ hz.val) : Clear (ticks hz) := by
  have hone : ticks hz morseUnitTime = 60 * hz.val / 1000 := ticks_eq hz (by decide)
  have htwo : ticks hz (morseUnitTime * 2) = 120 * hz.val / 1000 := ticks_eq hz (by decide)
  have hthree : ticks hz (morseUnitTime * 3) = 180 * hz.val / 1000 := ticks_eq hz (by decide)
  have hpos : 1 ≤ 60 * hz.val / 1000 := by omega
  constructor <;> omega

/-- What is written to a device is heard as the letters of the texts, in upper case and in a
row, exactly when there are 17 ticks to the second or more, or no letter at all. -/
theorem writes_heard_iff (signed : Bool) (minor : ℤ) (hz : Hz) (ws : Writes) :
    listen (ticks hz morseUnitTime) [] (waveformIn (ticks hz) (keyed signed minor ws)) =
      some (letters (ws.flatMap sentText)) ↔
    17 ≤ hz.val ∨ letters (ws.flatMap sentText) = [] := by
  have hnul : 0 ∉ ws.flatMap sentText := by
    intro h
    obtain ⟨w, -, hw⟩ := List.mem_flatMap.1 h
    exact nul_not_mem_sentText w hw
  rw [keyed_eq_morse, waveformIn_morse _ _ _ hnul]
  by_cases h : 17 ≤ hz.val
  · exact iff_of_true (listen_letters (clear_ticks h) _) (.inl h)
  · have hunit : ticks hz morseUnitTime = 0 := by
      have hone : ticks hz morseUnitTime = 60 * hz.val / 1000 := ticks_eq hz (by decide)
      omega
    rw [or_iff_right h]
    constructor
    · intro heard
      by_contra hne
      exact not_listen_letters hunit hne heard
    · intro hempty
      rw [hempty]
      rfl

end KernelExamples.Morse
