import KernelExamples.Buffer
import KernelExamples.Hex
import KernelExamples.Kernel
import KernelExamples.Traces
import Mathlib.Data.UInt

/-!
# A dump of memory

`hex_dump` of `memory/kmalloc_rand.c`. A line is built in an array of 128 bytes by calls of
`snprintf`, which are never cut off (`dumpLine_eq`) : an offset, 16 columns of two digits and a
blank, and the bytes as characters.

`decodeLine` reads the columns of a line. The columns of all lines give the dumped bytes
(`hex_dump_lossless`).
-/

namespace KernelExamples.HexDump

open CInt Mem Buffer Hex Traces

/-! ## The source -/

/-- `sizeof(line)`. -/
def lineSize : ℤ := 128

/-- `isprint` of the kernel, with the upper half of Latin-1. -/
def isPrint (c : UInt8) : Bool := (32 ≤ c && c ≤ 126) || 160 ≤ c

/-- A call of `snprintf` : `pos`, the room it is told of, and the length of its text. -/
structure Call where
  pos : ℤ
  room : ℤ
  needed : ℕ

/-- The array with `pos`, and the calls made. -/
structure Line where
  writer : Writer UInt8
  calls : List Call

def Line.start : Line := ⟨⟨[], 0⟩, []⟩

/-- `pos += snprintf(line + pos, sizeof(line) - pos, t)`. -/
def Line.snprintf (l : Line) (t : List UInt8) : Line :=
  let pos := l.writer.cnt
  let room := uint64 (lineSize - pos)
  let stores :=
    if room = 0 then l.writer.stores
    else l.writer.stores ++ [storeList pos (t.take (room - 1).toNat ++ [0])]
  ⟨⟨stores, int32 (pos + t.length)⟩, l.calls ++ [⟨pos, room, t.length⟩]⟩

/-- The columns of the byte at `i + j`. -/
def hexField (data : Bytes) (len i : ℤ) (j : ℕ) : List UInt8 :=
  if uint64 (i + j) < len then hexByte (data (uint64 (i + j))) ++ [32] else [32, 32, 32]

/-- The character of the byte at `i + j`, a dot if it is not printable. -/
def textField (data : Bytes) (i : ℤ) (j : ℕ) : List UInt8 :=
  let c := data (uint64 (i + j))
  [if isPrint c then c else 46]

/-- The body of the outer loop up to `pr_info`. Nothing uses `pos` after the last call. -/
def dumpLine (data : Bytes) (len i : ℤ) : Line :=
  let l := Line.start.snprintf (hexNat 8 i.toNat ++ [32, 32])
  let l := (List.range 16).foldl (fun l j => l.snprintf (hexField data len i j)) l
  let l := l.snprintf [32, 124]
  let l := ((List.range 16).takeWhile fun j : ℕ => uint64 (i + j) < len).foldl
    (fun l j => l.snprintf (textField data i j)) l
  l.snprintf [124]

/-- What `%s` prints of the array. -/
def printed (line : Bytes) : List UInt8 :=
  ((List.range 128).map fun j : ℕ => line j).takeWhile fun c => c ≠ 0

/-- The state of the outer loop, with the lines printed and the calls made. -/
structure Dump where
  i : ℤ
  line : Bytes
  lines : List (List UInt8)
  calls : List Call

/-- The outer loop. -/
def dumpStep (data : Bytes) (len : ℤ) (s : Dump) : Option Dump :=
  if s.i < len then
    let l := dumpLine data len s.i
    let line := l.writer.memory s.line
    some ⟨uint64 (s.i + 16), line, s.lines ++ [printed line], s.calls ++ l.calls⟩
  else none

/-! ## Reading a dump -/

/-- The bytes of the columns. -/
def decodeColumns : List UInt8 → Option (List UInt8)
  | [] => some []
  | hi :: lo :: _ :: s =>
    if hi = 32 then decodeColumns s
    else (readByte hi lo).bind fun b => (decodeColumns s).map fun bs => b :: bs
  | _ => none

/-- The digits of the offset. -/
def offsetDigits (line : List UInt8) : List UInt8 := line.takeWhile isHexDigit

/-- The bytes of a line. -/
def decodeLine (line : List UInt8) : Option (List UInt8) :=
  decodeColumns (((line.dropWhile isHexDigit).drop 2).take 48)

/-- The bytes of all lines, one after the other. -/
def decodeDump : List (List UInt8) → Option (List UInt8)
  | [] => some []
  | line :: lines =>
    (decodeLine line).bind fun bs => (decodeDump lines).map fun cs => bs ++ cs

/-- A call that is not cut off. -/
def Call.Fits (c : Call) : Prop :=
  0 ≤ c.pos ∧ c.pos < lineSize ∧ c.room = lineSize - c.pos ∧ c.needed < c.room

/-- The size of an object. -/
structure ObjectSize where
  val : ℕ
  lt : val + 15 < 2 ^ 64

/-! ## The calls -/

theorem snprintf_eq {m : Bytes} {l : Line} {text t : List UInt8}
    (h : Holds lineSize m l.writer text)
    (hroom : text.length + t.length < lineSize) :
    l.snprintf t = ⟨l.writer.print t,
      l.calls ++ [⟨l.writer.cnt, lineSize - l.writer.cnt, t.length⟩]⟩ := by
  have hcnt := h.cnt_eq
  unfold lineSize at hroom ⊢
  have hroom' : uint64 (128 - l.writer.cnt) = 128 - l.writer.cnt :=
    uint64_of_mem (by omega) (by omega)
  have hpos : int32 (l.writer.cnt + t.length) = l.writer.cnt + t.length :=
    int32_of_mem (by omega) (by omega)
  have htake : t.take (128 - l.writer.cnt - 1).toNat = t := List.take_of_length_le (by omega)
  simp only [Line.snprintf, lineSize, hroom', hpos, htake, Writer.print]
  rw [if_neg (by omega)]

/-- Calls for which there is room append their texts. -/
theorem foldl_snprintf {m : Bytes} {ts : List (List UInt8)} {l : Line} {text : List UInt8}
    (h : Holds lineSize m l.writer text) (hroom : text.length + ts.flatten.length < lineSize)
    (hcalls : ∀ c ∈ l.calls, c.Fits) :
    (ts.foldl Line.snprintf l).writer = ts.foldl Writer.print l.writer ∧
      ∀ c ∈ (ts.foldl Line.snprintf l).calls, c.Fits := by
  induction ts generalizing l text with
  | nil => exact ⟨rfl, hcalls⟩
  | cons t ts ih =>
    rw [List.flatten_cons, List.length_append] at hroom
    push_cast at hroom
    have hcnt := h.cnt_eq
    have hprint := h.print t (by omega)
    have hroom' : ((text ++ t).length : ℤ) + ts.flatten.length < lineSize := by
      rw [List.length_append]
      push_cast
      omega
    rw [List.foldl_cons, List.foldl_cons, snprintf_eq h (by omega)]
    refine ih hprint hroom' fun c hc => ?_
    rcases List.mem_append.1 hc with hc | hc
    · exact hcalls c hc
    · obtain rfl := List.mem_singleton.1 hc
      refine ⟨?_, ?_, rfl, ?_⟩ <;> dsimp only <;> omega

/-! ## One line -/

/-- The bytes of the line at `i`. -/
def lineBytes (data : Bytes) (len i : ℕ) : List UInt8 :=
  (List.range (min 16 (len - i))).map fun j => data (i + j : ℕ)

/-- The columns of up to 16 bytes. -/
def columns (bs : List UInt8) : List (List UInt8) :=
  bs.map (fun b => hexByte b ++ [32]) ++ List.replicate (16 - bs.length) [32, 32, 32]

/-- The texts of the calls for the line at `i`. -/
def lineTexts (i : ℕ) (bs : List UInt8) : List (List UInt8) :=
  [hexNat 8 i ++ [32, 32]] ++ columns bs ++ [[32, 124]] ++
    bs.map (fun c => [if isPrint c then c else 46]) ++ [[124]]

theorem length_lineBytes (data : Bytes) (len i : ℕ) :
    (lineBytes data len i).length = min 16 (len - i) := by
  rw [lineBytes, List.length_map, List.length_range]

section Line

variable (data : Bytes) {len i : ℕ} (hi : i + 15 < 2 ^ 64)

include hi

theorem uint64_add_lt {j : ℕ} (hj : j < 16) : uint64 ((i : ℤ) + j) = (i + j : ℕ) := by
  rw [uint64_of_mem (by omega) (by omega)]
  push_cast
  rfl

/-- The columns : the bytes of the line, and blanks up to 16. -/
theorem map_hexField :
    (List.range 16).map (hexField data len i) = columns (lineBytes data len i) := by
  have hsplit : (16 : ℕ) = min 16 (len - i) + (16 - min 16 (len - i)) := by omega
  rw [columns, length_lineBytes]
  conv_lhs => rw [hsplit, List.range_add, List.map_append]
  congr 1
  · rw [lineBytes, List.map_map]
    refine List.map_congr_left fun j hj => ?_
    have hj := List.mem_range.1 hj
    rw [hexField, uint64_add_lt hi (by omega), if_pos (by omega)]
    rfl
  · rw [List.map_map]
    refine List.eq_replicate_iff.2 ⟨by simp, fun t ht => ?_⟩
    obtain ⟨j, hj, rfl⟩ := List.mem_map.1 ht
    have hj := List.mem_range.1 hj
    rw [Function.comp_apply, hexField, uint64_add_lt hi (by omega), if_neg (by omega)]

theorem takeWhile_range : ((List.range 16).takeWhile fun j : ℕ => uint64 ((i : ℤ) + j) < len) =
    List.range (min 16 (len - i)) := by
  have hsplit : (16 : ℕ) = min 16 (len - i) + (16 - min 16 (len - i)) := by omega
  conv_lhs => rw [hsplit, List.range_add]
  rw [List.takeWhile_append_of_pos]
  · cases hrest : 16 - min 16 (len - i) with
    | zero => simp
    | succ n =>
      rw [List.range_succ_eq_map, List.map_cons, List.takeWhile_cons_of_neg, List.append_nil]
      rw [uint64_add_lt hi (by omega), decide_eq_true_eq]
      omega
  · intro j hj
    have hj := List.mem_range.1 hj
    rw [uint64_add_lt hi (by omega), decide_eq_true_eq]
    omega

theorem map_textField : (List.range (min 16 (len - i))).map (textField data i) =
    (lineBytes data len i).map fun c => [if isPrint c then c else 46] := by
  rw [lineBytes, List.map_map]
  refine List.map_congr_left fun j hj => ?_
  have hj := List.mem_range.1 hj
  rw [textField, uint64_add_lt hi (by omega)]
  rfl

/-- The calls for a line. -/
theorem dumpLine_eq : dumpLine data len i =
    (lineTexts i (lineBytes data len i)).foldl Line.snprintf Line.start := by
  rw [dumpLine, takeWhile_range hi, lineTexts, ← map_hexField data hi, ← map_textField data hi]
  simp only [List.foldl_append, List.foldl_cons, List.foldl_nil, List.foldl_map, Int.toNat_natCast]

end Line

/-- The text of the line at `i`. -/
def lineText (i : ℕ) (bs : List UInt8) : List UInt8 := (lineTexts i bs).flatten

theorem lineText_eq (i : ℕ) (bs : List UInt8) : lineText i bs =
    hexNat 8 i ++ ([32, 32] ++ ((columns bs).flatten ++ ([32, 124] ++
      (bs.map (fun c => if isPrint c then c else 46) ++ [124])))) := by
  have hchars : (bs.map fun c => [if isPrint c then c else 46]).flatten =
      bs.map fun c => if isPrint c then c else 46 := by
    induction bs with
    | nil => rfl
    | cons b bs ih =>
      rw [List.map_cons, List.map_cons, List.flatten_cons, ih, List.singleton_append]
  simp only [lineText, lineTexts, List.flatten_append, hchars, List.flatten_cons, List.flatten_nil,
    List.append_nil, List.append_assoc]

theorem length_columns {bs : List UInt8} (hbs : bs.length ≤ 16) :
    (columns bs).flatten.length = 48 := by
  have hlengths : (columns bs).map List.length = List.replicate 16 3 := by
    refine List.eq_replicate_iff.2 ⟨?_, fun n hn => ?_⟩
    · rw [List.length_map, columns, List.length_append, List.length_map, List.length_replicate]
      omega
    · obtain ⟨t, ht, rfl⟩ := List.mem_map.1 hn
      rcases List.mem_append.1 ht with ht | ht
      · obtain ⟨b, -, rfl⟩ := List.mem_map.1 ht
        rfl
      · rw [List.eq_of_mem_replicate ht]
        rfl
  rw [List.length_flatten, hlengths]
  rfl

theorem mem_columns {bs : List UInt8} {c : UInt8} (hc : c ∈ (columns bs).flatten) :
    isHexDigit c = true ∨ c = 32 := by
  obtain ⟨t, ht, hc⟩ := List.mem_flatten.1 hc
  rcases List.mem_append.1 ht with ht | ht
  · obtain ⟨b, -, rfl⟩ := List.mem_map.1 ht
    rcases List.mem_append.1 hc with hc | hc
    · exact .inl (isHexDigit_of_mem_hexByte hc)
    · exact .inr (List.mem_singleton.1 hc)
  · rw [List.eq_of_mem_replicate ht] at hc
    exact .inr (by simpa using hc)

theorem length_lineText_lt {i : ℕ} {bs : List UInt8} (hi : i < 2 ^ 64) (hbs : bs.length ≤ 16) :
    (lineText i bs).length < 128 := by
  have hoffset : (hexNat 8 i).length ≤ 16 := length_hexNat_le (by decide) (hi.trans_eq (by decide))
  rw [lineText_eq]
  simp only [List.length_append, length_columns hbs, List.length_map, List.length_cons,
    List.length_nil]
  omega

theorem zero_not_mem_lineText (i : ℕ) (bs : List UInt8) : 0 ∉ lineText i bs := by
  have hprint : ∀ c : UInt8, (if isPrint c then c else 46) ≠ 0 := by
    intro c
    refine forall_byte ?_ c
    decide +kernel
  rw [lineText_eq]
  simp only [List.mem_append, not_or]
  refine ⟨fun h => ?_, by decide, fun h => ?_, by decide, fun h => ?_, by decide⟩
  · exact absurd (isHexDigit_of_mem_hexNat h) (by decide)
  · exact absurd (mem_columns h) (by decide)
  · obtain ⟨c, -, hc⟩ := List.mem_map.1 h
    exact hprint c hc

/-- What is printed of an array that holds a text and a NUL. -/
theorem printed_eq {m : Bytes} {w : Writer UInt8} {text : List UInt8}
    (h : Holds lineSize m w text) (hnul : w.memory m w.cnt = 0) (htext : 0 ∉ text)
    (hlen : text.length < 128) : printed (w.memory m) = text := by
  obtain ⟨n, hn⟩ : ∃ n, 128 = text.length + (n + 1) := ⟨128 - text.length - 1, by omega⟩
  rw [printed, hn, List.range_add, List.map_append, h.read, List.takeWhile_append_of_pos,
    List.range_succ_eq_map, List.map_cons, List.map_cons, List.takeWhile_cons_of_neg,
    List.append_nil]
  · rw [h.cnt_eq] at hnul
    simp [hnul]
  · intro c hc
    rw [decide_eq_true_eq]
    rintro rfl
    exact htext hc

/-- The calls for a line leave its text in the array, and are not cut off. -/
theorem printed_dumpLine (data m : Bytes) (len : ℕ) {i : ℕ} (hi : i + 15 < 2 ^ 64) :
    printed ((dumpLine data len i).writer.memory m) = lineText i (lineBytes data len i) ∧
      ∀ c ∈ (dumpLine data len i).calls, c.Fits := by
  have hlen : (lineText i (lineBytes data len i)).length < 128 :=
    length_lineText_lt (by omega) (by rw [length_lineBytes]; omega)
  have hstart : Holds lineSize m Line.start.writer [] :=
    ⟨rfl, fun s hs => absurd hs (List.not_mem_nil), fun i hi => absurd hi (Nat.not_lt_zero i)⟩
  have hroom : (([] : List UInt8).length : ℤ) +
      (lineTexts i (lineBytes data len i)).flatten.length < lineSize := by
    rw [← lineText, lineSize, List.length_nil]
    omega
  obtain ⟨hwriter, hcalls⟩ := foldl_snprintf hstart hroom fun c hc => absurd hc List.not_mem_nil
  have hholds := hstart.foldl_print hroom
  rw [← hwriter, ← dumpLine_eq data hi, List.nil_append, ← lineText] at hholds
  rw [← dumpLine_eq data hi] at hcalls
  refine ⟨printed_eq hholds ?_ (zero_not_mem_lineText _ _) hlen, hcalls⟩
  obtain ⟨w, t, hw⟩ : ∃ (w : Writer UInt8) (t : List UInt8),
      (dumpLine data len i).writer = w.print t := by
    rw [dumpLine_eq data hi, hwriter, lineTexts, List.foldl_append]
    exact ⟨_, [124], rfl⟩
  rw [hw]
  exact memory_print_cnt w t

/-! ## Reading a line -/

theorem decodeColumns_hexByte (rest : List UInt8) : ∀ bs : List UInt8,
    decodeColumns ((bs.map fun b => hexByte b ++ [32]).flatten ++ rest) =
      (decodeColumns rest).map fun cs => bs ++ cs
  | [] => by simp
  | b :: bs => by
    have hdigit : hexDigit (b.toNat / 16) ≠ 32 := by
      intro h
      have hmem := isHexDigit_of_mem_hexByte (b := b) (List.mem_cons_self)
      rw [h] at hmem
      exact absurd hmem (by decide)
    rw [List.map_cons, List.flatten_cons, hexByte, List.append_assoc, List.append_assoc]
    simp only [List.cons_append, List.nil_append, decodeColumns]
    rw [if_neg hdigit, readByte_hexByte, decodeColumns_hexByte rest bs, Option.bind_some,
      Option.map_map]
    rfl

theorem decodeColumns_blank : ∀ n : ℕ,
    decodeColumns (List.replicate n [32, 32, 32]).flatten = some []
  | 0 => rfl
  | n + 1 => by
    rw [List.replicate_succ, List.flatten_cons]
    exact decodeColumns_blank n

theorem decodeColumns_columns (bs : List UInt8) : decodeColumns (columns bs).flatten = some bs := by
  rw [columns, List.flatten_append, decodeColumns_hexByte, decodeColumns_blank, Option.map_some,
    List.append_nil]

theorem offsetDigits_lineText (i : ℕ) (bs : List UInt8) :
    offsetDigits (lineText i bs) = hexNat 8 i := by
  rw [offsetDigits, lineText_eq,
    List.takeWhile_append_of_pos fun c hc => isHexDigit_of_mem_hexNat hc, List.cons_append,
    List.takeWhile_cons_of_neg (by decide), List.append_nil]

theorem decodeLine_lineText (i : ℕ) {bs : List UInt8} (hbs : bs.length ≤ 16) :
    decodeLine (lineText i bs) = some bs := by
  have hdrop : (lineText i bs).dropWhile isHexDigit = [32, 32] ++ ((columns bs).flatten ++
      ([32, 124] ++ (bs.map (fun c => if isPrint c then c else 46) ++ [124]))) := by
    rw [lineText_eq, List.dropWhile_append_of_pos fun c hc => isHexDigit_of_mem_hexNat hc,
      List.cons_append, List.dropWhile_cons_of_neg (by decide)]
  rw [decodeLine, hdrop, List.cons_append, List.drop_succ_cons, List.cons_append,
    List.drop_succ_cons, List.nil_append, List.drop_zero, List.take_left' (length_columns hbs),
    decodeColumns_columns]

/-- The first bar is 51 characters after the offset. -/
theorem idxOf_bar (i : ℕ) {bs : List UInt8} (hbs : bs.length ≤ 16) :
    124 ∈ lineText i bs ∧
      (lineText i bs).idxOf 124 = (offsetDigits (lineText i bs)).length + 51 := by
  have hsplit : lineText i bs = (hexNat 8 i ++ [32, 32] ++ (columns bs).flatten ++ [32]) ++
      124 :: (bs.map (fun c => if isPrint c then c else 46) ++ [124]) := by
    rw [lineText_eq]
    simp only [List.append_assoc, List.cons_append, List.nil_append]
  have hbefore : 124 ∉ hexNat 8 i ++ [32, 32] ++ (columns bs).flatten ++ [32] := by
    simp only [List.mem_append, not_or]
    refine ⟨⟨⟨fun h => ?_, by decide⟩, fun h => ?_⟩, by decide⟩
    · exact absurd (isHexDigit_of_mem_hexNat h) (by decide)
    · exact absurd (mem_columns h) (by decide)
  rw [offsetDigits_lineText, hsplit]
  refine ⟨List.mem_append_right _ List.mem_cons_self, ?_⟩
  rw [List.idxOf_append_of_notMem hbefore, List.idxOf_cons_self]
  simp only [List.length_append, length_columns hbs, List.length_cons, List.length_nil]

/-! ## The whole dump -/

/-- The line `k` of a dump. -/
def dumpedLine (data : Bytes) (len k : ℕ) : List UInt8 :=
  lineText (16 * k) (lineBytes data len (16 * k))

theorem decodeDump_append (line : List UInt8) : ∀ lines : List (List UInt8),
    decodeDump (lines ++ [line]) =
      (decodeDump lines).bind fun bs => (decodeLine line).map fun cs => bs ++ cs
  | [] => by
    cases h : decodeLine line <;> simp [decodeDump, h]
  | l :: lines => by
    rw [List.cons_append, decodeDump, decodeDump, decodeDump_append line lines]
    cases decodeLine l <;> cases decodeDump lines <;> cases decodeLine line <;> simp

/-- The first lines have the first bytes. -/
theorem decodeDump_dumpedLine (data : Bytes) (len : ℕ) : ∀ k : ℕ,
    decodeDump ((List.range k).map (dumpedLine data len)) =
      some ((List.range (min len (16 * k))).map fun i : ℕ => data i)
  | 0 => by simp [decodeDump]
  | k + 1 => by
    have hmin : min len (16 * (k + 1)) = min len (16 * k) + min 16 (len - 16 * k) := by omega
    rw [List.range_succ, List.map_append, List.map_singleton, decodeDump_append,
      decodeDump_dumpedLine data len k, dumpedLine,
      decodeLine_lineText _ (by rw [length_lineBytes]; omega), hmin, List.range_add,
      List.map_append, List.map_map]
    simp only [Option.bind_some, Option.map_some, Option.some.injEq, List.append_cancel_left_eq]
    refine List.map_congr_left fun j hj => ?_
    have hj := List.mem_range.1 hj
    rw [Function.comp_apply, show min len (16 * k) = 16 * k by omega]

/-- The first `k` lines are printed. -/
structure Dumped (data : Bytes) (len k : ℕ) (s : Dump) : Prop where
  i_eq : s.i = (16 * k : ℕ)
  lines_eq : s.lines = (List.range k).map (dumpedLine data len)
  calls_fit : ∀ c ∈ s.calls, c.Fits

/-- An iteration prints the next line. -/
theorem Dumped.step {data : Bytes} {len k : ℕ} {s s' : Dump} (h : Dumped data len k s)
    (hlen : len + 15 < 2 ^ 64) (hs' : dumpStep data len s = some s') :
    16 * k < len ∧ Dumped data len (k + 1) s' := by
  obtain ⟨hlt, rfl⟩ := of_guard hs'
  have hi := h.i_eq
  rw [hi] at hlt
  have hk : 16 * k < len := by exact_mod_cast hlt
  obtain ⟨hprinted, hfits⟩ := printed_dumpLine data s.line len (show 16 * k + 15 < 2 ^ 64 by omega)
  refine ⟨hk, ?_, ?_, fun c hc => ?_⟩
  · rw [hi, uint64_of_mem (by omega) (by omega)]
    push_cast
    ring
  · rw [hi, List.range_succ, List.map_append, h.lines_eq, hprinted]
    rfl
  · rw [hi] at hc
    rcases List.mem_append.1 hc with hc | hc
    · exact h.calls_fit c hc
    · exact hfits c hc

/-- The outer loop ends after the lines of the object. -/
theorem dump_halts (data line : Bytes) (len : ObjectSize) :
    ∃ s, Halts (dumpStep data len.val) ⟨0, line, [], []⟩ s ∧
      Dumped data len.val ((len.val + 15) / 16) s := by
  have hstep : ∀ s s', (∃ k ≤ (len.val + 15) / 16, Dumped data len.val k s) →
      dumpStep data len.val s = some s' →
        (∃ k ≤ (len.val + 15) / 16, Dumped data len.val k s') ∧
          (len.val - s'.i).toNat < (len.val - s.i).toNat := by
    rintro s s' ⟨k, hk, h⟩ hs'
    obtain ⟨hlt, h'⟩ := h.step len.lt hs'
    refine ⟨⟨k + 1, by omega, h'⟩, ?_⟩
    rw [h.i_eq, h'.i_eq]
    omega
  have hstart : Dumped data len.val 0 ⟨0, line, [], []⟩ :=
    ⟨rfl, rfl, fun c hc => absurd hc List.not_mem_nil⟩
  obtain ⟨s, hs, ⟨k, hk, h⟩, hstop⟩ := exists_halts (fun s : Dump => (len.val - s.i).toNat) hstep
    _ (Nat.lt_succ_self _) ⟨0, Nat.zero_le _, hstart⟩
  have hi := h.i_eq
  have hend : ¬s.i < len.val := by
    intro hlt
    rw [dumpStep, if_pos hlt] at hstop
    cases hstop
  obtain rfl : k = (len.val + 15) / 16 := by omega
  exact ⟨s, hs, h⟩

/-- For every memory and every size : the dump ends with a line for each 16 bytes, no call is cut
off, every line starts with its offset, the first bar stands at the same column in lines with
offsets of the same width, and the columns have exactly the bytes. -/
theorem hex_dump_lossless (data line : Bytes) (len : ObjectSize) :
    ∃ s, Halts (dumpStep data len.val) ⟨0, line, [], []⟩ s ∧
      s.lines.length = (len.val + 15) / 16 ∧
      (∀ c ∈ s.calls, c.Fits) ∧
      (∀ k l, s.lines[k]? = some l → 8 ≤ (offsetDigits l).length ∧
        readNat (offsetDigits l) = 16 * k) ∧
      (∀ a ∈ s.lines, 124 ∈ a ∧ ∀ b ∈ s.lines,
        (offsetDigits a).length = (offsetDigits b).length → a.idxOf 124 = b.idxOf 124) ∧
      decodeDump s.lines = some ((List.range len.val).map fun i : ℕ => data i) := by
  obtain ⟨s, hs, -, hlines, hcalls⟩ := dump_halts data line len
  have hbytes (k : ℕ) : (lineBytes data len.val (16 * k)).length ≤ 16 := by
    rw [length_lineBytes]
    omega
  have hbar : ∀ l ∈ s.lines, 124 ∈ l ∧ l.idxOf 124 = (offsetDigits l).length + 51 := by
    intro l hl
    rw [hlines] at hl
    obtain ⟨k, -, rfl⟩ := List.mem_map.1 hl
    exact idxOf_bar (16 * k) (hbytes k)
  refine ⟨s, hs, by rw [hlines, List.length_map, List.length_range], hcalls, fun k l hl => ?_,
    fun a ha => ⟨(hbar a ha).1, fun b hb hab => ?_⟩, ?_⟩
  · rw [hlines, List.getElem?_map] at hl
    obtain ⟨k', hk', rfl⟩ := Option.map_eq_some_iff.1 hl
    obtain ⟨hk, rfl⟩ := List.getElem?_eq_some_iff.1 hk'
    rw [List.getElem_range]
    rw [dumpedLine, offsetDigits_lineText]
    exact ⟨le_length_hexNat 8 _, readNat_hexNat 8 _⟩
  · rw [(hbar a ha).2, (hbar b hb).2, hab]
  · have hall : min len.val (16 * ((len.val + 15) / 16)) = len.val := by omega
    rw [hlines, decodeDump_dumpedLine, hall]

end KernelExamples.HexDump
