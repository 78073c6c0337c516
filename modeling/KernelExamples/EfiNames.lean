import KernelExamples.Buffer
import KernelExamples.Hex
import KernelExamples.Kernel
import Mathlib.Data.UInt

/-!
# The names and vendors of EFI variables

`kprobes/efi_reboot_monitor.c` keeps the variable a probe saw in two arrays. `set_guid` writes the
vendor as text, and what it writes can be read back (`guid_canonical`). `set_efi_name` copies the
low bytes of the name without a bound, so it is right for names that leave room for a NUL
(`efi_names_iff`).
-/

namespace KernelExamples.EfiNames

open CInt Mem Buffer Hex

/-! ## The source -/

/-- The body of the loops of `set_guid`. The text of a byte has two digits, as many as `cnt` is
moved by. -/
def printByte (b : Fin 16 → UInt8) (w : Writer UInt8) (i : Fin 16) : Writer UInt8 :=
  w.print (hexByte (b i))

def setGuid (b : Fin 16 → UInt8) : Writer UInt8 :=
  let w := Writer.clear 37
  let w := [3, 2, 1, 0].foldl (printByte b) w
  let w := w.put 45
  let w := [5, 4].foldl (printByte b) w
  let w := w.put 45
  let w := [7, 6].foldl (printByte b) w
  let w := w.put 45
  let w := [8, 9].foldl (printByte b) w
  let w := w.put 45
  [10, 11, 12, 13, 14, 15].foldl (printByte b) w

/-- The loop of `set_efi_name`. The end of the list stands for a NUL. -/
def copyName : Writer UInt8 → List UInt16 → Writer UInt8
  | w, [] => w
  | w, uchar :: msg =>
    if uchar = 0 then w
    else copyName { w.put uchar.toUInt8 with cnt := int32 (w.cnt + 1) } msg

def setEfiName (msg : List UInt16) : Writer UInt8 := copyName (Writer.clear 50) msg

/-! ## Vendors -/

/-- A vendor read from its text : five groups of bytes, of which the first three are turned
round. -/
def parseGuid (s : List UInt8) : Option (List UInt8) :=
  match s.splitOn 45 with
  | [g₁, g₂, g₃, g₄, g₅] =>
    (readBytes g₁).bind fun b₁ => (readBytes g₂).bind fun b₂ => (readBytes g₃).bind fun b₃ =>
      (readBytes g₄).bind fun b₄ => (readBytes g₅).map fun b₅ =>
        b₁.reverse ++ b₂.reverse ++ b₃.reverse ++ b₄ ++ b₅
  | _ => none

/-- The bytes of the groups, in the order of the text. -/
def guidGroups (b : Fin 16 → UInt8) : List (List UInt8) :=
  [[b 3, b 2, b 1, b 0], [b 5, b 4], [b 7, b 6], [b 8, b 9],
    [b 10, b 11, b 12, b 13, b 14, b 15]]

def guidText (b : Fin 16 → UInt8) : List UInt8 :=
  [45].intercalate ((guidGroups b).map fun g => g.flatMap hexByte)

theorem length_guidText (b : Fin 16 → UInt8) : (guidText b).length = 36 := rfl

theorem holds_printByte {size : ℤ} {m : Bytes} {w : Writer UInt8} {text : List UInt8}
    (b : Fin 16 → UInt8) (is : List (Fin 16)) (h : Holds size m w text)
    (hroom : text.length + 2 * is.length < size) :
    Holds size m (is.foldl (printByte b) w) (text ++ (is.map b).flatMap hexByte) := by
  have hlen : ((is.map fun i => hexByte (b i)).flatten.length : ℤ) = 2 * is.length := by
    simp [List.length_flatten, Function.comp_def, length_hexByte]
    ring
  have hprint := h.foldl_print (by rw [hlen]; exact hroom)
  rw [List.foldl_map] at hprint
  rwa [List.flatMap, List.map_map]

/-- A group after the first one has a hyphen before it. -/
theorem holds_group {m : Bytes} {w : Writer UInt8} {text : List UInt8} (b : Fin 16 → UInt8)
    (is : List (Fin 16)) (h : Holds 37 m w text) (hroom : text.length + 2 * is.length < 36) :
    Holds 37 m (is.foldl (printByte b) (w.put 45)) (text ++ 45 :: (is.map b).flatMap hexByte) := by
  have hput := h.put 45 (by omega)
  have hprint := holds_printByte b is hput (by
    rw [List.length_append, List.length_singleton]
    push_cast
    omega)
  rwa [List.append_assoc, List.singleton_append] at hprint

theorem holds_setGuid (b : Fin 16 → UInt8) (m : Bytes) :
    Holds 37 m (setGuid b) (guidText b) := by
  have h₁ := holds_printByte b [3, 2, 1, 0] (holds_clear 37 m) (by decide)
  have h₂ := holds_group b [5, 4] h₁ (by simp [hexByte])
  have h₃ := holds_group b [7, 6] h₂ (by simp [hexByte])
  have h₄ := holds_group b [8, 9] h₃ (by simp [hexByte])
  have h₅ := holds_group b [10, 11, 12, 13, 14, 15] h₄ (by simp [hexByte])
  exact h₅

/-- The text is read back. -/
theorem parseGuid_guidText (b : Fin 16 → UInt8) : parseGuid (guidText b) = some (List.ofFn b) := by
  have hsplit : (guidText b).splitOn 45 = (guidGroups b).map fun g => g.flatMap hexByte := by
    refine List.splitOn_intercalate 45 (fun l hl hmem => ?_) (by simp [guidGroups])
    obtain ⟨g, -, rfl⟩ := List.mem_map.1 hl
    obtain ⟨c, -, hc⟩ := List.mem_flatMap.1 hmem
    exact absurd (isHexDigit_of_mem_hexByte hc) (by decide)
  rw [parseGuid, hsplit]
  simp only [guidGroups, List.map_cons, List.map_nil, readBytes_hexByte]
  rfl

/-- The byte itself if it is no digit. -/
def separator (c : UInt8) : Option UInt8 := if isHexDigit c then none else some c

theorem map_separator_hexByte (bs : List UInt8) :
    (bs.flatMap hexByte).map separator = List.replicate (2 * bs.length) none := by
  refine List.eq_replicate_iff.2 ⟨?_, fun x hx => ?_⟩
  · simp [hexByte, mul_comm]
  · obtain ⟨c, hc, rfl⟩ := List.mem_map.1 hx
    obtain ⟨d, -, hd⟩ := List.mem_flatMap.1 hc
    rw [separator, if_pos (isHexDigit_of_mem_hexByte hd)]

/-- The text has hyphens after the groups, and digits else. -/
theorem map_separator_guidText (b : Fin 16 → UInt8) : (guidText b).map separator =
    [some 45].intercalate ([8, 4, 4, 4, 12].map fun n => List.replicate n none) := by
  simp only [guidText, guidGroups, List.map_cons, List.map_nil, List.intercalate, List.intersperse,
    List.flatten_cons, List.flatten_nil, List.map_append, map_separator_hexByte]
  rfl

theorem separator_guidText (b : Fin 16 → UInt8) {i : ℕ} (hi : i < 36) :
    separator ((guidText b).getD i 0) = if i ∈ [8, 13, 18, 23] then some 45 else none := by
  have hall : ∀ i < 36, ([some 45].intercalate
      ([8, 4, 4, 4, 12].map fun n => List.replicate n none)).getD i (separator 0) =
        if i ∈ [8, 13, 18, 23] then some 45 else none := by
    decide
  rw [← List.getD_map (f := separator), map_separator_guidText, hall i hi]

theorem eq_of_separator {c d : UInt8} (h : separator c = some d) : c = d := by
  unfold separator at h
  split_ifs at h
  exact Option.some.inj h

theorem isHexDigit_of_separator {c : UInt8} (h : separator c = none) : isHexDigit c = true := by
  unfold separator at h
  split_ifs at h with hc
  exact hc

/-- For every vendor and whatever the array had before : the stores are in the array, the text is
a string of 36 characters with hyphens at four places and lower-case digits else, and it is
read back as the vendor. -/
theorem guid_canonical (m : Bytes) (b : Fin 16 → UInt8) :
    (∀ s ∈ (setGuid b).stores, ∀ a, s.Covers a → 0 ≤ a ∧ a < 37) ∧
    (setGuid b).memory m 36 = 0 ∧
    (∀ i : ℕ, i < 36 → if i ∈ [8, 13, 18, 23] then (setGuid b).memory m i = 45
      else isHexDigit ((setGuid b).memory m i) = true) ∧
    parseGuid ((List.range 36).map fun i : ℕ => (setGuid b).memory m i) = some (List.ofFn b) := by
  have h := holds_setGuid b m
  refine ⟨h.stores_mem, ?_, fun i hi => ?_, ?_⟩
  · obtain ⟨w, hw⟩ : ∃ w : Writer UInt8, setGuid b = w.print (hexByte (b 15)) := ⟨_, rfl⟩
    have hnul := memory_print_cnt (m := m) w (hexByte (b 15))
    rwa [← hw, h.cnt_eq, length_guidText] at hnul
  · have hshape := separator_guidText b hi
    rw [← h.cell i hi] at hshape
    split_ifs at hshape ⊢ with hmem
    · exact eq_of_separator hshape
    · exact isHexDigit_of_separator hshape
  · rw [← length_guidText b, h.read, parseGuid_guidText]

/-! ## Names -/

/-- A 16-bit string without a NUL in it. -/
structure EfiString where
  chars : List UInt16
  nul_free : 0 ∉ chars

/-- The low bytes. -/
def lowBytes (name : List UInt16) : List UInt8 := name.map UInt16.toUInt8

/-- The array has a NUL, and holds the low bytes of the name, or of a part of it if there is no
room, and zeros. -/
def Recorded (name : List UInt16) (m : Bytes) : Prop :=
  (∃ i : ℕ, i < 50 ∧ m i = 0) ∧
  ∃ k ≤ name.length, (name.length < 50 → k = name.length) ∧
    ∀ i : ℕ, i < 50 → m i = (lowBytes (name.take k)).getD i 0

/-- There is room for a NUL, or the low bytes have one. -/
def Fits (name : List UInt16) : Prop :=
  name.length < 50 ∨ name.length = 50 ∧ ∃ c ∈ name, c.toUInt8 = 0

/-- The array after calls for these names. -/
def afterNames (m : Bytes) (names : List EfiString) : Bytes :=
  names.foldl (fun m name => (setEfiName name.chars).memory m) m

/-- While the index is in the range of an `int`, the loop puts the low bytes one after the
other. -/
theorem copyName_eq : ∀ {name : List UInt16} {w : Writer UInt8}, 0 ∉ name → 0 ≤ w.cnt →
    w.cnt + name.length < 2 ^ 31 → copyName w name = (lowBytes name).foldl Writer.put w
  | [], _, _, _, _ => rfl
  | c :: name, w, hnul, hcnt, hlt => by
    rw [List.mem_cons, not_or] at hnul
    rw [List.length_cons] at hlt
    push_cast at hlt
    have hint : int32 (w.cnt + 1) = w.cnt + 1 := int32_of_mem (by omega) (by omega)
    have ih := copyName_eq (w := w.put c.toUInt8) hnul.2 (by rw [Writer.put]; dsimp only; omega)
      (by rw [Writer.put]; dsimp only; omega)
    rw [copyName, if_neg (Ne.symm hnul.1), hint]
    exact ih

theorem copyName_append : ∀ {pre post : List UInt16} {w : Writer UInt8}, 0 ∉ pre →
    copyName w (pre ++ post) = copyName (copyName w pre) post
  | [], _, _, _ => rfl
  | c :: pre, post, w, hnul => by
    rw [List.mem_cons, not_or] at hnul
    rw [List.cons_append, copyName, copyName, if_neg (Ne.symm hnul.1), if_neg (Ne.symm hnul.1),
      copyName_append hnul.2]

/-- The loop only adds stores. -/
theorem mem_copyName {s : Write UInt8} : ∀ {name : List UInt16} {w : Writer UInt8},
    s ∈ w.stores → s ∈ (copyName w name).stores
  | [], _, hs => hs
  | c :: name, w, hs => by
    rw [copyName]
    split_ifs
    · exact hs
    · exact mem_copyName (List.mem_append_left _ hs)

theorem length_lowBytes (name : List UInt16) : (lowBytes name).length = name.length :=
  List.length_map _

/-- A name of at most 50 characters is in the array, with zeros after it. -/
theorem holds_setEfiName {name : List UInt16} (hnul : 0 ∉ name) (hlen : name.length ≤ 50)
    (m : Bytes) :
    Holds 50 m (setEfiName name) (lowBytes name) ∧ Cleared 50 m (setEfiName name) := by
  have hcopy : setEfiName name = (lowBytes name).foldl Writer.put (.clear 50) :=
    copyName_eq hnul le_rfl (by dsimp only [Writer.clear]; omega)
  rw [hcopy]
  exact (holds_clear 50 m).foldl_put (cleared_clear 50 m)
    (by rw [length_lowBytes, List.length_nil]; omega)

theorem memory_setEfiName {name : List UInt16} (hnul : 0 ∉ name) (hlen : name.length ≤ 50)
    (m : Bytes) {i : ℕ} (hi : i < 50) :
    (setEfiName name).memory m i = (lowBytes name).getD i 0 := by
  obtain ⟨hholds, hcleared⟩ := holds_setEfiName hnul hlen m
  have hcnt := hholds.cnt_eq
  by_cases hlt : i < (lowBytes name).length
  · exact hholds.cell i hlt
  · rw [hcleared i (by omega) (by omega), List.getD_eq_default _ _ (by omega)]

/-- A longer name is stored to the byte after the array. -/
theorem exists_covers_of_lt {name : List UInt16} (hnul : 0 ∉ name) (hlen : 50 < name.length) :
    ∃ s ∈ (setEfiName name).stores, s.Covers 50 := by
  obtain ⟨c, post, hpost⟩ := List.exists_cons_of_ne_nil
    (List.ne_nil_of_length_pos (l := name.drop 50) (by rw [List.length_drop]; omega))
  have hpre : 0 ∉ name.take 50 := fun h => hnul (List.mem_of_mem_take h)
  have hc : c ≠ 0 := by
    rintro rfl
    exact hnul (List.mem_of_mem_drop (by rw [hpost]; exact List.mem_cons_self))
  have hcnt := (holds_setEfiName hpre (by rw [List.length_take]; omega) fun _ => 0).1.cnt_eq
  rw [length_lowBytes, List.length_take_of_le hlen.le] at hcnt
  refine ⟨⟨50, 1, fun _ => c.toUInt8⟩, ?_, le_rfl, lt_add_one 50⟩
  rw [← List.take_append_drop 50 name, hpost, setEfiName, copyName_append hpre, copyName,
    if_neg hc]
  refine mem_copyName (List.mem_append_right _ ?_)
  rw [← setEfiName, hcnt]
  exact List.mem_cons_self

/-- A name of at most 50 characters is recorded exactly when it fits. -/
theorem recorded_iff {name : List UInt16} (hnul : 0 ∉ name) (hlen : name.length ≤ 50) (m : Bytes) :
    Recorded name ((setEfiName name).memory m) ↔ Fits name := by
  have hmem := fun i hi => memory_setEfiName hnul hlen m (i := i) hi
  constructor
  · rintro ⟨⟨i, hi, hzero⟩, -⟩
    by_cases hlt : name.length < 50
    · exact .inl hlt
    · have hi' : i < (lowBytes name).length := by
        rw [length_lowBytes]
        omega
      rw [hmem i hi, List.getD_eq_getElem _ _ hi'] at hzero
      obtain ⟨c, hc, hlow⟩ := List.mem_map.1 (List.getElem_mem hi')
      exact .inr ⟨by omega, c, hc, by rw [hlow, hzero]⟩
  · intro hfits
    refine ⟨?_, name.length, le_rfl, fun _ => rfl, fun i hi => ?_⟩
    · rcases hfits with hlt | ⟨-, c, hc, hlow⟩
      · refine ⟨name.length, hlt, ?_⟩
        rw [hmem _ hlt, List.getD_eq_default _ _ (length_lowBytes name).le]
      · have hmap : c.toUInt8 ∈ lowBytes name := List.mem_map_of_mem hc
        obtain ⟨i, hi, hget⟩ := List.mem_iff_getElem.1 hmap
        have hi' : i < 50 := by
          rw [length_lowBytes] at hi
          omega
        refine ⟨i, hi', ?_⟩
        rw [hmem i hi', List.getD_eq_getElem _ _ hi, hget, hlow]
    · rw [List.take_length]
      exact hmem i hi

/-- One call is right exactly for a name that fits, whatever the array had before. -/
theorem setEfiName_iff {name : List UInt16} (hnul : 0 ∉ name) (m : Bytes) :
    ((∀ s ∈ (setEfiName name).stores, ∀ a, s.Covers a → 0 ≤ a ∧ a < 50) ∧
      Recorded name ((setEfiName name).memory m)) ↔ Fits name := by
  by_cases hlen : name.length ≤ 50
  · rw [recorded_iff hnul hlen]
    exact and_iff_right (holds_setEfiName hnul hlen m).1.stores_mem
  · constructor
    · rintro ⟨hstores, -⟩
      obtain ⟨s, hs, hcov⟩ := exists_covers_of_lt hnul (by omega)
      exact absurd (hstores s hs 50 hcov).2 (by decide)
    · rintro (h | ⟨h, -⟩) <;> omega

/-- Every call of a sequence is right exactly when every name fits. -/
theorem efi_names_iff (m : Bytes) (names : List EfiString) :
    (∀ pre name post, names = pre ++ name :: post →
      (∀ s ∈ (setEfiName name.chars).stores, ∀ a, s.Covers a → 0 ≤ a ∧ a < 50) ∧
      Recorded name.chars (afterNames m (pre ++ [name]))) ↔
    ∀ name ∈ names, Fits name.chars := by
  have hcall (pre : List EfiString) (name : EfiString) : afterNames m (pre ++ [name]) =
      (setEfiName name.chars).memory (afterNames m pre) := List.foldl_append
  constructor
  · intro h name hname
    obtain ⟨pre, post, hnames⟩ := List.append_of_mem hname
    have hright := h pre name post hnames
    rw [hcall] at hright
    exact (setEfiName_iff name.nul_free _).1 hright
  · rintro h pre name post rfl
    rw [hcall]
    exact (setEfiName_iff name.nul_free _).2 (h name (by simp))

/-- The last of 51 letters `A` is stored after the array. -/
theorem not_efi_names_long : ¬∀ pre (name : EfiString) post,
    [⟨List.replicate 51 65, by decide⟩] = pre ++ name :: post →
      (∀ s ∈ (setEfiName name.chars).stores, ∀ a, s.Covers a → 0 ≤ a ∧ a < 50) ∧
      Recorded name.chars (afterNames (fun _ => 0) (pre ++ [name])) := by
  intro h
  obtain ⟨hstores, -⟩ := h [] _ [] rfl
  have hlong : ∃ s ∈ (setEfiName (List.replicate 51 65)).stores, s.Covers 50 :=
    exists_covers_of_lt (by decide) (by decide)
  obtain ⟨s, hs, hcov⟩ := hlong
  exact absurd (hstores s hs 50 hcov).2 (by decide)

end KernelExamples.EfiNames
