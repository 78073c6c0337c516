import KernelExamples.EfiNames
import KernelExamples.Threads
import Mathlib.Data.List.DropRight

/-!
# Probes that share two arrays

`my_virt_efi_get_variable` and `my_virt_efi_set_variable` of `kprobes/efi_reboot_monitor.c` store
the name and the vendor of a variable in `efi_name` and `vendor_guid` and print the arrays, with no
lock, and any number of CPUs can be in them. Here a step is the entry into a handler, one byte it
stores, or one byte that `printk` reads.

In every interleaving the bytes are in the arrays, and a line is put together from texts of calls,
each character at its place. A line is that of its own call as long as no handler stores while
another one is under way (`lines_law`). Else it can be that of another call (`overtaken`). No
handler is held up by the others (`handlers_end`).
-/

namespace KernelExamples.EfiRace

open Mem Buffer Text Hex Traces Threads EfiNames

/-! ## The source -/

inductive Var
  | efiName
  | vendorGuid
  deriving DecidableEq

def Var.size : Var → ℕ
  | .efiName => 50
  | .vendorGuid => 37

/-- The contents of the arrays. -/
abbrev Arrays := Var → Bytes

inductive Probe
  | virtEfiGetVariable
  | virtEfiSetVariable
  deriving DecidableEq

/-- What a handler prints before the name and after the vendor. -/
def Probe.format : Probe → List UInt8 × List UInt8
  | .virtEfiGetVariable => (ascii "HR: vegv(), name : ", [])
  | .virtEfiSetVariable => (ascii "HR: vesv(), name : ", ascii "\n")

/-- A call of a probed function. There is room for a NUL after its name. -/
structure Call where
  probe : Probe
  name : EfiString
  vendor : Fin 16 → UInt8
  room : name.chars.length < 50

/-- One byte stored to an array. -/
structure Store where
  var : Var
  index : ℤ
  byte : UInt8

def Store.apply (m : Arrays) (s : Store) : Arrays :=
  Function.update m s.var (Function.update (m s.var) s.index s.byte)

/-- The stores of a writer, byte by byte. -/
def storesTo (v : Var) (w : Writer UInt8) : List Store :=
  (w.stores.flatMap Write.cells).map fun c => ⟨v, c.1, c.2⟩

/-- `set_efi_name` and `set_guid`. -/
def Call.stores (c : Call) : List Store :=
  storesTo .efiName (setEfiName c.name.chars) ++ storesTo .vendorGuid (setGuid c.vendor)

/-- Where a handler is : the stores it has still to make, or the name, if `printk` has it already,
and what it has read of the next string. -/
inductive Stage
  | store (todo : List Store)
  | read (name : Option (List UInt8)) (got : List UInt8)

/-- What was printed for a call. -/
structure Line where
  call : Call
  name : List UInt8
  vendor : List UInt8

def Line.text (l : Line) : List UInt8 :=
  l.call.probe.format.1 ++ l.name ++ [45] ++ l.vendor ++ l.call.probe.format.2

/-- A CPU : the handler it is in, and its lines. -/
structure Cpu where
  handler : Option (Call × Stage)
  lines : List Line

inductive Act
  | enter (call : Call)
  | next

/-- The array of the string `printk` reads. -/
def source : Option (List UInt8) → Var
  | none => .efiName
  | some _ => .vendorGuid

/-- The next step of a handler. A `%s` ends at a NUL. -/
def Cpu.next (m : Arrays) (cpu : Cpu) (c : Call) : Stage → Arrays × Cpu
  | .store (s :: todo) => (s.apply m, { cpu with handler := some (c, .store todo) })
  | .store [] => (m, { cpu with handler := some (c, .read none []) })
  | .read name got =>
    if m (source name) got.length ≠ 0 then
      (m, { cpu with
        handler := some (c, .read name (got ++ [m (source name) got.length])) })
    else
      match name with
      | none => (m, { cpu with handler := some (c, .read (some got) []) })
      | some name => (m, { handler := none, lines := cpu.lines ++ [⟨c, name, got⟩] })

def prog {T : Type*} (_ : T) : Act → Arrays → Cpu → Option (Arrays × Cpu)
  | .enter c, m, cpu =>
    if cpu.handler.isNone then some (m, { cpu with handler := some (c, .store c.stores) }) else none
  | .next, m, cpu => cpu.handler.map fun h => cpu.next m h.1 h.2

/-- The module was loaded. -/
def initial {T : Type*} : Threads.State T Arrays Cpu := ⟨fun _ _ => 0, fun _ => ⟨none, []⟩⟩

/-! ## What is asked of it -/

/-- The text a call leaves in an array. -/
def Call.text (c : Call) : Var → List UInt8
  | .efiName => lowBytes c.name.chars
  | .vendorGuid => guidText c.vendor

/-- The byte a handler touches next. -/
def Stage.touches : Stage → Option (Var × ℤ)
  | .store [] => none
  | .store (s :: _) => some (s.var, s.index)
  | .read name got => some (source name, got.length)

/-- Each character stands at its place in the text of one of the calls. -/
def Mixed (P : Call → Prop) (v : Var) (s : List UInt8) : Prop :=
  ∀ (i : ℕ) (b : UInt8), s[i]? = some b → ∃ c, P c ∧ (c.text v)[i]? = some b

/-- The characters before the first NUL. -/
def cString (s : List UInt8) : List UInt8 := s.takeWhile (· ≠ 0)

/-- The line has the variable of its call. -/
def Line.Right (l : Line) : Prop :=
  l.name = cString (lowBytes l.call.name.chars) ∧ l.vendor = guidText l.call.vendor

/-- The name and the vendor in a line of this probe. The vendor has 36 characters. -/
def readLine (p : Probe) (s : List UInt8) : List UInt8 × Option (List UInt8) :=
  let s := (s.drop p.format.1.length).rdrop p.format.2.length
  (s.rdrop 37, parseGuid (s.rtake 36))

/-- A byte is stored while the other CPU is in no handler. -/
def Alone : Act → Arrays → Cpu → Cpu → Prop
  | .next, _, cpu, other =>
    (∃ c s todo, cpu.handler = some (c, .store (s :: todo))) → other.handler = none
  | .enter _, _, _, _ => True

/-! ## The stores -/

variable {P : Call → Prop} {c : Call} {m m' : Arrays} {v : Var} {cpu cpu' : Cpu}

theorem Var.size_pos (v : Var) : 0 < v.size := by cases v <;> decide

theorem Call.length_text_lt (c : Call) : ∀ v : Var, (c.text v).length < v.size
  | .efiName => (length_lowBytes c.name.chars).trans_lt c.room
  | .vendorGuid => (length_guidText c.vendor).trans_lt (by decide)

theorem setEfiName_eq (c : Call) :
    setEfiName c.name.chars = (lowBytes c.name.chars).foldl Writer.put (.clear 50) := by
  have hroom := c.room
  exact copyName_eq c.name.nul_free le_rfl (by dsimp only [Writer.clear]; omega)

theorem spells_setEfiName (c : Call) : Spells (setEfiName c.name.chars) (c.text .efiName) := by
  rw [setEfiName_eq]
  exact (spells_clear 50).foldl_put

theorem spells_printByte {w : Writer UInt8} {text : List UInt8} (b : Fin 16 → UInt8)
    (is : List (Fin 16)) (h : Spells w text) :
    Spells (is.foldl (printByte b) w) (text ++ (is.map b).flatMap hexByte) := by
  have hprint := h.foldl_print (is.map fun i => hexByte (b i))
  rw [List.foldl_map] at hprint
  rwa [List.flatMap, List.map_map]

theorem spells_group {w : Writer UInt8} {text : List UInt8} (b : Fin 16 → UInt8)
    (is : List (Fin 16)) (h : Spells w text) :
    Spells (is.foldl (printByte b) (w.put 45)) (text ++ 45 :: (is.map b).flatMap hexByte) := by
  have hprint := spells_printByte b is (h.put 45)
  rwa [List.append_assoc, List.singleton_append] at hprint

theorem spells_setGuid (b : Fin 16 → UInt8) : Spells (setGuid b) (guidText b) := by
  have h₁ := spells_printByte b [3, 2, 1, 0] (spells_clear 37)
  have h₂ := spells_group b [5, 4] h₁
  have h₃ := spells_group b [7, 6] h₂
  have h₄ := spells_group b [8, 9] h₃
  have h₅ := spells_group b [10, 11, 12, 13, 14, 15] h₄
  exact h₅

/-- A store of a call is in its array, and stores a NUL or the character of the text. -/
structure Store.Of (c : Call) (s : Store) : Prop where
  index_mem : 0 ≤ s.index ∧ s.index < s.var.size
  byte : s.byte = 0 ∨ (c.text s.var)[s.index.toNat]? = some s.byte

theorem of_mem_storesTo {w : Writer UInt8} {s : Store}
    (hmem : ∀ s ∈ w.stores, ∀ a, s.Covers a → 0 ≤ a ∧ a < v.size) (hw : Spells w (c.text v))
    (hs : s ∈ storesTo v w) : s.Of c := by
  obtain ⟨x, hx, rfl⟩ := List.mem_map.1 hs
  obtain ⟨write, hwrite, hx⟩ := List.mem_flatMap.1 hx
  obtain ⟨hcov, hbyte⟩ := Write.mem_cells hx
  refine ⟨hmem write hwrite _ hcov, ?_⟩
  rw [hbyte]
  exact hw.data write hwrite _ hcov

theorem of_mem_stores {s : Store} (hs : s ∈ c.stores) : s.Of c := by
  have hname := (holds_setEfiName c.name.nul_free c.room.le fun _ => 0).1
  have hvendor := holds_setGuid c.vendor fun _ => 0
  obtain hs | hs := List.mem_append.1 hs
  · exact of_mem_storesTo hname.stores_mem (spells_setEfiName c) hs
  · exact of_mem_storesTo hvendor.stores_mem (spells_setGuid c.vendor) hs

theorem foldl_storesTo (m : Arrays) (v : Var) (w : Writer UInt8) :
    (storesTo v w).foldl Store.apply m = Function.update m v (w.memory (m v)) := by
  suffices h : ∀ (cells : List (ℤ × UInt8)) (m : Arrays),
      (cells.map fun c => (⟨v, c.1, c.2⟩ : Store)).foldl Store.apply m =
        Function.update m v (cells.foldl (fun m c => Function.update m c.1 c.2) (m v)) by
    rw [storesTo, h, foldl_cells]
    rfl
  intro cells
  induction cells with
  | nil => exact fun m => (Function.update_eq_self v m).symm
  | cons x cells ih =>
    intro m
    rw [List.map_cons, List.foldl_cons, ih, Store.apply]
    dsimp only
    rw [Function.update_self, Function.update_idem, List.foldl_cons]

theorem memory_setGuid (b : Fin 16 → UInt8) (m : Bytes) {i : ℕ} (hi : i < 37) :
    (setGuid b).memory m i = (guidText b).getD i 0 := by
  have h := holds_setGuid b m
  have hlen := length_guidText b
  rcases Nat.lt_or_ge i 36 with hlt | hge
  · exact h.cell i (by omega)
  · obtain rfl : i = 36 := by omega
    obtain ⟨w, hw⟩ : ∃ w : Writer UInt8, setGuid b = w.print (hexByte (b 15)) := ⟨_, rfl⟩
    have hnul := memory_print_cnt (m := m) w (hexByte (b 15))
    rw [← hw, h.cnt_eq, hlen] at hnul
    rw [List.getD_eq_default _ _ hlen.le]
    exact hnul

/-- The arrays have the texts of the call. -/
def Stored (c : Call) (m : Arrays) : Prop :=
  ∀ (v : Var) (i : ℕ), i < v.size → m v i = (c.text v).getD i 0

/-- All stores of a call together leave its texts, whatever was there. -/
theorem stored_stores (c : Call) (m : Arrays) : Stored c (c.stores.foldl Store.apply m) := by
  intro v i hi
  rw [Call.stores, List.foldl_append, foldl_storesTo, foldl_storesTo]
  cases v with
  | efiName =>
    rw [Function.update_of_ne (by decide), Function.update_self]
    exact memory_setEfiName c.name.nul_free c.room.le _ hi
  | vendorGuid =>
    rw [Function.update_self]
    exact memory_setGuid c.vendor _ hi

/-! ## The steps of a CPU -/

/-- The steps of a CPU, by cases. -/
inductive Moves : Act → Arrays → Cpu → Arrays → Cpu → Prop
  | enter {m c lines} : Moves (.enter c) m ⟨none, lines⟩ m ⟨some (c, .store c.stores), lines⟩
  | store {m c s todo lines} : Moves .next m ⟨some (c, .store (s :: todo)), lines⟩ (s.apply m)
      ⟨some (c, .store todo), lines⟩
  | print {m c lines} : Moves .next m ⟨some (c, .store []), lines⟩ m
      ⟨some (c, .read none []), lines⟩
  | char {m c name got lines} (h : m (source name) got.length ≠ 0) :
      Moves .next m ⟨some (c, .read name got), lines⟩ m
        ⟨some (c, .read name (got ++ [m (source name) got.length])), lines⟩
  | name {m c got lines} (h : m (source none) got.length = 0) :
      Moves .next m ⟨some (c, .read none got), lines⟩ m ⟨some (c, .read (some got) []), lines⟩
  | line {m c name got lines} (h : m (source (some name)) got.length = 0) :
      Moves .next m ⟨some (c, .read (some name) got), lines⟩ m ⟨none, lines ++ [⟨c, name, got⟩]⟩

theorem moves_of_prog {T : Type*} {t : T} {a : Act} (h : prog t a m cpu = some (m', cpu')) :
    Moves a m cpu m' cpu' := by
  obtain ⟨handler, lines⟩ := cpu
  cases a with
  | enter c =>
    obtain ⟨hnone, h⟩ := of_guard h
    obtain rfl : handler = none := Option.isNone_iff_eq_none.1 hnone
    cases h
    exact .enter
  | next =>
    obtain ⟨⟨c, stage⟩, rfl, h⟩ := Option.map_eq_some_iff.1 h
    match stage with
    | .store (s :: todo) =>
      cases h
      exact .store
    | .store [] =>
      cases h
      exact .print
    | .read name got =>
      simp only [Cpu.next] at h
      split_ifs at h with hbyte
      · cases h
        exact .char hbyte
      · rw [not_not] at hbyte
        cases name with
        | none =>
          cases h
          exact .name hbyte
        | some name =>
          cases h
          exact .line hbyte

/-! ## What a line is put together from -/

theorem mixed_nil (P : Call → Prop) (v : Var) : Mixed P v [] := by simp [Mixed]

theorem Mixed.concat {s : List UInt8} {b : UInt8} (h : Mixed P v s)
    (hb : ∃ c, P c ∧ (c.text v)[s.length]? = some b) : Mixed P v (s ++ [b]) := by
  intro i b' hget
  rcases Nat.lt_or_ge i s.length with hlt | hge
  · rw [List.getElem?_append_left hlt] at hget
    exact h i b' hget
  · obtain ⟨hlen, -⟩ := List.getElem?_eq_some_iff.1 hget
    rw [List.length_append, List.length_singleton] at hlen
    obtain rfl : i = s.length := by omega
    obtain rfl : b = b' := by simpa using hget
    exact hb

theorem Mixed.length_lt {s : List UInt8} (h : Mixed P v s) : s.length < v.size := by
  by_contra hle
  have hpos := v.size_pos
  obtain ⟨c, -, hget⟩ := h (s.length - 1) _ (List.getElem?_eq_getElem (by omega))
  have hlen := (List.getElem?_eq_some_iff.1 hget).1
  have hlt := c.length_text_lt v
  omega

/-- A cell has a NUL or the character of one of the calls. -/
def Mixture (P : Call → Prop) (m : Arrays) : Prop :=
  ∀ (v : Var) (i : ℕ), m v i ≠ 0 → ∃ c, P c ∧ (c.text v)[i]? = some (m v i)

theorem Mixture.apply {s : Store} (hm : Mixture P m) (hc : P c) (hs : s.Of c) :
    Mixture P (s.apply m) := by
  intro v i hne
  unfold Store.apply at hne ⊢
  rcases eq_or_ne v s.var with rfl | hv
  · rw [Function.update_self] at hne ⊢
    rcases eq_or_ne (i : ℤ) s.index with hi | hi
    · rw [hi, Function.update_self] at hne ⊢
      refine ⟨c, hc, ?_⟩
      rw [← hs.byte.resolve_left hne, ← hi, Int.toNat_natCast]
    · rw [Function.update_of_ne hi] at hne ⊢
      exact hm _ i hne
  · rw [Function.update_of_ne hv] at hne ⊢
    exact hm v i hne

/-- What a handler has still to store is the end of what it stores, and what it has read is a
mixture. -/
def Stage.Safe (P : Call → Prop) (c : Call) : Stage → Prop
  | .store todo => todo <:+ c.stores
  | .read name got => (∀ n ∈ name, Mixed P .efiName n) ∧ Mixed P (source name) got

structure Safe (P : Call → Prop) (cpu : Cpu) : Prop where
  handler : ∀ c stage, cpu.handler = some (c, stage) → P c ∧ stage.Safe P c
  lines : ∀ l ∈ cpu.lines, Mixed P .efiName l.name ∧ Mixed P .vendorGuid l.vendor

theorem safe_some {stage : Stage} {lines : List Line} (hc : P c) (hstage : stage.Safe P c)
    (hlines : ∀ l ∈ lines, Mixed P .efiName l.name ∧ Mixed P .vendorGuid l.vendor) :
    Safe P ⟨some (c, stage), lines⟩ := by
  refine ⟨?_, hlines⟩
  rintro _ _ ⟨⟩
  exact ⟨hc, hstage⟩

theorem safe_moves {a : Act} (hm : Mixture P m) (hcpu : Safe P cpu)
    (ha : ∀ c, a = .enter c → P c) (h : Moves a m cpu m' cpu') : Mixture P m' ∧ Safe P cpu' := by
  cases h with
  | enter => exact ⟨hm, safe_some (ha _ rfl) List.suffix_rfl hcpu.lines⟩
  | store =>
    obtain ⟨hc, htodo⟩ := hcpu.handler _ _ rfl
    exact ⟨hm.apply hc (of_mem_stores (htodo.subset List.mem_cons_self)),
      safe_some hc ((List.suffix_cons _ _).trans htodo) hcpu.lines⟩
  | print =>
    obtain ⟨hc, -⟩ := hcpu.handler _ _ rfl
    exact ⟨hm, safe_some hc ⟨by simp, mixed_nil P _⟩ hcpu.lines⟩
  | char hne =>
    obtain ⟨hc, hname, hgot⟩ := hcpu.handler _ _ rfl
    exact ⟨hm, safe_some hc ⟨hname, hgot.concat (hm _ _ hne)⟩ hcpu.lines⟩
  | name =>
    obtain ⟨hc, -, hgot⟩ := hcpu.handler _ _ rfl
    refine ⟨hm, safe_some hc ⟨?_, mixed_nil P _⟩ hcpu.lines⟩
    rintro _ ⟨⟩
    exact hgot
  | line =>
    obtain ⟨hc, hname, hgot⟩ := hcpu.handler _ _ rfl
    refine ⟨hm, by simp, fun l hl => ?_⟩
    obtain hl | hl := List.mem_append.1 hl
    · exact hcpu.lines l hl
    · obtain rfl := List.mem_singleton.1 hl
      exact ⟨hname _ rfl, hgot⟩

/-- A handler touches bytes of the arrays only. -/
theorem Safe.touches_mem {stage : Stage} (hcpu : Safe P cpu) (h : cpu.handler = some (c, stage))
    {x : Var × ℤ} (hx : x ∈ stage.touches) : 0 ≤ x.2 ∧ x.2 < x.1.size := by
  obtain ⟨-, hstage⟩ := hcpu.handler c stage h
  match stage with
  | .store [] => cases hx
  | .store (s :: todo) =>
    cases hx
    exact (of_mem_stores (hstage.subset List.mem_cons_self)).index_mem
  | .read name got =>
    cases hx
    exact ⟨Int.natCast_nonneg _, Int.ofNat_lt.2 hstage.2.length_lt⟩

/-! ## A handler that is alone -/

/-- The first characters of a string, without a NUL. -/
def Reads (text got : List UInt8) : Prop := got <+: text ∧ 0 ∉ got

theorem reads_nil (text : List UInt8) : Reads text [] := ⟨List.nil_prefix, List.not_mem_nil⟩

theorem Reads.concat {text got : List UInt8} (h : Reads text got)
    (hne : text.getD got.length 0 ≠ 0) : Reads text (got ++ [text.getD got.length 0]) := by
  obtain ⟨⟨rest, rfl⟩, hnul⟩ := h
  rw [List.getD_append_right _ _ _ _ le_rfl, Nat.sub_self] at hne ⊢
  cases rest with
  | nil => exact absurd rfl hne
  | cons b rest =>
    refine ⟨⟨rest, by simp⟩, ?_⟩
    simpa [hnul] using Ne.symm hne

theorem Reads.eq_cString {text got : List UInt8} (h : Reads text got)
    (hnul : text.getD got.length 0 = 0) : got = cString text := by
  obtain ⟨⟨rest, rfl⟩, hmem⟩ := h
  rw [List.getD_append_right _ _ _ _ le_rfl, Nat.sub_self] at hnul
  have hrest : rest.takeWhile (· ≠ 0) = [] := by
    cases rest with
    | nil => rfl
    | cons b rest =>
      obtain rfl : b = 0 := hnul
      rfl
  rw [cString, List.takeWhile_append_of_pos, hrest, List.append_nil]
  intro b hb
  simpa using fun h : b = 0 => hmem (h ▸ hb)

theorem cString_guidText (b : Fin 16 → UInt8) : cString (guidText b) = guidText b := by
  refine List.takeWhile_eq_self_iff.2 fun c hc => ?_
  have hmem := List.mem_map_of_mem (f := separator) hc
  rw [map_separator_guidText] at hmem
  have hzero : separator 0 ∉ [some 45].intercalate
      ([8, 4, 4, 4, 12].map fun n => List.replicate n (none : Option UInt8)) := by
    decide
  simpa using fun h : c = 0 => hzero (h ▸ hmem)

/-- The arrays have the texts of the call, or will have them after the stores to come, and what was
read is of these texts. -/
def Stage.Keeps (c : Call) (m : Arrays) : Stage → Prop
  | .store todo => Stored c (todo.foldl Store.apply m)
  | .read name got => Stored c m ∧ (∀ n ∈ name, n = cString (c.text .efiName)) ∧
      Reads (c.text (source name)) got

theorem Stored.at_length (h : Stored c m) {got : List UInt8} (hgot : Reads (c.text v) got) :
    m v got.length = (c.text v).getD got.length 0 :=
  h v _ (hgot.1.length_le.trans_lt (c.length_text_lt v))

structure Serves (m : Arrays) (cpu : Cpu) : Prop where
  handler : ∀ c stage, cpu.handler = some (c, stage) → stage.Keeps c m
  lines : ∀ l ∈ cpu.lines, l.Right

theorem serves_some {stage : Stage} {lines : List Line} (hstage : stage.Keeps c m)
    (hlines : ∀ l ∈ lines, l.Right) : Serves m ⟨some (c, stage), lines⟩ := by
  refine ⟨?_, hlines⟩
  rintro _ _ ⟨⟩
  exact hstage

theorem serves_moves {a : Act} (hcpu : Serves m cpu) (h : Moves a m cpu m' cpu') :
    Serves m' cpu' := by
  cases h with
  | enter => exact serves_some (stored_stores _ m) hcpu.lines
  | @store m c s todo lines =>
    have htodo : (Stage.store todo).Keeps c (s.apply m) := hcpu.handler _ _ rfl
    exact serves_some htodo hcpu.lines
  | print =>
    have hstored := hcpu.handler _ _ rfl
    exact serves_some ⟨hstored, by simp, reads_nil _⟩ hcpu.lines
  | char hne =>
    obtain ⟨hstored, hname, hgot⟩ := hcpu.handler _ _ rfl
    rw [hstored.at_length hgot] at hne ⊢
    exact serves_some ⟨hstored, hname, hgot.concat hne⟩ hcpu.lines
  | name hnul =>
    obtain ⟨hstored, -, hgot⟩ := hcpu.handler _ _ rfl
    rw [hstored.at_length hgot] at hnul
    refine serves_some ⟨hstored, ?_, reads_nil _⟩ hcpu.lines
    rintro _ ⟨⟩
    exact hgot.eq_cString hnul
  | line hnul =>
    obtain ⟨hstored, hname, hgot⟩ := hcpu.handler _ _ rfl
    rw [hstored.at_length hgot] at hnul
    refine ⟨by simp, fun l hl => ?_⟩
    obtain hl | hl := List.mem_append.1 hl
    · exact hcpu.lines l hl
    · obtain rfl := List.mem_singleton.1 hl
      exact ⟨hname _ rfl, (hgot.eq_cString hnul).trans (cString_guidText _)⟩

/-- A handler does not see the steps of another CPU that stores nothing meanwhile. -/
theorem serves_moves_other {a : Act} {other : Cpu} (hother : Serves m other)
    (halone : Alone a m cpu other) (h : Moves a m cpu m' cpu') : Serves m' other := by
  cases h with
  | store =>
    have hnone := halone ⟨_, _, _, rfl⟩
    exact ⟨by simp [hnone], hother.lines⟩
  | _ => exact hother

theorem rdrop_append_length (s s' : List UInt8) : (s ++ s').rdrop s'.length = s := by
  rw [List.rdrop, List.length_append, Nat.add_sub_cancel, List.take_left]

theorem rtake_append_length (s s' : List UInt8) : (s ++ s').rtake s'.length = s' := by
  rw [List.rtake, List.length_append, Nat.add_sub_cancel, List.drop_left]

/-- The variable of the call is read back from its line. -/
theorem Line.Right.read {l : Line} (h : l.Right) : readLine l.call.probe l.text =
    (cString (lowBytes l.call.name.chars), some (List.ofFn l.call.vendor)) := by
  obtain ⟨hname, hvendor⟩ := h
  have hbody : (l.text.drop l.call.probe.format.1.length).rdrop l.call.probe.format.2.length =
      l.name ++ ([45] ++ l.vendor) := by
    rw [Line.text, List.append_assoc _ l.name, List.append_assoc _ (l.name ++ [45]),
      List.append_assoc l.call.probe.format.1, List.drop_left, rdrop_append_length,
      List.append_assoc]
  have h36 : l.vendor.length = 36 := by rw [hvendor, length_guidText]
  have h37 : ([45] ++ l.vendor).length = 37 := by rw [List.length_append, h36]; rfl
  rw [readLine, hbody, ← h37, rdrop_append_length, ← h36, ← List.append_assoc, rtake_append_length,
    hvendor, parseGuid_guidText, hname]

/-! ## Interleavings -/

section Race

variable {T : Type*} [DecidableEq T] {t : T}

/-- The call was made in the run. -/
def Entered (acts : List (T × Act)) (c : Call) : Prop := ∃ t, (t, .enter c) ∈ acts

theorem safe_step {s s' : Threads.State T Arrays Cpu} {a : T × Act}
    (hs : Local (Mixture P) (fun _ _ => Safe P) s) (ha : ∀ c, a.2 = .enter c → P c)
    (h : step prog s a = some s') : Local (Mixture P) (fun _ _ => Safe P) s' := by
  obtain ⟨t, a⟩ := a
  obtain ⟨hprog, hsame⟩ := step_cases h
  obtain ⟨hm, hcpu⟩ := safe_moves hs.1 (hs.2 t) ha (moves_of_prog hprog)
  refine ⟨hm, fun u => ?_⟩
  by_cases hu : u = t
  · rwa [hu]
  · rw [hsame u hu]
    exact hs.2 u

omit [DecidableEq T] in
theorem safe_initial (P : Call → Prop) :
    Local (Mixture P) (fun _ _ => Safe P) (initial : Threads.State T Arrays Cpu) :=
  ⟨fun _ _ hne => absurd rfl hne, fun _ => ⟨by simp [initial], by simp [initial]⟩⟩

/-- In every run, for the calls made in it. -/
theorem safe_run (acts : List (T × Act)) : Throughout (step prog)
    (Local (Mixture (Entered acts)) fun _ _ => Safe (Entered acts)) initial acts := by
  refine throughout_of_along (C := fun _ a => a ∈ acts) (fun s a s' hs ha h => ?_) acts
    (safe_initial _) ?_
  · refine safe_step hs (fun c hc => ⟨a.1, ?_⟩) h
    rw [← hc]
    exact ha
  · rintro pre a post s s' rfl - -
    simp

theorem serves_step (s : Threads.State T Arrays Cpu) (a : T × Act)
    (s' : Threads.State T Arrays Cpu) (hs : Local (fun _ => True) (fun _ => Serves) s)
    (halone : Apart Alone s a) (h : step prog s a = some s') :
    Local (fun _ => True) (fun _ => Serves) s' :=
  local_step_of_apart
    (fun _ _ _ _ _ _ _ hcpu h => ⟨trivial, serves_moves hcpu (moves_of_prog h)⟩)
    (fun _ _ _ _ _ _ _ _ _ _ _ hother halone h =>
      serves_moves_other hother halone (moves_of_prog h)) s a s' hs halone h

/-- The character at a place of a vendor is a hyphen or a digit, whatever the vendor. -/
theorem Mixed.separator {s : List UInt8} (h : Mixed P .vendorGuid s) {i : ℕ} {b : UInt8}
    (hget : s[i]? = some b) :
    EfiNames.separator b = if i ∈ [8, 13, 18, 23] then some 45 else none := by
  obtain ⟨c, -, hget⟩ := h i b hget
  have htext : (guidText c.vendor)[i]? = some b := hget
  obtain ⟨hlt, rfl⟩ := List.getElem?_eq_some_iff.1 htext
  have hshape := separator_guidText c.vendor (hlt.trans_eq (length_guidText c.vendor))
  rwa [List.getD_eq_getElem _ _ hlt] at hshape

/-- In every interleaving the handlers touch bytes of the arrays only, each character of a line is
at its place in the text of a call of the run, and a vendor has its hyphens. In an interleaving in
which no handler stores while another one is under way, the variable of its call is read back from
each line. -/
theorem lines_law (acts : List (T × Act)) :
    Throughout (step prog) (fun s => ∀ t,
        (∀ h ∈ (s.locals t).handler, ∀ x ∈ h.2.touches, 0 ≤ x.2 ∧ x.2 < x.1.size) ∧
        ∀ l ∈ (s.locals t).lines, Mixed (Entered acts) .efiName l.name ∧
          Mixed (Entered acts) .vendorGuid l.vendor ∧
          ∀ i b, l.vendor[i]? = some b →
            separator b = if i ∈ [8, 13, 18, 23] then some 45 else none) initial acts ∧
      (Along (step prog) (Apart Alone) initial acts →
        Throughout (step prog) (fun s => ∀ t, ∀ l ∈ (s.locals t).lines,
          readLine l.call.probe l.text =
            (cString (lowBytes l.call.name.chars), some (List.ofFn l.call.vendor)))
          initial acts) := by
  constructor
  · intro pre post s hacts hs t
    have hcpu := (safe_run acts pre post s hacts hs).2 t
    refine ⟨fun h hh x hx => hcpu.touches_mem hh hx, fun l hl => ?_⟩
    obtain ⟨hname, hvendor⟩ := hcpu.lines l hl
    exact ⟨hname, hvendor, fun i b hget => hvendor.separator hget⟩
  · intro halong pre post s hacts hs t l hl
    have hstart : Local (fun _ => True) (fun _ => Serves)
        (initial : Threads.State T Arrays Cpu) :=
      ⟨trivial, fun _ => ⟨by simp [initial], by simp [initial]⟩⟩
    have hinv := throughout_of_along serves_step acts hstart halong pre post s hacts hs
    exact ((hinv.2 t).lines l hl).read

/-- A machine with one CPU prints the variable `BootOrder`. -/
theorem lines_law_boot : Throughout (step prog) (fun s => ∀ t, ∀ l ∈ (s.locals t).lines,
      readLine l.call.probe l.text =
        (cString (lowBytes l.call.name.chars), some (List.ofFn l.call.vendor)))
    initial (((), .enter ⟨.virtEfiGetVariable, ⟨[66, 111, 111, 116, 79, 114, 100, 101, 114],
      by decide⟩, fun i => UInt8.ofNat i, by decide⟩) :: List.replicate 196 ((), .next)) :=
  (lines_law _).2 fun _ _ _ _ _ _ _ _ _ hu => absurd rfl hu

/-! ## A handler that is overtaken -/

omit [DecidableEq T]

/-- What a CPU does when it runs alone. -/
abbrev Solo (t : T) : Arrays × Cpu → Arrays × Cpu → Prop := Leads fun r a => prog t a r.1 r.2

theorem solo_stores (t : T) (c : Call) (lines : List Line) : ∀ (todo : List Store) (m : Arrays),
    Solo t (m, ⟨some (c, .store todo), lines⟩)
      (todo.foldl Store.apply m, ⟨some (c, .store []), lines⟩)
  | [], _ => .refl _
  | s :: todo, m => .head (a := .next) rfl (solo_stores t c lines todo (s.apply m))

theorem solo_enter (t : T) (c : Call) (lines : List Line) (m : Arrays) :
    Solo t (m, ⟨none, lines⟩) (c.stores.foldl Store.apply m, ⟨some (c, .store []), lines⟩) :=
  .head (a := .enter c) rfl (solo_stores t c lines c.stores m)

/-- A string is read up to its NUL, which is found if the arrays have the texts of some call. -/
theorem solo_read (t : T) (c : Call) {d : Call} (hd : Stored d m) (lines : List Line)
    (name : Option (List UInt8)) : ∀ (n : ℕ) {got : List UInt8}, Reads (d.text (source name)) got →
      (d.text (source name)).length ≤ got.length + n →
        m (source name) (cString (d.text (source name))).length = 0 ∧
        Solo t (m, ⟨some (c, .read name got), lines⟩)
          (m, ⟨some (c, .read name (cString (d.text (source name)))), lines⟩) := by
  intro n
  induction n with
  | zero =>
    intro got hgot hlen
    have hbyte := hd.at_length hgot
    have hnul := List.getD_eq_default (d.text (source name)) 0 hlen
    rw [← hgot.eq_cString hnul]
    exact ⟨hbyte.trans hnul, .refl _⟩
  | succ n ih =>
    intro got hgot hlen
    have hbyte := hd.at_length hgot
    by_cases hnul : (d.text (source name)).getD got.length 0 = 0
    · rw [← hgot.eq_cString hnul]
      exact ⟨hbyte.trans hnul, .refl _⟩
    · obtain ⟨hend, hrest⟩ := ih (hgot.concat hnul)
        (by rw [List.length_append, List.length_singleton]; omega)
      refine ⟨hend, .head (a := .next) ?_ hrest⟩
      rw [← hbyte] at hnul ⊢
      simp only [prog, Option.map_some, Cpu.next, if_pos hnul]

/-- `printk` prints what the arrays have, whosever call that is. -/
theorem solo_print (t : T) (c : Call) {d : Call} (hd : Stored d m) (lines : List Line) :
    Solo t (m, ⟨some (c, .store []), lines⟩) (m, ⟨none, lines ++
      [⟨c, cString (lowBytes d.name.chars), guidText d.vendor⟩]⟩) := by
  obtain ⟨hname, hreadName⟩ := solo_read t c hd lines none _ (reads_nil _) (Nat.le_add_left _ _)
  obtain ⟨hvendor, hreadVendor⟩ := solo_read t c hd lines (some (cString (d.text .efiName))) _
    (reads_nil _) (Nat.le_add_left _ _)
  rw [← cString_guidText]
  refine .head (a := .next) rfl (hreadName.trans (.head (a := .next) ?_
    (hreadVendor.trans (.head (a := .next) ?_ (.refl _)))))
  · simp only [prog, Option.map_some, Cpu.next, hname, ne_eq, not_true_eq_false, if_false]
    rfl
  · simp only [prog, Option.map_some, Cpu.next, hvendor, ne_eq, not_true_eq_false, if_false]
    rfl

/-- At any time two CPUs can come into handlers so that one of them prints the variable of the
other. -/
theorem overtaken [DecidableEq T] {u : T} {s : Threads.State T Arrays Cpu} (htu : t ≠ u)
    (ht : (s.locals t).handler = none) (hu : (s.locals u).handler = none) (c d : Call) :
    ∃ s', Leads (step prog) s s' ∧ (s'.locals t).lines = (s.locals t).lines ++
      [⟨c, cString (lowBytes d.name.chars), guidText d.vendor⟩] := by
  have hidle : ∀ v, (s.locals v).handler = none → s.locals v = ⟨none, (s.locals v).lines⟩ :=
    fun v hv => by rw [← hv]
  -- `t` makes its stores, then `u`, and then `t` goes on
  obtain ⟨s₁, h₁, -, ht₁, hsame₁⟩ := leads_alone (hidle t ht) (solo_enter t c _ s.shared)
  have hu₁ : s₁.locals u = ⟨none, (s.locals u).lines⟩ := by rw [hsame₁ u htu.symm, ← hidle u hu]
  obtain ⟨s₂, h₂, hm₂, -, hsame₂⟩ := leads_alone hu₁ (solo_enter u d _ s₁.shared)
  have hstored : Stored d s₂.shared := by
    rw [hm₂]
    exact stored_stores d _
  have ht₂ := (hsame₂ t htu).trans ht₁
  obtain ⟨s₃, h₃, -, ht₃, -⟩ := leads_alone ht₂ (solo_print t c hstored (s.locals t).lines)
  exact ⟨s₃, (h₁.trans h₂).trans h₃, by rw [ht₃]⟩

/-- One CPU prints the variable `C` of the other one for its variable `B`. -/
theorem overtaken_pair : ∃ s', Leads (step prog) (initial : Threads.State Bool Arrays Cpu) s' ∧
    (s'.locals true).lines = [⟨⟨.virtEfiGetVariable, ⟨[66], by decide⟩, fun _ => 0, by decide⟩,
      [67], guidText fun _ => 1⟩] :=
  overtaken (t := true) (u := false) (by decide) rfl rfl _
    ⟨.virtEfiSetVariable, ⟨[67], by decide⟩, fun _ => 1, by decide⟩

/-! ## The end of a handler -/

/-- An upper bound for the steps that are left. -/
def Stage.rank : Stage → ℕ
  | .store todo => todo.length + 1 + (Var.efiName.size + Var.vendorGuid.size)
  | .read none got => Var.efiName.size - got.length + Var.vendorGuid.size
  | .read (some _) got => Var.vendorGuid.size - got.length

def Cpu.rank (cpu : Cpu) : ℕ :=
  match cpu.handler with
  | none => 0
  | some h => h.2.rank

theorem length_storesTo_clear (v : Var) (size : ℕ) :
    (storesTo v (Writer.clear size)).length = size := by
  simp [storesTo, Writer.clear, Write.cells]

theorem length_storesTo_put (v : Var) (w : Writer UInt8) (b : UInt8) :
    (storesTo v (w.put b)).length = (storesTo v w).length + 1 := by
  simp [storesTo, Writer.put, Write.cells]

theorem length_storesTo_print (v : Var) (w : Writer UInt8) (t : List UInt8) :
    (storesTo v (w.print t)).length = (storesTo v w).length + (t.length + 1) := by
  simp [storesTo, Writer.print, storeList, Write.cells]

theorem length_storesTo_foldl_put (v : Var) : ∀ (t : List UInt8) (w : Writer UInt8),
    (storesTo v (t.foldl Writer.put w)).length = (storesTo v w).length + t.length
  | [], _ => rfl
  | b :: t, w => by
    rw [List.foldl_cons, length_storesTo_foldl_put v t, length_storesTo_put, List.length_cons]
    omega

/-- 50 bytes are cleared and up to 49 are stored for the name, and 37 and 52 for the vendor. -/
theorem length_stores_le (c : Call) : c.stores.length ≤ 188 := by
  have hroom := c.room
  have hname : (storesTo .efiName (setEfiName c.name.chars)).length = 50 + c.name.chars.length := by
    rw [setEfiName_eq, length_storesTo_foldl_put, length_lowBytes]
    exact congrArg (· + _) (length_storesTo_clear _ 50)
  have hvendor : (storesTo .vendorGuid (setGuid c.vendor)).length = 89 := by
    have hclear : (storesTo .vendorGuid (Writer.clear 37)).length = 37 :=
      length_storesTo_clear _ 37
    simp only [setGuid, List.foldl_cons, List.foldl_nil, printByte, length_storesTo_print,
      length_storesTo_put, length_hexByte]
    omega
  rw [Call.stores, List.length_append, hname, hvendor]
  omega

theorem Safe.rank_le (hcpu : Safe P cpu) : cpu.rank ≤ 276 := by
  unfold Cpu.rank
  split
  · omega
  · rename_i h hh
    obtain ⟨-, hstage⟩ := hcpu.handler h.1 h.2 hh
    have hstores := length_stores_le h.1
    match hstage' : h.2 with
    | .store todo =>
      rw [hstage'] at hstage
      have hlen := hstage.length_le
      simp only [Stage.rank, Var.size]
      omega
    | .read none got =>
      simp only [Stage.rank, Var.size]
      omega
    | .read (some _) got =>
      simp only [Stage.rank, Var.size]
      omega

/-- The strings end inside the arrays. -/
theorem rank_moves (hcpu : Safe P cpu) (h : Moves .next m cpu m' cpu') :
    cpu'.rank + 1 ≤ cpu.rank := by
  cases h with
  | store => simp only [Cpu.rank, Stage.rank, List.length_cons]; omega
  | print => simp only [Cpu.rank, Stage.rank, List.length_nil]; omega
  | @char m c name got lines =>
    obtain ⟨-, -, hgot⟩ := hcpu.handler _ _ rfl
    have hlt := hgot.length_lt
    cases name with
    | none =>
      simp only [Cpu.rank, Stage.rank, List.length_append, List.length_singleton, source] at hlt ⊢
      omega
    | some name =>
      simp only [Cpu.rank, Stage.rank, List.length_append, List.length_singleton, source] at hlt ⊢
      omega
  | name =>
    obtain ⟨-, -, hgot⟩ := hcpu.handler _ _ rfl
    have hlt := hgot.length_lt
    simp only [Cpu.rank, Stage.rank, List.length_nil, source] at hlt ⊢
    omega
  | line =>
    obtain ⟨-, -, hgot⟩ := hcpu.handler _ _ rfl
    have hlt := hgot.length_lt
    simp only [Cpu.rank, Stage.rank, source] at hlt ⊢
    omega

/-- The steps of a CPU in a run in which it enters no handler. -/
theorem length_filter_add_rank_le [DecidableEq T] (t : T) : ∀ (acts : List (T × Act))
    {s s' : Threads.State T Arrays Cpu},
      Local (Mixture fun _ => True) (fun _ _ => Safe fun _ => True) s →
        runFrom (step prog) s acts = some s' → (∀ c, (t, .enter c) ∉ acts) →
          (acts.filter fun a => a.1 = t).length + (s'.locals t).rank ≤ (s.locals t).rank
  | [], s, s', _, h, _ => by
    cases h
    simp
  | (u, a) :: acts, s, s', hs, h, hsame => by
    obtain ⟨s₁, h₁, h⟩ := Option.bind_eq_some_iff.1 h
    obtain ⟨hprog, hothers⟩ := step_cases h₁
    have ih := length_filter_add_rank_le t acts (safe_step hs (fun _ _ => trivial) h₁) h
      fun c hc => hsame c (List.mem_cons_of_mem _ hc)
    by_cases hu : u = t
    · subst hu
      cases a with
      | enter c => exact absurd List.mem_cons_self (hsame c)
      | next =>
        have hrank := rank_moves (hs.2 u) (moves_of_prog hprog)
        rw [List.filter_cons_of_pos (by simp), List.length_cons]
        omega
    · rw [List.filter_cons_of_neg (by simpa using hu), ← hothers t (Ne.symm hu)]
      exact ih

/-- From any state of any run on, a CPU takes at most 276 steps before its handler is over,
whatever the others do. -/
theorem handlers_end [DecidableEq T] (acts : List (T × Act)) :
    Throughout (step prog) (fun s => ∀ t acts' s', runFrom (step prog) s acts' = some s' →
        (∀ c, (t, .enter c) ∉ acts') → (acts'.filter fun a => a.1 = t).length ≤ 276)
      initial acts := by
  intro pre post s hacts hs t acts' s' h hsame
  have hsafe := throughout_of_step (fun s a s' hs h => safe_step hs (fun _ _ => trivial) h) acts
    (safe_initial fun _ => True) pre post s hacts hs
  have hle := length_filter_add_rank_le t acts' hsafe h hsame
  have hrank := (hsafe.2 t).rank_le
  omega

end Race

end KernelExamples.EfiRace
