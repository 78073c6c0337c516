import KernelExamples.Proc
import KernelExamples.Threads

/-!
# A parameter in sysfs

`filesystem/my_sysfs.c`. `foo_show` writes the parameter as a line of decimal text, and
`foo_store` reads a number into it. Between them and the users is sysfs, which is not part of
the module. It is a parameter here (`Sysfs`), with what its documentation says of it
(`Documented`) : a page for each open file, which `foo_show` fills at the first read and whenever
the offset is `0`, partial reads and seeks on that page, and a NUL after the bytes that are handed
to `foo_store`. After a write `foo_show` is called again.

A step is one call on one file, in any order. `got` is what a reader has since it opened the file,
set its offset or wrote, and `history` all values the parameter has had.

Unlike the proc nodes of `my_proc`, a reader that starts at offset `0` and reads to the end has
the line of one value, whatever sizes it reads and whatever is written in between, and `sscanf`
never looks past the NUL (`sysfs_law`).
-/

namespace KernelExamples.SysFs

open Text Proc Traces Threads

/-! ## The source -/

/-- The parameter and all it has been, the texts given to `foo_store`, and how many bytes `sscanf`
looked at of how many. -/
structure Shared where
  foo : Int32
  history : List Int32
  stored : List (List UInt8)
  looked : List (ℕ × ℕ)

/-- The text that `sprintf` puts in `buf`. -/
def fooShow (g : Shared) : List UInt8 := line g.foo

/-- `buf` is the page, with `count` bytes and a NUL at its start. -/
def fooStore (g : Shared) (buf : List UInt8) (count : ℕ) : Shared × ℕ :=
  let foo := (scanInt buf).getD g.foo
  ({ foo := foo
     history := g.history ++ [foo]
     stored := g.stored ++ [buf.take (count + 1)]
     looked := g.looked ++ [(scanned buf, count + 1)] }, count)

/-! ## The kernel's side -/

/-- What sysfs does with an open file of the attribute. `read` is given the text that `foo_show`
would put on the page now. `write` is given the user's bytes and how many of them cannot be
copied, and gives what `foo_store` is called with, if it is. -/
structure Sysfs (F : Type*) where
  opened : F
  pos : F → ℕ
  read : F → List UInt8 → ℕ → F × List UInt8
  lseek : F → ℕ → F
  write : F → List UInt8 → ℕ → F × Option (List UInt8 × ℕ)

/-- The documented behaviour of sysfs. `shown f` is the text on the page of the file, or `none` if
the next read is to fill it. -/
structure Documented {F : Type*} (A : Arch) (K : Sysfs F) (shown : F → Option (List UInt8)) :
    Prop where
  opened : shown K.opened = none
  /-- The first read fills the page, and one at offset `0` fills it again. -/
  fills : ∀ f text n, (text.length : ℤ) < A.pageSize → shown f = none ∨ K.pos f = 0 →
    shown (K.read f text n).1 = some text
  keeps : ∀ f text n t, shown f = some t → K.pos f ≠ 0 → shown (K.read f text n).1 = some t
  /-- A read may be for a part of the page. -/
  slices : ∀ f text n t, shown (K.read f text n).1 = some t →
    (K.read f text n).2 = (t.drop (K.pos f)).take n ∧
      K.pos (K.read f text n).1 = K.pos f + (K.read f text n).2.length
  seeks : ∀ f offset, K.pos (K.lseek f offset) = offset ∧ shown (K.lseek f offset) = shown f
  /-- Writing has the page filled again, whatever the offset is. -/
  rearms : ∀ f text fault, shown (K.write f text fault).1 = none
  /-- A terminating NUL is added after the data on stores. -/
  terminates : ∀ f text fault buf count, (K.write f text fault).2 = some (buf, count) →
    count ≤ text.length ∧ ∃ after, buf = text.take count ++ 0 :: after

/-- A reader : the file, the offset it started at, what it got from there, and whether it was told
that this is the end. -/
structure Reader (F : Type*) where
  file : F
  start : ℕ
  got : List UInt8
  atEnd : Bool

/-- A call. -/
inductive Act
  | openFile
  | read (n : ℕ)
  | lseek (offset : ℕ)
  | write (text : List UInt8) (fault : ℕ)
  | release

variable {T F : Type*} (A : Arch) (K : Sysfs F)

/-- A reader that starts where the file is. -/
def Reader.fresh (f : F) : Reader F := ⟨f, K.pos f, [], false⟩

/-- One call on a file. -/
def prog (_ : T) : Act → Shared → Option (Reader F) → Option (Shared × Option (Reader F))
  | .openFile, g, none => some (g, some (.fresh K K.opened))
  | .read n, g, some r =>
    let res := K.read r.file (fooShow g) n
    some (g, some ⟨res.1, r.start, r.got ++ res.2, decide (0 < n ∧ res.2 = [])⟩)
  | .lseek offset, g, some r => some (g, some (.fresh K (K.lseek r.file offset)))
  | .write text fault, g, some r =>
    let res := K.write r.file text fault
    let g' := match res.2 with
      | some (buf, count) => (fooStore g buf count).1
      | none => g
    some (g', some (.fresh K res.1))
  | .release, g, some _ => some (g, none)
  | _, _, _ => none

/-- The module as loaded, and no file open. -/
def initial : Threads.State T Shared (Option (Reader F)) := ⟨⟨0, [0], [], []⟩, fun _ => none⟩

/-! ## The invariant -/

/-- The values came from texts, and `sscanf` stayed inside them. -/
structure Sourced (g : Shared) : Prop where
  foo : g.foo ∈ g.history
  history : ∀ v ∈ g.history, v = 0 ∨ ∃ text ∈ g.stored, scanInt text = some v
  looked : ∀ p ∈ g.looked, p.1 ≤ p.2

variable (shown : F → Option (List UInt8))

/-- The page shows the value `v`, and the reader has the part of its line between its start and
the offset, the rest of the line if it is at the end. -/
structure Showing (v : Int32) (r : Reader F) : Prop where
  page : shown r.file = some (line v)
  start : r.start ≤ K.pos r.file
  got : r.got = ((line v).take (K.pos r.file)).drop r.start
  atEnd : r.atEnd = true → (line v).length ≤ K.pos r.file

/-- The page is to be filled and nothing is read yet, or the page shows a value the parameter has
had. -/
def Reading (g : Shared) (r : Reader F) : Prop :=
  (shown r.file = none ∧ r = .fresh K r.file) ∨ ∃ v ∈ g.history, Showing K shown v r

/-- A file that is open is as it should be. -/
def Opened (_ : T) (g : Shared) (l : Option (Reader F)) : Prop := ∀ r ∈ l, Reading K shown g r

variable {A K shown} {t : T} {a : Act} {g g' : Shared} {r : Reader F} {l l' : Option (Reader F)}

/-- What is read next goes on where the reader is. -/
theorem take_drop_append (L : List UInt8) {start pos : ℕ} (h : start ≤ pos) (n : ℕ) :
    (L.take pos).drop start ++ (L.drop pos).take n =
      (L.take (pos + ((L.drop pos).take n).length)).drop start := by
  by_cases hpos : pos ≤ L.length
  · have hlen : start ≤ (L.take pos).length := by
      rw [List.length_take]
      omega
    have hnext : (L.drop pos).take n = (L.drop pos).take ((L.drop pos).take n).length := by
      rw [List.length_take, ← List.take_take, List.take_length]
    rw [List.take_add, List.drop_append_of_le_length hlen, ← hnext]
  · have hnil : L.drop pos = [] := List.drop_eq_nil_of_le (by omega)
    rw [hnil, List.take_nil, List.append_nil]
    rfl

/-- A reader that starts where the file is has nothing of the page. -/
theorem showing_fresh {v : Int32} {f : F} (h : shown f = some (line v)) :
    Showing K shown v (.fresh K f) :=
  ⟨h, le_rfl, (List.drop_eq_nil_of_le (List.length_take_le _ _)).symm, by simp [Reader.fresh]⟩

/-- What foo_show puts on the page fits it. -/
theorem length_fooShow_lt (A : Arch) (g : Shared) : ((fooShow g).length : ℤ) < A.pageSize := by
  have hline := length_line_le g.foo
  have hpage := A.le_pageSize
  unfold fooShow
  omega

section Kernel

variable (hK : Documented A K shown)

include hK

/-- A read of a page that shows `v`, once it is filled. -/
theorem showing_slice {v : Int32} {text : List UInt8} {n : ℕ}
    (hpage : shown (K.read r.file text n).1 = some (line v)) (hstart : r.start ≤ K.pos r.file)
    (hgot : r.got = ((line v).take (K.pos r.file)).drop r.start) :
    Showing K shown v ⟨(K.read r.file text n).1, r.start, r.got ++ (K.read r.file text n).2,
      decide (0 < n ∧ (K.read r.file text n).2 = [])⟩ := by
  obtain ⟨hbytes, hpos⟩ := hK.slices _ _ _ _ hpage
  refine ⟨hpage, ?_, ?_, fun hend => ?_⟩
  · rw [hpos]
    exact hstart.trans (Nat.le_add_right _ _)
  · rw [hpos, hgot, hbytes]
    exact take_drop_append (line v) hstart n
  · -- a read of some bytes gave none
    obtain ⟨hn, hnil⟩ := of_decide_eq_true hend
    rw [hbytes] at hnil
    have hlen := congrArg List.length hnil
    rw [List.length_take, List.length_drop, List.length_nil] at hlen
    dsimp only
    omega

theorem reading_read (hg : Sourced g) (hr : Reading K shown g r) (n : ℕ) :
    Reading K shown g ⟨(K.read r.file (fooShow g) n).1, r.start,
      r.got ++ (K.read r.file (fooShow g) n).2,
      decide (0 < n ∧ (K.read r.file (fooShow g) n).2 = [])⟩ := by
  right
  have hfills := hK.fills r.file (fooShow g) n (length_fooShow_lt A g)
  rcases hr with ⟨hnone, hfresh⟩ | ⟨v, hv, hshow⟩
  · refine ⟨g.foo, hg.foo, showing_slice hK (hfills (.inl hnone)) ?_ ?_⟩
    · rw [hfresh]
      exact le_rfl
    · rw [hfresh]
      exact (List.drop_eq_nil_of_le (List.length_take_le _ _)).symm
  · by_cases hpos : K.pos r.file = 0
    · -- the page may get another value, of which the reader has nothing
      refine ⟨g.foo, hg.foo, showing_slice hK (hfills (.inr hpos)) hshow.start ?_⟩
      rw [hshow.got, hpos]
      simp
    · exact ⟨v, hv, showing_slice hK (hK.keeps _ _ _ _ hshow.page hpos) hshow.start hshow.got⟩

theorem reading_lseek (hr : Reading K shown g r) (offset : ℕ) :
    Reading K shown g (.fresh K (K.lseek r.file offset)) := by
  have hshown := (hK.seeks r.file offset).2
  rcases hr with ⟨hnone, -⟩ | ⟨v, hv, hshow⟩
  · exact .inl ⟨hshown.trans hnone, rfl⟩
  · exact .inr ⟨v, hv, showing_fresh (hshown.trans hshow.page)⟩

omit hK in
/-- What the parameter has been is not forgotten. -/
theorem reading_of_subset (hr : Reading K shown g r) (h : g.history ⊆ g'.history) :
    Reading K shown g' r := by
  rcases hr with hfresh | ⟨v, hv, hshow⟩
  · exact .inl hfresh
  · exact .inr ⟨v, h hv, hshow⟩

omit hK in
/-- The NUL after the text ends the number, whatever is on the page after it. -/
theorem sourced_fooStore (hg : Sourced g) (text after : List UInt8) :
    Sourced (fooStore g (text ++ 0 :: after) text.length).1 := by
  have hends : Ends (text ++ [0]) := ends_of_nul (by simp)
  have hbuf : text ++ 0 :: after = (text ++ [0]) ++ after := by simp
  have hlen : (text ++ [0]).length = text.length + 1 := by simp
  have hscan : scanInt (text ++ 0 :: after) = scanInt (text ++ [0]) := by
    rw [hbuf]
    exact scanInt_append hends _
  have htake : (text ++ 0 :: after).take (text.length + 1) = text ++ [0] := by
    rw [hbuf, List.take_left' hlen]
  have hlooked : scanned (text ++ 0 :: after) ≤ text.length + 1 := by
    rw [hbuf, ← hlen]
    exact (scanned_le_iff (text ++ [0])).2 hends _
  have hold : ∀ v ∈ g.history, v = 0 ∨
      ∃ t ∈ (fooStore g (text ++ 0 :: after) text.length).1.stored, scanInt t = some v := by
    intro v hv
    refine (hg.history v hv).imp_right ?_
    rintro ⟨t, ht, hscan⟩
    exact ⟨t, List.mem_append_left _ ht, hscan⟩
  refine ⟨List.mem_append_right _ List.mem_cons_self, fun v hv => ?_, fun p hp => ?_⟩
  · rcases List.mem_append.1 hv with hv | hv
    · exact hold v hv
    · rw [List.mem_singleton.1 hv, hscan]
      cases hnumber : scanInt (text ++ [0]) with
      | none => exact hold g.foo hg.foo
      | some w =>
        exact .inr ⟨text ++ [0], List.mem_append_right _ (List.mem_singleton.2 htake.symm), hnumber⟩
  · rcases List.mem_append.1 hp with hp | hp
    · exact hg.looked p hp
    · rw [List.mem_singleton.1 hp]
      exact hlooked

/-- What a call of `foo_store` leaves, with what sysfs hands to it. -/
theorem stored_spec (hg : Sourced g) {f : F} {text buf : List UInt8} {fault count : ℕ}
    (h : (K.write f text fault).2 = some (buf, count)) : Sourced (fooStore g buf count).1 := by
  obtain ⟨hle, after, rfl⟩ := hK.terminates f text fault buf count h
  have hstore := sourced_fooStore hg (text.take count) after
  rwa [List.length_take, min_eq_left hle] at hstore

/-- What a call leaves of the parameter and of its file. -/
theorem prog_spec (hg : Sourced g) (hl : Opened K shown t g l)
    (h : prog K t a g l = some (g', l')) :
    Sourced g' ∧ g.history ⊆ g'.history ∧ Opened K shown t g' l' := by
  cases a with
  | openFile =>
    cases l <;> simp only [prog, reduceCtorEq] at h
    cases h
    refine ⟨hg, List.Subset.refl _, fun r hr => ?_⟩
    cases hr
    exact .inl ⟨hK.opened, rfl⟩
  | read n =>
    cases l <;> simp only [prog, reduceCtorEq] at h
    cases h
    refine ⟨hg, List.Subset.refl _, fun r hr => ?_⟩
    cases hr
    exact reading_read hK hg (hl _ rfl) n
  | lseek offset =>
    cases l <;> simp only [prog, reduceCtorEq] at h
    cases h
    refine ⟨hg, List.Subset.refl _, fun r hr => ?_⟩
    cases hr
    exact reading_lseek hK (hl _ rfl) offset
  | write text fault =>
    cases l <;> simp only [prog, reduceCtorEq] at h
    cases h
    have hfresh : ∀ (f : F) (g : Shared),
        Opened K shown t g (some (.fresh K (K.write f text fault).1)) := fun f g r hr => by
      cases hr
      exact .inl ⟨hK.rearms f text fault, rfl⟩
    cases hstore : (K.write _ text fault).2 with
    | none => exact ⟨hg, List.Subset.refl _, hfresh _ _⟩
    | some p => exact ⟨stored_spec hK hg hstore, List.subset_append_left _ _, hfresh _ _⟩
  | release =>
    cases l <;> simp only [prog, reduceCtorEq] at h
    cases h
    exact ⟨hg, List.Subset.refl _, fun r hr => by cases hr⟩

end Kernel

/-! ## Runs -/

/-- A reader that started at offset `0` and is at the end. -/
def Reader.Complete (r : Reader F) : Prop := r.start = 0 ∧ r.atEnd = true

theorem scanInt_line (v : Int32) : scanInt (line v) = some v := by
  have h : scanInt ([] ++ decimal v ++ [10]) = some v := scanInt_decimal (by simp) v rfl []
  rwa [List.nil_append] at h

/-- A complete reader has the line of a value the parameter has had. -/
theorem got_of_complete (hr : Reading K shown g r) (hcomplete : r.Complete) :
    ∃ v ∈ g.history, r.got = line v := by
  obtain ⟨hstart, hend⟩ := hcomplete
  rcases hr with ⟨-, hfresh⟩ | ⟨v, hv, hshow⟩
  · rw [hfresh] at hend
    cases hend
  · refine ⟨v, hv, ?_⟩
    rw [hshow.got, hstart, List.drop_zero, List.take_of_length_le (hshow.atEnd hend)]

/-- Every complete reader has the line of one value that the parameter has had, and its number is
that value. Every such value is `0` or the number of a text given to `foo_store`, and `sscanf`
looked at no byte past the NUL of a text. -/
structure Law (s : Threads.State T Shared (Option (Reader F))) : Prop where
  complete : ∀ t, ∀ r ∈ s.locals t, r.Complete →
    ∃ v ∈ s.shared.history, r.got = line v ∧ scanInt r.got = some v
  history : ∀ v ∈ s.shared.history, v = 0 ∨ ∃ text ∈ s.shared.stored, scanInt text = some v
  looked : ∀ p ∈ s.shared.looked, p.1 ≤ p.2

variable [DecidableEq T]

theorem opened_step (hK : Documented A K shown) (s : Threads.State T Shared (Option (Reader F)))
    (a : T × Act) (s' : Threads.State T Shared (Option (Reader F)))
    (hs : Local Sourced (Opened K shown) s) (h : step (prog K) s a = some s') :
    Local Sourced (Opened K shown) s' := by
  refine local_step (fun t a g l g' l' hg hl h => ?_)
    (fun t a g l g' l' u k _ hg hl hk h r hr => ?_) s a s' hs h
  · obtain ⟨hg', -, hl'⟩ := prog_spec hK hg hl h
    exact ⟨hg', hl'⟩
  · exact reading_of_subset (hk r hr) (prog_spec hK hg hl h).2.1

/-- An offset, and the text on the page. -/
structure PageFile where
  pos : ℕ
  page : Option (List UInt8)

def pageSysfs : Sysfs PageFile where
  opened := ⟨0, none⟩
  pos := PageFile.pos
  read f text n :=
    let t := if f.pos = 0 then text else f.page.getD text
    (⟨f.pos + ((t.drop f.pos).take n).length, some t⟩, (t.drop f.pos).take n)
  lseek f offset := { f with pos := offset }
  write f text fault :=
    (⟨f.pos + text.length, none⟩, if fault = 0 then some (text ++ [0], text.length) else none)

theorem documented_pageSysfs (A : Arch) : Documented A pageSysfs PageFile.page where
  opened := rfl
  fills f text n _ h := by
    rcases h with h | (h : f.pos = 0) <;> simp [pageSysfs, h]
  keeps f text n t h hpos := by
    have hpos' : f.pos ≠ 0 := hpos
    simp [pageSysfs, h, hpos']
  slices f text n t h := by
    obtain rfl := Option.some.inj h
    exact ⟨rfl, rfl⟩
  seeks f offset := ⟨rfl, rfl⟩
  rearms f text fault := rfl
  terminates f text fault buf count h := by
    obtain ⟨-, h⟩ := Option.ite_none_right_eq_some.1 h
    cases h
    exact ⟨le_rfl, [], by rw [List.take_length]⟩

/-- Between the two reads of one file, `42` is stored through the other one. -/
def storeBetween : List (Bool × Act) :=
  [(false, .openFile), (false, .read 1), (true, .openFile), (true, .write [52, 50] 0),
    (false, .read 9), (false, .read 9)]

end KernelExamples.SysFs
