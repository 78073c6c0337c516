import KernelExamples.Buffer
import KernelExamples.Kernel
import Mathlib.Data.UInt

/-!
# The name that `myopen` prints

`myopen` of `syscalls/mysyscalls.c` copies 255 bytes from the address of the file name to an array
of 256 bytes on its stack and prints the array as a string, but stores no NUL in its last byte. So
a name of 255 characters or more is read up to the byte that was on the stack there, and past the
array if this is no NUL. `open_name_iff` says when the name is printed, and when the bytes that are
read are in the array.
-/

namespace KernelExamples.OpenName

open Mem Buffer Traces

/-- What is at the address of a file name : its text, a NUL, and anything. -/
structure FileName where
  memory : Bytes
  text : List UInt8
  isString : IsString memory text

/-- `tmpname` after the copy. Before it the array has what was on the stack. -/
def tmpname (stack filename : Bytes) (fault : ℕ) : Bytes := copyFromUser stack 0 filename 255 fault

variable {stack filename : Bytes} {name : List UInt8} {fault i : ℕ}

theorem copied_eq (fault : ℕ) : 255 - uncopied fault 255 = (255 - fault : ℕ) := by
  unfold uncopied
  omega

theorem tmpname_copied (h : i < 255 - fault) : tmpname stack filename fault i = filename i := by
  unfold tmpname copyFromUser
  rw [copied_eq, memcpy_of_not_mem (by omega), memcpy_of_mem (by omega) (by omega)]
  congr 1
  omega

theorem tmpname_cleared (h : 255 - fault ≤ i) (hi : i < 255) :
    tmpname stack filename fault i = 0 := by
  have hcopied := copied_eq fault
  unfold tmpname copyFromUser
  rw [memcpy_of_mem (by omega) (by omega)]

theorem tmpname_last : tmpname stack filename fault (255 : ℕ) = stack 255 := by
  have hcopied := copied_eq fault
  have hle := uncopied_le fault 255
  unfold tmpname copyFromUser
  rw [memcpy_of_not_mem (by omega), memcpy_of_not_mem (by omega)]
  rfl

/-- The array has the name if its characters are copied and a NUL follows. -/
theorem isString_tmpname_iff (h : IsString filename name) :
    IsString (tmpname stack filename fault) name ∧ name.length < 256 ↔
      name.length < 255 ∧ name.length ≤ 255 - fault ∨
        name.length = 255 ∧ fault = 0 ∧ stack 255 = 0 := by
  constructor
  · rintro ⟨hstring, hlt⟩
    -- a byte that was cleared is no character of the name
    have hcopied : name.length ≤ 255 - fault := by
      by_contra hgt
      exact hstring.ne_zero (i := 255 - fault) (by omega) (tmpname_cleared le_rfl (by omega))
    rcases Nat.lt_or_ge name.length 255 with hshort | hlong
    · exact .inl ⟨hshort, hcopied⟩
    · have hlen : name.length = 255 := by omega
      have hnul := hstring.nul
      rw [hlen, tmpname_last] at hnul
      exact .inr ⟨hlen, by omega, hnul⟩
  · intro hfits
    have hcopied : name.length ≤ 255 - fault := by omega
    refine ⟨⟨fun i hi => ?_, h.nul_free, ?_⟩, by omega⟩
    · rw [tmpname_copied (by omega)]
      exact h.cell i hi
    · obtain ⟨hlt, -⟩ | ⟨hlen, -, hstack⟩ := hfits
      · rcases Nat.lt_or_ge name.length (255 - fault) with hread | hcleared
        · rw [tmpname_copied hread]
          exact h.nul
        · exact tmpname_cleared hcleared hlt
      · rw [hlen, tmpname_last]
        exact hstack

/-- The array has a NUL. -/
theorem exists_nul_iff (h : IsString filename name) :
    (∃ k : ℕ, k < 256 ∧ tmpname stack filename fault k = 0) ↔
      name.length < 255 ∨ 0 < fault ∨ stack 255 = 0 := by
  constructor
  · rintro ⟨k, hk, hnul⟩
    rcases Nat.lt_or_ge k (255 - fault) with hcopied | hcleared
    · rw [tmpname_copied hcopied] at hnul
      have hle : name.length ≤ k := by
        by_contra hgt
        exact h.ne_zero (by omega) hnul
      exact .inl (by omega)
    · rcases Nat.lt_or_ge k 255 with hlt | hge
      · exact .inr (.inl (by omega))
      · obtain rfl : k = 255 := by omega
        rw [tmpname_last] at hnul
        exact .inr (.inr hnul)
  · rintro (hlt | hfault | hstack)
    · rcases Nat.lt_or_ge name.length (255 - fault) with hcopied | hcleared
      · refine ⟨name.length, by omega, ?_⟩
        rw [tmpname_copied hcopied]
        exact h.nul
      · exact ⟨name.length, by omega, tmpname_cleared hcleared hlt⟩
    · exact ⟨254, by decide, tmpname_cleared (by omega) (by decide)⟩
    · exact ⟨255, by decide, tmpname_last.trans hstack⟩

/-- For every file name, fault and stack : when the name is printed from bytes of the array, and
when all bytes that are read are in it. -/
theorem open_name_iff (stack : Bytes) (name : FileName) (fault : ℕ) :
    (Halts (readChar (tmpname stack name.memory fault)) (0, []) (name.text.length, name.text) ∧
        name.text.length < 256 ↔
      name.text.length < 255 ∧ name.text.length ≤ 255 - fault ∨
        name.text.length = 255 ∧ fault = 0 ∧ stack 255 = 0) ∧
    ((∃ n text, Halts (readChar (tmpname stack name.memory fault)) (0, []) (n, text) ∧ n < 256) ↔
      name.text.length < 255 ∨ 0 < fault ∨ stack 255 = 0) := by
  constructor
  · rw [halts_readChar_iff, ← isString_tmpname_iff name.isString]
    simp
  · rw [← exists_nul_iff name.isString]
    constructor
    · rintro ⟨n, text, hhalts, hlt⟩
      obtain ⟨rfl, hstring⟩ := halts_readChar_iff.1 hhalts
      exact ⟨text.length, by exact_mod_cast hlt, hstring.nul⟩
    · rintro ⟨k, hk, hnul⟩
      obtain ⟨text, hstring, hle⟩ := exists_isString hnul
      exact ⟨text.length, text, halts_readChar_iff.2 ⟨rfl, hstring⟩, by omega⟩

end KernelExamples.OpenName
