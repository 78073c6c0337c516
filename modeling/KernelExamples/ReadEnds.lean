import KernelExamples.Snapshot

/-!
# A reader gets to the end

A reader of a proc node who reads until it gets `0`, from any offset, with any buffers and
faults, while others write. The text may be another one at every call, so the rest of the text
is no measure. But a call that returns more than `0` moves the offset forward, to one past the
text (`procRead_moves`), and no text of an `int` has more than 12 bytes. So the reader gets `0`
by its 14th call (`read_ends`).
-/

namespace KernelExamples.ReadEnds

open Text Proc Snapshot

/-- A step of somebody else, or a call of the reader. -/
inductive Act (W : Type)
  | write (w : W)
  | read (len fault : ℕ)

variable {S W : Type}

/-- The calls of the reader from `offset` : the offset before each of them, and its result. -/
def calls (d : Node S W) : S → ℤ → List (Act W) → List (ℤ × ReadResult)
  | _, _, [] => []
  | s, offset, .write w :: acts => calls d (d.write s w) offset acts
  | s, offset, .read len fault :: acts =>
    (offset, d.read s len offset fault) ::
      calls d s (d.read s len offset fault).offset acts

/-- A read with a local array of `size` bytes : the text and its NUL fit the array, a call that
returns a count moves the offset forward and not past 13, and 14 calls are enough to
get `0`. -/
structure Ends (d : Node S W) (size : ℕ) (s : S) (offset : ℤ) (acts : List (Act W)) : Prop where
  fits : ∀ s, (line (d.value s)).length + 1 ≤ size
  moves : ∀ c ∈ calls d s offset acts, c.2.ret ≠ 0 → c.1 < c.2.offset ∧ c.2.offset ≤ 13
  ends : 13 < (calls d s offset acts).length → ∃ c ∈ calls d s offset acts, c.2.ret = 0

/-- A call moves the offset past the text, or returns `0` and leaves it. -/
theorem procRead_cases (v : Int32) (len fault : ℕ) {offset : ℤ} (h : 0 ≤ offset)
    (h' : offset < 2 ^ 63) :
    procRead (line v) len offset fault = ⟨0, offset, [], 0⟩ ∨
      offset ≤ (line v).length ∧
        (procRead (line v) len offset fault).offset = (line v).length + 1 := by
  rw [procRead, CInt.uint64_of_mem h (by omega)]
  by_cases hend : ((line v).length : ℤ) < offset
  · exact .inl (if_pos hend)
  · rw [if_neg hend]
    exact .inr ⟨by omega, rfl⟩

section Call

variable (v : Int32) (len fault : ℕ) {offset : ℤ} (h : 0 ≤ offset) (h' : offset < 2 ^ 63)

include h h'

theorem procRead_moves (hret : (procRead (line v) len offset fault).ret ≠ 0) :
    offset < (procRead (line v) len offset fault).offset ∧
      (procRead (line v) len offset fault).offset ≤ 13 := by
  have hline := length_line_le v
  rcases procRead_cases v len fault h h' with heq | ⟨hle, hoffset⟩
  · rw [heq] at hret
    exact absurd rfl hret
  · rw [hoffset]
    omega

theorem procRead_offset_mem : 0 ≤ (procRead (line v) len offset fault).offset ∧
    (procRead (line v) len offset fault).offset < 2 ^ 63 := by
  have hline := length_line_le v
  rcases procRead_cases v len fault h h' with heq | ⟨-, hoffset⟩
  · rw [heq]
    exact ⟨h, h'⟩
  · rw [hoffset]
    omega

end Call

section Reader

variable {d : Node S W} (hd : ∀ s, d.read s = procRead (line (d.value s)))

include hd

theorem calls_move : ∀ (acts : List (Act W)) (s : S) {offset : ℤ}, 0 ≤ offset →
    offset < 2 ^ 63 → ∀ c ∈ calls d s offset acts, c.2.ret ≠ 0 →
      c.1 < c.2.offset ∧ c.2.offset ≤ 13
  | [], _, _, _, _, c, hc => by simp [calls] at hc
  | .write w :: acts, s, _, h, h', c, hc => calls_move acts (d.write s w) h h' c hc
  | .read len fault :: acts, s, offset, h, h', c, hc => by
    rw [calls, hd, List.mem_cons] at hc
    rcases hc with rfl | hc
    · exact procRead_moves (d.value s) len fault h h'
    · obtain ⟨hnext, hnext'⟩ := procRead_offset_mem (d.value s) len fault h h'
      exact calls_move acts s hnext hnext' c hc

/-- As long as no call returns `0`, there are no more calls than steps up to 13. -/
theorem length_calls_le : ∀ (acts : List (Act W)) (s : S) {offset : ℤ}, 0 ≤ offset →
    offset < 2 ^ 63 → (∀ c ∈ calls d s offset acts, c.2.ret ≠ 0) →
      ((calls d s offset acts).length : ℤ) ≤ max 0 (13 - offset)
  | [], _, _, _, _, _ => by simp [calls]
  | .write w :: acts, s, _, h, h', hret => length_calls_le acts (d.write s w) h h' hret
  | .read len fault :: acts, s, offset, h, h', hret => by
    rw [calls, hd] at hret ⊢
    obtain ⟨hfirst, hrest⟩ := List.forall_mem_cons.1 hret
    obtain ⟨hnext, hnext'⟩ := procRead_offset_mem (d.value s) len fault h h'
    obtain ⟨hlt, hle⟩ := procRead_moves (d.value s) len fault h h' hfirst
    have ih := length_calls_le acts s hnext hnext' hrest
    rw [List.length_cons]
    push_cast
    omega

theorem ends_of_reads {size : ℕ} (hsize : 13 ≤ size) (s : S) (offset : FilePos)
    (acts : List (Act W)) : Ends d size s offset.val acts := by
  refine ⟨fun s => ?_, calls_move hd acts s offset.nonneg offset.lt, fun hlong => ?_⟩
  · have := length_line_le (d.value s)
    omega
  · by_contra hnone
    push Not at hnone
    have hnonneg := offset.nonneg
    have := length_calls_le hd acts s offset.nonneg offset.lt hnone
    omega

end Reader

/-- From every offset and in every interleaving, with all buffer sizes and faults, a reader of
`my_proc`, `my_new_proc` or `sig_proc` comes to the end. The local arrays have 20, 20 and 1024
bytes. -/
theorem read_ends (offset : FilePos) (param : Int32) (acts : List (Act WriteCall))
    (node₁ : MyNewProc.Node) (s₁ : MyNewProc.Params)
    (acts₁ : List (Act (MyNewProc.Node × WriteCall)))
    (node₂ : SigProc.Node) (s₂ : SigProc.State) (acts₂ : List (Act SigProc.Act)) :
    Ends myProc 20 param offset.val acts ∧
      Ends (myNewProc node₁) 20 s₁ offset.val acts₁ ∧
      Ends (sigProc node₂) 1024 s₂ offset.val acts₂ := by
  refine ⟨ends_of_reads (fun _ => rfl) (by decide) param offset acts,
    ends_of_reads (fun _ => rfl) (by decide) s₁ offset acts₁,
    ends_of_reads (fun s => ?_) (by decide) s₂ offset acts₂⟩
  cases node₂ <;> rfl

end KernelExamples.ReadEnds
