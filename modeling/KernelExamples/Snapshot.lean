import KernelExamples.ParamProc
import KernelExamples.SigProc

/-!
# One reader among writers

A reader of a proc node who starts at offset `0` and reads until it gets `0`, while others
write. `*offset` is left one past the text that was read, and the next call compares it
with the text as it is then : if that has become longer, the call gives the new text as
well. So the reader has one value exactly when at its second call the text is not longer
than at its first (`snapshot_iff_of_reads`).

The argument is the same for every driver : what the reader gets depends only on the
values the node shows at its calls (`got_eq`). `snapshot_iff` is that for `my_proc`,
`my_new_proc` and `sig_proc`.
-/

namespace KernelExamples.Snapshot

open Text Proc

/-! ## The reader -/

/-- A step of somebody else, or a call of the reader, with a buffer of at least 20 bytes. -/
inductive Act (W : Type)
  | write (w : W)
  | read (len : ℕ) (le_len : 20 ≤ len)

/-- A node : what others do, `my_proc_read`, and the parameter it shows. -/
structure Node (S W : Type) where
  write : S → W → S
  read : S → ℕ → ℤ → ℕ → ReadResult
  value : S → Int32

variable {S W : Type}

section Reader

variable (d : Node S W)

/-- The bytes the reader gets from `offset` on, once a call has returned `0`. -/
def got : S → ℤ → List (Act W) → Option (List UInt8)
  | _, _, [] => none
  | s, offset, .write w :: acts => got (d.write s w) offset acts
  | s, offset, .read len _ :: acts =>
    let r := d.read s len offset 0
    if r.ret = 0 then some []
    else (got s r.offset acts).map (r.stored.take r.ret.toNat ++ ·)

/-- The values the parameter holds during the run. -/
def held : S → List (Act W) → List Int32
  | s, [] => [d.value s]
  | s, .write w :: acts => d.value s :: held (d.write s w) acts
  | s, .read _ _ :: acts => held s acts

/-- The values the parameter has at the calls of the reader. -/
def shown : S → List (Act W) → List Int32
  | _, [] => []
  | s, .write w :: acts => shown (d.write s w) acts
  | s, .read _ _ :: acts => d.value s :: shown s acts

/-- The bytes are the text of one value that the parameter held. -/
def IsSnapshot (s : S) (acts : List (Act W)) (bytes : List UInt8) : Prop :=
  ∃ v ∈ held d s acts, bytes = line v

/-- At the reader's second call the text is not longer than at its first. -/
def NotLonger (s : S) (acts : List (Act W)) : Prop :=
  ∀ v₀ v₁ vs, shown d s acts = v₀ :: v₁ :: vs → (line v₁).length ≤ (line v₀).length

theorem value_mem_held : ∀ (s : S) (acts : List (Act W)), d.value s ∈ held d s acts
  | _, [] => List.mem_cons_self
  | _, .write _ :: _ => List.mem_cons_self
  | s, .read _ _ :: acts => value_mem_held s acts

theorem mem_held_of_mem_shown {v : Int32} : ∀ {s : S} {acts : List (Act W)},
    v ∈ shown d s acts → v ∈ held d s acts
  | _, [], h => absurd h List.not_mem_nil
  | _, .write _ :: _, h => List.mem_cons_of_mem _ (mem_held_of_mem_shown h)
  | s, .read _ _ :: acts, h => by
    rcases List.mem_cons.1 h with rfl | h
    · exact value_mem_held d s acts
    · rw [held]
      exact mem_held_of_mem_shown h

end Reader

/-! ## What it gets -/

/-- The bytes from the offset `k` on, when the calls find the values `vs`. -/
def gotOf : ℕ → List Int32 → Option (List UInt8)
  | _, [] => none
  | k, v :: vs =>
    if (line v).length < k then some []
    else (gotOf ((line v).length + 1) vs).map (line v ++ ·)

/-- A call at the offset `k` gives nothing if the text ends before `k`, else all of it. -/
theorem procRead_line (v : Int32) (len : ℕ) {k : ℕ} (hk : k < 2 ^ 32) :
    procRead (line v) len k 0 = if (line v).length < k then ⟨0, k, [], 0⟩
      else firstRead (line v) 0 := by
  have hlen := line_lt v
  have hzero := procRead_zero hlen len 0
  have hoffset : CInt.uint64 (k : ℤ) = k := CInt.uint64_of_mem (by omega) (by omega)
  rw [procRead, if_neg (by simp [CInt.uint64])] at hzero
  rw [procRead, hoffset]
  simp only [Nat.cast_lt]
  rw [hzero]

theorem one_lt_length_line (v : Int32) : 1 < (line v).length := by
  have hne : decimal v ≠ [] := by
    unfold decimal
    split_ifs
    · exact List.cons_ne_nil _ _
    · exact decimalNat_ne_nil _
  have := List.length_pos_iff.2 hne
  rw [line, List.length_append, List.length_singleton]
  omega

/-- What the reader gets depends only on the values its calls find. -/
theorem got_eq {d : Node S W} (hd : ∀ s, d.read s = procRead (line (d.value s))) :
    ∀ (acts : List (Act W)) (s : S) {k : ℕ}, k < 2 ^ 32 →
      got d s k acts = gotOf k (shown d s acts)
  | [], _, _, _ => rfl
  | .write w :: acts, s, _, hk => got_eq hd acts (d.write s w) hk
  | .read len _ :: acts, s, k, hk => by
    have hline := length_line_le (d.value s)
    have ih := got_eq hd acts s (k := (line (d.value s)).length + 1) (by omega)
    rw [Nat.cast_add, Nat.cast_one] at ih
    have hpos := one_lt_length_line (d.value s)
    rw [got, shown, gotOf, hd, procRead_line _ _ hk]
    by_cases h : (line (d.value s)).length < k
    · rw [if_pos h, if_pos h]
      rfl
    · have hret : line (d.value s) ≠ [] := List.ne_nil_of_length_pos (by omega)
      rw [if_neg h, if_neg h]
      simp [firstRead, hret, ih]

/-- A line has one newline. -/
theorem count_line (v : Int32) : (line v).count 10 = 1 := by
  have hdigits : ∀ n, (decimalNat n).count 10 = 0 := fun n =>
    List.count_eq_zero.2 fun h => absurd (isDigit_of_mem_decimalNat h) (by decide)
  have hdecimal : (decimal v).count 10 = 0 := by
    unfold decimal
    split_ifs
    · rw [List.count_cons_of_ne (by decide), hdigits]
    · exact hdigits _
  rw [line, List.count_append, hdecimal]
  rfl

/-- The reader has one value exactly when the text has not become longer at its second
call. -/
theorem snapshot_iff_of_reads {d : Node S W} (hd : ∀ s, d.read s = procRead (line (d.value s)))
    {s : S} {acts : List (Act W)} {bytes : List UInt8} (h : got d s 0 acts = some bytes) :
    IsSnapshot d s acts bytes ↔ NotLonger d s acts := by
  rw [← Nat.cast_zero, got_eq hd acts s (by decide)] at h
  unfold NotLonger
  match hshown : shown d s acts, h with
  | [v₀], h => simp [gotOf] at h
  | v₀ :: v₁ :: vs, h =>
    have hmem : v₀ ∈ held d s acts :=
      mem_held_of_mem_shown d (by rw [hshown]; exact List.mem_cons_self)
    rw [gotOf, if_neg (Nat.not_lt_zero _), gotOf, Option.map_eq_some_iff] at h
    obtain ⟨rest, hrest, rfl⟩ := h
    split_ifs at hrest with hlen
    · obtain rfl := Option.some.inj hrest
      refine iff_of_true ⟨v₀, hmem, List.append_nil _⟩ fun w₀ w₁ ws hw => ?_
      simp only [List.cons.injEq] at hw
      obtain ⟨rfl, rfl, -⟩ := hw
      omega
    · obtain ⟨more, -, rfl⟩ := Option.map_eq_some_iff.1 hrest
      refine iff_of_false ?_ fun hnot => hlen (Nat.lt_succ_of_le (hnot v₀ v₁ vs rfl))
      -- two texts have two newlines
      rintro ⟨v, -, hv⟩
      have hcount := congrArg (List.count 10) hv
      simp only [List.count_append, count_line] at hcount
      omega

/-! ## The drivers -/

def myProc : Node Int32 WriteCall where
  write param w := (MyProc.myProcWrite param w).2
  read := MyProc.myProcRead
  value param := param

/-- Others may write to both nodes. -/
def myNewProc (node : MyNewProc.Node) : Node MyNewProc.Params (MyNewProc.Node × WriteCall) where
  write s w := (MyNewProc.myProcWrite s w.1 w.2).2
  read s := MyNewProc.myProcRead s node
  value s := s.get node

/-- Others may write to both nodes, and processes come and go. An action that cannot happen
is passed over. -/
def sigProc (node : SigProc.Node) : Node SigProc.State SigProc.Act where
  write s a := (SigProc.step s a).getD s
  read s := SigProc.myProcRead s node
  value s := match node with
    | .pid => s.sigPid
    | .signal => s.sigTosend

/-- For every start and every interleaving, a reader that has got `0` has one value of the
parameter exactly when at its second call the text was not longer than at its first. -/
theorem snapshot_iff (param : Int32) (acts : List (Act WriteCall)) (node₁ : MyNewProc.Node)
    (s₁ : MyNewProc.Params) (acts₁ : List (Act (MyNewProc.Node × WriteCall)))
    (node₂ : SigProc.Node) (s₂ : SigProc.State) (acts₂ : List (Act SigProc.Act))
    (bytes : List UInt8) :
    (got myProc param 0 acts = some bytes →
      (IsSnapshot myProc param acts bytes ↔ NotLonger myProc param acts)) ∧
    (got (myNewProc node₁) s₁ 0 acts₁ = some bytes →
      (IsSnapshot (myNewProc node₁) s₁ acts₁ bytes ↔ NotLonger (myNewProc node₁) s₁ acts₁)) ∧
    (got (sigProc node₂) s₂ 0 acts₂ = some bytes →
      (IsSnapshot (sigProc node₂) s₂ acts₂ bytes ↔ NotLonger (sigProc node₂) s₂ acts₂)) := by
  refine ⟨snapshot_iff_of_reads fun _ => rfl, snapshot_iff_of_reads fun _ => rfl,
    snapshot_iff_of_reads fun s => ?_⟩
  cases node₂ <;> rfl

/-- `5` is read, `100` and a newline are written, and two more reads follow. -/
def grownRun : List (Act WriteCall) :=
  [.read 20 le_rfl, .write ⟨[49, 48, 48, 10], 0, [0]⟩, .read 20 le_rfl, .read 20 le_rfl]

/-- `5` is read, `7` and a newline are written, and one more read follows. -/
def sameLengthRun : List (Act WriteCall) :=
  [.read 20 le_rfl, .write ⟨[55, 10], 0, [0]⟩, .read 20 le_rfl]

/-- The reader of `sameLengthRun` has the text of `5`. -/
theorem snapshot_sameLengthRun : got myProc 5 0 sameLengthRun = some [53, 10] ∧
    IsSnapshot myProc 5 sameLengthRun [53, 10] := by
  have hgot : got myProc 5 0 sameLengthRun = some [53, 10] := by decide
  have hiff := (snapshot_iff 5 sameLengthRun .param1 MyNewProc.initial [] .pid
    (SigProc.initial .empty) [] [53, 10]).1 hgot
  refine ⟨hgot, hiff.2 fun v₀ v₁ vs h => ?_⟩
  have hshown : shown myProc 5 sameLengthRun = [5, 7] := by decide
  rw [hshown] at h
  simp only [List.cons.injEq] at h
  obtain ⟨rfl, rfl, -⟩ := h
  decide

/-- The reader of `grownRun` gets the texts of `5` and of `100`, and `0` then. -/
theorem not_snapshot_grownRun : ∃ bytes, got myProc 5 0 grownRun = some bytes ∧
    ¬IsSnapshot myProc 5 grownRun bytes := by
  refine ⟨[53, 10, 49, 48, 48, 10], by decide, ?_⟩
  rintro ⟨v, hv, h⟩
  have hheld : held myProc 5 grownRun = [5, 100] := by decide
  rw [hheld] at hv
  rcases List.mem_pair.1 hv with rfl | rfl
  · exact absurd h (by decide)
  · exact absurd h (by decide)

end KernelExamples.Snapshot
