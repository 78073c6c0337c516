import KernelExamples.ParamProc

/-!
# Proc nodes as a store of integers

Histories of reads and writes on the nodes of `my_proc` and `my_new_proc`. A write hands
over the text of an integer, a text that starts no integer, or bytes that cannot be copied
(`Input`), with anything in memory after its block. The specification keeps for each node
the last integer written to it (`lastWritten`).

`Spec` says what one call does, and `law_of_spec` what follows for every history.
`proc_store_law` is the two drivers : printing and parsing are inverse to each other on
every `int` (`Text.scanInt_decimal`), so a whole-text read shows the last integer written.
-/

namespace KernelExamples.ProcStore

open Text Proc

/-! ## What is written -/

/-- What a write hands over. -/
inductive Input
  /-- An integer and a newline, after blanks. -/
  | number (blanks : List UInt8) (isSpace : ∀ c ∈ blanks, isSpace c = true) (n : Int32)
  /-- A text whose first byte after the blanks is not a digit and not a minus sign. -/
  | unparsable (blanks : List UInt8) (isSpace : ∀ c ∈ blanks, isSpace c = true) (c : UInt8)
      (notSpace : Text.isSpace c = false) (notDigit : isDigit c = false) (notMinus : c ≠ 45)
      (rest : List UInt8)
  /-- Bytes that `copy_from_user` cannot copy. -/
  | faulted (w : WriteCall) (fault : w.copied = none)

/-- The call, with `after` in memory after the block. -/
def Input.call (after : List UInt8) : Input → WriteCall
  | number blanks _ n => ⟨blanks ++ line n, 0, after⟩
  | unparsable blanks _ c _ _ _ rest => ⟨blanks ++ c :: rest, 0, after⟩
  | faulted w _ => w

/-- The integer that is written. -/
def Input.value : Input → Option Int32
  | number _ _ n => some n
  | _ => none

/-- A call without a fault hands all its bytes to `sscanf`. -/
theorem number_of_zero (text after : List UInt8) :
    (WriteCall.mk text 0 after).number = scanInt (text ++ after) := by
  have hcopied : (WriteCall.mk text 0 after).copied = some (text ++ after) := by
    simp [WriteCall.copied, WriteCall.count, uncopied]
  rw [WriteCall.number, hcopied, Option.bind_some]

/-- A call hands `sscanf` the integer of its input, whatever follows the block. -/
theorem number_call (i : Input) (after : List UInt8) : (i.call after).number = i.value := by
  cases i with
  | number blanks hblanks n =>
    rw [Input.call, number_of_zero, line, List.append_assoc, List.append_assoc,
      List.singleton_append, ← List.append_assoc]
    exact scanInt_decimal hblanks n rfl after
  | unparsable blanks hblanks c hspace hdigit hminus rest =>
    rw [Input.call, number_of_zero, List.append_assoc, List.cons_append]
    exact scanInt_of_unparsable hblanks hspace hdigit hminus (rest ++ after)
  | faulted w hfault => simp [Input.call, Input.value, WriteCall.number, hfault]

/-! ## Histories -/

/-- A driver with the nodes `N` : the parameter of a node, and its `my_proc_read` and
`my_proc_write`. -/
structure Store (S N : Type) where
  get : S → N → Int32
  read : S → N → ℕ → ℤ → ℕ → ReadResult
  write : S → N → WriteCall → ℤ × S

inductive Op (N : Type)
  | write (node : N) (i : Input) (after : List UInt8)
  | read (node : N) (len : ℕ) (offset : ℤ) (fault : ℕ)

variable {S N : Type}

/-- A read changes no parameter. -/
def Store.next (d : Store S N) (s : S) : Op N → S
  | .write node i after => (d.write s node (i.call after)).2
  | .read _ _ _ _ => s

/-- The last integer written to `node`, or `v` if there is none. -/
def lastWritten [DecidableEq N] (node : N) : Int32 → List (Op N) → Int32
  | v, [] => v
  | v, .write node' i _ :: ops =>
    lastWritten node (if node' = node then i.value.getD v else v) ops
  | v, .read _ _ _ _ :: ops => lastWritten node v ops

/-- What the calls of a driver do in the state `s` after the history `ops` from `s₀`. -/
structure LawAt [DecidableEq N] (d : Store S N) (s₀ : S) (ops : List (Op N)) (s : S) : Prop where
  /-- A read of the whole text shows the last integer written, and the text fits
  `mydata[20]` with its NUL. -/
  read : ∀ node len text, text = line (lastWritten node (d.get s₀ node) ops) →
    text.length + 1 ≤ 20 ∧ (d.read s node len 0 0).stored = text ∧
      (d.read s node len 0 0).ret = text.length
  other : ∀ node w node', node' ≠ node → d.get (d.write s node w).2 node' = d.get s node'
  fault : ∀ node w, w.copied = none → d.write s node w = (-EFAULT, s)
  unparsable : ∀ node (i : Input) after, i.value = none → (d.write s node (i.call after)).2 = s

/-- The law holds after every history. -/
def Law [DecidableEq N] (d : Store S N) (s₀ : S) : Prop :=
  ∀ ops : List (Op N), LawAt d s₀ ops (ops.foldl d.next s₀)

/-! ## One call -/

/-- What one call does. -/
structure Spec (d : Store S N) : Prop where
  read : ∀ s node, d.read s node = procRead (line (d.get s node))
  fault : ∀ s node w, w.copied = none → d.write s node w = (-EFAULT, s)
  unparsable : ∀ s node w, w.number = none → (d.write s node w).2 = s
  written : ∀ s node w v, w.number = some v → d.get (d.write s node w).2 node = v
  other : ∀ s node w node', node' ≠ node → d.get (d.write s node w).2 node' = d.get s node'

variable [DecidableEq N] {d : Store S N} (hd : Spec d)

include hd

/-- A write leaves a node with the integer written to it, or as it was. -/
theorem get_next_write (s : S) (node node' : N) (i : Input) (after : List UInt8) :
    d.get (d.next s (.write node' i after)) node =
      if node' = node then i.value.getD (d.get s node) else d.get s node := by
  rw [Store.next]
  split_ifs with h
  · subst h
    cases hv : i.value with
    | none => rw [hd.unparsable s node' _ ((number_call i after).trans hv), Option.getD_none]
    | some v => exact hd.written s node' _ v ((number_call i after).trans hv)
  · exact hd.other s node' _ node (Ne.symm h)

/-- Every node holds the last integer written to it. -/
theorem get_foldl (node : N) : ∀ (ops : List (Op N)) (s : S),
    d.get (ops.foldl d.next s) node = lastWritten node (d.get s node) ops
  | [], _ => rfl
  | .write node' i after :: ops, s => by
    rw [List.foldl_cons, get_foldl node ops, lastWritten, get_next_write hd]
  | .read node' len offset fault :: ops, s => by
    rw [List.foldl_cons, get_foldl node ops, lastWritten, Store.next]

theorem law_of_spec (s₀ : S) : Law d s₀ := by
  intro ops
  refine ⟨?_, hd.other _, hd.fault _, fun node i after hi => ?_⟩
  · rintro node len text rfl
    have hlen := length_line_le (lastWritten node (d.get s₀ node) ops)
    rw [hd.read, get_foldl hd node ops s₀, procRead_zero (line_lt _) len 0]
    exact ⟨by omega, List.take_length, rfl⟩
  · exact hd.unparsable _ node _ ((number_call i after).trans hi)

omit hd

/-! ## The drivers -/

/-- `my_proc`, with its single node. -/
def myProc : Store Int32 Unit where
  get param _ := param
  read param _ := MyProc.myProcRead param
  write param _ w := MyProc.myProcWrite param w

/-- `my_new_proc`. -/
def myNewProc : Store MyNewProc.Params MyNewProc.Node where
  get := MyNewProc.Params.get
  read := MyNewProc.myProcRead
  write := MyNewProc.myProcWrite

theorem spec_myProc : Spec myProc where
  read _ _ := rfl
  fault s _ w hw := by simp [myProc, MyProc.myProcWrite, hw]
  unparsable s _ w hw := by
    cases hc : w.copied with
    | none => simp [myProc, MyProc.myProcWrite, hc]
    | some str =>
      have hnone : scanInt str = none := by simpa [WriteCall.number, hc] using hw
      simp [myProc, MyProc.myProcWrite, hc, hnone]
  written s _ w v hw := by
    obtain ⟨str, hc, hv⟩ := Option.bind_eq_some_iff.1 hw
    simp [myProc, MyProc.myProcWrite, hc, hv]
  other _ _ _ _ hne := absurd rfl hne

theorem spec_myNewProc : Spec myNewProc where
  read _ _ := rfl
  fault s node w hw := by simp [myNewProc, MyNewProc.myProcWrite, hw]
  unparsable s node w hw := by
    cases hc : w.copied with
    | none => simp [myNewProc, MyNewProc.myProcWrite, hc]
    | some str =>
      have hnone : scanInt str = none := by simpa [WriteCall.number, hc] using hw
      cases node <;> simp [myNewProc, MyNewProc.myProcWrite, hc, hnone]
  written s node w v hw := by
    obtain ⟨str, hc, hv⟩ := Option.bind_eq_some_iff.1 hw
    cases node <;> simp [myNewProc, MyNewProc.myProcWrite, MyNewProc.Params.get, hc, hv]
  other s node w node' hne := by
    cases hc : w.copied with
    | none => simp [myNewProc, MyNewProc.myProcWrite, hc]
    | some str =>
      cases node <;> cases node' <;>
        first
        | exact absurd rfl hne
        | simp [myNewProc, MyNewProc.myProcWrite, MyNewProc.Params.get, hc]

/-- After every history of reads and writes, the nodes of `my_new_proc` and the node of
`my_proc` are a store of integers. -/
theorem proc_store_law : Law myNewProc MyNewProc.initial ∧ Law myProc MyProc.initial :=
  ⟨law_of_spec spec_myNewProc _, law_of_spec spec_myProc _⟩

end KernelExamples.ProcStore
