import KernelExamples.ParamProc
import KernelExamples.SigProc
import KernelExamples.TaskProc

/-!
# The memory a proc write reads

`my_proc_write` of `my_proc.c`, `my_new_proc.c`, `sig_proc.c` and `task_proc.c` allocates
`count` bytes, copies the user's text there and calls `sscanf` on it. There is no room for a
NUL, so `sscanf` goes on into the memory behind the block until the number ends.

`TextOnly` compares two writes of one text with different memory behind the block. The
handlers use no more than the number that `sscanf` finds (`textOnly_iff`), so a write depends
on its text only exactly when the number ends inside the text (`text_only_iff`).
-/

namespace KernelExamples

open Text Proc

/-- A write of `text` depends on the text only : the memory behind the block does not matter,
and `sscanf`, on the bytes `str` if it is called, looks at nothing behind the block. -/
structure TextOnly {R : Type} (write : WriteCall → R) (str : WriteCall → Option (List UInt8))
    (text : List UInt8) : Prop where
  same : ∀ after after', write ⟨text, 0, after⟩ = write ⟨text, 0, after'⟩
  inside : ∀ after s, str ⟨text, 0, after⟩ = some s → scanned s ≤ text.length

/-- What `my_proc_write` of `task_proc` calls `sscanf` on, after the lookup of the task. -/
def TaskProc.sscanfStr (s : State) (w : WriteCall) : Option (List UInt8) :=
  (activePidNs s).2.bind fun _ => w.copied

theorem copied_without_fault (text after : List UInt8) :
    (⟨text, 0, after⟩ : WriteCall).copied = some (text ++ after) := by
  rw [WriteCall.copied, if_neg]
  simp [uncopied, WriteCall.count]

section Handler

variable {R : Type} {write : WriteCall → R} {str : WriteCall → Option (List UInt8)}
  {text : List UInt8}

/-- A handler that only uses the number found. -/
theorem textOnly_iff (hstr : ∀ after, str ⟨text, 0, after⟩ = some (text ++ after))
    (hwrite : ∀ after after', scanInt (text ++ after) = scanInt (text ++ after') →
      write ⟨text, 0, after⟩ = write ⟨text, 0, after'⟩) :
    TextOnly write str text ↔ Ends text := by
  rw [← scanned_le_iff]
  constructor
  · intro h after
    exact h.inside after _ (hstr after)
  · intro h
    have hends := (scanned_le_iff text).1 h
    refine ⟨fun after after' => hwrite after after' ?_, fun after s hs => ?_⟩
    · rw [scanInt_append hends, scanInt_append hends]
    · rw [← Option.some.inj ((hstr after).symm.trans hs)]
      exact h after

end Handler

/-! ## The four modules -/

theorem MyProc.textOnly_write (param : Int32) (text : List UInt8) :
    TextOnly (myProcWrite param) WriteCall.copied text ↔ Ends text := by
  refine textOnly_iff (copied_without_fault text) fun after after' h => ?_
  simp only [myProcWrite, copied_without_fault, h]
  rfl

theorem MyNewProc.textOnly_write (s : Params) (node : Node) (text : List UInt8) :
    TextOnly (myProcWrite s node) WriteCall.copied text ↔ Ends text := by
  refine textOnly_iff (copied_without_fault text) fun after after' h => ?_
  simp only [myProcWrite, copied_without_fault, h]
  rfl

theorem SigProc.textOnly_write (s : State) (node : Node) (current : Task) (text : List UInt8) :
    TextOnly (myProcWrite s node current) WriteCall.copied text ↔ Ends text := by
  refine textOnly_iff (copied_without_fault text) fun after after' h => ?_
  simp only [myProcWrite, copied_without_fault, writePid, writeSignal, h]
  rfl

/-- A write to `task_proc` does not come to `sscanf` if the lookup ends it. -/
theorem TaskProc.textOnly_write (s : State) (node : Node) (text : List UInt8) :
    TextOnly (myProcWrite s node) (sscanfStr s) text ↔ (PidOk s → Ends text) := by
  rw [← activePidNs_snd]
  rcases hlook : activePidNs s with ⟨s', _ | ⟨pidNs, nrHashed⟩⟩
  · refine iff_of_true ⟨fun after after' => ?_, fun after str h => ?_⟩ (by simp)
    · simp only [myProcWrite, hlook]
    · simp [sscanfStr, hlook] at h
  · rw [imp_iff_right (by simp)]
    refine textOnly_iff (fun after => ?_) fun after after' h => ?_
    · simp only [sscanfStr, hlook, copied_without_fault, Option.bind_some]
    · simp only [myProcWrite, hlook, copied_without_fault, h]
      rfl

/-- For every text and from every state, a write to any of the nodes depends on its text only
exactly when the number ends inside the text, where a write to `task_proc` is ended by a
`pid_no` that names no task. -/
theorem text_only_iff (text : List UInt8) (param : Int32)
    (params : MyNewProc.Params) (paramNode : MyNewProc.Node)
    (sig : SigProc.State) (sigNode : SigProc.Node) (current : Task)
    (task : TaskProc.State) (taskNode : TaskProc.Node) :
    (TextOnly (MyProc.myProcWrite param) WriteCall.copied text ↔ Ends text) ∧
      (TextOnly (MyNewProc.myProcWrite params paramNode) WriteCall.copied text ↔ Ends text) ∧
      (TextOnly (SigProc.myProcWrite sig sigNode current) WriteCall.copied text ↔ Ends text) ∧
      (TextOnly (TaskProc.myProcWrite task taskNode) (TaskProc.sscanfStr task) text ↔
        (TaskProc.PidOk task → Ends text)) :=
  ⟨MyProc.textOnly_write param text, MyNewProc.textOnly_write params paramNode text,
    SigProc.textOnly_write sig sigNode current text, TaskProc.textOnly_write task taskNode text⟩

/-- The text `5` without a newline : with the byte `7` behind the block, `param` becomes `57`. -/
theorem not_text_only_five : ¬TextOnly (MyProc.myProcWrite 100) WriteCall.copied [53] := by
  intro h
  have hsame := h.same [0] [55, 0]
  revert hsame
  decide

end KernelExamples
