import KernelExamples.Proc
import KernelExamples.Processes
import KernelExamples.Traces

/-!
# The pid namespace of a task through proc nodes

`debug/task_proc.c`. A write to the node `pid` sets `pid_no`. Every read and every write
of either node first looks up the task of `pid_no`, unless that is `-1`, and asks for its
pid namespace, without a test that there is such a task. A write to `nr_hashed` adds to
`pid_allocated` of the namespace.

A state holds the variables of the module, the process table, the counters and the
arguments of the calls of `task_active_pid_ns` so far. A call on `NULL` ends the function
there (`activePidNs`). So the node `pid` can be written exactly when `pid_no` is `-1` or
the pid of a live task (`writable_iff`), and no run ever calls on `NULL` or gets stuck
exactly when every pid it stores is of that kind and no task that `pid_no` names exits
(`task_safe_iff`).

The variable for the number in the text holds the old counter if there is no number, so such a
text doubles the counter (`write_nrHashed`, `adjust_iff`).
-/

namespace KernelExamples.TaskProc

open Text Proc Traces

/-- The two nodes, by their `PDE_DATA`. -/
inductive Node
  | pid
  | nrHashed
  deriving DecidableEq

structure State where
  procs : Processes
  /-- `pid_allocated` of each pid namespace. -/
  allocated : ℕ → UInt32
  pidNo : Int32
  pTask : Option Task
  /-- The argument of each call of `task_active_pid_ns`. -/
  calls : List (Option Task)

/-- The module as loaded. -/
def initial (procs : Processes) (allocated : ℕ → UInt32) : State :=
  ⟨procs, allocated, -1, none, []⟩

/-! ## The nodes -/

/-- The start of `my_proc_read` and `my_proc_write` : `pid_ns` and `nr_hashed`, or `none` if
`task_active_pid_ns` is called on `NULL`. -/
def activePidNs (s : State) : State × Option (Option ℕ × UInt32) :=
  if s.pidNo = -1 then (s, some (none, 0))
  else
    let task := s.procs.pidTask s.pidNo
    ({ s with pTask := task, calls := s.calls ++ [task] },
      task.map fun t => (some t.ns, s.allocated t.ns))

/-- The text of `sprintf(data, "%u\n", n)`. -/
def unsignedLine (n : UInt32) : List UInt8 := decimalNat n.toNat ++ [10]

/-- The state after the call and its result, `none` if it ends in `task_active_pid_ns`. -/
def myProcRead (s : State) (node : Node) (len : ℕ) (offset : ℤ) (fault : ℕ) :
    State × Option ReadResult :=
  ((activePidNs s).1, (activePidNs s).2.map fun (_, nrHashed) =>
    match node with
    | .pid => procRead (line s.pidNo) len offset fault
    | .nrHashed => procRead (unsignedLine nrHashed) len offset fault)

/-- `pid_ns->pid_allocated = pid_ns->pid_allocated + nr_hashed`, if there is a `pid_ns`. -/
def addAllocated (s : State) (pidNs : Option ℕ) (nrHashed : UInt32) : State :=
  match pidNs with
  | none => s
  | some ns =>
    { s with allocated := Function.update s.allocated ns (s.allocated ns + nrHashed) }

/-- The state after the call and the value it returns, `none` if it ends in
`task_active_pid_ns`. -/
def myProcWrite (s : State) (node : Node) (w : WriteCall) : State × Option ℤ :=
  match activePidNs s with
  | (s, none) => (s, none)
  | (s, some (pidNs, nrHashed)) =>
    match w.copied with
    | none => (s, some (-EFAULT))
    | some str =>
      match node with
      | .pid => ({ s with pidNo := (scanInt str).getD s.pidNo }, some w.count)
      | .nrHashed =>
        (addAllocated s pidNs (((scanInt str).map Int32.toUInt32).getD nrHashed), some w.count)

/-! ## Interleavings -/

inductive Act
  | procs (c : Processes.Change)
  /-- The kernel's own change of a counter. -/
  | count (ns : ℕ) (n : UInt32)
  | read (node : Node) (len : ℕ) (offset : ℤ) (fault : ℕ)
  | write (node : Node) (w : WriteCall)

def step (s : State) : Act → Option State
  | .procs c => (s.procs.change c).map fun procs => { s with procs := procs }
  | .count ns n => some { s with allocated := Function.update s.allocated ns n }
  | .read node len offset fault => some (myProcRead s node len offset fault).1
  | .write node w => some (myProcWrite s node w).1

/-- No call of `task_active_pid_ns` was on `NULL`, and a write to `pid` comes to its end. -/
def Safe (s : State) : Prop :=
  (∀ c ∈ s.calls, c ≠ none) ∧ ∀ w, (myProcWrite s .pid w).2 ≠ none

/-- A pid that is stored is `-1` or of a live task, and the task of `pid_no` does not
exit. -/
def NamesLive (s : State) : Act → Prop
  | .write .pid w => ∀ n, w.number = some n → n = -1 ∨ s.procs.live n ≠ none
  | .procs (.exit p) => p ≠ s.pidNo
  | _ => True

/-! ## The lookup -/

/-- `pid_no` names no task, or a live one. -/
def PidOk (s : State) : Prop := s.pidNo = -1 ∨ s.procs.live s.pidNo ≠ none

/-- The lookup succeeds exactly when `pid_no` is fine. -/
theorem activePidNs_snd (s : State) : (activePidNs s).2 ≠ none ↔ PidOk s := by
  unfold activePidNs PidOk
  split_ifs with h <;> simp [h, Processes.pidTask]

/-- The lookup only writes `p_task` and adds a call, of a task that is there. -/
theorem activePidNs_fst {s : State} (hs : PidOk s) :
    ∃ pTask calls, (activePidNs s).1 = { s with pTask := pTask, calls := calls } ∧
      ((∀ c ∈ s.calls, c ≠ none) → ∀ c ∈ calls, c ≠ none) := by
  unfold activePidNs
  split_ifs with h
  · exact ⟨s.pTask, s.calls, rfl, id⟩
  · refine ⟨_, _, rfl, fun hcalls c hc => ?_⟩
    rcases List.mem_append.1 hc with hc | hc
    · exact hcalls c hc
    · rw [List.mem_singleton.1 hc]
      exact hs.resolve_left h

/-- A write to `pid` comes to its end exactly when `pid_no` is fine. -/
theorem writable_iff (s : State) : (∀ w, (myProcWrite s .pid w).2 ≠ none) ↔ PidOk s := by
  rw [← activePidNs_snd]
  unfold myProcWrite
  rcases activePidNs s with ⟨s', _ | ⟨pidNs, nrHashed⟩⟩
  · exact iff_of_false (fun h => h ⟨[], 0, []⟩ rfl) (by simp)
  · refine iff_of_true (fun w => ?_) (by simp)
    cases w.copied <;> simp

theorem safe_iff (s : State) : Safe s ↔ (∀ c ∈ s.calls, c ≠ none) ∧ PidOk s := by
  rw [Safe, writable_iff]

/-! ## One step -/

section Step

variable {s : State} (hs : Safe s)

include hs

theorem safe_fork {p : Int32} (ns : ℕ) (hp : 0 < p) :
    Safe { s with procs := s.procs.fork p ns hp } := by
  rw [safe_iff] at hs ⊢
  refine ⟨hs.1, hs.2.imp id fun h => ?_⟩
  rcases eq_or_ne s.pidNo p with heq | hne
  · simp [Processes.fork, heq]
  · simpa [Processes.fork, hne] using h

theorem safe_exit {p : Int32} (hp : s.procs.live p ≠ none) :
    Safe { s with procs := s.procs.exit p } ↔ p ≠ s.pidNo := by
  rw [safe_iff] at hs ⊢
  constructor
  · rintro ⟨-, h⟩ rfl
    obtain ⟨t, ht⟩ := Option.ne_none_iff_exists'.1 hp
    rcases h with h | h
    · -- a task has a positive pid
      have := s.procs.pos ht
      rw [h] at this
      exact absurd this (by decide)
    · exact h (Function.update_self _ _ _)
  · intro hne
    refine ⟨hs.1, hs.2.imp id fun h => ?_⟩
    simpa [Processes.exit, hne.symm] using h

theorem safe_activePidNs : Safe (activePidNs s).1 := by
  rw [safe_iff] at hs
  obtain ⟨pTask, calls, heq, hcalls⟩ := activePidNs_fst hs.2
  rw [heq, safe_iff]
  exact ⟨hcalls hs.1, hs.2⟩

theorem safe_write (node : Node) (w : WriteCall) :
    Safe (myProcWrite s node w).1 ↔ NamesLive s (.write node w) := by
  have hlook := safe_activePidNs hs
  rw [safe_iff] at hs
  obtain ⟨pTask, calls, heq, -⟩ := activePidNs_fst hs.2
  obtain ⟨⟨pidNs, nrHashed⟩, hsome⟩ :=
    Option.ne_none_iff_exists'.1 ((activePidNs_snd s).2 hs.2)
  rw [heq] at hlook
  have hactive : activePidNs s =
      ({ s with pTask := pTask, calls := calls }, some (pidNs, nrHashed)) :=
    Prod.ext heq hsome
  unfold myProcWrite
  rw [hactive]
  cases hw : w.copied with
  | none => cases node <;> simpa [NamesLive, WriteCall.number, hw] using hlook
  | some str =>
    rw [safe_iff] at hlook
    cases node with
    | pid =>
      cases hn : scanInt str with
      | none => simpa [NamesLive, WriteCall.number, hw, hn, safe_iff] using hlook
      | some n =>
        rw [safe_iff, and_iff_right hlook.1]
        simp [NamesLive, WriteCall.number, hw, hn, PidOk]
    | nrHashed =>
      cases pidNs <;> simpa [NamesLive, addAllocated, safe_iff, PidOk] using hlook

end Step

/-- From a safe state, a step is safe exactly when what it names is alive. -/
theorem safe_step (s : State) (a : Act) (s' : State) (hs : Safe s) (h : step s a = some s') :
    Safe s' ↔ NamesLive s a := by
  cases a with
  | procs c =>
    obtain ⟨procs, hc, rfl⟩ := Option.map_eq_some_iff.1 h
    obtain ⟨p, ns, hp, rfl, rfl⟩ | ⟨p, rfl, hp, rfl⟩ := Processes.change_cases hc
    · exact iff_of_true (safe_fork hs ns hp) trivial
    · exact safe_exit hs hp
  | count ns n =>
    obtain rfl := Option.some.inj h
    rw [safe_iff] at hs ⊢
    exact iff_of_true hs trivial
  | read node len offset fault =>
    obtain rfl := Option.some.inj h
    exact iff_of_true (safe_activePidNs hs) trivial
  | write node w =>
    obtain rfl := Option.some.inj h
    exact safe_write hs node w

/-! ## Every run -/

theorem safe_initial (procs : Processes) (allocated : ℕ → UInt32) :
    Safe (initial procs allocated) := by
  rw [safe_iff]
  exact ⟨by simp [initial], Or.inl rfl⟩

/-- In every interleaving, no call is made on `NULL` and the node `pid` can be written in
every state exactly when the pids stored are `-1` or of live tasks and no task exits while
`pid_no` names it. -/
theorem task_safe_iff (procs : Processes) (allocated : ℕ → UInt32) (acts : List Act) :
    Throughout step Safe (initial procs allocated) acts ↔
      Along step NamesLive (initial procs allocated) acts :=
  throughout_iff_along (I := fun _ => True) (fun _ _ _ _ _ => trivial)
    (fun s a s' _ => safe_step s a s') acts trivial (safe_initial procs allocated)

/-- Process `1` writes `7`, the pid of no task, and reads the node. -/
def absentRun : List Act :=
  [.procs (.fork 1 0), .write .pid ⟨[55, 10], 0, [0]⟩, .read .pid 20 0 0]

/-- The read of `absentRun` follows a `NULL`. -/
theorem not_task_safe_absentRun :
    ¬Throughout step Safe (initial .empty fun _ => 0) absentRun := by
  intro h
  have hrun : (runFrom step (initial .empty fun _ => 0) absentRun).map State.calls =
      some [none] := by
    decide
  obtain ⟨s, hs, hcalls⟩ := Option.map_eq_some_iff.1 hrun
  have hsafe := (h absentRun [] s (by simp) hs).1 none
  rw [hcalls] at hsafe
  exact hsafe List.mem_cons_self rfl

/-! ## The adjustment of `pid_allocated` -/

section Adjust

variable {s : State} {t : Task} {w : WriteCall}

/-- A write to `nr_hashed` adds the number it starts with to `pid_allocated` of the namespace
`ns`, or nothing, and touches nothing else. -/
structure AdjustOk (s : State) (ns : ℕ) (w : WriteCall) : Prop where
  added : ∀ k, w.copied ≠ none → scanInt w.text = some k →
    (myProcWrite s .nrHashed w).1.allocated ns = s.allocated ns + k.toUInt32
  kept : w.copied = none ∨ scanInt w.text = none →
    (myProcWrite s .nrHashed w).1.allocated ns = s.allocated ns
  others : ∀ ns' ≠ ns, (myProcWrite s .nrHashed w).1.allocated ns' = s.allocated ns'
  pidNo : (myProcWrite s .nrHashed w).1.pidNo = s.pidNo

/-- `pid_no` of a live task is not `-1`. -/
theorem activePidNs_of_live (hlive : s.procs.live s.pidNo = some t) :
    activePidNs s = ({ s with pTask := some t, calls := s.calls ++ [some t] },
      some (some t.ns, s.allocated t.ns)) := by
  have hne : s.pidNo ≠ -1 := fun h => absurd (s.procs.pos hlive) (by rw [h]; decide)
  rw [activePidNs, if_neg hne, Processes.pidTask, hlive]
  rfl

/-- The write to `nr_hashed` of a text with its NUL adds the number in the text, or the old value
of the counter if there is none. -/
theorem write_nrHashed (hlive : s.procs.live s.pidNo = some t) (hnul : 0 ∈ w.text) :
    (myProcWrite s .nrHashed w).1.pidNo = s.pidNo ∧
      (myProcWrite s .nrHashed w).1.allocated =
        if w.copied = none then s.allocated
        else Function.update s.allocated t.ns
          (s.allocated t.ns + ((scanInt w.text).map Int32.toUInt32).getD (s.allocated t.ns)) := by
  rw [myProcWrite, activePidNs_of_live hlive]
  cases hw : w.copied with
  | none => exact ⟨rfl, rfl⟩
  | some str =>
    rw [← WriteCall.scanInt_of_copied hnul hw]
    exact ⟨rfl, rfl⟩

section Cases

variable (hlive : s.procs.live s.pidNo = some t) (hnul : 0 ∈ w.text)

include hlive hnul

theorem adjustOk_of_not_copied (hw : w.copied = none) : AdjustOk s t.ns w := by
  obtain ⟨hpid, halloc⟩ := write_nrHashed hlive hnul
  rw [if_pos hw] at halloc
  exact ⟨fun _ h => absurd hw h, fun _ => by rw [halloc], fun _ _ => by rw [halloc], hpid⟩

theorem adjustOk_of_number (hw : w.copied ≠ none) {k : Int32} (hk : scanInt w.text = some k) :
    AdjustOk s t.ns w := by
  obtain ⟨hpid, halloc⟩ := write_nrHashed hlive hnul
  rw [if_neg hw, hk, Option.map_some, Option.getD_some] at halloc
  refine ⟨fun k' _ hk' => ?_, fun h => ?_, fun ns' hne => ?_, hpid⟩
  · obtain rfl := Option.some.inj (hk.symm.trans hk')
    rw [halloc, Function.update_self]
  · rcases h with h | h
    · exact absurd h hw
    · rw [hk] at h
      cases h
  · rw [halloc, Function.update_of_ne hne]

/-- A text without a number doubles the counter. -/
theorem adjustOk_iff_of_no_number (hw : w.copied ≠ none) (hnone : scanInt w.text = none) :
    AdjustOk s t.ns w ↔ s.allocated t.ns = 0 := by
  obtain ⟨hpid, halloc⟩ := write_nrHashed hlive hnul
  rw [if_neg hw, hnone, Option.map_none, Option.getD_none] at halloc
  have hdouble : (myProcWrite s .nrHashed w).1.allocated t.ns =
      s.allocated t.ns + s.allocated t.ns := by rw [halloc, Function.update_self]
  constructor
  · intro h
    have hkept := h.kept (.inr hnone)
    rw [hdouble] at hkept
    exact UInt32.add_eq_left.1 hkept
  · intro h0
    refine ⟨fun k _ hk => ?_, fun _ => ?_, fun ns' hne => ?_, hpid⟩
    · rw [hnone] at hk
      cases hk
    · rw [hdouble, h0]
      rfl
    · rw [halloc, Function.update_of_ne hne]

end Cases

end Adjust

/-- While `pid_no` names a live task, a text with its NUL that is written to `nr_hashed` adjusts
the counter exactly when it is not copied, or starts with a number, or the counter is `0`. -/
theorem adjust_iff {s : State} {t : Task} {w : WriteCall}
    (hlive : s.procs.live s.pidNo = some t) (hnul : 0 ∈ w.text) :
    AdjustOk s t.ns w ↔ w.copied = none ∨ scanInt w.text ≠ none ∨ s.allocated t.ns = 0 := by
  by_cases hw : w.copied = none
  · exact iff_of_true (adjustOk_of_not_copied hlive hnul hw) (.inl hw)
  · rw [or_iff_right hw]
    cases htext : scanInt w.text with
    | none =>
      rw [adjustOk_iff_of_no_number hlive hnul hw htext]
      simp
    | some k => exact iff_of_true (adjustOk_of_number hlive hnul hw htext) (.inl (by simp))

/-- Process `1` in the namespace `0`, whose counter is `3`. -/
def threeAllocated : State :=
  { initial (Processes.empty.fork 1 0 (by decide)) (fun _ => 3) with pidNo := 1 }

/-- `-1` leaves `2`. -/
theorem adjust_minus_one : AdjustOk threeAllocated 0 ⟨[45, 49, 10, 0], 0, []⟩ :=
  (adjust_iff (t := ⟨0, 1, 0⟩) (by decide) (by decide)).2 (by decide)

/-- The letter `x` doubles the counter. -/
theorem not_adjust_letter : ¬AdjustOk threeAllocated 0 ⟨[120, 0], 0, []⟩ := by
  intro h
  have hkept := h.kept (.inr (by decide))
  revert hkept
  decide

end KernelExamples.TaskProc
