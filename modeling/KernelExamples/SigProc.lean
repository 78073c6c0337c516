import KernelExamples.Proc
import KernelExamples.Processes
import KernelExamples.Traces

/-!
# Sending a signal through proc nodes

`filesystem/sig_proc.c`. A write to the node `pid` sets `sig_pid` and looks the task up,
and a write to the node `signal` sends a signal to the task found then (`sig_tsk`), or to
the writer if there is none. Tasks come and go between the writes, and `sig_tsk` is a plain
pointer : nothing clears it when its task exits.

A state holds the variables of the module, the process table and the calls of `send_sig`
so far. `sig_tsk` has the pid `sig_pid` in every state (`pidAgrees_step`), so all calls are
made on a live task with that pid exactly when no write to `signal` finds `sig_tsk` on an
exited task (`sends_ok_iff`). Once that task has exited, only a write to `pid` helps
(`not_sendsOk_after_exit`).

A write to `signal` drops the results of `sscanf` and `send_sig`. So it answers for the signal
it names exactly when the text names one and `send_sig` accepts it (`signal_write_iff`).
-/

namespace KernelExamples.SigProc

open Text Proc Traces

/-- The two nodes, by their `PDE_DATA`. -/
inductive Node
  | pid
  | signal
  deriving DecidableEq

/-- A call of `send_sig` : its arguments, whether the task was alive, and `sig_pid`, at that
moment. -/
structure Send where
  sig : Int32
  task : Task
  alive : Bool
  sigPid : Int32

structure State where
  procs : Processes
  sigPid : Int32
  sigTosend : Int32
  sigTsk : Option Task
  sent : List Send

/-- The module as loaded. `SIGUSR1` is `10`. -/
def initial (procs : Processes) : State := ⟨procs, -1, 10, none, []⟩

/-! ## The nodes -/

def myProcRead (s : State) : Node → ℕ → ℤ → ℕ → ReadResult
  | .pid => procRead (line s.sigPid)
  | .signal => procRead (line s.sigTosend)

/-- `send_sig(sig, tsk, 0)`. The module drops its result. -/
def sendSig (s : State) (sig : Int32) (tsk : Task) : State :=
  { s with sent := s.sent ++ [⟨sig, tsk, s.procs.Alive tsk, s.sigPid⟩] }

/-- The write to `pid`. -/
def writePid (s : State) (str : List UInt8) : State :=
  let sigPid := (scanInt str).getD s.sigPid
  { s with sigPid := sigPid, sigTsk := s.procs.pidTask sigPid }

/-- The write to `signal` by `current`. -/
def writeSignal (s : State) (current : Task) (str : List UInt8) : State :=
  let s := { s with sigTosend := (scanInt str).getD s.sigTosend }
  match s.sigTsk with
  | some tsk => sendSig s s.sigTosend tsk
  | none => sendSig { s with sigTsk := some current, sigPid := current.pid } s.sigTosend current

/-- The value returned and the state after the call. -/
def myProcWrite (s : State) (node : Node) (current : Task) (w : WriteCall) : ℤ × State :=
  match w.copied with
  | none => (-EFAULT, s)
  | some str =>
    match node with
    | .pid => (w.count, writePid s str)
    | .signal => (w.count, writeSignal s current str)

/-! ## Interleavings -/

inductive Act
  | procs (c : Processes.Change)
  | write (node : Node) (current : Task) (w : WriteCall)

/-- A writer is alive. -/
def step (s : State) : Act → Option State
  | .procs c => (s.procs.change c).map fun procs => { s with procs := procs }
  | .write node current w =>
    if s.procs.Alive current then some (myProcWrite s node current w).2 else none

/-- Every `send_sig` was on a live task whose pid the node `pid` showed. -/
def SendsOk (s : State) : Prop := ∀ e ∈ s.sent, e.alive = true ∧ e.task.pid = e.sigPid

/-- A write to `signal` finds in `sig_tsk` no task that has exited. -/
def RemembersLive (s : State) : Act → Prop
  | .write .signal _ w => w.copied ≠ none → ∀ tsk, s.sigTsk = some tsk → s.procs.Alive tsk
  | _ => True

/-- `sig_pid` and `sig_tsk` agree. -/
def PidAgrees (s : State) : Prop := ∀ tsk, s.sigTsk = some tsk → tsk.pid = s.sigPid

/-! ## One step -/

theorem step_cases {s s' : State} {a : Act} (h : step s a = some s') :
    (∃ c procs, a = .procs c ∧ s.procs.change c = some procs ∧ s' = { s with procs := procs }) ∨
      ∃ node current w, a = .write node current w ∧ s.procs.Alive current ∧
        s' = (myProcWrite s node current w).2 := by
  cases a with
  | procs c =>
    obtain ⟨procs, hc, h⟩ := Option.map_eq_some_iff.1 h
    exact Or.inl ⟨c, procs, rfl, hc, h.symm⟩
  | write node current w =>
    obtain ⟨hcurrent, h⟩ := of_guard h
    exact Or.inr ⟨node, current, w, rfl, hcurrent, h.symm⟩

theorem pidAgrees_writePid (s : State) (str : List UInt8) : PidAgrees (writePid s str) :=
  fun _ h => s.procs.pid_eq h

theorem pidAgrees_writeSignal {s : State} (hs : PidAgrees s) (current : Task)
    (str : List UInt8) : PidAgrees (writeSignal s current str) := by
  intro tsk h
  cases htsk : s.sigTsk with
  | none =>
    simp only [writeSignal, htsk, sendSig, Option.some.injEq] at h ⊢
    rw [h]
  | some t =>
    simp only [writeSignal, htsk, sendSig, Option.some.injEq] at h ⊢
    exact hs tsk (htsk.trans (congrArg some h))

theorem pidAgrees_step (s : State) (a : Act) (s' : State) (hs : PidAgrees s)
    (h : step s a = some s') : PidAgrees s' := by
  obtain ⟨c, procs, -, -, rfl⟩ | ⟨node, current, w, -, -, rfl⟩ := step_cases h
  · exact hs
  · unfold myProcWrite
    cases w.copied with
    | none => exact hs
    | some str =>
      cases node with
      | pid => exact pidAgrees_writePid s str
      | signal => exact pidAgrees_writeSignal hs current str

/-- The call of `send_sig` in a write to `signal` adds to the log. -/
theorem sendsOk_sendSig {s : State} (hs : SendsOk s) (sig : Int32) (tsk : Task) :
    SendsOk (sendSig s sig tsk) ↔ s.procs.Alive tsk ∧ tsk.pid = s.sigPid := by
  constructor
  · intro h
    simpa using h ⟨sig, tsk, s.procs.Alive tsk, s.sigPid⟩ (by simp [sendSig])
  · intro h e he
    rcases List.mem_append.1 he with he | he
    · exact hs e he
    · rw [List.mem_singleton.1 he]
      simpa using h

theorem sendsOk_writeSignal {s : State} (hs : SendsOk s) (hpid : PidAgrees s) {current : Task}
    (hcurrent : s.procs.Alive current) (str : List UInt8) :
    SendsOk (writeSignal s current str) ↔
      ∀ tsk, s.sigTsk = some tsk → s.procs.Alive tsk := by
  cases htsk : s.sigTsk with
  | none =>
    have hsend := sendsOk_sendSig (s := { s with
      sigTosend := (scanInt str).getD s.sigTosend
      sigTsk := some current
      sigPid := current.pid }) hs
    simp only [writeSignal, htsk, reduceCtorEq, false_imp_iff, implies_true, iff_true]
    exact (hsend _ _).2 ⟨hcurrent, rfl⟩
  | some t =>
    have hsend := sendsOk_sendSig (s := { s with
      sigTosend := (scanInt str).getD s.sigTosend
      sigTsk := some t }) hs
    simp only [writeSignal, htsk]
    rw [hsend]
    constructor
    · rintro ⟨halive, -⟩ tsk h
      rwa [← Option.some.inj h]
    · intro h
      exact ⟨h t rfl, hpid t htsk⟩

theorem sendsOk_step (s : State) (a : Act) (s' : State) (hpid : PidAgrees s) (hs : SendsOk s)
    (h : step s a = some s') : SendsOk s' ↔ RemembersLive s a := by
  obtain ⟨c, procs, rfl, -, rfl⟩ | ⟨node, current, w, rfl, hcurrent, rfl⟩ := step_cases h
  · exact iff_of_true hs trivial
  · unfold myProcWrite
    cases hw : w.copied with
    | none => cases node <;> simp [RemembersLive, hw, hs]
    | some str =>
      cases node with
      | pid => exact iff_of_true hs trivial
      | signal => simpa [RemembersLive, hw] using sendsOk_writeSignal hs hpid hcurrent str

/-! ## Every run -/

/-- In every interleaving, all signals go to live tasks with the pid shown exactly when no
write to `signal` finds an exited task in `sig_tsk`. -/
theorem sends_ok_iff (procs : Processes) (acts : List Act) :
    Throughout step SendsOk (initial procs) acts ↔
      Along step RemembersLive (initial procs) acts :=
  throughout_iff_along pidAgrees_step sendsOk_step acts (by simp [PidAgrees, initial])
    (by simp [SendsOk, initial])

/-- Process `1`, and a process `5` that is looked up and exits. -/
def staleRun : List Act :=
  [.procs (.fork 1 0), .procs (.fork 5 0), .write .pid ⟨0, 1, 0⟩ ⟨[53, 10], 0, [0]⟩,
    .procs (.exit 5), .write .signal ⟨0, 1, 0⟩ ⟨[49, 48, 10], 0, [0]⟩]

/-- The signal of `staleRun` goes to the exited process. -/
theorem not_sends_ok_staleRun : ¬Throughout step SendsOk (initial .empty) staleRun := by
  intro h
  have hrun : (runFrom step (initial .empty) staleRun).map (fun s => s.sent.map Send.alive) =
      some [false] := by
    decide
  obtain ⟨s, hs, hsent⟩ := Option.map_eq_some_iff.1 hrun
  have hok := h staleRun [] s (by simp) hs
  obtain ⟨e, he, hfalse⟩ := List.mem_map.1 (hsent ▸ List.mem_singleton_self false)
  rw [(hok e he).1] at hfalse
  cases hfalse

/-! ## After the exit -/

/-- `sig_tsk` points to a task that has exited. -/
def Stale (s : State) : Prop :=
  ∃ tsk, s.sigTsk = some tsk ∧ tsk.id < s.procs.next ∧ ¬s.procs.Alive tsk

/-- The action is not a write to `pid`. -/
def Act.KeepsTsk : Act → Prop
  | .write .pid _ _ => False
  | _ => True

theorem stale_step {s s' : State} {a : Act} (ha : a.KeepsTsk) (h : step s a = some s')
    (hs : Stale s) : Stale s' := by
  obtain ⟨tsk, htsk, hid, hdead⟩ := hs
  obtain ⟨c, procs, -, hc, rfl⟩ | ⟨node, current, w, rfl, -, rfl⟩ := step_cases h
  · exact ⟨tsk, htsk, Processes.not_alive_change hid hdead hc⟩
  · cases node with
    | pid => exact ha.elim
    | signal =>
      unfold myProcWrite
      cases w.copied with
      | none => exact ⟨tsk, htsk, hid, hdead⟩
      | some str =>
        refine ⟨tsk, ?_, ?_, ?_⟩ <;> simp only [writeSignal, htsk, sendSig]
        exacts [hid, hdead]

/-- Once the task in `sig_tsk` has exited, the pointer stays stale whatever else happens,
also if its pid is used again, until the next write to `pid`. -/
theorem stale_run : ∀ {acts : List Act} {s s' : State}, (∀ a ∈ acts, a.KeepsTsk) →
    runFrom step s acts = some s' → Stale s → Stale s'
  | [], s, s', _, h, hs => by
    obtain rfl := Option.some.inj h
    exact hs
  | a :: acts, s, s', ha, h, hs => by
    obtain ⟨t, ht, h⟩ := Option.bind_eq_some_iff.1 h
    refine stale_run (fun b hb => ha b (List.mem_cons_of_mem a hb)) h ?_
    exact stale_step (ha a List.mem_cons_self) ht hs

theorem stale_exit {s : State} {tsk : Task} (htsk : s.sigTsk = some tsk)
    (halive : s.procs.Alive tsk) : Stale { s with procs := s.procs.exit tsk.pid } :=
  ⟨tsk, htsk, s.procs.id_lt halive, fun h => (Processes.alive_exit_iff.1 h).1 rfl⟩

/-- After the exit of the task in `sig_tsk`, and before the next write to `pid`, every
signal goes to the exited task. -/
theorem not_sendsOk_after_exit {s s' : State} {tsk : Task} (htsk : s.sigTsk = some tsk)
    (halive : s.procs.Alive tsk) {acts : List Act} (hacts : ∀ a ∈ acts, a.KeepsTsk)
    (hrun : runFrom step { s with procs := s.procs.exit tsk.pid } acts = some s')
    (current : Task) {w : WriteCall} (hw : w.copied ≠ none) :
    ¬SendsOk (myProcWrite s' .signal current w).2 := by
  obtain ⟨t, ht, -, hdead⟩ := stale_run hacts hrun (stale_exit htsk halive)
  obtain ⟨str, hstr⟩ := Option.ne_none_iff_exists'.1 hw
  intro h
  simp only [myProcWrite, hstr, writeSignal, ht, sendSig] at h
  obtain ⟨hsent, -⟩ := h _ (List.mem_append_right _ (List.mem_singleton_self _))
  exact hdead (of_decide_eq_true hsent)

/-! ## The result of a write to `signal` -/

section Result

-- What `send_sig` returns, `0` if it accepts the signal.
variable (sendRet : Processes → Int32 → Task → ℤ)

/-- The task a write to `signal` sends to : the one in `sig_tsk`, or the writer if there is
none. -/
def target (s : State) (current : Task) : Task := s.sigTsk.getD current

/-- The text is copied and starts with `sig`, which `send_sig` accepts for the target. -/
def AcceptedAs (s : State) (current : Task) (w : WriteCall) (sig : Int32) : Prop :=
  w.copied ≠ none ∧ scanInt w.text = some sig ∧ sendRet s.procs sig (target s current) = 0

/-- The text names a signal that is accepted. -/
def Accepted (s : State) (current : Task) (w : WriteCall) : Prop :=
  ∃ sig, AcceptedAs sendRet s current w sig

/-- A write to `signal` succeeds exactly for a signal that is accepted, which it sends to the
target and no other, and else has no effect. -/
structure WriteOk (s : State) (current : Task) (w : WriteCall) : Prop where
  count_iff : (myProcWrite s .signal current w).1 = w.count ↔ Accepted sendRet s current w
  sends : ∀ sig, AcceptedAs sendRet s current w sig →
    (myProcWrite s .signal current w).2.sigTosend = sig ∧
      ∃ e, (myProcWrite s .signal current w).2.sent = s.sent ++ [e] ∧ e.sig = sig ∧
        e.task = target s current
  ret : ¬Accepted sendRet s current w → (myProcWrite s .signal current w).1 < 0
  noSignal : ¬Accepted sendRet s current w →
    ∀ e ∈ (myProcWrite s .signal current w).2.sent.drop s.sent.length,
      sendRet s.procs e.sig e.task ≠ 0
  kept : ¬Accepted sendRet s current w →
    (myProcWrite s .signal current w).2.sigTosend = s.sigTosend ∧
      (myProcWrite s .signal current w).2.sigPid = s.sigPid ∧
      (myProcWrite s .signal current w).2.sigTsk = s.sigTsk

/-- Every text with its NUL that is written to `signal` is treated so. -/
def SignalOk (s : State) : Act → Prop
  | .write .signal current w => 0 ∈ w.text → WriteOk sendRet s current w
  | _ => True

/-- Every such text is not copied, or starts with a signal that is accepted. -/
def NamesSignal (s : State) : Act → Prop
  | .write .signal current w => 0 ∈ w.text → w.copied ≠ none →
      ∃ sig, scanInt w.text = some sig ∧ sendRet s.procs sig (target s current) = 0
  | _ => True

theorem writeOk_of_not_copied {s : State} {w : WriteCall} (current : Task) (hw : w.copied = none) :
    WriteOk sendRet s current w := by
  have hrejected : ¬Accepted sendRet s current w := fun ⟨_, h⟩ => h.1 hw
  have hcount : (0 : ℤ) ≤ w.count := Int.natCast_nonneg _
  have hwrite : myProcWrite s .signal current w = (-EFAULT, s) := by rw [myProcWrite, hw]
  refine ⟨iff_of_false ?_ hrejected, fun _ h => absurd hw h.1, fun _ => ?_, fun _ => ?_,
    fun _ => ?_⟩
  · rw [hwrite]
    simp only [EFAULT]
    omega
  · rw [hwrite]
    simp [EFAULT]
  · rw [hwrite, List.drop_length]
    simp
  · rw [hwrite]
    exact ⟨rfl, rfl, rfl⟩

/-- A write to `signal` calls `send_sig` once, on the target, with the signal it stores. -/
theorem sent_writeSignal (s : State) (current : Task) (str : List UInt8) :
    ∃ e, (writeSignal s current str).sent = s.sent ++ [e] ∧
      e.sig = (scanInt str).getD s.sigTosend ∧ e.task = target s current := by
  unfold writeSignal target
  cases s.sigTsk with
  | none => exact ⟨_, rfl, rfl, rfl⟩
  | some tsk => exact ⟨_, rfl, rfl, rfl⟩

theorem sigTosend_writeSignal (s : State) (current : Task) (str : List UInt8) :
    (writeSignal s current str).sigTosend = (scanInt str).getD s.sigTosend := by
  unfold writeSignal
  cases s.sigTsk <;> rfl

/-- A text that is copied always gives `count`. -/
theorem writeOk_of_copied {s : State} {w : WriteCall} (current : Task) (hnul : 0 ∈ w.text)
    (hw : w.copied ≠ none) :
    WriteOk sendRet s current w ↔ Accepted sendRet s current w := by
  obtain ⟨str, hstr⟩ := Option.ne_none_iff_exists'.1 hw
  have hwrite : myProcWrite s .signal current w = (w.count, writeSignal s current str) := by
    rw [myProcWrite, hstr]
  constructor
  · intro h
    exact h.count_iff.1 (by rw [hwrite])
  · intro h
    refine ⟨iff_of_true (by rw [hwrite]) h, fun sig hsig => ?_, fun hn => absurd h hn,
      fun hn => absurd h hn, fun hn => absurd h hn⟩
    have hscan : scanInt str = some sig := (WriteCall.scanInt_of_copied hnul hstr).trans hsig.2.1
    obtain ⟨e, hsent, he, htask⟩ := sent_writeSignal s current str
    rw [hscan] at he
    rw [hwrite, sigTosend_writeSignal, hscan]
    exact ⟨rfl, e, hsent, he, htask⟩

theorem signalOk_iff (s : State) (a : Act) : SignalOk sendRet s a ↔ NamesSignal sendRet s a := by
  cases a with
  | procs c => exact Iff.rfl
  | write node current w =>
    cases node with
    | pid => exact Iff.rfl
    | signal =>
      refine forall_congr' fun hnul => ?_
      by_cases hw : w.copied = none
      · exact iff_of_true (writeOk_of_not_copied sendRet current hw) fun h => absurd hw h
      · rw [writeOk_of_copied sendRet current hnul hw, imp_iff_right hw]
        exact exists_congr fun sig => and_iff_right hw

end Result

/-- From every state and in every run, each text with its NUL that is written to `signal` has
the effect of the signal it names and no other exactly when each of them is not copied, or
names a signal that `send_sig` accepts. -/
theorem signal_write_iff (sendRet : Processes → Int32 → Task → ℤ) (s : State) (acts : List Act) :
    Along step (SignalOk sendRet) s acts ↔ Along step (NamesSignal sendRet) s acts :=
  along_congr (signalOk_iff sendRet) acts

/-- `send_sig` for a task of the same user : signals up to `_NSIG` are accepted, and others give
`-EINVAL`. -/
def sendSigRet (_ : Processes) (sig : Int32) (_ : Task) : ℤ :=
  if 0 ≤ sig ∧ sig ≤ 64 then 0 else -EINVAL

/-- Process `1` writes the letter `x` to `signal` after the module is loaded : the call returns
`2`, and sends `SIGUSR1`. -/
theorem not_signal_write_letter :
    ¬Along step (SignalOk sendSigRet) (initial (Processes.empty.fork 1 0 (by decide)))
      [.write .signal ⟨0, 1, 0⟩ ⟨[120, 0], 0, []⟩] := by
  rw [along_cons]
  intro h
  have hok : WriteOk sendSigRet _ _ _ := (h _ rfl).1 (by decide)
  obtain ⟨sig, -, hsig, -⟩ := hok.count_iff.1 rfl
  have hnone : scanInt [120, 0] = none := by decide
  rw [hnone] at hsig
  cases hsig

end KernelExamples.SigProc
