import KernelExamples.Traces
import Mathlib.Data.UInt
import Mathlib.Logic.Function.Basic

/-!
# Who can reset the machine

The probes of `kprobes/efi_reboot_monitor.c` on `sys_ioperm`, `sys_iopl` and
`acpi_os_write_port`. The ports `0xcf9` and `0x64` reset the machine. A probe runs before the
function it is on, so it also sees the calls that fail.

A step is a system call, a `fork`, a write to a port by a process or one by ACPI, in any order,
with the module loaded. A process may write to a port if its `iopl` is `3` or the port is in its
`ioperm` bitmap, and a new process gets both from its parent. Processes are not used twice.

`ioperm` is reported for a range that holds one of the ports or ends just before it
(`reported_iff`). So every process that may write to one of them is explained by the log, itself
or through an ancestor, unless an ancestor had the permission when the module was loaded. ACPI is
reported for `0xcf9` and not for `0x64` (`monitor_accounts`).
-/

namespace KernelExamples.PortMonitor

open Traces

/-! ## The source -/

inductive Report (T : Type*)
  | ioperm (caller : T) (first num : UInt64) (turnOn : Int32)
  | iopl (caller : T) (level : UInt32)
  | acpi (port : UInt64) (value width : UInt32)

variable {T : Type*}

/-- The test of `myjp_ioperm`. -/
def Reported (first num : UInt64) : Prop :=
  (0xcf9 ≥ first ∧ 0xcf9 ≤ first + num) ∨ (0x64 ≥ first ∧ 0x64 ≤ first + num)

instance (first num : UInt64) : Decidable (Reported first num) :=
  inferInstanceAs (Decidable (_ ∨ _))

def myjpIoperm (log : List (Report T)) (caller : T) (first num : UInt64) (turnOn : Int32) :
    List (Report T) :=
  if Reported first num then log ++ [.ioperm caller first num turnOn] else log

def myjpIopl (log : List (Report T)) (caller : T) (level : UInt32) : List (Report T) :=
  log ++ [.iopl caller level]

def myjpAcpiOsWritePort (log : List (Report T)) (port : UInt64) (value width : UInt32) :
    List (Report T) :=
  if port = 0xcf9 then log ++ [.acpi port value width] else log

/-! ## The kernel's side -/

/-- The permissions of a process. -/
structure Perms where
  ioBitmap : UInt16 → Bool
  iopl : UInt32

/-- The process may write to the port. -/
def Perms.Allows (perms : Perms) (port : UInt16) : Prop :=
  perms.iopl = 3 ∨ perms.ioBitmap port = true

instance (perms : Perms) (port : UInt16) : Decidable (perms.Allows port) :=
  inferInstanceAs (Decidable (_ ∨ _))

/-- The range is one that `sys_ioperm` takes. -/
def Accepted (first num : UInt64) : Prop := ¬(first + num ≤ first ∨ first + num > 65536)

instance (first num : UInt64) : Decidable (Accepted first num) := inferInstanceAs (Decidable (¬_))

/-- The port is in the range. -/
def Covers (first num : UInt64) (port : UInt16) : Prop :=
  first ≤ port.toUInt64 ∧ port.toUInt64 < first + num

instance (first num : UInt64) (port : UInt16) : Decidable (Covers first num port) :=
  inferInstanceAs (Decidable (_ ∧ _))

/-- `sys_ioperm`. `capable` says whether the caller may turn ports on. -/
def sysIoperm (perms : Perms) (first num : UInt64) (turnOn : Int32) (capable : Bool) : Perms :=
  if Accepted first num ∧ (turnOn = 0 ∨ capable = true) then
    { perms with
      ioBitmap := fun port =>
        if Covers first num port then decide (turnOn ≠ 0) else perms.ioBitmap port }
  else perms

/-- `sys_iopl`. `capable` says whether the caller may raise its level. -/
def sysIopl (perms : Perms) (level : UInt32) (capable : Bool) : Perms :=
  if level ≤ 3 ∧ (level ≤ perms.iopl ∨ capable = true) then { perms with iopl := level } else perms

/-- A process, with itself and its ancestors since the module was loaded. -/
structure Process (T : Type*) where
  perms : Perms
  lineage : List T

/-- A write that reached a port. -/
inductive Write (T : Type*)
  | user (writer : T) (port : UInt16)
  | acpi (port : UInt64) (value width : UInt32)

structure State (T : Type*) where
  procs : T → Option (Process T)
  log : List (Report T)
  writes : List (Write T)

inductive Act (T : Type*)
  | ioperm (caller : T) (first num : UInt64) (turnOn : Int32) (capable : Bool)
  | iopl (caller : T) (level : UInt32) (capable : Bool)
  | fork (parent child : T)
  | outb (writer : T) (port : UInt16)
  | acpiWrite (port : UInt64) (value width : UInt32)

/-- The module is loaded while the processes have these permissions. -/
def loaded (perms : T → Option Perms) : State T where
  procs t := (perms t).map fun p => ⟨p, [t]⟩
  log := []
  writes := []

def step [DecidableEq T] (s : State T) : Act T → Option (State T)
  | .ioperm t first num turnOn capable =>
    (s.procs t).map fun p => { s with
      log := myjpIoperm s.log t first num turnOn
      procs := Function.update s.procs t
        (some { p with perms := sysIoperm p.perms first num turnOn capable }) }
  | .iopl t level capable =>
    (s.procs t).map fun p => { s with
      log := myjpIopl s.log t level
      procs := Function.update s.procs t (some { p with perms := sysIopl p.perms level capable }) }
  | .fork t child =>
    (s.procs t).bind fun p =>
      if (s.procs child).isNone then
        some { s with
          procs := Function.update s.procs child (some ⟨p.perms, child :: p.lineage⟩) }
      else none
  | .outb t port =>
    (s.procs t).bind fun p =>
      if p.perms.Allows port then some { s with writes := s.writes ++ [.user t port] } else none
  | .acpiWrite port value width =>
    some { s with
      log := myjpAcpiOsWritePort s.log port value width
      writes := s.writes ++ [.acpi port value width] }

/-! ## Reports -/

/-- The ports that reset the machine. -/
def Watched (port : UInt16) : Prop := port = 0xcf9 ∨ port = 0x64

/-- A call of `ioperm` that the kernel takes is reported exactly if its range holds one of the
ports, or ends just before one. -/
theorem reported_iff {first num : UInt64} (h : Accepted first num) :
    Reported first num ↔ (∃ port, Watched port ∧ Covers first num port) ∨
      first + num = 0xcf9 ∨ first + num = 0x64 := by
  simp only [Accepted, not_or, UInt64.not_le] at h
  constructor
  · rintro (⟨hfirst, hlast⟩ | ⟨hfirst, hlast⟩)
    · rcases UInt64.lt_or_eq_of_le hlast with hlt | heq
      · exact .inl ⟨0xcf9, .inl rfl, hfirst, hlt⟩
      · exact .inr (.inl heq.symm)
    · rcases UInt64.lt_or_eq_of_le hlast with hlt | heq
      · exact .inl ⟨0x64, .inr rfl, hfirst, hlt⟩
      · exact .inr (.inr heq.symm)
  · rintro (⟨port, rfl | rfl, hfirst, hlast⟩ | heq | heq)
    · exact .inl ⟨hfirst, UInt64.le_of_lt hlast⟩
    · exact .inr ⟨hfirst, UInt64.le_of_lt hlast⟩
    · exact .inl ⟨heq ▸ UInt64.le_of_lt h.1, UInt64.le_of_eq heq.symm⟩
    · exact .inr ⟨heq ▸ UInt64.le_of_lt h.1, UInt64.le_of_eq heq.symm⟩

/-- Why a process may write to a port : it could when the module was loaded, or the log has the
call that lets it. -/
def Explained (perms : T → Option Perms) (log : List (Report T)) (t : T) (port : UInt16) : Prop :=
  (∃ p, perms t = some p ∧ p.Allows port) ∨
    (∃ first num turnOn, Report.ioperm t first num turnOn ∈ log ∧ turnOn ≠ 0 ∧
      Covers first num port) ∨
    Report.iopl t 3 ∈ log

variable {perms : T → Option Perms} {log more : List (Report T)} {t : T} {port : UInt16}

theorem Explained.append (h : Explained perms log t port) :
    Explained perms (log ++ more) t port := by
  rcases h with h | ⟨first, num, turnOn, hmem, h⟩ | h
  · exact .inl h
  · exact .inr (.inl ⟨first, num, turnOn, List.mem_append_left more hmem, h⟩)
  · exact .inr (.inr (List.mem_append_left more h))

/-- What `ioperm` allows was allowed before it, or is explained by its report. -/
theorem allows_sysIoperm {p : Perms} {first num : UInt64} {turnOn : Int32} {capable : Bool}
    (hport : Watched port) (h : (sysIoperm p first num turnOn capable).Allows port) :
    p.Allows port ∨ Explained perms (myjpIoperm log t first num turnOn) t port := by
  unfold sysIoperm at h
  split_ifs at h with hrange
  · rcases h with h | h
    · exact .inl (.inl h)
    · by_cases hcovers : Covers first num port
      · have hreported := (reported_iff hrange.1).2 (.inl ⟨port, hport, hcovers⟩)
        have hon : turnOn ≠ 0 := by simpa [hcovers] using h
        refine .inr (.inr (.inl ⟨first, num, turnOn, ?_, hon, hcovers⟩))
        rw [myjpIoperm, if_pos hreported]
        exact List.mem_append_right log List.mem_cons_self
      · exact .inl (.inr (by simpa [hcovers] using h))
  · exact .inl h

theorem allows_sysIopl {p : Perms} {level : UInt32} {capable : Bool}
    (h : (sysIopl p level capable).Allows port) :
    p.Allows port ∨ Explained perms (myjpIopl log t level) t port := by
  unfold sysIopl at h
  split_ifs at h with hlevel
  · rcases h with h | h
    · refine .inr (.inr (.inr ?_))
      obtain rfl : level = 3 := h
      exact List.mem_append_right log List.mem_cons_self
    · exact .inl (.inr h)
  · exact .inl h

/-! ## Runs -/

/-- The writes of ACPI that the log has, in order. -/
def acpiReports (log : List (Report T)) : List (UInt64 × UInt32 × UInt32) :=
  log.filterMap fun
    | .acpi port value width => some (port, value, width)
    | _ => none

/-- The writes of ACPI to `0xcf9`, in order. -/
def acpiResets (writes : List (Write T)) : List (UInt64 × UInt32 × UInt32) :=
  writes.filterMap fun
    | .acpi port value width => if port = 0xcf9 then some (port, value, width) else none
    | _ => none

theorem acpiReports_append (log more : List (Report T)) :
    acpiReports (log ++ more) = acpiReports log ++ acpiReports more :=
  List.filterMap_append

theorem acpiResets_append (writes more : List (Write T)) :
    acpiResets (writes ++ more) = acpiResets writes ++ acpiResets more :=
  List.filterMap_append

/-- Every permission for one of the ports, and every write to one by a process, is explained for
the process or an ancestor, and the writes of ACPI in the log are those to `0xcf9`, in order. -/
structure Accounted (perms : T → Option Perms) (s : State T) : Prop where
  self : ∀ t p, s.procs t = some p → t ∈ p.lineage
  allows : ∀ t p port, s.procs t = some p → Watched port → p.perms.Allows port →
    ∃ u ∈ p.lineage, Explained perms s.log u port
  user : ∀ t port, .user t port ∈ s.writes → Watched port →
    ∃ p, s.procs t = some p ∧ ∃ u ∈ p.lineage, Explained perms s.log u port
  acpi : acpiReports s.log = acpiResets s.writes

variable [DecidableEq T] {s s' : State T}

omit [DecidableEq T] in
/-- What is explained stays so when the log grows. -/
theorem exists_explained_append {us : List T} (h : ∃ u ∈ us, Explained perms log u port) :
    ∃ u ∈ us, Explained perms (log ++ more) u port := by
  obtain ⟨u, hu, hexp⟩ := h
  exact ⟨u, hu, hexp.append⟩

theorem of_update_eq_some {procs : T → Option (Process T)} {x q : Process T} {u : T}
    (h : Function.update procs t (some x) u = some q) :
    (u = t ∧ q = x) ∨ procs u = some q := by
  by_cases hu : u = t
  · rw [hu, Function.update_self] at h
    exact .inl ⟨hu, (Option.some.inj h).symm⟩
  · rw [Function.update_of_ne hu] at h
    exact .inr h

/-- A call that sets permissions to what the log then explains. -/
theorem Accounted.setPerms (hs : Accounted perms s) {p : Process T} (hp : s.procs t = some p)
    {perms' : Perms} (hmore : acpiReports more = [])
    (h : ∀ port, Watched port → perms'.Allows port →
      p.perms.Allows port ∨ Explained perms (s.log ++ more) t port) :
    Accounted perms { s with
      log := s.log ++ more
      procs := Function.update s.procs t (some { p with perms := perms' }) } := by
  refine ⟨fun u q hq => ?_, fun u q port hq hport hallows => ?_, fun u port hmem hport => ?_, ?_⟩
  · rcases of_update_eq_some hq with ⟨rfl, rfl⟩ | hq
    · exact hs.self u p hp
    · exact hs.self u q hq
  · rcases of_update_eq_some hq with ⟨rfl, rfl⟩ | hq
    · rcases h port hport hallows with hbefore | hnow
      · exact exists_explained_append (hs.allows u p port hp hport hbefore)
      · exact ⟨u, hs.self u p hp, hnow⟩
    · exact exists_explained_append (hs.allows u q port hq hport hallows)
  · obtain ⟨q, hq, hexp⟩ := hs.user u port hmem hport
    by_cases hu : u = t
    · obtain rfl : p = q := Option.some.inj (hp.symm.trans (hu ▸ hq))
      subst hu
      exact ⟨_, Function.update_self u _ _, exists_explained_append hexp⟩
    · exact ⟨q, (Function.update_of_ne hu _ _).trans hq, exists_explained_append hexp⟩
  · rw [acpiReports_append, hmore, List.append_nil]
    exact hs.acpi

/-- The child has what explains its parent. -/
theorem Accounted.fork (hs : Accounted perms s) {p : Process T} (hp : s.procs t = some p)
    {child : T} (hchild : s.procs child = none) :
    Accounted perms { s with
      procs := Function.update s.procs child (some ⟨p.perms, child :: p.lineage⟩) } := by
  refine ⟨fun u q hq => ?_, fun u q port hq hport hallows => ?_, fun u port hmem hport => ?_,
    hs.acpi⟩
  · rcases of_update_eq_some hq with ⟨rfl, rfl⟩ | hq
    · exact List.mem_cons_self
    · exact hs.self u q hq
  · rcases of_update_eq_some hq with ⟨rfl, rfl⟩ | hq
    · obtain ⟨v, hv, hexp⟩ := hs.allows t p port hp hport hallows
      exact ⟨v, List.mem_cons_of_mem u hv, hexp⟩
    · exact hs.allows u q port hq hport hallows
  · obtain ⟨q, hq, hexp⟩ := hs.user u port hmem hport
    have hu : u ≠ child := by
      rintro rfl
      rw [hchild] at hq
      cases hq
    exact ⟨q, (Function.update_of_ne hu _ _).trans hq, hexp⟩

theorem Accounted.ioperm (hs : Accounted perms s) {p : Process T} (hp : s.procs t = some p)
    (first num : UInt64) (turnOn : Int32) (capable : Bool) :
    Accounted perms { s with
      log := myjpIoperm s.log t first num turnOn
      procs := Function.update s.procs t
        (some { p with perms := sysIoperm p.perms first num turnOn capable }) } := by
  obtain ⟨more, hmore, hacpi⟩ : ∃ more, myjpIoperm s.log t first num turnOn = s.log ++ more ∧
      acpiReports more = [] := by
    unfold myjpIoperm
    split_ifs
    · exact ⟨_, rfl, rfl⟩
    · exact ⟨[], (List.append_nil _).symm, rfl⟩
  rw [hmore]
  refine hs.setPerms hp hacpi fun port hport hallows => ?_
  rw [← hmore]
  exact allows_sysIoperm hport hallows

theorem Accounted.iopl (hs : Accounted perms s) {p : Process T} (hp : s.procs t = some p)
    (level : UInt32) (capable : Bool) :
    Accounted perms { s with
      log := myjpIopl s.log t level
      procs := Function.update s.procs t
        (some { p with perms := sysIopl p.perms level capable }) } :=
  hs.setPerms hp rfl fun _ _ hallows => allows_sysIopl hallows

omit [DecidableEq T] in
theorem Accounted.outb (hs : Accounted perms s) {p : Process T} (hp : s.procs t = some p)
    (hallows : p.perms.Allows port) :
    Accounted perms { s with writes := s.writes ++ [.user t port] } := by
  refine ⟨hs.self, hs.allows, fun u port' hmem hport => ?_, ?_⟩
  · rcases List.mem_append.1 hmem with hmem | hmem
    · exact hs.user u port' hmem hport
    · cases List.mem_singleton.1 hmem
      exact ⟨p, hp, hs.allows t p port hp hport hallows⟩
  · rw [acpiResets_append]
    exact hs.acpi.trans (List.append_nil _).symm

omit [DecidableEq T] in
/-- A write of ACPI is logged if it goes to `0xcf9`. -/
theorem Accounted.acpiWrite (hs : Accounted perms s) (port : UInt64) (value width : UInt32) :
    Accounted perms { s with
      log := myjpAcpiOsWritePort s.log port value width
      writes := s.writes ++ [.acpi port value width] } := by
  obtain ⟨more, hmore, hacpi⟩ : ∃ more, myjpAcpiOsWritePort s.log port value width = s.log ++ more ∧
      acpiReports more = acpiResets [Write.acpi (T := T) port value width] := by
    unfold myjpAcpiOsWritePort
    split_ifs with hport
    · exact ⟨_, rfl, by simp [acpiReports, acpiResets, hport]⟩
    · exact ⟨[], (List.append_nil _).symm, by simp [acpiReports, acpiResets, hport]⟩
  rw [hmore]
  refine ⟨hs.self, fun u q port' hq hport hallows => ?_, fun u port' huser hport => ?_, ?_⟩
  · exact exists_explained_append (hs.allows u q port' hq hport hallows)
  · obtain ⟨q, hq, hexp⟩ := hs.user u port' (by simpa using huser) hport
    exact ⟨q, hq, exists_explained_append hexp⟩
  · rw [acpiReports_append, acpiResets_append, hs.acpi, hacpi]

theorem accounted_step {a : Act T} (hs : Accounted perms s) (h : step s a = some s') :
    Accounted perms s' := by
  cases a with
  | ioperm t first num turnOn capable =>
    obtain ⟨p, hp, rfl⟩ := Option.map_eq_some_iff.1 h
    exact hs.ioperm hp first num turnOn capable
  | iopl t level capable =>
    obtain ⟨p, hp, rfl⟩ := Option.map_eq_some_iff.1 h
    exact hs.iopl hp level capable
  | fork t child =>
    obtain ⟨p, hp, h⟩ := Option.bind_eq_some_iff.1 h
    obtain ⟨hchild, rfl⟩ := of_guard h
    exact hs.fork hp (Option.isNone_iff_eq_none.1 hchild)
  | outb t port =>
    obtain ⟨p, hp, h⟩ := Option.bind_eq_some_iff.1 h
    obtain ⟨hallows, rfl⟩ := of_guard h
    exact hs.outb hp hallows
  | acpiWrite port value width =>
    cases h
    exact hs.acpiWrite port value width

/-- In every state of every run with the module loaded, whatever the permissions were before it,
the log accounts for every process that may write to one of the ports and every such write. -/
theorem monitor_accounts (perms : T → Option Perms) (as : List (Act T)) :
    Throughout step (Accounted perms) (loaded perms) as := by
  refine throughout_of_step (fun _ _ _ => accounted_step) as ⟨fun t p hp => ?_,
    fun t p port hp _ hallows => ?_, fun t port hmem => ?_, rfl⟩
  · obtain ⟨q, -, rfl⟩ := Option.map_eq_some_iff.1 hp
    exact List.mem_cons_self
  · obtain ⟨q, hq, rfl⟩ := Option.map_eq_some_iff.1 hp
    exact ⟨t, List.mem_cons_self, .inl ⟨q, hq, hallows⟩⟩
  · simp [loaded] at hmem

end KernelExamples.PortMonitor
