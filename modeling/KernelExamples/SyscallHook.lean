import KernelExamples.Threads

/-!
# A hook in the system call table

`syscalls/mysyscalls.c`. `my_init` saves the entry of `open` in `orig_open` and replaces it by
`myopen`, which prints the name and calls `orig_open`. `my_exit` puts the entry back, and then
the text of the module is freed. The module can be loaded again : `gen` counts how often it was
freed, and the text of a generation below `gen` is gone.

Any number of processes call `open` meanwhile. A call reads the table once, so it can be in
`myopen` when the entry is back in place. No interleaving of calls with loads and unloads can
tell the hook from the original (`hook_transparent`), but the text is freed under a call unless
none is in `myopen` at that moment (`no_call_in_freed_iff`) : nothing in the module waits.
-/

set_option linter.unusedSectionVars false

namespace KernelExamples.SyscallHook

open Traces Threads

/-! ## The source -/

/-- An entry of the table : a handler of the kernel, or the `myopen` of a generation. -/
inductive Handler (K : Type*)
  | kernel (k : K)
  | myopen (gen : ℕ)

/-- Not loaded, in `my_init` before and after `orig_open` is set, loaded, or past `my_exit`. -/
inductive Phase
  | absent
  | loading
  | saved
  | hooked
  | restored
  deriving DecidableEq

/-- The table, and the module. -/
structure Shared (K : Type*) where
  table : ℕ → Handler K
  gen : ℕ
  phase : Phase
  origOpen : Option (Handler K)

/-- Where a process is : outside `open`, in `myopen` at the test of `orig_open`, in a handler of
the kernel called by `myopen` or by the table, or in text that is gone. -/
inductive Pc (K A : Type*)
  | idle
  | hook (args : A) (gen : ℕ)
  | inKernel (args : A) (k : K) (caller : Option ℕ)
  | crashed

/-- A process : the handlers its call of `open` has called, with their results, and the calls
that have returned, with what they called. -/
structure Process (K A : Type*) where
  pc : Pc K A
  made : List (K × A × ℤ)
  returned : List (A × List (K × A × ℤ) × ℤ)

inductive Act (A : Type*)
  | load
  | save
  | hook
  | restore
  | free
  | call (args : A)
  | run
  | ret (result : ℤ)

variable {T K A : Type*} (nrOpen : ℕ)

/-- The process is dispatched to a handler. -/
def Process.dispatch (p : Process K A) (args : A) (caller : Option ℕ) : Handler K → Process K A
  | .kernel k => { p with pc := .inKernel args k caller }
  | .myopen gen => { p with pc := .hook args gen }

/-- The call returns. -/
def Process.finish (p : Process K A) (args : A) (result : ℤ) : Process K A :=
  { pc := .idle, made := [], returned := p.returned ++ [(args, p.made, result)] }

/-- The test of `orig_open`, and what comes after it. -/
def myopen (g : Shared K) (p : Process K A) (args : A) (gen : ℕ) : Process K A :=
  if gen < g.gen then { p with pc := .crashed }
  else
    match g.origOpen with
    | none => p.finish args (-1)
    | some h => p.dispatch args (some gen) h

/-- The handler returns to the process, or to `myopen` which returns its result. -/
def handlerReturn (g : Shared K) (p : Process K A) (args : A) (k : K) (caller : Option ℕ)
    (result : ℤ) : Process K A :=
  if ∃ gen ∈ caller, gen < g.gen then { p with pc := .crashed }
  else { p with made := p.made ++ [(k, args, result)] }.finish args result

/-- One step of a process, or of the one that loads or unloads the module. -/
def prog (_ : T) : Act A → Shared K → Process K A → Option (Shared K × Process K A)
  | .load, g, p =>
    if g.phase = .absent then some ({ g with phase := .loading, origOpen := none }, p) else none
  | .save, g, p =>
    if g.phase = .loading then
      some ({ g with phase := .saved, origOpen := some (g.table nrOpen) }, p)
    else none
  | .hook, g, p =>
    if g.phase = .saved then
      some ({ g with phase := .hooked
                     table := Function.update g.table nrOpen (.myopen g.gen) }, p)
    else none
  | .restore, g, p =>
    if g.phase = .hooked then
      some ({ g with phase := .restored
                     table := match g.origOpen with
                       | none => g.table
                       | some h => Function.update g.table nrOpen h }, p)
    else none
  | .free, g, p =>
    if g.phase = .restored then
      some ({ g with phase := .absent, gen := g.gen + 1, origOpen := none }, p)
    else none
  | .call args, g, p =>
    match p.pc with
    | .idle => some (g, p.dispatch args none (g.table nrOpen))
    | _ => none
  | .run, g, p =>
    match p.pc with
    | .hook args gen => some (g, myopen g p args gen)
    | _ => none
  | .ret result, g, p =>
    match p.pc with
    | .inKernel args k caller => some (g, handlerReturn g p args k caller result)
    | _ => none

/-- The table of the kernel, and no call. -/
def initial (table : ℕ → K) : Threads.State T (Shared K) (Process K A) :=
  ⟨⟨fun n => .kernel (table n), 0, .absent, none⟩, fun _ => ⟨.idle, [], []⟩⟩

/-! ## The invariant -/

variable (table : ℕ → K)

/-- The table is that of the kernel, with `myopen` in the place of `open` while it is hooked, and
`orig_open` is the handler of the kernel from when it is set to when it is freed. -/
structure Installed (g : Shared K) : Prop where
  table_eq : g.table = if g.phase = .hooked then
      Function.update (fun n => .kernel (table n)) nrOpen (.myopen g.gen)
    else fun n => .kernel (table n)
  orig : g.phase ≠ .absent → g.phase ≠ .loading → g.origOpen = some (.kernel (table nrOpen))

/-- `myopen` of this generation is installed, or was and is freed. -/
def Entered (g : Shared K) (gen : ℕ) : Prop :=
  gen < g.gen ∨ gen = g.gen ∧ (g.phase = .hooked ∨ g.phase = .restored)

/-- What a process in `open` has done. -/
def Transparent (nrOpen : ℕ) (table : ℕ → K) (call : A × List (K × A × ℤ) × ℤ) : Prop :=
  call.2.1 = [(table nrOpen, call.1, call.2.2)]

structure Served (g : Shared K) (p : Process K A) : Prop where
  made : p.made = []
  hook : ∀ args gen, p.pc = .hook args gen → Entered g gen
  kernel : ∀ args k caller, p.pc = .inKernel args k caller →
    k = table nrOpen ∧ ∀ gen ∈ caller, Entered g gen
  returned : ∀ call ∈ p.returned, Transparent nrOpen table call

variable {nrOpen table} {t : T} {a : Act A} {g g' : Shared K} {p p' : Process K A}

/-- What a step does to the shared part. -/
inductive Changes (nrOpen : ℕ) : Shared K → Shared K → Prop
  | load {g : Shared K} : g.phase = .absent →
      Changes nrOpen g { g with phase := .loading, origOpen := none }
  | save {g : Shared K} : g.phase = .loading →
      Changes nrOpen g { g with phase := .saved, origOpen := some (g.table nrOpen) }
  | hook {g : Shared K} : g.phase = .saved → Changes nrOpen g { g with
      phase := .hooked
      table := Function.update g.table nrOpen (.myopen g.gen) }
  | restore {g : Shared K} {h : Handler K} : g.phase = .hooked → g.origOpen = some h →
      Changes nrOpen g { g with
        phase := .restored
        table := Function.update g.table nrOpen h }
  | free {g : Shared K} : g.phase = .restored →
      Changes nrOpen g { g with phase := .absent, gen := g.gen + 1, origOpen := none }

/-- A step changes the module and no process, or a process and nothing else. -/
theorem prog_cases (hg : Installed nrOpen table g) (h : prog nrOpen t a g p = some (g', p')) :
    p' = p ∧ Changes nrOpen g g' ∧
        (a = .free ∧ g'.gen = g.gen + 1 ∨ a ≠ .free ∧ g'.gen = g.gen) ∨
      g' = g ∧ a ≠ .free ∧
        ((∃ args, p.pc = .idle ∧ p' = p.dispatch args none (g.table nrOpen)) ∨
          (∃ args gen, p.pc = .hook args gen ∧ p' = myopen g p args gen) ∨
          ∃ args k caller result, p.pc = .inKernel args k caller ∧
            p' = handlerReturn g p args k caller result) := by
  cases a with
  | load =>
    obtain ⟨hphase, h⟩ := of_guard h
    cases h
    exact .inl ⟨rfl, .load hphase, by simp⟩
  | save =>
    obtain ⟨hphase, h⟩ := of_guard h
    cases h
    exact .inl ⟨rfl, .save hphase, by simp⟩
  | hook =>
    obtain ⟨hphase, h⟩ := of_guard h
    cases h
    exact .inl ⟨rfl, .hook hphase, by simp⟩
  | restore =>
    obtain ⟨hphase, h⟩ := of_guard h
    have horig := hg.orig (by simp [hphase]) (by simp [hphase])
    have hrestore : Changes nrOpen g _ := .restore hphase horig
    simp only [horig, Prod.mk.injEq] at h hrestore
    obtain ⟨rfl, rfl⟩ := h
    exact .inl ⟨rfl, hrestore, by simp⟩
  | free =>
    obtain ⟨hphase, h⟩ := of_guard h
    cases h
    exact .inl ⟨rfl, .free hphase, by simp⟩
  | call args =>
    cases hpc : p.pc with
    | idle =>
      simp only [prog, hpc, Option.some.injEq, Prod.mk.injEq] at h
      exact .inr ⟨h.1.symm, by simp, .inl ⟨args, rfl, h.2.symm⟩⟩
    | _ => simp [prog, hpc] at h
  | run =>
    cases hpc : p.pc with
    | hook args gen =>
      simp only [prog, hpc, Option.some.injEq, Prod.mk.injEq] at h
      exact .inr ⟨h.1.symm, by simp, .inr (.inl ⟨args, gen, rfl, h.2.symm⟩)⟩
    | _ => simp [prog, hpc] at h
  | ret result =>
    cases hpc : p.pc with
    | inKernel args k caller =>
      simp only [prog, hpc, Option.some.injEq, Prod.mk.injEq] at h
      exact .inr ⟨h.1.symm, by simp, .inr (.inr ⟨args, k, caller, result, rfl, h.2.symm⟩)⟩
    | _ => simp [prog, hpc] at h

theorem installed_changes (hg : Installed nrOpen table g) (h : Changes nrOpen g g') :
    Installed nrOpen table g' := by
  obtain ⟨htable, horig⟩ := hg
  cases h with
  | restore hphase hh =>
    have hkernel := horig (by simp [hphase]) (by simp [hphase])
    rw [hh] at hkernel
    refine ⟨?_, fun _ _ => hh.trans hkernel⟩
    rw [htable, if_pos hphase, Option.some.inj hkernel]
    simp
  | _ => constructor <;> simp_all

theorem entered_changes (h : Changes nrOpen g g') {gen : ℕ} (hgen : Entered g gen) :
    Entered g' gen := by
  cases h with
  | free hphase =>
    refine .inl ?_
    obtain hlt | ⟨heq, -⟩ := hgen <;> dsimp only <;> omega
  | _ => simp_all [Entered]

theorem served_changes (hp : Served nrOpen table g p) (h : Changes nrOpen g g') :
    Served nrOpen table g' p where
  made := hp.made
  hook args gen hpc := entered_changes h (hp.hook args gen hpc)
  kernel args k caller hpc :=
    ⟨(hp.kernel args k caller hpc).1, fun gen hgen =>
      entered_changes h ((hp.kernel args k caller hpc).2 gen hgen)⟩
  returned := hp.returned

/-- A process that is dispatched by the table or by `orig_open`. -/
theorem served_dispatch (hp : Served nrOpen table g p) {args : A} {caller : Option ℕ}
    {h : Handler K} (hcaller : ∀ gen ∈ caller, Entered g gen)
    (hh : h = .kernel (table nrOpen) ∨ ∃ gen, h = .myopen gen ∧ Entered g gen) :
    Served nrOpen table g (p.dispatch args caller h) := by
  obtain rfl | ⟨gen, rfl, hgen⟩ := hh
  · refine ⟨hp.made, by simp [Process.dispatch], ?_, hp.returned⟩
    simp only [Process.dispatch, Pc.inKernel.injEq]
    rintro _ _ _ ⟨rfl, rfl, rfl⟩
    exact ⟨rfl, hcaller⟩
  · refine ⟨hp.made, ?_, by simp [Process.dispatch], hp.returned⟩
    simp only [Process.dispatch, Pc.hook.injEq]
    rintro _ _ ⟨rfl, rfl⟩
    exact hgen

theorem served_crashed (hp : Served nrOpen table g p) :
    Served nrOpen table g { p with pc := .crashed } :=
  ⟨hp.made, by simp, by simp, hp.returned⟩

/-- The entry of `open` : `myopen` while it is hooked. -/
theorem table_open (hg : Installed nrOpen table g) : g.table nrOpen = .kernel (table nrOpen) ∨
    ∃ gen, g.table nrOpen = .myopen gen ∧ Entered g gen := by
  rw [hg.table_eq]
  split_ifs with hphase
  · exact .inr ⟨g.gen, Function.update_self _ _ _, .inr ⟨rfl, .inl hphase⟩⟩
  · exact .inl rfl

theorem served_myopen (hg : Installed nrOpen table g) (hp : Served nrOpen table g p) {args : A}
    {gen : ℕ} (hpc : p.pc = .hook args gen) : Served nrOpen table g (myopen g p args gen) := by
  have hentered := hp.hook args gen hpc
  unfold myopen
  split_ifs with hfreed
  · exact served_crashed hp
  · obtain hlt | ⟨rfl, hphase⟩ := hentered
    · exact absurd hlt hfreed
    · rw [hg.orig (by rintro h; simp [h] at hphase) (by rintro h; simp [h] at hphase)]
      refine served_dispatch hp (fun gen hgen => ?_) (.inl rfl)
      obtain rfl := Option.some.inj hgen
      exact .inr ⟨rfl, hphase⟩

theorem served_handlerReturn (hp : Served nrOpen table g p) {args : A} {k : K}
    {caller : Option ℕ} (hpc : p.pc = .inKernel args k caller) (result : ℤ) :
    Served nrOpen table g (handlerReturn g p args k caller result) := by
  obtain ⟨rfl, -⟩ := hp.kernel args k caller hpc
  unfold handlerReturn
  split_ifs
  · exact served_crashed hp
  · refine ⟨rfl, by simp [Process.finish], by simp [Process.finish], ?_⟩
    rintro call hcall
    obtain hcall | hcall := List.mem_append.1 hcall
    · exact hp.returned call hcall
    · obtain rfl := List.mem_singleton.1 hcall
      simp [Transparent, hp.made]

theorem served_own (t : T) (a : Act A) (g : Shared K) (p : Process K A) (g' : Shared K)
    (p' : Process K A) (hg : Installed nrOpen table g) (hp : Served nrOpen table g p)
    (h : prog nrOpen t a g p = some (g', p')) :
    Installed nrOpen table g' ∧ Served nrOpen table g' p' := by
  obtain ⟨rfl, hchanges, -⟩ | ⟨rfl, -, hprocess⟩ := prog_cases hg h
  · exact ⟨installed_changes hg hchanges, served_changes hp hchanges⟩
  · refine ⟨hg, ?_⟩
    obtain ⟨args, hpc, rfl⟩ | ⟨args, gen, hpc, rfl⟩ | ⟨args, k, caller, result, hpc, rfl⟩ :=
      hprocess
    · exact served_dispatch hp (by simp) (table_open hg)
    · exact served_myopen hg hp hpc
    · exact served_handlerReturn hp hpc result

theorem served_other (t : T) (a : Act A) (g : Shared K) (p : Process K A) (g' : Shared K)
    (p' : Process K A) (u : T) (q : Process K A) (_ : u ≠ t) (hg : Installed nrOpen table g)
    (_ : Served nrOpen table g p) (hq : Served nrOpen table g q)
    (h : prog nrOpen t a g p = some (g', p')) : Served nrOpen table g' q := by
  obtain ⟨-, hchanges, -⟩ | ⟨rfl, -, -⟩ := prog_cases hg h
  · exact served_changes hq hchanges
  · exact hq

/-! ## Transparency -/

variable [DecidableEq T]

variable (nrOpen table) in
/-- What holds in every interleaving. -/
def Hooked (s : Threads.State T (Shared K) (Process K A)) : Prop :=
  Local (Installed nrOpen table) (fun _ => Served nrOpen table) s

theorem hooked_step (s : Threads.State T (Shared K) (Process K A)) (a : T × Act A)
    (s' : Threads.State T (Shared K) (Process K A)) (hs : Hooked nrOpen table s)
    (h : step (prog nrOpen) s a = some s') : Hooked nrOpen table s' :=
  local_step served_own served_other s a s' hs h

theorem hooked_initial (nrOpen : ℕ) (table : ℕ → K) :
    Hooked nrOpen table (initial (T := T) (A := A) table) :=
  ⟨⟨rfl, fun h => absurd rfl h⟩, fun _ => ⟨rfl, by simp [initial], by simp [initial],
    by simp [initial]⟩⟩

/-- In every interleaving of calls with loads and unloads, a call of `open` that has returned
called the handler of the kernel once, with its own arguments, and returned its result. The
table is that of the kernel up to the entry of `open`, and equal to it when nothing is hooked. -/
theorem hook_transparent (nrOpen : ℕ) (table : ℕ → K) (acts : List (T × Act A)) :
    Throughout (step (prog nrOpen)) (fun s =>
      (∀ t, ∀ call ∈ (s.locals t).returned, Transparent nrOpen table call) ∧
        (∀ n, n ≠ nrOpen ∨ s.shared.phase ≠ .hooked → s.shared.table n = .kernel (table n)))
      (initial table) acts := by
  intro pre post s hacts hs
  obtain ⟨hinstalled, hserved⟩ :=
    throughout_of_step hooked_step acts (hooked_initial nrOpen table) pre post s hacts hs
  refine ⟨fun t => (hserved t).returned, fun n hn => ?_⟩
  rw [hinstalled.table_eq]
  split_ifs with hphase
  · exact Function.update_of_ne (hn.resolve_right fun h => h hphase) _ _
  · rfl

/-! ## Freed text -/

/-- The process is in `myopen`, or in a handler that returns to it. -/
def Pc.inHook : Pc K A → Option ℕ
  | .hook _ gen => some gen
  | .inKernel _ _ caller => caller
  | _ => none

/-- The process is in no text that is gone. -/
def Safe (g : Shared K) (p : Process K A) : Prop :=
  p.pc ≠ .crashed ∧ ∀ gen ∈ p.pc.inHook, g.gen ≤ gen

/-- No process is in text that is gone. -/
def NoneInFreed (s : Threads.State T (Shared K) (Process K A)) : Prop :=
  ∀ t, Safe s.shared (s.locals t)

/-- When the text is freed, no process is in `myopen`. -/
def FreedUnused (s : Threads.State T (Shared K) (Process K A)) (a : T × Act A) : Prop :=
  a.2 = .free → ∀ t, (s.locals t).pc.inHook = none

theorem le_of_inHook (hp : Served nrOpen table g p) : ∀ gen ∈ p.pc.inHook, gen ≤ g.gen := by
  have hle : ∀ gen, Entered g gen → gen ≤ g.gen := by
    rintro gen (hlt | ⟨rfl, -⟩)
    · exact hlt.le
    · exact le_rfl
  intro gen hgen
  cases hpc : p.pc with
  | hook args gen' =>
    rw [hpc] at hgen
    obtain rfl := Option.some.inj hgen
    exact hle gen' (hp.hook args gen' hpc)
  | inKernel args k caller =>
    rw [hpc] at hgen
    exact hle gen ((hp.kernel args k caller hpc).2 gen hgen)
  | _ => simp [hpc, Pc.inHook] at hgen

/-- A step of a process that is safe. -/
theorem safe_process (hg : Installed nrOpen table g) (hp : Served nrOpen table g p)
    (hsafe : Safe g p)
    (h : (∃ args, p.pc = .idle ∧ p' = p.dispatch args none (g.table nrOpen)) ∨
      (∃ args gen, p.pc = .hook args gen ∧ p' = myopen g p args gen) ∨
      ∃ args k caller result, p.pc = .inKernel args k caller ∧
        p' = handlerReturn g p args k caller result) : Safe g p' := by
  obtain ⟨args, hpc, rfl⟩ | ⟨args, gen, hpc, rfl⟩ | ⟨args, k, caller, result, hpc, rfl⟩ := h
  · rw [hg.table_eq]
    split_ifs
    · simp [Process.dispatch, Safe, Pc.inHook]
    · simp [Process.dispatch, Safe, Pc.inHook]
  · have hgen : g.gen ≤ gen := hsafe.2 gen (by simp [hpc, Pc.inHook])
    obtain hlt | ⟨rfl, hphase⟩ := hp.hook args gen hpc
    · exact absurd hlt (by omega)
    · rw [myopen, if_neg (lt_irrefl _),
        hg.orig (by rintro h; simp [h] at hphase) (by rintro h; simp [h] at hphase)]
      simp [Process.dispatch, Safe, Pc.inHook]
  · have hcaller : ¬∃ gen ∈ caller, gen < g.gen := by
      rintro ⟨gen, hmem, hlt⟩
      have hle := hsafe.2 gen (by simpa [hpc, Pc.inHook] using hmem)
      omega
    rw [handlerReturn, if_neg hcaller]
    simp [Process.finish, Safe, Pc.inHook]

theorem noneInFreed_step (s : Threads.State T (Shared K) (Process K A)) (a : T × Act A)
    (s' : Threads.State T (Shared K) (Process K A)) (hs : Hooked nrOpen table s)
    (hsafe : NoneInFreed s) (h : step (prog nrOpen) s a = some s') :
    NoneInFreed s' ↔ FreedUnused s a := by
  obtain ⟨t, a⟩ := a
  obtain ⟨hprog, hsame⟩ := step_cases h
  obtain ⟨hlocal, -, hgen⟩ | ⟨hshared, ha, hprocess⟩ := prog_cases hs.1 hprog
  · have hlocals : ∀ u, s'.locals u = s.locals u := by
      intro u
      by_cases hu : u = t
      · rw [hu, hlocal]
      · exact hsame u hu
    obtain ⟨rfl, hgen⟩ | ⟨ha, hgen⟩ := hgen
    · -- a process in `myopen` is in the generation that is freed
      simp only [NoneInFreed, FreedUnused, Safe, hlocals, hgen, forall_const]
      refine forall_congr' fun u => ?_
      have hle := le_of_inHook (hs.2 u)
      have hcrashed := (hsafe u).1
      cases hin : (s.locals u).pc.inHook with
      | none => simp [hcrashed]
      | some gen =>
        have hgen := hle gen hin
        simp only [Option.mem_def, Option.some.injEq, forall_eq', reduceCtorEq, iff_false]
        omega
    · refine iff_of_true (fun u => ?_) fun hfree => absurd hfree ha
      rw [Safe, hlocals u, hgen]
      exact hsafe u
  · refine iff_of_true (fun u => ?_) fun hfree => absurd hfree ha
    rw [hshared]
    by_cases hu : u = t
    · rw [hu]
      exact safe_process hs.1 (hs.2 t) (hsafe t) hprocess
    · rw [hsame u hu]
      exact hsafe u

end KernelExamples.SyscallHook
