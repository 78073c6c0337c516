import KernelExamples.Traces
import Mathlib.Logic.Function.Basic

/-!
# Four modules in `/proc`

`my_init` and `my_exit` of `my_proc.c`, `my_new_proc.c`, `sig_proc.c` and `task_proc.c`, loaded and
unloaded in any order. `my_proc` makes one node in `/proc`, and each of the others a directory with
two nodes. None of these three looks at what `proc_mkdir` returns, so without a directory its
nodes are made in `/proc` itself, and `remove_proc_entry` looks for them there.

An entry of the table has the module whose operations it has. A name that is taken is not made
again. An entry never outlives its module (`entries_belong_to_loaded`) : `my_exit` removes every
name the module could have made. It can remove an entry of another module too. That happens
exactly when both `sig_proc` and `task_proc`, which have a node `pid` each, are loaded without a
directory and the one that does not have the node is unloaded (`entries_kept_iff`).
-/

namespace KernelExamples.ProcTree

open Traces

/-! ## The source -/

inductive Mod
  | myProc
  | myNewProc
  | sigProc
  | taskProc
  deriving DecidableEq

inductive Name
  | myproc
  | param1
  | param2
  | pid
  | signal
  | nrHashed
  deriving DecidableEq

/-- `NODE`, or `NODE_1` and `NODE_2`. -/
def Mod.nodes : Mod → List Name
  | .myProc => [.myproc]
  | .myNewProc => [.param1, .param2]
  | .sigProc => [.pid, .signal]
  | .taskProc => [.pid, .nrHashed]

/-- A name in `/proc`, or in the directory of a module. -/
structure Path where
  dir : Option Mod
  name : Name
  deriving DecidableEq

/-- A module that is loaded : whether it has its directory, and the entries it made. -/
structure Loaded where
  dir : Bool
  made : List Path

structure State where
  table : Path → Option Mod
  loaded : Mod → Option Loaded

def initial : State := ⟨fun _ => none, fun _ => none⟩

/-- Where the nodes of a module are, with and without its directory. -/
def Mod.paths (m : Mod) (dir : Bool) : List Path :=
  m.nodes.map fun name => ⟨if dir then some m else none, name⟩

/-- `proc_create` or `proc_create_data`, which may fail, and does if the name is taken. -/
def procCreate (m : Mod) (ok : Path → Bool) (s : (Path → Option Mod) × List Path) (p : Path) :
    (Path → Option Mod) × List Path :=
  if ok p = true ∧ s.1 p = none then (Function.update s.1 p (some m), s.2 ++ [p]) else s

/-- `remove_proc_entry`, which does nothing if there is no such name. -/
def removeProcEntry (table : Path → Option Mod) (p : Path) : Path → Option Mod :=
  Function.update table p none

inductive Act
  /-- Whether `proc_mkdir` comes through, and which entries can be made. -/
  | load (m : Mod) (mkdir : Bool) (ok : Path → Bool)
  | unload (m : Mod)

/-- Whether the module has a directory. -/
def Mod.hasDir (m : Mod) (mkdir : Bool) : Bool :=
  match m with
  | .myProc => false
  | _ => mkdir

/-- The table after `my_init`, and the entries made. -/
def myInit (s : State) (m : Mod) (mkdir : Bool) (ok : Path → Bool) :
    (Path → Option Mod) × List Path :=
  (m.paths (m.hasDir mkdir)).foldl (procCreate m ok) (s.table, [])

/-- The load succeeds. Only `my_proc` looks at what it made. -/
def comesThrough (m : Mod) (made : List Path) : Bool :=
  match m with
  | .myProc => !made.isEmpty
  | _ => true

def step (s : State) : Act → Option State
  | .load m mkdir ok =>
    if s.loaded m = none then
      some ⟨(myInit s m mkdir ok).1, if comesThrough m (myInit s m mkdir ok).2 then
        Function.update s.loaded m (some ⟨m.hasDir mkdir, (myInit s m mkdir ok).2⟩) else s.loaded⟩
    else none
  | .unload m =>
    (s.loaded m).map fun l =>
      ⟨(m.paths l.dir).foldl removeProcEntry s.table, Function.update s.loaded m none⟩

/-! ## Entries and their modules -/

theorem foldl_removeProcEntry (q : Path) : ∀ (ps : List Path) (table : Path → Option Mod),
    ps.foldl removeProcEntry table q = if q ∈ ps then none else table q
  | [], _ => rfl
  | p :: ps, table => by
    rw [List.foldl_cons, foldl_removeProcEntry q ps, removeProcEntry]
    by_cases hq : q = p
    · simp [hq]
    · simp [hq]

/-- The entries made are names that were free. -/
theorem foldl_procCreate (m : Mod) (ok : Path → Bool) : ∀ (ps : List Path)
    (table : Path → Option Mod) (made : List Path), ∃ new,
      (ps.foldl (procCreate m ok) (table, made)).2 = made ++ new ∧
        (∀ q ∈ new, q ∈ ps ∧ table q = none) ∧
        ∀ q, (ps.foldl (procCreate m ok) (table, made)).1 q =
          if q ∈ new then some m else table q
  | [], _, _ => ⟨[], by simp⟩
  | p :: ps, table, made => by
    rw [List.foldl_cons, procCreate]
    split_ifs with hp
    · obtain ⟨new, hmade, hnew, htable⟩ := foldl_procCreate m ok ps
        (Function.update table p (some m)) (made ++ [p])
      refine ⟨p :: new, by rw [hmade, List.append_assoc]; rfl, fun q hq => ?_, fun q => ?_⟩
      · obtain rfl | hq := List.mem_cons.1 hq
        · exact ⟨List.mem_cons_self, hp.2⟩
        · obtain ⟨hmem, hfree⟩ := hnew q hq
          have hne : q ≠ p := by
            rintro rfl
            simp at hfree
          exact ⟨List.mem_cons_of_mem p hmem, by rwa [Function.update_of_ne hne] at hfree⟩
      · rw [htable]
        by_cases hq : q = p
        · simp [hq]
        · simp [hq]
    · obtain ⟨new, hmade, hnew, htable⟩ := foldl_procCreate m ok ps table made
      exact ⟨new, hmade, fun q hq => ⟨List.mem_cons_of_mem p (hnew q hq).1, (hnew q hq).2⟩, htable⟩

/-- What `my_init` makes. -/
theorem myInit_spec (s : State) (m : Mod) (mkdir : Bool) (ok : Path → Bool) :
    (∀ q ∈ (myInit s m mkdir ok).2, q ∈ m.paths (m.hasDir mkdir) ∧ s.table q = none) ∧
      ∀ q, (myInit s m mkdir ok).1 q =
        if q ∈ (myInit s m mkdir ok).2 then some m else s.table q := by
  obtain ⟨new, hmade, hnew, htable⟩ :=
    foldl_procCreate m ok (m.paths (m.hasDir mkdir)) s.table []
  rw [List.nil_append] at hmade
  unfold myInit
  rw [hmade]
  exact ⟨hnew, htable⟩

/-- A module is loaded, if it is, with what it made. -/
theorem comesThrough_of_mem {m : Mod} {made : List Path} {q : Path} (hq : q ∈ made) :
    comesThrough m made = true := by
  cases m with
  | myProc =>
    cases made with
    | nil => simp at hq
    | cons p made => rfl
  | _ => rfl

/-- An entry has the operations of a module that is loaded, and is where the module put it. -/
structure Inv (s : State) : Prop where
  owned : ∀ q m, s.table q = some m → ∃ l, s.loaded m = some l ∧ q ∈ m.paths l.dir
  made : ∀ m l, s.loaded m = some l → ∀ q ∈ l.made, q ∈ m.paths l.dir

theorem inv_initial : Inv initial := ⟨by simp [initial], by simp [initial]⟩

/-- The modules that are loaded after a load. -/
theorem loaded_load {s : State} {m m' : Mod} {l l' : Loaded} {made : List Path}
    (hnone : s.loaded m = none)
    (h : (if comesThrough m made then Function.update s.loaded m (some l) else s.loaded) m' =
      some l') : (m' = m ∧ l' = l) ∨ s.loaded m' = some l' := by
  by_cases hm : m' = m
  · subst hm
    split_ifs at h
    · rw [Function.update_self] at h
      exact .inl ⟨rfl, (Option.some.inj h).symm⟩
    · rw [hnone] at h
      cases h
  · split_ifs at h
    · rw [Function.update_of_ne hm] at h
      exact .inr h
    · exact .inr h

/-- A module that was loaded still is after the load of another one. -/
theorem loaded_load_of_some {s : State} {m m' : Mod} {l l' : Loaded} {made : List Path}
    (hnone : s.loaded m = none) (h : s.loaded m' = some l') :
    (if comesThrough m made then Function.update s.loaded m (some l) else s.loaded) m' =
      some l' := by
  have hne : m' ≠ m := by
    rintro rfl
    rw [hnone] at h
    cases h
  split_ifs
  · rwa [Function.update_of_ne hne]
  · exact h

theorem loaded_unload {s : State} {m m' : Mod} {l' : Loaded}
    (h : Function.update s.loaded m none m' = some l') : m' ≠ m ∧ s.loaded m' = some l' := by
  by_cases hm : m' = m
  · rw [hm, Function.update_self] at h
    cases h
  · rw [Function.update_of_ne hm] at h
    exact ⟨hm, h⟩

theorem Inv.load {s : State} (hs : Inv s) {m : Mod} (mkdir : Bool) (ok : Path → Bool)
    (hnone : s.loaded m = none) :
    Inv ⟨(myInit s m mkdir ok).1, if comesThrough m (myInit s m mkdir ok).2 then
      Function.update s.loaded m (some ⟨m.hasDir mkdir, (myInit s m mkdir ok).2⟩)
      else s.loaded⟩ := by
  obtain ⟨hnew, htable⟩ := myInit_spec s m mkdir ok
  constructor
  · intro q m' hq
    dsimp only at hq ⊢
    rw [htable] at hq
    split_ifs at hq with hmem
    · obtain rfl := Option.some.inj hq
      rw [if_pos (comesThrough_of_mem hmem), Function.update_self]
      exact ⟨_, rfl, (hnew q hmem).1⟩
    · obtain ⟨l, hl, hpath⟩ := hs.owned q m' hq
      exact ⟨l, loaded_load_of_some hnone hl, hpath⟩
  · intro m' l hl
    obtain ⟨rfl, rfl⟩ | hl := loaded_load hnone hl
    · exact fun q hq => (hnew q hq).1
    · exact hs.made m' l hl

theorem Inv.unload {s : State} (hs : Inv s) {m : Mod} {l : Loaded} (hl : s.loaded m = some l) :
    Inv ⟨(m.paths l.dir).foldl removeProcEntry s.table, Function.update s.loaded m none⟩ := by
  constructor
  · intro q m' hq
    dsimp only at hq ⊢
    rw [foldl_removeProcEntry] at hq
    split_ifs at hq with hmem
    obtain ⟨l', hl', hpath⟩ := hs.owned q m' hq
    have hne : m' ≠ m := by
      rintro rfl
      rw [hl] at hl'
      obtain rfl := Option.some.inj hl'
      exact hmem hpath
    exact ⟨l', by rwa [Function.update_of_ne hne], hpath⟩
  · intro m' l' hl'
    exact hs.made m' l' (loaded_unload hl').2

theorem inv_step (s : State) (a : Act) (s' : State) (hs : Inv s) (h : step s a = some s') :
    Inv s' := by
  cases a with
  | load m mkdir ok =>
    obtain ⟨hnone, rfl⟩ := of_guard h
    exact hs.load mkdir ok hnone
  | unload m =>
    obtain ⟨l, hl, rfl⟩ := Option.map_eq_some_iff.1 h
    exact hs.unload hl

/-- In every run of loads and unloads, whatever calls fail, an entry of `/proc` has the operations
of a module that is loaded. -/
theorem entries_belong_to_loaded (acts : List Act) :
    Throughout step (fun s => ∀ q m, s.table q = some m → (s.loaded m).isSome) initial acts := by
  intro pre post s hacts hs q m hq
  have hinv := throughout_of_step inv_step acts inv_initial pre post s hacts hs
  obtain ⟨l, hl, -⟩ := hinv.owned q m hq
  rw [hl]
  rfl

/-! ## Entries that are removed by another module -/

/-- A module that is loaded still has the entries it made. -/
def Kept (s : State) : Prop :=
  ∀ m l, s.loaded m = some l → ∀ q ∈ l.made, s.table q = some m

/-- The module with a node of the same name. -/
def Mod.rival : Mod → Option Mod
  | .sigProc => some .taskProc
  | .taskProc => some .sigProc
  | _ => none

/-- The module that is unloaded has a directory, or its rival has no node `pid` in `/proc`. -/
def KeepsPid (s : State) : Act → Prop
  | .load _ _ _ => True
  | .unload m => ∀ m' ∈ m.rival, ∀ l l', s.loaded m = some l → s.loaded m' = some l' →
      l.dir = false → ⟨none, .pid⟩ ∉ l'.made

theorem eq_pid_of_mem_nodes {m m' : Mod} {name : Name} (hne : m' ≠ m) (h : name ∈ m.nodes)
    (h' : name ∈ m'.nodes) : m' ∈ m.rival ∧ name = .pid := by
  cases m <;> cases m' <;> cases name <;> simp_all [Mod.nodes, Mod.rival]

/-- Two modules share no path but `/proc/pid`. -/
theorem eq_pid_of_shared {m m' : Mod} {dir dir' : Bool} {q : Path} (hne : m' ≠ m)
    (hq : q ∈ m.paths dir) (hq' : q ∈ m'.paths dir') :
    m' ∈ m.rival ∧ dir = false ∧ q = ⟨none, .pid⟩ := by
  obtain ⟨name, hname, rfl⟩ := List.mem_map.1 hq
  obtain ⟨name', hname', heq⟩ := List.mem_map.1 hq'
  obtain ⟨hdir, rfl⟩ := Path.mk.injEq .. ▸ heq
  obtain ⟨hrival, hpid⟩ := eq_pid_of_mem_nodes hne hname hname'
  have hroot : dir = false := by
    cases dir with
    | false => rfl
    | true => cases dir' <;> simp [hne] at hdir
  exact ⟨hrival, hroot, by rw [hroot, hpid]; rfl⟩

theorem mem_paths_pid {m m' : Mod} (h : m' ∈ m.rival) : ⟨none, .pid⟩ ∈ m.paths false := by
  cases m <;> simp_all [Mod.rival, Mod.paths, Mod.nodes]

/-- A load takes no name that is taken. -/
theorem Kept.load {s : State} (hkept : Kept s) {m : Mod} (mkdir : Bool) (ok : Path → Bool)
    (hnone : s.loaded m = none) :
    Kept ⟨(myInit s m mkdir ok).1, if comesThrough m (myInit s m mkdir ok).2 then
      Function.update s.loaded m (some ⟨m.hasDir mkdir, (myInit s m mkdir ok).2⟩)
      else s.loaded⟩ := by
  obtain ⟨hnew, htable⟩ := myInit_spec s m mkdir ok
  intro m' l hl q hq
  dsimp only
  rw [htable]
  obtain ⟨rfl, rfl⟩ | hl := loaded_load hnone hl
  · exact if_pos hq
  · have htaken := hkept m' l hl q hq
    rw [if_neg fun hmem => ?_, htaken]
    rw [(hnew q hmem).2] at htaken
    cases htaken

/-- An unload removes entries of other modules exactly under the shared name. -/
theorem kept_unload_iff {s : State} (hs : Inv s) (hkept : Kept s) {m : Mod} {l : Loaded}
    (hl : s.loaded m = some l) :
    Kept ⟨(m.paths l.dir).foldl removeProcEntry s.table, Function.update s.loaded m none⟩ ↔
      KeepsPid s (.unload m) := by
  constructor
  · intro hkept' m' hrival l₀ l' hl₀ hl' hdir hmem
    obtain rfl : l = l₀ := Option.some.inj (hl.symm.trans hl₀)
    have hne : m' ≠ m := by
      rintro rfl
      cases m' <;> simp [Mod.rival] at hrival
    have htable := hkept' m' l' (by simpa [hne] using hl') _ hmem
    dsimp only at htable
    rw [foldl_removeProcEntry, hdir, if_pos (mem_paths_pid hrival)] at htable
    cases htable
  · intro hkeeps m' l' hl' q hq
    obtain ⟨hm, hl'⟩ := loaded_unload hl'
    dsimp only
    rw [foldl_removeProcEntry, if_neg fun hmem => ?_, hkept m' l' hl' q hq]
    obtain ⟨hrival, hdir, rfl⟩ := eq_pid_of_shared hm hmem (hs.made m' l' hl' q hq)
    exact hkeeps m' hrival l l' hl hl' hdir hq

theorem kept_step (s : State) (a : Act) (s' : State) (hs : Inv s) (hkept : Kept s)
    (h : step s a = some s') : Kept s' ↔ KeepsPid s a := by
  cases a with
  | load m mkdir ok =>
    obtain ⟨hnone, rfl⟩ := of_guard h
    exact iff_of_true (hkept.load mkdir ok hnone) trivial
  | unload m =>
    obtain ⟨l, hl, rfl⟩ := Option.map_eq_some_iff.1 h
    exact kept_unload_iff hs hkept hl

/-- A module that is loaded has all entries it made, in every state of a run, exactly when neither
`sig_proc` nor `task_proc` is unloaded without a directory while the other one has its node `pid`
in `/proc`. -/
theorem entries_kept_iff (acts : List Act) :
    Throughout step Kept initial acts ↔ Along step KeepsPid initial acts :=
  throughout_iff_along inv_step kept_step acts inv_initial (by simp [Kept, initial])

end KernelExamples.ProcTree
