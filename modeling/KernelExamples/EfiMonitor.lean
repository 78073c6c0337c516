import KernelExamples.Kernel
import Mathlib.Data.List.Nodup

/-!
# Loading and unloading the EFI monitor

The registration of probes in `kprobes/efi_reboot_monitor.c`. A table is an array of
pointers to probes (`jps`, `kps`) with the calls of `unregister_jprobe` or
`unregister_kprobe` made on it. The result of each registration is given by an outcome
(`Outcome`) : a success sets `kp.addr` to a nonzero address, a failure leaves any address.

`register_jprobe_list` and `register_kprobe_list` undo their own work when a registration
fails, and return `1`. `my_init` returns that `1`, and a positive result leaves the
module loaded, with the failed probe not registered (`registerLoop_one`).
`monitor_law_iff` : loading and unloading keep the probes and the module in step exactly
when every registration succeeds.

The rollback of `register_jprobe_list` has no test for `NULL`, unlike its other loops, so the
list is all or nothing exactly when no `NULL` stands before the first failure
(`all_or_nothing_iff`).
-/

namespace KernelExamples.EfiMonitor

/-! ## The kernel's side -/

/-- A probe : its `kp.addr`, and whether the kernel has it registered. -/
structure Probe where
  addr : ℕ
  registered : Bool
  deriving DecidableEq

/-- What `register_jprobe` or `register_kprobe` returns, and the `kp.addr` it leaves. -/
structure Outcome where
  ret : ℤ
  addr : ℕ
  ret_le : ret ≤ 0
  addr_ne : ret = 0 → addr ≠ 0

/-- An array of pointers to probes, and the calls of the unregister function on it : the
index, and whether that probe was registered. -/
structure Table where
  entry : ℕ → Option Probe
  calls : List (ℕ × Bool)

namespace Table

/-- `register_jprobe(jps[i])` or `register_kprobe(kps[i])`. -/
def register (t : Table) (i : ℕ) (o : Outcome) : Table :=
  { t with
    entry := Function.update t.entry i
      ((t.entry i).map fun p => ⟨o.addr, p.registered || o.ret = 0⟩) }

/-- `unregister_jprobe(jps[j])` or `unregister_kprobe(kps[j])`. A `NULL` is not a registered
probe. -/
def unregister (t : Table) (j : ℕ) : Table where
  entry := Function.update t.entry j ((t.entry j).map fun p => { p with registered := false })
  calls := t.calls ++ [(j, (t.entry j).any Probe.registered)]

variable (t : Table)

theorem register_self (i : ℕ) (o : Outcome) : (t.register i o).entry i =
    (t.entry i).map fun p => ⟨o.addr, p.registered || o.ret = 0⟩ :=
  Function.update_self _ _ _

theorem register_of_ne {i j : ℕ} (h : j ≠ i) (o : Outcome) :
    (t.register i o).entry j = t.entry j :=
  Function.update_of_ne h _ _

theorem unregister_self (j : ℕ) : (t.unregister j).entry j =
    (t.entry j).map fun p => { p with registered := false } :=
  Function.update_self _ _ _

theorem unregister_of_ne {i j : ℕ} (h : j ≠ i) : (t.unregister i).entry j = t.entry j :=
  Function.update_of_ne h _ _

theorem register_ne_none (i : ℕ) (o : Outcome) {j : ℕ} (h : t.entry j ≠ none) :
    (t.register i o).entry j ≠ none := by
  rcases eq_or_ne j i with rfl | hne
  · rw [t.register_self]
    simpa using h
  · rwa [t.register_of_ne hne]

theorem unregister_ne_none (i : ℕ) {j : ℕ} (h : t.entry j ≠ none) :
    (t.unregister i).entry j ≠ none := by
  rcases eq_or_ne j i with rfl | hne
  · rw [t.unregister_self]
    simpa using h
  · rwa [t.unregister_of_ne hne]

end Table

/-! ## The lists -/

/-- The inner loop of a failed registration, from `j = i - 1` down. -/
def rollback (t : Table) : ℕ → Table
  | 0 => t
  | j + 1 => rollback (t.unregister j) j

/-- The loop of `register_jprobe_list` and `register_kprobe_list`, with `n` entries to go
from `i`. Only the first has the test for `NULL`. -/
def registerLoop (nullTest : Bool) (outcome : ℕ → Outcome) : ℕ → ℕ → Table → ℤ × Table
  | 0, _, t => (0, t)
  | n + 1, i, t =>
    if nullTest ∧ t.entry i = none then registerLoop nullTest outcome n (i + 1) t
    else if (outcome i).ret ≠ 0 then (1, rollback (t.register i (outcome i)) i)
    else registerLoop nullTest outcome n (i + 1) (t.register i (outcome i))

/-- The loop of `unregister_jprobe_list` and `unregister_kprobe_list`. Without the test a
`NULL` would be dereferenced. -/
def unregisterLoop (nullTest : Bool) : ℕ → ℕ → Table → Table
  | 0, _, t => t
  | n + 1, i, t =>
    match t.entry i with
    | none =>
      unregisterLoop nullTest n (i + 1)
        (if nullTest then t else { t with calls := t.calls ++ [(i, false)] })
    | some p => unregisterLoop nullTest n (i + 1) (if p.addr ≠ 0 then t.unregister i else t)

def registerJprobeList (numJp : ℕ) (outcome : ℕ → Outcome) (t : Table) : ℤ × Table :=
  registerLoop true outcome numJp 0 t

def unregisterJprobeList (numJp : ℕ) (t : Table) : Table := unregisterLoop true numJp 0 t

def registerKprobeList (numKp : ℕ) (outcome : ℕ → Outcome) (t : Table) : ℤ × Table :=
  registerLoop false outcome numKp 0 t

def unregisterKprobeList (numKp : ℕ) (t : Table) : Table := unregisterLoop false numKp 0 t

/-! ## The module -/

/-- `jps` and `kps`. -/
structure State where
  jps : Table
  kps : Table

/-- The tables of the module file : probes with `addr` zero, and the `NULL` entries of `jps`. -/
def initial (null : ℕ → Bool) : State where
  jps := ⟨fun i => if null i then none else some ⟨0, false⟩, []⟩
  kps := ⟨fun _ => some ⟨0, false⟩, []⟩

/-- The results of the registrations in `my_init`. -/
structure Outcomes where
  jprobe : ℕ → Outcome
  kprobe : ℕ → Outcome

section Module

variable (numJp numKp : ℕ)

def myInit (o : Outcomes) (s : State) : ℤ × State :=
  let j := registerJprobeList numJp o.jprobe s.jps
  if j.1 > 0 then (j.1, { s with jps := j.2 })
  else
    let k := registerKprobeList numKp o.kprobe s.kps
    if k.1 > 0 then (k.1, ⟨unregisterJprobeList numJp j.2, k.2⟩)
    else (0, ⟨j.2, k.2⟩)

def myExit (s : State) : State :=
  ⟨unregisterJprobeList numJp s.jps, unregisterKprobeList numKp s.kps⟩

/-- The module loader : a negative result aborts the load, and any other leaves the module
loaded, to be unloaded through `my_exit`. -/
def life (o : Outcomes) (s : State) : State :=
  if (myInit numJp numKp o s).1 < 0 then (myInit numJp numKp o s).2
  else myExit numJp numKp (myInit numJp numKp o s).2

end Module

/-- Every probe of the first `n` entries is registered. -/
def AllRegistered (n : ℕ) (t : Table) : Prop :=
  ∀ i < n, ∀ p, t.entry i = some p → p.registered = true

/-- No probe of the first `n` entries is registered. -/
def NoneRegistered (n : ℕ) (t : Table) : Prop :=
  ∀ i < n, ∀ p, t.entry i = some p → p.registered = false

/-- Every unregister call was made on a registered probe, and no probe had two. -/
def CallsValid (t : Table) : Prop :=
  (∀ c ∈ t.calls, c.2 = true) ∧ (t.calls.map Prod.fst).Nodup

/-- The probes follow the module from `my_init` to `my_exit`. -/
structure Law (numJp numKp : ℕ) (o : Outcomes) (s : State) : Prop where
  loaded : 0 ≤ (myInit numJp numKp o s).1 →
    AllRegistered numJp (myInit numJp numKp o s).2.jps ∧
      AllRegistered numKp (myInit numJp numKp o s).2.kps
  aborted : (myInit numJp numKp o s).1 < 0 →
    NoneRegistered numJp (myInit numJp numKp o s).2.jps ∧
      NoneRegistered numKp (myInit numJp numKp o s).2.kps
  calls : CallsValid (life numJp numKp o s).jps ∧ CallsValid (life numJp numKp o s).kps
  after : NoneRegistered numJp (life numJp numKp o s).jps ∧
    NoneRegistered numKp (life numJp numKp o s).kps

/-! ## Registration -/

variable {b : Bool} {f : ℕ → Outcome}

theorem rollback_entry : ∀ (i : ℕ) (t : Table) {j : ℕ}, i ≤ j →
    (rollback t i).entry j = t.entry j
  | 0, _, _, _ => rfl
  | i + 1, t, j, h => by
    rw [rollback, rollback_entry i _ (by omega)]
    exact t.unregister_of_ne (by omega)

/-- The entry is skipped, or its registration succeeds. -/
def Passes (nullTest : Bool) (outcome : ℕ → Outcome) (t : Table) (i : ℕ) : Prop :=
  (nullTest = true ∧ t.entry i = none) ∨ (outcome i).ret = 0

/-- If no registration fails, every probe is registered at a nonzero address. -/
theorem registerLoop_zero : ∀ (n i : ℕ) (t : Table),
    (∀ j, i ≤ j → j < i + n → Passes b f t j) →
      (registerLoop b f n i t).1 = 0 ∧
      (registerLoop b f n i t).2.calls = t.calls ∧
      ∀ j, (registerLoop b f n i t).2.entry j =
        if i ≤ j ∧ j < i + n then (t.entry j).map fun _ => ⟨(f j).addr, true⟩
        else t.entry j
  | 0, i, t, _ => ⟨rfl, rfl, fun j => by rw [if_neg (by omega)]; rfl⟩
  | n + 1, i, t, hpass => by
    rw [registerLoop]
    split_ifs with hnull hret
    · obtain ⟨hzero, hcalls, hentry⟩ := registerLoop_zero n (i + 1) t
        fun j hj hj' => hpass j (by omega) (by omega)
      refine ⟨hzero, hcalls, fun j => ?_⟩
      rw [hentry]
      rcases eq_or_ne j i with rfl | hne
      · rw [if_neg (by omega), if_pos (by omega), hnull.2]
        rfl
      · exact if_congr (by omega) rfl rfl
    · rcases hpass i le_rfl (by omega) with h | h
      · exact absurd h hnull
      · exact absurd h hret
    · have hret : (f i).ret = 0 := by simpa using hret
      obtain ⟨hzero, hcalls, hentry⟩ := registerLoop_zero n (i + 1) (t.register i (f i))
        fun j hj hj' => by
          rw [Passes, t.register_of_ne (by omega)]
          exact hpass j (by omega) (by omega)
      refine ⟨hzero, hcalls, fun j => ?_⟩
      rw [hentry]
      rcases eq_or_ne j i with rfl | hne
      · rw [if_neg (by omega), if_pos (by omega), t.register_self]
        simp [hret]
      · rw [t.register_of_ne hne]
        exact if_congr (by omega) rfl rfl

/-- If a registration fails, the list returns `1` and that probe is not registered. -/
theorem registerLoop_one : ∀ (n i : ℕ) (t : Table),
    (∀ j, i ≤ j → ∀ p, t.entry j = some p → p.registered = false) →
    (∃ j, i ≤ j ∧ j < i + n ∧ t.entry j ≠ none ∧ (f j).ret ≠ 0) →
    (b = false → ∀ j, t.entry j ≠ none) →
      (registerLoop b f n i t).1 = 1 ∧
      ∃ j p, j < i + n ∧ (registerLoop b f n i t).2.entry j = some p ∧
        p.registered = false
  | 0, i, t, _, ⟨j, hj, hj', _⟩, _ => by omega
  | n + 1, i, t, hfresh, ⟨j, hj, hj', hsome, hfail⟩, hnull => by
    rw [registerLoop]
    split_ifs with hskip hret
    · have hne : j ≠ i := by
        rintro rfl
        exact hsome hskip.2
      obtain ⟨hone, k, p, hk, hentry, hp⟩ := registerLoop_one n (i + 1) t
        (fun k hk => hfresh k (by omega)) ⟨j, by omega, by omega, hsome, hfail⟩ hnull
      exact ⟨hone, k, p, by omega, hentry, hp⟩
    · -- the failing entry itself : the rollback only goes below it
      have hi : t.entry i ≠ none := by
        cases b with
        | false => exact hnull rfl i
        | true => simpa using hskip
      obtain ⟨p, hp⟩ := Option.ne_none_iff_exists'.1 hi
      refine ⟨rfl, i, ⟨(f i).addr, false⟩, by omega, ?_, rfl⟩
      rw [rollback_entry i _ le_rfl, t.register_self, hp]
      simp [hret, hfresh i le_rfl p hp]
    · have hne : j ≠ i := by
        rintro rfl
        exact hret hfail
      have hfresh' : ∀ k, i + 1 ≤ k → ∀ p, (t.register i (f i)).entry k = some p →
          p.registered = false := fun k hk p hp => by
        rw [t.register_of_ne (by omega)] at hp
        exact hfresh k (by omega) p hp
      obtain ⟨hone, k, p, hk, hentry, hp⟩ := registerLoop_one n (i + 1) (t.register i (f i))
        hfresh' ⟨j, by omega, by omega, by rwa [t.register_of_ne hne], hfail⟩
        fun h k => t.register_ne_none i (f i) (hnull h k)
      exact ⟨hone, k, p, by omega, hentry, hp⟩

/-! ## Unregistration -/

/-- A call on entry `i` before valid calls on later entries. -/
theorem validFrom_cons {i : ℕ} {calls : List (ℕ × Bool)}
    (hvalid : ∀ c ∈ calls, i + 1 ≤ c.1 ∧ c.2 = true) (hnodup : (calls.map Prod.fst).Nodup) :
    (∀ c ∈ (i, true) :: calls, i ≤ c.1 ∧ c.2 = true) ∧
      (((i, true) :: calls).map Prod.fst).Nodup := by
  constructor
  · intro c hc
    rcases List.mem_cons.1 hc with rfl | hc
    · exact ⟨le_rfl, rfl⟩
    · exact ⟨(Nat.le_succ i).trans (hvalid c hc).1, (hvalid c hc).2⟩
  · refine List.nodup_cons.2 ⟨fun hmem => ?_, hnodup⟩
    obtain ⟨c, hc, hci⟩ := List.mem_map.1 hmem
    have := (hvalid c hc).1
    omega

/-- The unregister pass over registered probes calls each once and leaves none. -/
theorem unregisterLoop_spec : ∀ (n i : ℕ) (t : Table),
    (∀ j, i ≤ j → j < i + n → ∀ p, t.entry j = some p → p.addr ≠ 0 ∧ p.registered = true) →
    (b = false → ∀ j, t.entry j ≠ none) →
      (∀ j, i ≤ j → j < i + n → ∀ p, (unregisterLoop b n i t).entry j = some p →
        p.registered = false) ∧
      (∀ j, j < i → (unregisterLoop b n i t).entry j = t.entry j) ∧
      ∃ calls, (unregisterLoop b n i t).calls = t.calls ++ calls ∧
        (∀ c ∈ calls, i ≤ c.1 ∧ c.2 = true) ∧ (calls.map Prod.fst).Nodup
  | 0, i, t, _, _ => ⟨fun j hj hj' => by omega, fun _ _ => rfl, [], by simp [unregisterLoop]⟩
  | n + 1, i, t, hreg, hnull => by
    cases hi : t.entry i with
    | none =>
      have htest : b = true := by
        by_contra h
        exact hnull (by simpa using h) i hi
      obtain ⟨hnone, hbelow, calls, hcalls, hvalid, hnodup⟩ := unregisterLoop_spec n (i + 1) t
        (fun j hj hj' => hreg j (by omega) (by omega)) hnull
      simp only [unregisterLoop, hi, htest, if_true] at hnone hbelow hcalls ⊢
      refine ⟨fun j hj hj' p hp => ?_, fun j hj => hbelow j (by omega), calls, hcalls,
        fun c hc => ⟨by have := hvalid c hc; omega, (hvalid c hc).2⟩, hnodup⟩
      rcases eq_or_ne j i with rfl | hne
      · rw [hbelow j (by omega), hi] at hp
        cases hp
      · exact hnone j (by omega) (by omega) p hp
    | some q =>
      obtain ⟨haddr, hq⟩ := hreg i le_rfl (by omega) q hi
      have hreg' : ∀ j, i + 1 ≤ j → j < i + 1 + n → ∀ p, (t.unregister i).entry j = some p →
          p.addr ≠ 0 ∧ p.registered = true := fun j hj hj' p hp => by
        rw [t.unregister_of_ne (by omega)] at hp
        exact hreg j (by omega) (by omega) p hp
      obtain ⟨hnone, hbelow, calls, hcalls, hvalid, hnodup⟩ := unregisterLoop_spec n (i + 1)
        (t.unregister i) hreg' fun h j => t.unregister_ne_none i (hnull h j)
      simp only [unregisterLoop, hi, haddr, ne_eq, not_false_eq_true, if_true]
      refine ⟨fun j hj hj' p hp => ?_, fun j hj => ?_, (i, true) :: calls, ?_,
        validFrom_cons hvalid hnodup⟩
      · rcases eq_or_ne j i with rfl | hne
        · rw [hbelow j (by omega), t.unregister_self, hi] at hp
          simp only [Option.map_some, Option.some.injEq] at hp
          rw [← hp]
        · exact hnone j (by omega) (by omega) p hp
      · rw [hbelow j (by omega), t.unregister_of_ne (by omega)]
      · rw [hcalls]
        simp [Table.unregister, hi, hq]

/-! ## The law -/

/-- Every registration succeeds. -/
def AllSucceed (numJp numKp : ℕ) (null : ℕ → Bool) (o : Outcomes) : Prop :=
  (∀ i < numJp, null i = false → (o.jprobe i).ret = 0) ∧ ∀ i < numKp, (o.kprobe i).ret = 0

section Law

variable {numJp numKp : ℕ} {null : ℕ → Bool} {o : Outcomes}

theorem jps_entry_ne_none (i : ℕ) : (initial null).jps.entry i ≠ none ↔ null i = false := by
  cases h : null i <;> simp [initial, h]

theorem fresh_jps (i : ℕ) (p : Probe) (h : (initial null).jps.entry i = some p) :
    p.registered = false := by
  cases hn : null i
  · simp only [initial, hn, Bool.false_eq_true, if_false, Option.some.injEq] at h
    rw [← h]
  · simp [initial, hn] at h

theorem fresh_kps (i : ℕ) (p : Probe) (h : (initial null).kps.entry i = some p) :
    p.registered = false := by
  simp only [initial, Option.some.injEq] at h
  rw [← h]

theorem passes_jps (h : ∀ i < numJp, null i = false → (o.jprobe i).ret = 0) (i : ℕ) (_ : 0 ≤ i)
    (hi : i < 0 + numJp) : Passes true o.jprobe (initial null).jps i := by
  cases hnull : null i
  · exact Or.inr (h i (by omega) hnull)
  · exact Or.inl ⟨rfl, by simp [initial, hnull]⟩

/-- What `my_init` does when no jprobe fails. -/
theorem myInit_of_jprobes (h : ∀ i < numJp, null i = false → (o.jprobe i).ret = 0) :
    myInit numJp numKp o (initial null) =
      if (registerKprobeList numKp o.kprobe (initial null).kps).1 > 0 then
        ((registerKprobeList numKp o.kprobe (initial null).kps).1,
          ⟨unregisterJprobeList numJp (registerJprobeList numJp o.jprobe (initial null).jps).2,
            (registerKprobeList numKp o.kprobe (initial null).kps).2⟩)
      else (0, ⟨(registerJprobeList numJp o.jprobe (initial null).jps).2,
        (registerKprobeList numKp o.kprobe (initial null).kps).2⟩) := by
  have hzero := (registerLoop_zero numJp 0 (initial null).jps (passes_jps h)).1
  simp [myInit, registerJprobeList, hzero]

/-- A failed registration leaves the module loaded without that probe. -/
theorem allSucceed_of_loaded
    (h : 0 ≤ (myInit numJp numKp o (initial null)).1 →
      AllRegistered numJp (myInit numJp numKp o (initial null)).2.jps ∧
        AllRegistered numKp (myInit numJp numKp o (initial null)).2.kps) :
    AllSucceed numJp numKp null o := by
  have hjprobes : ∀ i < numJp, null i = false → (o.jprobe i).ret = 0 := by
    intro i hi hnull
    by_contra hfail
    obtain ⟨hone, j, p, hj, hentry, hp⟩ := registerLoop_one (b := true) numJp 0 (initial null).jps
      (fun j _ => fresh_jps j) ⟨i, by omega, by omega, (jps_entry_ne_none i).2 hnull, hfail⟩
      (by simp)
    have hinit : myInit numJp numKp o (initial null) = (1, { initial null with
        jps := (registerLoop true o.jprobe numJp 0 (initial null).jps).2 }) := by
      simp [myInit, registerJprobeList, hone]
    rw [hinit] at h
    have := (h (by simp)).1 j (by omega) p hentry
    rw [hp] at this
    cases this
  refine ⟨hjprobes, fun i hi => ?_⟩
  by_contra hfail
  obtain ⟨hone, j, p, hj, hentry, hp⟩ := registerLoop_one (b := false) numKp 0 (initial null).kps
    (fun j _ => fresh_kps j) ⟨i, by omega, by omega, by simp [initial], hfail⟩
    (by simp [initial])
  rw [myInit_of_jprobes hjprobes, registerKprobeList, hone, if_pos (by decide)] at h
  have := (h (by simp)).2 j (by omega) p hentry
  rw [hp] at this
  cases this

/-- With no failure the module is loaded with every probe registered, at a nonzero
address. -/
theorem registered_of_allSucceed (h : AllSucceed numJp numKp null o) :
    (myInit numJp numKp o (initial null)).1 = 0 ∧
      (myInit numJp numKp o (initial null)).2.jps.calls = [] ∧
      (myInit numJp numKp o (initial null)).2.kps.calls = [] ∧
      (∀ i < numJp, ∀ p, (myInit numJp numKp o (initial null)).2.jps.entry i = some p →
        p.addr ≠ 0 ∧ p.registered = true) ∧
      (∀ i < numKp, ∀ p, (myInit numJp numKp o (initial null)).2.kps.entry i = some p →
        p.addr ≠ 0 ∧ p.registered = true) ∧
      ∀ i, (myInit numJp numKp o (initial null)).2.kps.entry i ≠ none := by
  obtain ⟨hjzero, hjcalls, hjentry⟩ :=
    registerLoop_zero numJp 0 (initial null).jps (passes_jps h.1)
  obtain ⟨hkzero, hkcalls, hkentry⟩ := registerLoop_zero (b := false) numKp 0 (initial null).kps
    fun i _ hi => Or.inr (h.2 i (by omega))
  have hinit : myInit numJp numKp o (initial null) =
      (0, ⟨(registerLoop true o.jprobe numJp 0 (initial null).jps).2,
        (registerLoop false o.kprobe numKp 0 (initial null).kps).2⟩) := by
    simp [myInit, registerJprobeList, registerKprobeList, hjzero, hkzero]
  rw [hinit]
  refine ⟨rfl, hjcalls, hkcalls, fun i hi p hp => ?_, fun i hi p hp => ?_, fun i => ?_⟩
  · simp only [hjentry, Nat.zero_le, Nat.zero_add, hi, and_self, if_true] at hp
    obtain ⟨q, hq, rfl⟩ := Option.map_eq_some_iff.1 hp
    have hnull := (jps_entry_ne_none i).1 (by rw [hq]; simp)
    exact ⟨(o.jprobe i).addr_ne (h.1 i hi hnull), rfl⟩
  · simp only [hkentry, Nat.zero_le, Nat.zero_add, hi, and_self, if_true] at hp
    obtain ⟨q, hq, rfl⟩ := Option.map_eq_some_iff.1 hp
    exact ⟨(o.kprobe i).addr_ne (h.2 i hi), rfl⟩
  · simp only [hkentry]
    split_ifs <;> simp [initial]

/-- The unregister pass of `my_exit` over a loaded table. -/
theorem unregister_registered {n : ℕ} {t : Table} (hcalls : t.calls = [])
    (hreg : ∀ i < n, ∀ p, t.entry i = some p → p.addr ≠ 0 ∧ p.registered = true)
    (hnull : b = false → ∀ i, t.entry i ≠ none) :
    CallsValid (unregisterLoop b n 0 t) ∧ NoneRegistered n (unregisterLoop b n 0 t) := by
  obtain ⟨hnone, -, calls, hcalls', hvalid, hnodup⟩ := unregisterLoop_spec (b := b) n 0 t
    (fun i _ hi => hreg i (by omega)) hnull
  rw [hcalls, List.nil_append] at hcalls'
  refine ⟨⟨fun c hc => ?_, by rwa [hcalls']⟩, fun i hi => hnone i (by omega) (by omega)⟩
  rw [hcalls'] at hc
  exact (hvalid c hc).2

/-- The probes follow the module exactly when every registration succeeds. -/
theorem monitor_law_iff (numJp numKp : ℕ) (null : ℕ → Bool) (o : Outcomes) :
    Law numJp numKp o (initial null) ↔ AllSucceed numJp numKp null o := by
  constructor
  · intro h
    exact allSucceed_of_loaded h.loaded
  · intro h
    obtain ⟨hret, hjcalls, hkcalls, hj, hk, hnull⟩ := registered_of_allSucceed h
    have hlife : life numJp numKp o (initial null) =
        myExit numJp numKp (myInit numJp numKp o (initial null)).2 := by
      simp [life, hret]
    obtain ⟨hjvalid, hjnone⟩ := unregister_registered (b := true) hjcalls hj (by simp)
    obtain ⟨hkvalid, hknone⟩ := unregister_registered (b := false) hkcalls hk fun _ => hnull
    refine ⟨fun _ => ⟨fun i hi p hp => (hj i hi p hp).2, fun i hi p hp => (hk i hi p hp).2⟩,
      fun hlt => by omega, ?_, ?_⟩
    · rw [hlife]
      exact ⟨hjvalid, hkvalid⟩
    · rw [hlife]
      exact ⟨hjnone, hknone⟩

/-- The tables of the module, `NULL` in the last entry of `jps`, when the second kprobe is
refused with `-EINVAL`. -/
def refusedKprobe : Outcomes where
  jprobe _ := ⟨0, 1, by decide, by decide⟩
  kprobe i := if i = 1 then ⟨-EINVAL, 0, by decide, by decide⟩ else ⟨0, 1, by decide, by decide⟩

theorem not_law_refusedKprobe : ¬Law 12 3 refusedKprobe (initial fun i => i == 11) := by
  intro h
  have := (allSucceed_of_loaded h.loaded).2 1 (by decide)
  simp [refusedKprobe, EINVAL] at this

end Law

/-! ## All or nothing -/

/-- `register_jprobe_list` registers every probe, or returns another value than `0` and leaves
none registered, and unregisters only what it has registered. -/
structure AllOrNothing (numJp : ℕ) (outcome : ℕ → Outcome) (t : Table) : Prop where
  result : (registerJprobeList numJp outcome t).1 = 0 ∧
      AllRegistered numJp (registerJprobeList numJp outcome t).2 ∨
    (registerJprobeList numJp outcome t).1 ≠ 0 ∧
      NoneRegistered numJp (registerJprobeList numJp outcome t).2
  calls : CallsValid (registerJprobeList numJp outcome t).2

/-- The entry is the first whose registration fails. -/
def FirstFailure (null : ℕ → Bool) (outcome : ℕ → Outcome) (i : ℕ) : Prop :=
  null i = false ∧ (outcome i).ret ≠ 0 ∧ ∀ k < i, null k = false → (outcome k).ret = 0

/-- The list fails at the first entry that does not pass. -/
theorem registerLoop_fail : ∀ (k n i : ℕ) (t : Table), k < n →
    (∀ j, i ≤ j → j < i + k → Passes b f t j) → ¬Passes b f t (i + k) →
      registerLoop b f n i t =
        (1, rollback ((registerLoop b f k i t).2.register (i + k) (f (i + k))) (i + k))
  | 0, n + 1, i, t, _, _, hfail => by
    rw [Nat.add_zero, Passes, not_or] at hfail
    change registerLoop b f (n + 1) i t = (1, rollback (t.register i (f i)) i)
    rw [registerLoop, if_neg hfail.1, if_pos hfail.2]
  | k + 1, n + 1, i, t, hk, hpass, hfail => by
    have hi : i + (k + 1) = i + 1 + k := by omega
    rw [hi] at hfail ⊢
    rw [registerLoop, registerLoop]
    split_ifs with hnull hret
    · exact registerLoop_fail k n (i + 1) t (by omega)
        (fun j hj hj' => hpass j (by omega) (by omega)) hfail
    · exact absurd (hpass i le_rfl (by omega)) (not_or.2 ⟨hnull, hret⟩)
    · refine registerLoop_fail k n (i + 1) (t.register i (f i)) (by omega) (fun j hj hj' => ?_) ?_
      · rw [Passes, t.register_of_ne (by omega)]
        exact hpass j (by omega) (by omega)
      · rwa [Passes, t.register_of_ne (by omega)]

/-- The rollback goes over every entry below, also over a `NULL`. -/
theorem rollback_calls : ∀ (i : ℕ) (t : Table), (rollback t i).calls =
    t.calls ++ (List.range i).reverse.map fun j => (j, (t.entry j).any Probe.registered)
  | 0, t => by simp [rollback]
  | i + 1, t => by
    have hbelow : (List.range i).reverse.map (fun j => (j, ((t.unregister i).entry j).any
        Probe.registered)) = (List.range i).reverse.map
          fun j => (j, (t.entry j).any Probe.registered) := by
      refine List.map_congr_left fun j hj => ?_
      have hj' := List.mem_range.1 (List.mem_reverse.1 hj)
      rw [t.unregister_of_ne (by omega)]
    rw [rollback, rollback_calls i, hbelow, List.range_succ, List.reverse_append]
    simp [Table.unregister]

theorem rollback_entry_of_lt : ∀ (i : ℕ) (t : Table) {j : ℕ}, j < i →
    (rollback t i).entry j = (t.entry j).map fun p => { p with registered := false }
  | i + 1, t, j, h => by
    rw [rollback]
    rcases Nat.lt_succ_iff_lt_or_eq.1 h with hlt | rfl
    · rw [rollback_entry_of_lt i _ hlt, t.unregister_of_ne (by omega)]
    · rw [rollback_entry j _ le_rfl, t.unregister_self]

section AllOrNothing

variable {numJp i : ℕ} {null : ℕ → Bool}

theorem passes_initial_iff (j : ℕ) :
    Passes true f (initial null).jps j ↔ (null j = false → (f j).ret = 0) := by
  cases h : null j <;> simp [Passes, initial, h]

theorem passes_of_firstFailure (hi : FirstFailure null f i) (j : ℕ) (_ : 0 ≤ j) (hj : j < 0 + i) :
    Passes true f (initial null).jps j :=
  (passes_initial_iff j).2 (hi.2.2 j (by omega))

/-- What is registered when the first failure comes : every probe below it. -/
theorem entry_at_failure (hi : FirstFailure null f i) (j : ℕ) :
    ((registerLoop true f i 0 (initial null).jps).2.register i (f i)).entry j =
      if j < i then if null j then none else some ⟨(f j).addr, true⟩
      else if j = i then some ⟨(f i).addr, false⟩
      else (initial null).jps.entry j := by
  have hentry := (registerLoop_zero i 0 _ (passes_of_firstFailure hi)).2.2
  rcases lt_trichotomy j i with hlt | rfl | hgt
  · rw [Table.register_of_ne _ (by omega), hentry, if_pos (by omega), if_pos hlt]
    cases hj : null j <;> simp [initial, hj]
  · rw [Table.register_self, hentry, if_neg (by omega), if_neg (by omega), if_pos rfl]
    simp [initial, hi.1, hi.2.1]
  · rw [Table.register_of_ne _ (by omega), hentry, if_neg (by omega), if_neg (by omega),
      if_neg (by omega)]

theorem registerJprobeList_of_failure (hlt : i < numJp) (hi : FirstFailure null f i) :
    registerJprobeList numJp f (initial null).jps =
      (1, rollback ((registerLoop true f i 0 (initial null).jps).2.register i (f i)) i) := by
  have hfail : ¬Passes true f (initial null).jps (0 + i) := by
    rw [Nat.zero_add, passes_initial_iff]
    exact fun h => hi.2.1 (h hi.1)
  have := registerLoop_fail i numJp 0 _ hlt (passes_of_firstFailure hi) hfail
  rwa [Nat.zero_add] at this

/-- A failure leaves no probe registered. -/
theorem noneRegistered_of_failure (hlt : i < numJp) (hi : FirstFailure null f i) :
    NoneRegistered numJp (registerJprobeList numJp f (initial null).jps).2 := by
  intro j _ p hp
  rw [registerJprobeList_of_failure hlt hi] at hp
  rcases lt_or_ge j i with hj | hj
  · simp only [rollback_entry_of_lt i _ hj] at hp
    obtain ⟨q, -, rfl⟩ := Option.map_eq_some_iff.1 hp
    rfl
  · simp only [rollback_entry i _ hj, entry_at_failure hi, if_neg (not_lt.2 hj)] at hp
    split_ifs at hp
    · rw [← Option.some.inj hp]
    · exact fresh_jps j p hp

/-- Its unregister calls are on probes exactly when there is no `NULL` below it. -/
theorem callsValid_of_failure (hlt : i < numJp) (hi : FirstFailure null f i) :
    CallsValid (registerJprobeList numJp f (initial null).jps).2 ↔ ∀ j < i, null j = false := by
  have hcalls : (registerJprobeList numJp f (initial null).jps).2.calls =
      (List.range i).reverse.map fun j => (j, !null j) := by
    have hnone : ((registerLoop true f i 0 (initial null).jps).2.register i (f i)).calls = [] :=
      (registerLoop_zero i 0 _ (passes_of_firstFailure hi)).2.1
    rw [registerJprobeList_of_failure hlt hi, rollback_calls, hnone, List.nil_append]
    refine List.map_congr_left fun j hj => ?_
    rw [entry_at_failure hi, if_pos (List.mem_range.1 (List.mem_reverse.1 hj))]
    cases null j <;> rfl
  have hnodup : (((List.range i).reverse.map fun j => (j, !null j)).map Prod.fst).Nodup := by
    rw [List.map_map]
    simpa [Function.comp_def] using List.nodup_range
  rw [CallsValid, hcalls, and_iff_left hnodup]
  simp

/-- Without a failure every probe is registered, and nothing is undone. -/
theorem allOrNothing_of_success (h : ∀ i < numJp, null i = false → (f i).ret = 0) :
    AllOrNothing numJp f (initial null).jps := by
  obtain ⟨hzero, hcalls, hentry⟩ := registerLoop_zero numJp 0 (initial null).jps
    fun j _ hj => (passes_initial_iff j).2 (h j (by omega))
  refine ⟨.inl ⟨hzero, fun i hi p hp => ?_⟩, ?_⟩
  · rw [registerJprobeList, hentry, if_pos (by omega)] at hp
    obtain ⟨q, -, rfl⟩ := Option.map_eq_some_iff.1 hp
    rfl
  · have hnone : (registerJprobeList numJp f (initial null).jps).2.calls = [] := hcalls
    rw [CallsValid, hnone]
    simp

end AllOrNothing

/-- For every table and all outcomes, the list registers all or nothing, with valid calls only,
exactly when no `NULL` stands before the first entry whose registration fails. -/
theorem all_or_nothing_iff (numJp : ℕ) (null : ℕ → Bool) (outcome : ℕ → Outcome) :
    AllOrNothing numJp outcome (initial null).jps ↔
      ∀ i < numJp, FirstFailure null outcome i → ∀ j < i, null j = false := by
  constructor
  · intro h i hlt hi
    exact (callsValid_of_failure hlt hi).1 h.calls
  · intro h
    by_cases hfail : ∃ i, i < numJp ∧ null i = false ∧ (outcome i).ret ≠ 0
    · classical
      have hspec := Nat.find_spec hfail
      have hfirst : FirstFailure null outcome (Nat.find hfail) := by
        refine ⟨hspec.2.1, hspec.2.2, fun k hk hnull => ?_⟩
        by_contra hret
        exact Nat.find_min hfail hk ⟨hk.trans hspec.1, hnull, hret⟩
      refine ⟨.inr ⟨?_, noneRegistered_of_failure hspec.1 hfirst⟩,
        (callsValid_of_failure hspec.1 hfirst).2 (h _ hspec.1 hfirst)⟩
      rw [registerJprobeList_of_failure hspec.1 hfirst]
      exact one_ne_zero
    · push Not at hfail
      exact allOrNothing_of_success hfail

/-- A table of a `NULL` and a probe whose registration is refused : `unregister_jprobe` is
called on the `NULL`. -/
theorem not_all_or_nothing_null :
    ¬AllOrNothing 2 (fun _ => ⟨-EINVAL, 0, by decide, by decide⟩)
      (initial fun i => i == 0).jps := by
  intro h
  have hcall := h.calls.1 (0, false) (by decide)
  cases hcall

end KernelExamples.EfiMonitor
