import KernelExamples.Traces

/-!
# Loading and unloading

A module that takes resources from its host when it is loaded, and gives them back when it is
unloaded or when the load fails. `account` follows one resource through a list of events : how
many are held, and whether it was used or given back when none was.

A host loads a module that is not loaded, and unloads one that is. `Balanced` is what it
expects in every state : what the module owns while it is loaded, nothing else, and no misuse.
A run is balanced exactly when each of its loads and unloads is (`balanced_iff`), which is
a statement about one call of the module at a time.
-/

namespace Lifecycle

open Traces

variable {R O : Type*} [DecidableEq R]

/-! ## Accounts -/

inductive Event (R : Type*)
  | acquire (r : R)
  | use (r : R)
  | release (r : R)

/-- The number held of a resource, and whether it was misused. -/
structure Account where
  held : ℕ
  misused : Bool
  deriving DecidableEq

/-- The account of `r` after an event. -/
def Account.next (r : R) (a : Account) : Event R → Account
  | .acquire q => if q = r then ⟨a.held + 1, a.misused⟩ else a
  | .use q => if q = r then ⟨a.held, a.misused || a.held == 0⟩ else a
  | .release q => if q = r then ⟨a.held - 1, a.misused || a.held == 0⟩ else a

/-- The account of `r` after the events, in order. -/
def account (es : List (Event R)) (r : R) (a : Account) : Account := es.foldl (Account.next r) a

@[simp]
theorem account_nil (r : R) (a : Account) : account [] r a = a := rfl

@[simp]
theorem account_cons (e : Event R) (es : List (Event R)) (r : R) (a : Account) :
    account (e :: es) r a = account es r (a.next r e) := rfl

theorem account_append (es es' : List (Event R)) (r : R) (a : Account) :
    account (es ++ es') r a = account es' r (account es r a) :=
  List.foldl_append

/-- A loop that takes one resource after the other. -/
theorem account_map_acquire (r : R) : ∀ (rs : List R) (a : Account),
    account (rs.map .acquire) r a = ⟨a.held + rs.count r, a.misused⟩
  | [], _ => rfl
  | q :: rs, a => by
    rw [List.map_cons, account_cons, account_map_acquire r rs, List.count_cons, Account.next]
    by_cases hq : q = r
    · simp only [hq, if_true, beq_self_eq_true, Account.mk.injEq, and_true]
      omega
    · simp [hq]

/-- A loop that gives one resource after the other back. -/
theorem account_map_release (r : R) : ∀ (rs : List R) (a : Account), rs.count r ≤ a.held →
    account (rs.map .release) r a = ⟨a.held - rs.count r, a.misused⟩
  | [], _, _ => rfl
  | q :: rs, a, h => by
    rw [List.count_cons] at h ⊢
    rw [List.map_cons, account_cons, Account.next]
    by_cases hq : q = r
    · simp only [hq, if_true, beq_self_eq_true] at h ⊢
      rw [account_map_release r rs _ (by dsimp only; omega)]
      have hheld : (a.held == 0) = false := by
        rw [beq_eq_false_iff_ne]
        omega
      simp only [hheld, Bool.or_false, Account.mk.injEq, and_true]
      omega
    · simp only [hq, if_false, beq_iff_eq, Nat.add_zero] at h ⊢
      exact account_map_release r rs a h

/-! ## Modules -/

/-- What a module does when it is loaded, and whether the load succeeds, and what it does when
it is unloaded. Both depend on the outcome of the calls it makes while it is loaded. -/
structure Module (O R : Type*) where
  init : O → Bool × List (Event R)
  exit : O → List (Event R)

inductive Act (O : Type*)
  | load (o : O)
  | unload

/-- The outcome of the load, if the module is loaded, and the account of each resource. -/
structure State (O R : Type*) where
  loaded : Option O
  ledger : R → Account

/-- Nothing is loaded, and nothing held. -/
def initial : State O R := ⟨none, fun _ => ⟨0, false⟩⟩

def step (m : Module O R) (s : State O R) : Act O → Option (State O R)
  | .load o =>
    if s.loaded.isNone then
      some ⟨if (m.init o).1 then some o else none, fun r => account (m.init o).2 r (s.ledger r)⟩
    else none
  | .unload => s.loaded.map fun o => ⟨none, fun r => account (m.exit o) r (s.ledger r)⟩

/-- A module that is loaded has come through its load. -/
def CameThrough (m : Module O R) (s : State O R) : Prop :=
  ∀ o, s.loaded = some o → (m.init o).1 = true

theorem cameThrough_step (m : Module O R) (s : State O R) (a : Act O) (s' : State O R)
    (_ : CameThrough m s) (h : step m s a = some s') : CameThrough m s' := by
  intro o ho
  cases a with
  | load p =>
    obtain ⟨-, rfl⟩ := of_guard h
    obtain ⟨hp, hpo⟩ := Option.ite_none_right_eq_some.1 ho
    rwa [← Option.some.inj hpo]
  | unload =>
    obtain ⟨p, -, rfl⟩ := Option.map_eq_some_iff.1 h
    cases ho

section Balance

variable (m : Module O R) (tracked : R → Prop) (owns : O → R → ℕ)

/-- Of the resources that are tracked, a loaded module holds what it owns, a module that is not
loaded holds nothing, and none was misused. -/
def Balanced (s : State O R) : Prop :=
  ∀ r, tracked r → s.ledger r = ⟨(s.loaded.map fun o => owns o r).getD 0, false⟩

/-- A load takes what the module owns, or nothing if it fails. -/
def LoadBalanced (o : O) : Prop :=
  ∀ r, tracked r →
    account (m.init o).2 r ⟨0, false⟩ = ⟨if (m.init o).1 then owns o r else 0, false⟩

/-- An unload gives back what the module owns. -/
def UnloadBalanced (o : O) : Prop :=
  ∀ r, tracked r → account (m.exit o) r ⟨owns o r, false⟩ = ⟨0, false⟩

/-- The action is balanced. -/
def ActBalanced (s : State O R) : Act O → Prop
  | .load o => LoadBalanced m tracked owns o
  | .unload => ∀ o, s.loaded = some o → UnloadBalanced m tracked owns o

variable {m tracked owns}

theorem balanced_step (s : State O R) (a : Act O) (s' : State O R)
    (hs : Balanced tracked owns s) (h : step m s a = some s') :
    Balanced tracked owns s' ↔ ActBalanced m tracked owns s a := by
  cases a with
  | load o =>
    obtain ⟨hnone, rfl⟩ := of_guard h
    have hnone' : s.loaded = none := by simpa using hnone
    refine forall_congr' fun r => forall_congr' fun hr => ?_
    dsimp only
    rw [hs r hr, hnone']
    cases (m.init o).1 <;> rfl
  | unload =>
    obtain ⟨o, ho, rfl⟩ := Option.map_eq_some_iff.1 h
    simp only [ActBalanced, ho, Option.some.injEq, forall_eq']
    refine forall_congr' fun r => forall_congr' fun hr => ?_
    dsimp only
    rw [hs r hr, ho]
    rfl

/-- A run is balanced throughout exactly when its loads and unloads are. -/
theorem balanced_iff {C : State O R → Act O → Prop}
    (hC : ∀ s a, CameThrough m s → (ActBalanced m tracked owns s a ↔ C s a)) (acts : List (Act O)) :
    Throughout (step m) (Balanced tracked owns) initial acts ↔ Along (step m) C initial acts := by
  have hinitial : CameThrough m initial := fun o ho => by cases ho
  rw [throughout_iff_along (I := CameThrough m) (cameThrough_step m)
    (fun s a s' _ => balanced_step s a s') acts hinitial fun _ _ => rfl]
  exact along_congr_of_step (cameThrough_step m) hC hinitial

end Balance

end Lifecycle
