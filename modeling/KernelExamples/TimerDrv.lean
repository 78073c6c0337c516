import KernelExamples.CInt
import KernelExamples.Traces
import Mathlib.Data.List.Forall2
import Mathlib.Data.PNat.Defs

/-!
# One timer for all writes

`timer/timer_drv.c`. Every `my_write` initialises and adds the one `my_timer`, to run
`my_timer_function` with the current `len` after `HZ` ticks, and adds `10` to `len`. It does
not look whether the timer is still pending from an earlier write.

A state holds the clock, `len`, the timer, and what has happened : the writes, the runs of
`my_timer_function`, and whether a pending timer was initialised again. The clock is
counted without wrapping, as the timer wheel compares times. What the lists of the wheel
hold after a pending timer is initialised is not defined, and the model keeps the last
entry.

As long as that has not happened, every write that is due was delivered once, and at
most one is left, in the timer (`inv_step`). It never happens exactly when any two writes
are `HZ` ticks apart (`timer_law_iff`).
-/

namespace KernelExamples.TimerDrv

open CInt Traces

/-- `struct timer_list`, and whether it is on a list. -/
structure Timer where
  pending : Bool
  expires : ℕ
  data : ℤ

/-- A call of `my_write` : `jiffies` and `len`. -/
structure Write where
  time : ℕ
  len : ℤ

/-- A call of `my_timer_function` : `jiffies` and its argument. -/
structure Firing where
  time : ℕ
  ptr : ℤ

structure State where
  jiffies : ℕ
  len : ℤ
  timer : Timer
  writes : List Write
  fired : List Firing
  reinit : Bool

/-- The module as loaded, at some time. -/
def initial (jiffies : ℕ) : State := ⟨jiffies, 100, ⟨false, 0, 0⟩, [], [], false⟩

/-! ## The driver -/

def myTimerFunction (s : State) (ptr : ℤ) : State :=
  { s with fired := s.fired ++ [⟨s.jiffies, ptr⟩] }

/-- The value returned and the state after the call. -/
def myWrite (hz : ℕ+) (s : State) (lbuf : ℕ) : ℕ × State :=
  (lbuf, { s with
    timer := ⟨true, s.jiffies + hz, uint64 s.len⟩
    len := int32 (s.len + 10)
    writes := s.writes ++ [⟨s.jiffies, s.len⟩]
    reinit := s.reinit || s.timer.pending })

/-- `jiffies` advances by `n`, and the timer runs if its time has come. -/
def tick (s : State) (n : ℕ) : State :=
  let s := { s with jiffies := s.jiffies + n }
  if s.timer.pending ∧ s.timer.expires ≤ s.jiffies then
    myTimerFunction { s with timer := { s.timer with pending := false } } s.timer.data
  else s

inductive Act
  | write (lbuf : ℕ)
  | tick (n : ℕ)
  deriving DecidableEq

def step (hz : ℕ+) (s : State) : Act → Option State
  | .write lbuf => some (myWrite hz s lbuf).2
  | .tick n => some (tick s n)

/-! ## The law -/

/-- The run of `my_timer_function` for a write. -/
def Delivered (hz : ℕ+) (w : Write) (f : Firing) : Prop :=
  f.ptr = uint64 w.len ∧ w.time + hz ≤ f.time

/-- The writes whose time has come. -/
def due (hz : ℕ+) (s : State) : List Write := s.writes.filter fun w => w.time + hz ≤ s.jiffies

/-- No write is lost : the writes have the values `100`, `110`, `120` and so on, those that
are due match the runs of `my_timer_function` one to one, and `my_timer` was never
initialised or added while pending. -/
structure Law (hz : ℕ+) (s : State) : Prop where
  values : ∀ (k : ℕ) w, s.writes[k]? = some w → w.len = int32 (100 + 10 * k)
  delivered : List.Forall₂ (Delivered hz) (due hz s) s.fired
  notReinit : s.reinit = false

/-- The ticks of a schedule. -/
def elapsed : List Act → ℕ
  | [] => 0
  | .write _ :: as => elapsed as
  | .tick n :: as => n + elapsed as

/-- Any two writes are at least `HZ` ticks apart. -/
def Spaced (hz : ℕ+) (acts : List Act) : Prop :=
  ∀ pre l mid l' post, acts = pre ++ .write l :: (mid ++ .write l' :: post) → hz ≤ elapsed mid

/-! ## The invariant -/

/-- The timer is set for this write. -/
def SetFor (hz : ℕ+) (t : Timer) (w : Write) : Prop :=
  t.expires = w.time + hz ∧ t.data = uint64 w.len

/-- The writes are those delivered and the one the timer is pending for. -/
def Accounted (hz : ℕ+) (s : State) : Prop :=
  ∃ done rest, s.writes = done ++ rest ∧ List.Forall₂ (Delivered hz) done s.fired ∧
    (∀ w ∈ done, w.time + hz ≤ s.jiffies) ∧ (s.timer.pending = false → rest = []) ∧
    (s.timer.pending = true → ∃ w, rest = [w] ∧ SetFor hz s.timer w)

/-- The timer is pending only before its time, `len` counts the writes, and the writes are
accounted for unless a pending timer was initialised. -/
structure Inv (hz : ℕ+) (s : State) : Prop where
  early : s.timer.pending = true → s.jiffies < s.timer.expires
  len : s.len = int32 (100 + 10 * s.writes.length)
  values : ∀ (k : ℕ) w, s.writes[k]? = some w → w.len = int32 (100 + 10 * k)
  accounted : s.reinit = false → Accounted hz s

variable {hz : ℕ+} {s : State}

theorem inv_initial (jiffies : ℕ) : Inv hz (initial jiffies) where
  early := by simp [initial]
  len := by simp [initial, int32]
  values := by simp [initial]
  accounted _ := ⟨[], [], rfl, .nil, by simp, fun _ => rfl, by simp [initial]⟩

theorem accounted_myWrite (hs : Accounted hz s) (hidle : s.timer.pending = false) (lbuf : ℕ) :
    Accounted hz (myWrite hz s lbuf).2 := by
  obtain ⟨done, rest, hwrites, hfired, hdone, hrest, -⟩ := hs
  obtain rfl := hrest hidle
  rw [List.append_nil] at hwrites
  refine ⟨done, [⟨s.jiffies, s.len⟩], ?_, hfired, hdone, by simp [myWrite], fun _ => ?_⟩
  · rw [← hwrites]
    rfl
  · exact ⟨_, rfl, rfl, rfl⟩

theorem inv_myWrite (hs : Inv hz s) (lbuf : ℕ) : Inv hz (myWrite hz s lbuf).2 where
  early _ := Nat.lt_add_of_pos_right hz.pos
  len := by
    simp only [myWrite, List.length_append, List.length_singleton]
    rw [hs.len, int32_add]
    push_cast
    rw [Int.mul_add, Int.mul_one, Int.add_assoc]
  values k w hw := by
    rcases lt_or_ge k s.writes.length with hk | hk
    · exact hs.values k w (by rwa [← List.getElem?_append_left hk])
    · have hlast : k = s.writes.length ∧ w = ⟨s.jiffies, s.len⟩ := by
        simp only [myWrite] at hw
        rw [List.getElem?_append_right hk] at hw
        obtain ⟨hlt, hw⟩ := List.getElem?_eq_some_iff.1 hw
        simp only [List.length_singleton] at hlt
        simp only [List.getElem_singleton] at hw
        exact ⟨by omega, hw.symm⟩
      rw [hlast.1, hlast.2]
      exact hs.len
  accounted h := by
    obtain ⟨hreinit, hidle⟩ := Bool.or_eq_false_iff.1 h
    exact accounted_myWrite (hs.accounted hreinit) hidle lbuf

theorem accounted_fire (hs : Accounted hz s) (hpending : s.timer.pending = true) {n : ℕ}
    (hexp : s.timer.expires ≤ s.jiffies + n) :
    Accounted hz (myTimerFunction { s with
      jiffies := s.jiffies + n
      timer := { s.timer with pending := false } } s.timer.data) := by
  obtain ⟨done, rest, hwrites, hfired, hdone, -, hrest⟩ := hs
  obtain ⟨w, rfl, hexpires, hdata⟩ := hrest hpending
  refine ⟨done ++ [w], [], ?_, ?_, ?_, fun _ => rfl, by simp [myTimerFunction]⟩
  · rw [List.append_nil]
    exact hwrites
  · refine List.rel_append hfired (.cons ⟨hdata, ?_⟩ .nil)
    rw [← hexpires]
    exact hexp
  · intro v hv
    rcases List.mem_append.1 hv with hv | hv
    · exact (hdone v hv).trans (Nat.le_add_right _ _)
    · rw [List.mem_singleton.1 hv, ← hexpires]
      exact hexp

theorem inv_tick (hs : Inv hz s) (n : ℕ) : Inv hz (tick s n) := by
  unfold tick
  dsimp only
  split_ifs with hfire
  · exact ⟨by simp [myTimerFunction], hs.len, hs.values, fun h =>
      accounted_fire (hs.accounted h) hfire.1 hfire.2⟩
  · refine ⟨fun h => not_le.1 fun hle => hfire ⟨h, hle⟩, hs.len, hs.values, fun h => ?_⟩
    obtain ⟨done, rest, hwrites, hfired, hdone, hrest⟩ := hs.accounted h
    exact ⟨done, rest, hwrites, hfired, fun w hw => (hdone w hw).trans (Nat.le_add_right _ _),
      hrest⟩

theorem inv_step (s : State) (a : Act) (s' : State) (hs : Inv hz s)
    (h : step hz s a = some s') : Inv hz s' := by
  cases a with
  | write lbuf =>
    obtain rfl := Option.some.inj h
    exact inv_myWrite hs lbuf
  | tick n =>
    obtain rfl := Option.some.inj h
    exact inv_tick hs n

/-- The law holds as long as no pending timer was initialised. -/
theorem law_iff (hs : Inv hz s) : Law hz s ↔ s.reinit = false := by
  refine ⟨Law.notReinit, fun h => ⟨hs.values, ?_, h⟩⟩
  obtain ⟨done, rest, hwrites, hfired, hdone, hidle, hpending⟩ := hs.accounted h
  have hrest : rest.filter (fun w => w.time + hz ≤ s.jiffies) = [] := by
    cases hp : s.timer.pending with
    | false => rw [hidle hp, List.filter_nil]
    | true =>
      obtain ⟨w, rfl, hexpires, -⟩ := hpending hp
      have := hs.early hp
      simp only [List.filter_cons, List.filter_nil, ite_eq_right_iff]
      simp
      omega
  have hdue : due hz s = done := by
    rw [due, hwrites, List.filter_append, hrest, List.append_nil, List.filter_eq_self]
    simpa using hdone
  rwa [hdue]

/-! ## Schedules -/

/-- The schedule is spaced, with its first write after at least `wait` ticks. -/
def SpacedFrom (hz : ℕ+) : ℕ → List Act → Prop
  | _, [] => True
  | wait, .write _ :: as => wait = 0 ∧ SpacedFrom hz hz as
  | wait, .tick n :: as => SpacedFrom hz (wait - n) as

/-- Every write comes after at least `wait` ticks. -/
def After (wait : ℕ) (acts : List Act) : Prop :=
  ∀ pre l post, acts = pre ++ .write l :: post → wait ≤ elapsed pre

theorem after_write {wait l : ℕ} {as : List Act} : After wait (.write l :: as) ↔ wait = 0 := by
  constructor
  · intro h
    exact Nat.le_zero.1 (h [] l as rfl)
  · rintro rfl pre l' post -
    exact Nat.zero_le _

theorem after_tick {wait n : ℕ} {as : List Act} :
    After wait (.tick n :: as) ↔ After (wait - n) as := by
  constructor
  · intro h pre l post has
    have := h (.tick n :: pre) l post (by rw [has]; rfl)
    rw [elapsed] at this
    omega
  · intro h pre l post has
    cases pre with
    | nil => simp at has
    | cons a pre =>
      obtain ⟨rfl, rfl⟩ := List.cons_eq_cons.1 has
      have := h pre l post rfl
      rw [elapsed]
      omega

theorem spaced_write {l : ℕ} {as : List Act} :
    Spaced hz (.write l :: as) ↔ After hz as ∧ Spaced hz as := by
  constructor
  · intro h
    refine ⟨fun mid l' post has => h [] l mid l' post (by rw [has]; rfl), ?_⟩
    intro pre l' mid l'' post has
    exact h (.write l :: pre) l' mid l'' post (by rw [has]; rfl)
  · rintro ⟨hafter, h⟩ pre l' mid l'' post has
    cases pre with
    | nil =>
      obtain ⟨-, rfl⟩ := List.cons_eq_cons.1 has
      exact hafter mid l'' post rfl
    | cons a pre =>
      obtain ⟨rfl, rfl⟩ := List.cons_eq_cons.1 has
      exact h pre l' mid l'' post rfl

theorem spaced_tick {n : ℕ} {as : List Act} : Spaced hz (.tick n :: as) ↔ Spaced hz as := by
  constructor
  · intro h pre l mid l' post has
    exact h (.tick n :: pre) l mid l' post (by rw [has]; rfl)
  · intro h pre l mid l' post has
    cases pre with
    | nil => simp at has
    | cons a pre =>
      obtain ⟨rfl, rfl⟩ := List.cons_eq_cons.1 has
      exact h pre l mid l' post rfl

theorem spacedFrom_iff : ∀ (wait : ℕ) (as : List Act),
    SpacedFrom hz wait as ↔ After wait as ∧ Spaced hz as
  | wait, [] => by simp [SpacedFrom, After, Spaced]
  | wait, .write l :: as => by
    rw [SpacedFrom, spacedFrom_iff hz as, after_write, spaced_write]
  | wait, .tick n :: as => by
    rw [SpacedFrom, spacedFrom_iff (wait - n) as, after_tick, spaced_tick]

/-! ## Every run -/

/-- The ticks until the timer runs. -/
def wait (s : State) : ℕ := if s.timer.pending then s.timer.expires - s.jiffies else 0

theorem wait_eq_zero_iff (hs : Inv hz s) : wait s = 0 ↔ s.timer.pending = false := by
  unfold wait
  cases hp : s.timer.pending with
  | false => simp
  | true =>
    have := hs.early hp
    simp
    omega

theorem wait_myWrite (lbuf : ℕ) : wait (myWrite hz s lbuf).2 = hz := by
  simp [wait, myWrite]

theorem wait_tick (n : ℕ) : wait (tick s n) = wait s - n := by
  unfold tick
  dsimp only
  split_ifs with hfire
  · simp only [wait, myTimerFunction, hfire.1, if_true, Bool.false_eq_true, if_false]
    have := hfire.2
    omega
  · simp only [wait]
    split_ifs
    · omega
    · rw [Nat.zero_sub]

theorem reinit_tick (n : ℕ) : (tick s n).reinit = s.reinit := by
  unfold tick
  dsimp only
  split_ifs <;> rfl

/-- From a good state, no pending timer is ever initialised exactly when the schedule is
spaced and its first write waits for the timer. -/
theorem notReinit_iff : ∀ (acts : List Act) {s : State}, Inv hz s → s.reinit = false →
    (Throughout (step hz) (fun s => s.reinit = false) s acts ↔ SpacedFrom hz (wait s) acts)
  | [], s, _, hs => by simp [throughout_nil, SpacedFrom, hs]
  | .write lbuf :: acts, s, hI, hs => by
    have hnext : (myWrite hz s lbuf).2.reinit = false ↔ wait s = 0 := by
      rw [wait_eq_zero_iff hI]
      simp [myWrite, hs]
    have ih : ∀ h : wait s = 0, _ := fun h =>
      notReinit_iff acts (inv_myWrite hI lbuf) (hnext.2 h)
    simp only [wait_myWrite] at ih
    rw [throughout_cons, SpacedFrom]
    constructor
    · rintro ⟨-, h⟩
      have hrun := h _ rfl
      have hwait := hnext.1 (hrun [] acts _ rfl rfl)
      exact ⟨hwait, (ih hwait).1 hrun⟩
    · rintro ⟨hwait, h⟩
      refine ⟨hs, fun s' hs' => ?_⟩
      obtain rfl := Option.some.inj hs'
      exact (ih hwait).2 h
  | .tick n :: acts, s, hI, hs => by
    have ih := notReinit_iff acts (inv_tick hI n) ((reinit_tick n).trans hs)
    rw [wait_tick] at ih
    rw [throughout_cons, SpacedFrom, ← ih]
    constructor
    · rintro ⟨-, h⟩
      exact h _ rfl
    · intro h
      refine ⟨hs, fun s' hs' => ?_⟩
      obtain rfl := Option.some.inj hs'
      exact h

/-- In every schedule of writes and ticks, no write is lost and no pending timer is
initialised, in any state, exactly when any two writes are at least `HZ` ticks apart. -/
theorem timer_law_iff (hz : ℕ+) (jiffies : ℕ) (acts : List Act) :
    Throughout (step hz) (Law hz) (initial jiffies) acts ↔ Spaced hz acts := by
  have hfirst : After (wait (initial jiffies)) acts := fun _ _ _ _ => Nat.zero_le _
  rw [throughout_congr inv_step (fun s hs => law_iff hs) (inv_initial jiffies),
    notReinit_iff acts (inv_initial jiffies) rfl, spacedFrom_iff, and_iff_right hfirst]

/-- Two writes of one byte at the same time, on a kernel with `HZ` of `250`, and a second
after them. -/
theorem not_timer_law_two_writes :
    ¬Throughout (step 250) (Law 250) (initial 0) [.write 1, .write 1, .tick 250] := by
  intro h
  have hlaw := h [.write 1, .write 1, .tick 250] [] _ rfl rfl
  exact absurd hlaw.notReinit (by decide)

end KernelExamples.TimerDrv
