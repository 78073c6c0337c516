import KernelExamples.MyDynamic

/-!
# The driver without clamps

`char_dev/mychar.c`. `my_read` and `my_write` copy all the bytes they are asked for, with no
look at the end of the buffer, and `my_lseek` is the seek of `mydynamic`. As long as every
request fits the rest of the buffer, the two drivers cannot be told apart
(`mychar_eq_mydynamic`), and the first request that does not fit leaves the buffer
(`stays_inside_iff`).
-/

namespace KernelExamples.MyChar

open CInt Mem

variable (A : Arch)

/-- `KBUF_SIZE`, an `unsigned long`. -/
def kbufSize : ℤ := uint64 (10 * A.pageSize)

/-- `my_read`. -/
def myRead (kbuf buf : Bytes) (lbuf ppos : ℤ) (fault : ℕ) : Io := copyOut kbuf buf ppos lbuf fault

/-- `my_write`. -/
def myWrite (kbuf buf : Bytes) (lbuf ppos : ℤ) (fault : ℕ) : Io := copyIn kbuf buf ppos lbuf fault

/-- `my_lseek` : the result and the new `f_pos`. -/
def myLseek (fPos offset orig : ℤ) : ℤ × ℤ := lseek (kbufSize A) fPos offset orig

open MyDynamic (Call State)

variable {A}

/-- The file and the buffer after the call. -/
def next (s : State) : Call A → State
  | .lseek offset orig => { s with fPos := (myLseek A s.fPos offset.val orig).2 }
  | .read buf lbuf fault => { s with fPos := (myRead s.kbuf buf lbuf.val s.fPos fault).ppos }
  | .write buf lbuf fault =>
    let io := myWrite s.kbuf buf lbuf.val s.fPos fault
    ⟨io.ppos, io.kbuf⟩

/-- The value the call returns, and the user buffer after a `read`. -/
def answer (s : State) : Call A → ℤ × Option Bytes
  | .lseek offset orig => ((myLseek A s.fPos offset.val orig).1, none)
  | .read buf lbuf fault =>
    let io := myRead s.kbuf buf lbuf.val s.fPos fault
    (io.ret, some io.buf)
  | .write buf lbuf fault => ((myWrite s.kbuf buf lbuf.val s.fPos fault).ret, none)

/-! ## The same device -/

/-- The answers of a driver to the calls, and the state it ends in. -/
def session (next : State → Call A → State) (answer : State → Call A → ℤ × Option Bytes) :
    State → List (Call A) → List (ℤ × Option Bytes) × State
  | s, [] => ([], s)
  | s, c :: cs =>
    let rest := session next answer (next s c) cs
    (answer s c :: rest.1, rest.2)

/-- A `read` or `write` asks for no more than the rest of the buffer. -/
def CallFits (s : State) : Call A → Prop
  | .lseek _ _ => True
  | .read _ lbuf _ => lbuf.val ≤ kbufSize A - s.fPos
  | .write _ lbuf _ => lbuf.val ≤ kbufSize A - s.fPos

/-- Every call fits when it comes to it. -/
def Fits : State → List (Call A) → Prop
  | _, [] => True
  | s, c :: cs => CallFits s c ∧ Fits (next s c) cs

/-- On a request that fits, `mydynamic` clamps nothing. -/
theorem count_of_fits {fPos : ℤ} (hp : 0 ≤ fPos) {lbuf : RwCount A}
    (hfits : lbuf.val ≤ kbufSize A - fPos) :
    uint64 (bytesToDo (MyDynamic.maxbytes A fPos) lbuf.val) = lbuf.val := by
  have hnonneg := lbuf.nonneg
  have hle : fPos ≤ MyDynamic.kbufSize A := by
    change fPos ≤ kbufSize A
    omega
  rw [MyDynamic.bytesToDo_maxbytes hp hle hnonneg]
  exact min_eq_left hfits

section Call

variable {s : State} (hp : 0 ≤ s.fPos) {c : Call A} (hfits : CallFits s c)

include hp hfits

theorem answer_eq : answer s c = MyDynamic.answer s c := by
  cases c with
  | lseek offset orig => rfl
  | read buf lbuf fault =>
    simp only [answer, MyDynamic.answer, myRead, MyDynamic.mycdrvRead, count_of_fits hp hfits]
  | write buf lbuf fault =>
    simp only [answer, MyDynamic.answer, myWrite, MyDynamic.mycdrvWrite, count_of_fits hp hfits]

theorem next_eq : next s c = MyDynamic.next s c := by
  cases c with
  | lseek offset orig => rfl
  | read buf lbuf fault =>
    simp only [next, MyDynamic.next, myRead, MyDynamic.mycdrvRead, count_of_fits hp hfits]
  | write buf lbuf fault =>
    simp only [next, MyDynamic.next, myWrite, MyDynamic.mycdrvWrite, count_of_fits hp hfits]

/-- The position does not become negative. -/
theorem fPos_next_nonneg : 0 ≤ (next s c).fPos := by
  rw [next_eq hp hfits]
  have hsize := MyDynamic.kbufSize_mem A
  cases c with
  | lseek offset orig =>
    simp only [MyDynamic.next, MyDynamic.mycdrvLseek, lseek]
    cases seekTarget (MyDynamic.kbufSize A) s.fPos offset.val orig with
    | some testpos => exact (seekClamp_mem hsize.1 hsize.2 testpos).1
    | none => exact hp
  | read buf lbuf fault =>
    have hnonneg := lbuf.nonneg
    have hfits : lbuf.val ≤ MyDynamic.kbufSize A - s.fPos := hfits
    exact (MyDynamic.served_mycdrvRead hp (by omega) lbuf s.kbuf buf fault).2.1
  | write buf lbuf fault =>
    have hnonneg := lbuf.nonneg
    have hfits : lbuf.val ≤ MyDynamic.kbufSize A - s.fPos := hfits
    exact (MyDynamic.served_mycdrvWrite hp (by omega) lbuf s.kbuf buf fault).2.1

end Call

theorem session_eq : ∀ (calls : List (Call A)) {s : State}, 0 ≤ s.fPos → Fits s calls →
    session next answer s calls = session MyDynamic.next MyDynamic.answer s calls
  | [], _, _, _ => rfl
  | c :: calls, s, hp, ⟨hfits, hrest⟩ => by
    have ih := session_eq calls (fPos_next_nonneg hp hfits) hrest
    rw [session, session, answer_eq hp hfits, ih, next_eq hp hfits]

/-- On calls that fit, from the same buffer and position, `mychar` and `mydynamic` give the
same answers and end in the same state. -/
theorem mychar_eq_mydynamic (fPos : FilePos) (kbuf : Bytes) (calls : List (Call A))
    (hfits : Fits ⟨fPos.val, kbuf⟩ calls) :
    session next answer ⟨fPos.val, kbuf⟩ calls =
      session MyDynamic.next MyDynamic.answer ⟨fPos.val, kbuf⟩ calls :=
  session_eq calls fPos.nonneg hfits

/-- Ten bytes written at the end of a buffer of ten pages, and a seek back to them. -/
def sampleCalls : List (Call .x86) :=
  [.write (fun _ => 7) ⟨10, by decide, by decide⟩ 0, .lseek ⟨-10, by decide, by decide⟩ 2]

theorem mychar_eq_mydynamic_sample :
    session next answer ⟨40950, fun _ => 0⟩ sampleCalls =
      session MyDynamic.next MyDynamic.answer ⟨40950, fun _ => 0⟩ sampleCalls :=
  mychar_eq_mydynamic ⟨40950, by decide, by decide⟩ (fun _ => 0) sampleCalls
    ⟨show (10 : ℤ) ≤ _ from by decide, trivial, trivial⟩

/-! ## Inside the buffer -/

open MyDynamic (InBuffer)

/-- The call touches no byte outside the buffer. -/
def CallInBounds (s : State) : Call A → Prop
  | .lseek _ _ => True
  | .read buf lbuf fault => (myRead s.kbuf buf lbuf.val s.fPos fault).InBounds (kbufSize A)
  | .write buf lbuf fault => (myWrite s.kbuf buf lbuf.val s.fPos fault).InBounds (kbufSize A)

/-- Every call touches only bytes of the buffer, and the position stays in it. -/
def StaysInside : State → List (Call A) → Prop
  | s, [] => InBuffer A s
  | s, c :: cs => InBuffer A s ∧ CallInBounds s c ∧ StaysInside (next s c) cs

/-- A copy from a position in the buffer stays in it exactly when it fits the rest. -/
theorem inBounds_iff {s : State} (hs : InBuffer A s) (lbuf : RwCount A) :
    (∀ a, s.fPos ≤ a → a < s.fPos + lbuf.val → 0 ≤ a ∧ a < kbufSize A) ↔
      lbuf.val ≤ kbufSize A - s.fPos := by
  have hnonneg := lbuf.nonneg
  have hp : 0 ≤ s.fPos := hs.1
  have hp' : s.fPos ≤ kbufSize A := hs.2
  constructor
  · intro h
    by_contra hlong
    have := (h (s.fPos + lbuf.val - 1) (by omega) (by omega)).2
    omega
  · intro h a ha ha'
    omega

theorem callInBounds_iff {s : State} (hs : InBuffer A s) (c : Call A) :
    CallInBounds s c ↔ CallFits s c := by
  cases c with
  | lseek offset orig => exact Iff.rfl
  | read buf lbuf fault => exact inBounds_iff hs lbuf
  | write buf lbuf fault => exact inBounds_iff hs lbuf

theorem staysInside_iff : ∀ (calls : List (Call A)) {s : State}, InBuffer A s →
    (StaysInside s calls ↔ Fits s calls)
  | [], _, hs => iff_of_true hs trivial
  | c :: calls, s, hs => by
    rw [StaysInside, Fits, callInBounds_iff hs, and_iff_right hs]
    refine and_congr_right fun hfits => staysInside_iff calls ?_
    rw [next_eq hs.1 hfits]
    exact MyDynamic.inBuffer_next hs c

/-- On a file opened at `0`, every sequence of calls stays in the buffer exactly when no read
or write asks for more than the rest of it. -/
theorem stays_inside_iff (kbuf : Bytes) (calls : List (Call A)) :
    StaysInside ⟨0, kbuf⟩ calls ↔ Fits ⟨0, kbuf⟩ calls :=
  staysInside_iff calls ⟨le_rfl, (MyDynamic.kbufSize_mem A).1⟩

/-- A write of one byte at the end of the buffer. -/
def pastEndCalls : List (Call .x86) :=
  [.lseek ⟨0, by decide, by decide⟩ 2, .write (fun _ => 7) ⟨1, by decide, by decide⟩ 0]

theorem not_stays_inside_pastEnd : ¬StaysInside ⟨0, fun _ => 0⟩ pastEndCalls := by
  rintro ⟨-, -, -, hbounds, -⟩
  have := (hbounds 40960 (by decide) (by decide)).2
  revert this
  decide

end KernelExamples.MyChar
