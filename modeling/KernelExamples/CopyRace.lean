import KernelExamples.MyDynamic
import KernelExamples.Threads

/-!
# Calls on one buffer at the same time

`mycdrv_read` and `mycdrv_write` of `char_dev/mydynamic.c` take no lock, and the copy to or from
user memory is made byte by byte. Here any number of files have calls under way, and a step is
a seek, the start of a call, one byte of a copy, or the return of a call. A call fixes its
position and its count at the start. A `copy_from_user` that fails clears the bytes that are
left.

No interleaving makes a call leave the buffer. And a call is as if it were alone
(`calls_apart_are_atomic`) as long as no other call stores a byte in its range while it is under
way : it returns what the functions of `MyDynamic` return for the contents it found at its start,
and a write leaves its range as they leave it.
-/

namespace KernelExamples.CopyRace

open CInt Mem Traces Threads MyDynamic

/-! ## The source -/

variable {A : Arch}

inductive Kind
  | read
  | write
  deriving DecidableEq

/-- The arguments of a call, and where its copy fails. -/
structure Ask (A : Arch) where
  kind : Kind
  buf : Bytes
  lbuf : RwCount A
  fault : ℕ

/-- A call under way : the contents of the buffer at its start, `bytes_to_do`, how many bytes
are done, and the user's buffer. -/
structure Copy (A : Arch) extends Ask A where
  seen : Bytes
  n : ℤ
  i : ℤ
  user : Bytes

/-- A call that has returned : the contents at its start and at its return, the position it had,
and what it returned. -/
structure Answer (A : Arch) extends Ask A where
  seen : Bytes
  kbuf : Bytes
  fPos : ℤ
  ret : ℤ
  ppos : ℤ
  user : Bytes

/-- An open file : its position, the call under way, and those that have returned. -/
structure File (A : Arch) where
  fPos : ℤ
  copy : Option (Copy A)
  answers : List (Answer A)

inductive Act (A : Arch)
  | lseek (offset : Loff) (orig : ℤ)
  | start (ask : Ask A)
  | byte
  | ret

/-- The bytes that come from user memory or go there. -/
def Copy.moved (c : Copy A) : ℤ := c.n - uncopied c.fault c.n

/-- The bytes the copy touches. Only `copy_from_user` goes on after a fault. -/
def Copy.todo (c : Copy A) : ℤ :=
  match c.kind with
  | .read => c.moved
  | .write => c.n

/-- The byte a write stores. -/
def Copy.stores (c : Copy A) (i : ℤ) : UInt8 := if i < c.moved then c.buf i else 0

/-- The start of a call. -/
def File.start (kbuf : Bytes) (f : File A) (ask : Ask A) : File A :=
  { f with copy := some ⟨ask, kbuf, uint64 (bytesToDo (maxbytes A f.fPos) ask.lbuf.val), 0,
      ask.buf⟩ }

/-- The next byte of a copy. -/
def File.byte (kbuf : Bytes) (f : File A) (c : Copy A) : Bytes × File A :=
  match c.kind with
  | .read =>
    (kbuf, { f with copy := some { c with
      user := Function.update c.user c.i (kbuf (f.fPos + c.i))
      i := c.i + 1 } })
  | .write =>
    (Function.update kbuf (f.fPos + c.i) (c.stores c.i),
      { f with copy := some { c with i := c.i + 1 } })

/-- The return of a call. -/
def File.ret (kbuf : Bytes) (f : File A) (c : Copy A) : File A :=
  let nbytes := int32 (uint64 c.moved)
  { fPos := int64 (f.fPos + nbytes)
    copy := none
    answers := f.answers ++
      [⟨c.toAsk, c.seen, kbuf, f.fPos, nbytes, int64 (f.fPos + nbytes), c.user⟩] }

def prog {T : Type*} (_ : T) : Act A → Bytes → File A → Option (Bytes × File A)
  | .lseek offset orig, kbuf, f =>
    if f.copy.isNone then
      some (kbuf, { f with fPos := (mycdrvLseek A f.fPos offset.val orig).2 })
    else none
  | .start ask, kbuf, f => if f.copy.isNone then some (kbuf, f.start kbuf ask) else none
  | .byte, kbuf, f =>
    f.copy.bind fun c => if c.i < c.todo then some (f.byte kbuf c) else none
  | .ret, kbuf, f =>
    f.copy.bind fun c => if c.i = c.todo then some (kbuf, f.ret kbuf c) else none

/-- The files are open, at the start of the device. -/
def initial {T : Type*} (kbuf : Bytes) : Threads.State T Bytes (File A) :=
  ⟨kbuf, fun _ => ⟨0, none, []⟩⟩

/-! ## What is asked of it -/

/-- The call answers like a call alone on the contents it found. -/
def AsIfAlone (r : Answer A) : Prop :=
  match r.kind with
  | .read =>
    let io := mycdrvRead A r.seen r.buf r.lbuf.val r.fPos r.fault
    r.ret = io.ret ∧ r.ppos = io.ppos ∧ r.user = io.buf
  | .write =>
    let io := mycdrvWrite A r.seen r.buf r.lbuf.val r.fPos r.fault
    r.ret = io.ret ∧ r.ppos = io.ppos ∧
      ∀ a, io.start ≤ a → a < io.start + io.len → r.kbuf a = io.kbuf a

/-- The step stores no byte in the range of the call under way on another file. -/
def Outside : Act A → Bytes → File A → File A → Prop
  | .byte, _, f, f' => ∀ c ∈ f.copy, c.kind = .write → ∀ c' ∈ f'.copy,
      ¬(f'.fPos ≤ f.fPos + c.i ∧ f.fPos + c.i < f'.fPos + c'.n)
  | _, _, _, _ => True

/-! ## The invariant -/

/-- The position and the range of the call under way are in the buffer. -/
structure Placed (f : File A) : Prop where
  nonneg : 0 ≤ f.fPos
  le : f.fPos ≤ kbufSize A
  n_eq : ∀ c ∈ f.copy, c.n = min c.lbuf.val (kbufSize A - f.fPos)
  i_mem : ∀ c ∈ f.copy, 0 ≤ c.i ∧ c.i ≤ c.todo

/-- How far a call under way has come. -/
structure Progress (kbuf : Bytes) (fPos : ℤ) (c : Copy A) : Prop where
  user : c.kind = .read → c.user = memcpy c.buf 0 c.seen fPos c.i
  range : ∀ j, 0 ≤ j → j < c.n → kbuf (fPos + j) =
    if c.kind = .write ∧ j < c.i then c.stores j else c.seen (fPos + j)

/-- A file whose calls were not disturbed. -/
structure Serves (kbuf : Bytes) (f : File A) : Prop where
  placed : Placed f
  progress : ∀ c ∈ f.copy, Progress kbuf f.fPos c
  answers : ∀ r ∈ f.answers, AsIfAlone r

variable {kbuf : Bytes} {f : File A} {c : Copy A}

theorem Placed.n_mem (hf : Placed f) (hc : c ∈ f.copy) :
    0 ≤ c.n ∧ f.fPos + c.n ≤ kbufSize A ∧ c.n < 2 ^ 31 := by
  have hn := hf.n_eq c hc
  have hle := hf.le
  have hnonneg := hf.nonneg
  have hlbuf := c.lbuf.nonneg
  have hsize := kbufSize_mem A
  omega

theorem Placed.moved_mem (hf : Placed f) (hc : c ∈ f.copy) : 0 ≤ c.moved ∧ c.moved ≤ c.n := by
  obtain ⟨hnonneg, -, -⟩ := hf.n_mem hc
  have h := uncopied_nonneg c.fault hnonneg
  have h' := uncopied_le c.fault c.n
  unfold Copy.moved
  omega

theorem Placed.todo_le (hf : Placed f) (hc : c ∈ f.copy) : c.todo ≤ c.n := by
  have hmoved := hf.moved_mem hc
  unfold Copy.todo
  split
  · exact hmoved.2
  · exact le_rfl

/-- The count of a call is that of the functions of `MyDynamic`. -/
theorem Placed.n_eq_bytesToDo (hf : Placed f) (hc : c ∈ f.copy) :
    c.n = uint64 (bytesToDo (maxbytes A f.fPos) c.lbuf.val) := by
  rw [bytesToDo_maxbytes hf.nonneg hf.le c.lbuf.nonneg]
  exact hf.n_eq c hc

theorem placed_start (hf : Placed f) (ask : Ask A) : Placed (f.start kbuf ask) := by
  refine ⟨hf.nonneg, hf.le, ?_, ?_⟩
  · rintro c ⟨⟩
    exact bytesToDo_maxbytes hf.nonneg hf.le ask.lbuf.nonneg
  · rintro c ⟨⟩
    have hn := bytesToDo_maxbytes hf.nonneg hf.le ask.lbuf.nonneg
    have hle := hf.le
    have hlbuf := ask.lbuf.nonneg
    have hnonneg : 0 ≤ uint64 (bytesToDo (maxbytes A f.fPos) ask.lbuf.val) := uint64_nonneg _
    have h' := uncopied_le ask.fault (uint64 (bytesToDo (maxbytes A f.fPos) ask.lbuf.val))
    refine ⟨le_rfl, ?_⟩
    unfold Copy.todo
    split
    · unfold Copy.moved
      dsimp only
      omega
    · exact hnonneg

theorem placed_lseek (hf : Placed f) (hnone : f.copy = none) (offset orig : ℤ) :
    Placed { f with fPos := (mycdrvLseek A f.fPos offset orig).2 } := by
  have hsize := kbufSize_mem A
  obtain ⟨hnonneg, hle⟩ := lseek_mem hsize.1 hsize.2 ⟨hf.nonneg, hf.le⟩ offset orig
  exact ⟨hnonneg, hle, by simp [hnone], by simp [hnone]⟩

theorem placed_byte (hf : Placed f) (hc : c ∈ f.copy) (hlt : c.i < c.todo) :
    Placed (f.byte kbuf c).2 := by
  have hn := hf.n_eq c hc
  have hi := hf.i_mem c hc
  have hi' : 0 ≤ c.i + 1 ∧ c.i + 1 ≤ c.todo := by omega
  unfold File.byte
  split
  · refine ⟨hf.nonneg, hf.le, ?_, ?_⟩
    · rintro d ⟨⟩
      exact hn
    · rintro d ⟨⟩
      exact hi'
  · refine ⟨hf.nonneg, hf.le, ?_, ?_⟩
    · rintro d ⟨⟩
      exact hn
    · rintro d ⟨⟩
      exact hi'

theorem ret_fPos (hf : Placed f) (hc : c ∈ f.copy) : (f.ret kbuf c).fPos = f.fPos + c.moved := by
  obtain ⟨hn, hle, hlt⟩ := hf.n_mem hc
  have hmoved := hf.moved_mem hc
  have hnonneg := hf.nonneg
  have hsize := kbufSize_mem A
  have hbytes : int32 (uint64 c.moved) = c.moved := nbytes_eq hn hlt c.fault
  rw [File.ret, hbytes]
  exact int64_of_mem (by omega) (by omega)

theorem placed_ret (hf : Placed f) (hc : c ∈ f.copy) : Placed (f.ret kbuf c) := by
  have hmoved := hf.moved_mem hc
  obtain ⟨hn, hle, -⟩ := hf.n_mem hc
  have hnonneg := hf.nonneg
  refine ⟨?_, ?_, by simp [File.ret], by simp [File.ret]⟩
  · rw [ret_fPos hf hc]
    omega
  · rw [ret_fPos hf hc]
    omega

/-! ## A call that is not disturbed -/

/-- One byte more is copied. -/
theorem update_memcpy (buf seen : Bytes) (pos : ℤ) {i : ℤ} (hi : 0 ≤ i) :
    Function.update (memcpy buf 0 seen pos i) i (seen (pos + i)) =
      memcpy buf 0 seen pos (i + 1) := by
  funext a
  rcases eq_or_ne a i with rfl | hne
  · rw [Function.update_self, memcpy_of_mem hi (by omega), sub_zero]
  · rw [Function.update_of_ne hne]
    by_cases ha : 0 ≤ a ∧ a < i
    · rw [memcpy_of_mem ha.1 (by omega), memcpy_of_mem ha.1 (by omega)]
    · rw [memcpy_of_not_mem (by omega), memcpy_of_not_mem (by omega)]

theorem serves_start (hf : Serves kbuf f) (ask : Ask A) : Serves kbuf (f.start kbuf ask) := by
  refine ⟨placed_start hf.placed ask, ?_, hf.answers⟩
  rintro c ⟨⟩
  refine ⟨fun _ => (memcpy_of_nonpos le_rfl).symm, fun j hj _ => ?_⟩
  rw [if_neg (by dsimp only; omega)]

theorem serves_byte (hf : Serves kbuf f) (hc : c ∈ f.copy) (hlt : c.i < c.todo) :
    Serves (f.byte kbuf c).1 (f.byte kbuf c).2 := by
  have hplaced : Placed (f.byte kbuf c).2 := placed_byte hf.placed hc hlt
  have hi := (hf.placed.i_mem c hc).1
  have hn := hf.placed.todo_le hc
  obtain ⟨huser, hrange⟩ := hf.progress c hc
  cases hkind : c.kind with
  | read =>
    simp only [File.byte, hkind] at hplaced ⊢
    refine ⟨hplaced, ?_, hf.answers⟩
    rintro d ⟨⟩
    refine ⟨fun _ => ?_, fun j hj hj' => ?_⟩
    · have hbyte := hrange c.i hi (by omega)
      rw [if_neg (by simp [hkind])] at hbyte
      dsimp only
      rw [huser hkind, hbyte, update_memcpy _ _ _ hi]
    · simpa [hkind] using hrange j hj hj'
  | write =>
    simp only [File.byte, hkind] at hplaced ⊢
    refine ⟨hplaced, ?_, hf.answers⟩
    rintro d ⟨⟩
    refine ⟨by simp [hkind], fun j hj hj' => ?_⟩
    dsimp only
    rcases eq_or_ne j c.i with rfl | hne
    · rw [Function.update_self, if_pos ⟨hkind, by omega⟩]
      rfl
    · rw [Function.update_of_ne (by omega), hrange j hj hj']
      have hiff : (c.kind = .write ∧ j < c.i) ↔ c.kind = .write ∧ j < c.i + 1 :=
        and_congr_right fun _ => by omega
      simp only [hiff]
      rfl

/-- A copy that is complete is that of the functions of `MyDynamic`. -/
theorem serves_ret (hf : Serves kbuf f) (hc : c ∈ f.copy) (hdone : c.i = c.todo) :
    Serves kbuf (f.ret kbuf c) := by
  refine ⟨placed_ret hf.placed hc, by simp [File.ret], fun r hr => ?_⟩
  obtain hr | hr := List.mem_append.1 hr
  · exact hf.answers r hr
  obtain rfl := List.mem_singleton.1 hr
  have hn := hf.placed.n_eq_bytesToDo hc
  obtain ⟨huser, hrange⟩ := hf.progress c hc
  unfold AsIfAlone
  cases hkind : c.kind with
  | read =>
    simp only [mycdrvRead, ← hn]
    refine ⟨rfl, rfl, ?_⟩
    rw [huser hkind, hdone, Copy.todo, hkind]
    rfl
  | write =>
    simp only [mycdrvWrite, ← hn]
    refine ⟨rfl, rfl, fun a ha ha' => ?_⟩
    simp only [copyIn] at ha ha' ⊢
    have hj := hrange (a - f.fPos) (by omega) (by omega)
    rw [add_sub_cancel, if_pos ⟨hkind, by rw [hdone, Copy.todo, hkind]; dsimp only; omega⟩] at hj
    rw [hj, Copy.stores, Copy.moved, copyFromUser]
    split_ifs with hmoved
    · rw [memcpy_of_not_mem (by omega), memcpy_of_mem ha (by omega), zero_add]
    · rw [memcpy_of_mem (by omega) (by omega)]

/-! ## Interleavings -/

variable {T : Type*}

theorem prog_cases {t : T} {a : Act A} {kbuf' : Bytes} {f' : File A}
    (h : prog t a kbuf f = some (kbuf', f')) :
    (∃ offset orig, f.copy = none ∧ kbuf' = kbuf ∧
        f' = { f with fPos := (mycdrvLseek A f.fPos offset orig).2 }) ∨
      (∃ ask, a = .start ask ∧ kbuf' = kbuf ∧ f' = f.start kbuf ask) ∨
      (∃ c ∈ f.copy, a = .byte ∧ c.i < c.todo ∧ kbuf' = (f.byte kbuf c).1 ∧
        f' = (f.byte kbuf c).2) ∨
      ∃ c ∈ f.copy, a = .ret ∧ c.i = c.todo ∧ kbuf' = kbuf ∧ f' = f.ret kbuf c := by
  cases a with
  | lseek offset orig =>
    obtain ⟨hnone, h⟩ := of_guard h
    cases h
    exact .inl ⟨offset.val, orig, Option.isNone_iff_eq_none.1 hnone, rfl, rfl⟩
  | start ask =>
    obtain ⟨-, h⟩ := of_guard h
    cases h
    exact .inr (.inl ⟨ask, rfl, rfl, rfl⟩)
  | byte =>
    obtain ⟨c, hc, h⟩ := Option.bind_eq_some_iff.1 h
    obtain ⟨hlt, h⟩ := of_guard h
    exact .inr (.inr (.inl ⟨c, hc, rfl, hlt, by rw [h], by rw [h]⟩))
  | ret =>
    obtain ⟨c, hc, h⟩ := Option.bind_eq_some_iff.1 h
    obtain ⟨hdone, h⟩ := of_guard h
    cases h
    exact .inr (.inr (.inr ⟨c, hc, rfl, hdone, rfl, rfl⟩))

theorem placed_own (t : T) (a : Act A) (kbuf : Bytes) (f : File A) (kbuf' : Bytes) (f' : File A)
    (hf : Placed f) (h : prog t a kbuf f = some (kbuf', f')) : Placed f' := by
  obtain ⟨offset, orig, hnone, -, rfl⟩ | ⟨ask, -, -, rfl⟩ | ⟨c, hc, -, hlt, -, rfl⟩ |
    ⟨c, hc, -, -, -, rfl⟩ := prog_cases h
  · exact placed_lseek hf hnone offset orig
  · exact placed_start hf ask
  · exact placed_byte hf hc hlt
  · exact placed_ret hf hc

theorem serves_own (t : T) (a : Act A) (kbuf : Bytes) (f : File A) (kbuf' : Bytes) (f' : File A)
    (hf : Serves kbuf f) (h : prog t a kbuf f = some (kbuf', f')) : Serves kbuf' f' := by
  obtain ⟨offset, orig, hnone, rfl, rfl⟩ | ⟨ask, -, rfl, rfl⟩ | ⟨c, hc, -, hlt, rfl, rfl⟩ |
    ⟨c, hc, -, hdone, rfl, rfl⟩ := prog_cases h
  · exact ⟨placed_lseek hf.placed hnone offset orig, by simp [hnone], hf.answers⟩
  · exact serves_start hf ask
  · exact serves_byte hf hc hlt
  · exact serves_ret hf hc hdone

/-- A step that stores nothing in the range of another file's call does not disturb it. -/
theorem serves_other (t : T) (a : Act A) (kbuf : Bytes) (f : File A) (kbuf' : Bytes)
    (f' : File A) (q : File A) (hq : Serves kbuf q) (houtside : Outside a kbuf f q)
    (h : prog t a kbuf f = some (kbuf', f')) : Serves kbuf' q := by
  obtain ⟨-, -, -, rfl, -⟩ | ⟨ask, -, rfl, -⟩ | ⟨c, hc, rfl, hlt, rfl, -⟩ |
    ⟨c, hc, -, -, rfl, -⟩ := prog_cases h
  · exact hq
  · exact hq
  · cases hkind : c.kind with
    | read =>
      simp only [File.byte, hkind]
      exact hq
    | write =>
      simp only [File.byte, hkind]
      refine ⟨hq.placed, fun d hd => ⟨(hq.progress d hd).user, fun j hj hj' => ?_⟩, hq.answers⟩
      have hapart := houtside c hc hkind d hd
      rw [Function.update_of_ne (by omega)]
      exact (hq.progress d hd).range j hj hj'
  · exact hq

/-- In every interleaving of calls through any number of files, each touches bytes of the buffer
only. In an interleaving in which no call stores a byte in the range of another call under way,
each call answers as if it were alone. -/
theorem calls_apart_are_atomic [DecidableEq T] (kbuf : Bytes) (acts : List (T × Act A)) :
    Throughout (step prog) (fun s => ∀ t, ∀ c ∈ (s.locals t).copy,
        0 ≤ (s.locals t).fPos ∧ (s.locals t).fPos + c.n ≤ kbufSize A) (initial kbuf) acts ∧
      (Along (step prog) (Apart Outside) (initial kbuf) acts →
        Throughout (step prog) (fun s => ∀ t, ∀ r ∈ (s.locals t).answers, AsIfAlone r)
          (initial kbuf) acts) := by
  have hplaced : Placed (⟨0, none, []⟩ : File A) :=
    ⟨le_rfl, (kbufSize_mem A).1, by simp, by simp⟩
  constructor
  · intro pre post s hacts hs t c hc
    have hinv := throughout_of_step (local_step (I := fun _ => True) (J := fun _ _ => Placed)
      (fun t a kbuf f kbuf' f' _ hf h => ⟨trivial, placed_own t a kbuf f kbuf' f' hf h⟩)
      (fun _ _ _ _ _ _ _ _ _ _ _ hq _ => hq)) acts ⟨trivial, fun _ => hplaced⟩ pre post s hacts hs
    exact ⟨(hinv.2 t).nonneg, ((hinv.2 t).n_mem hc).2.1⟩
  · intro halong pre post s hacts hs t
    have hinv := throughout_of_along (local_step_of_apart (I := fun _ => True)
      (J := fun _ => Serves)
      (fun t a kbuf f kbuf' f' _ hf h => ⟨trivial, serves_own t a kbuf f kbuf' f' hf h⟩)
      (fun t a kbuf f kbuf' f' _ q _ _ _ hq houtside h =>
        serves_other t a kbuf f kbuf' f' q hq houtside h)) acts
      ⟨trivial, fun _ => ⟨hplaced, by simp [initial], by simp [initial]⟩⟩ halong pre post s hacts hs
    exact (hinv.2 t).answers

/-- One file reads the second byte while another one writes the first. -/
theorem read_beside_write :
    Throughout (step prog) (fun s => ∀ t, ∀ r ∈ (s.locals t).answers, AsIfAlone r)
      (initial (T := Bool) (A := .x86) fun _ => 0)
      [(true, .lseek ⟨1, by decide, by decide⟩ 0),
        (true, .start ⟨.read, fun _ => 0, ⟨1, by decide, by decide⟩, 0⟩),
        (false, .start ⟨.write, fun _ => 7, ⟨1, by decide, by decide⟩, 0⟩), (false, .byte),
        (true, .byte), (true, .ret), (false, .ret)] := by
  refine (calls_apart_are_atomic _ _).2 ?_
  refine along_cons.2 fun s₁ h₁ => ⟨fun _ _ => trivial, ?_⟩
  obtain rfl := Option.some.inj h₁
  refine along_cons.2 fun s₂ h₂ => ⟨fun _ _ => trivial, ?_⟩
  obtain rfl := Option.some.inj h₂
  refine along_cons.2 fun s₃ h₃ => ⟨fun _ _ => trivial, ?_⟩
  obtain rfl := Option.some.inj h₃
  refine along_cons.2 fun s₄ h₄ => ⟨?_, ?_⟩
  · intro u hu c hc _ c' hc'
    obtain rfl : u = true := by simpa using hu
    obtain rfl := Option.some.inj hc
    obtain rfl := Option.some.inj hc'
    decide
  obtain rfl := Option.some.inj h₄
  refine along_cons.2 fun s₅ h₅ => ⟨?_, ?_⟩
  · intro u hu c hc hkind
    obtain rfl := Option.some.inj hc
    cases hkind
  obtain rfl := Option.some.inj h₅
  refine along_cons.2 fun s₆ h₆ => ⟨fun _ _ => trivial, ?_⟩
  obtain rfl := Option.some.inj h₆
  exact along_cons.2 fun s₇ h₇ => ⟨fun _ _ => trivial, along_nil⟩

end KernelExamples.CopyRace
