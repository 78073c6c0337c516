import KernelExamples.CharDev

/-!
# The udev driver : a shared array with case folding

`char_dev/mydynamic_udev.c`. `KBUF_SIZE` is an `int` here, so `KBUF_SIZE - *ppos` is signed.
`my_write` copies into `kbuf` and then folds the bytes it copied in place, by the minor
number of the file (`convert`).

The specification is an array of bytes, the history of writes to it, and a position for
each open file (`Spec`). A write of `d` at `p` is the write of `caseFold minor ∘ d` to the
first `min lbuf (KBUF_SIZE − p)` bytes from `p`, and a read returns what the latest
write left. `udev_refines_array` : after any calls through any files, without copy
faults, the driver has the positions and the contents of the specification, and the next
call does what the specification does.
-/

namespace KernelExamples.MyDynamicUdev

open CInt Mem

variable (A : Arch)

/-- `KBUF_SIZE`. -/
def kbufSize : ℤ := int32 (10 * A.pageSize)

/-- `maxbytes = KBUF_SIZE - *ppos`. -/
def maxbytes (ppos : ℤ) : ℤ := int32 (int64 (kbufSize A - ppos))

/-- `my_read`. -/
def myRead (kbuf buf : Bytes) (lbuf ppos : ℤ) (fault : ℕ) : Io :=
  let n := bytesToDo (maxbytes A ppos) lbuf
  if n = 0 then ⟨-ENOSPC, ppos, kbuf, buf, ppos, 0⟩ else copyOut kbuf buf ppos (uint64 n) fault

def toLower (c : UInt8) : UInt8 := if 65 ≤ c ∧ c ≤ 90 then c - 65 + 97 else c

def toUpper (c : UInt8) : UInt8 := if 97 ≤ c ∧ c ≤ 122 then c - 97 + 65 else c

/-- The `switch` of `convert`. -/
def fold (minor : ℤ) (c : UInt8) : UInt8 :=
  if minor = 1 then toLower c else if minor = 2 then toUpper c else c

/-- The loop of `convert` on `str`, with `n` iterations to go from `i`. -/
def convertLoop (minor : ℤ) : ℕ → ℤ → Bytes → Bytes
  | 0, _, str => str
  | n + 1, i, str => convertLoop minor n (i + 1) (Function.update str i (fold minor (str i)))

/-- `convert(kbuf + start, lbuf, minor)`. -/
def convert (kbuf : Bytes) (start lbuf minor : ℤ) : Bytes :=
  convertLoop minor lbuf.toNat start kbuf

/-- `my_write` on a file of the given minor number. -/
def myWrite (minor : ℤ) (kbuf buf : Bytes) (lbuf ppos : ℤ) (fault : ℕ) : Io :=
  let n := bytesToDo (maxbytes A ppos) lbuf
  if n = 0 then ⟨-ENOSPC, ppos, kbuf, buf, ppos, 0⟩
  else
    let io := copyIn kbuf buf ppos (uint64 n) fault
    { io with kbuf := convert io.kbuf ppos (uint64 io.ret) minor }

/-! ## Calls through open files -/

/-- A call through the file `file`, without a copy fault. -/
inductive Call
  | read (file : ℕ) (buf : Bytes) (lbuf : RwCount A)
  | write (file : ℕ) (buf : Bytes) (lbuf : RwCount A)

/-- The positions of the open files and the buffer of the driver. -/
structure State where
  pos : ℕ → ℤ
  kbuf : Bytes

variable {A} (minor : ℕ → ℤ)

/-- What the driver does on the call. -/
def serve (s : State) : Call A → Io
  | .read file buf lbuf => myRead A s.kbuf buf lbuf.val (s.pos file) 0
  | .write file buf lbuf => myWrite A (minor file) s.kbuf buf lbuf.val (s.pos file) 0

/-- The file of the call. -/
def Call.file : Call A → ℕ
  | read file _ _ => file
  | write file _ _ => file

/-- The buffer and the positions after the call. -/
def next (s : State) (c : Call A) : State :=
  ⟨Function.update s.pos c.file (serve minor s c).ppos, (serve minor s c).kbuf⟩

/-! ## The specification -/

/-- Minor `1` lower-cases ASCII letters, minor `2` upper-cases them. -/
def caseFold (minor : ℤ) (c : UInt8) : UInt8 :=
  if minor = 1 then (Char.ofUInt8 c).toLower.toUInt8
  else if minor = 2 then (Char.ofUInt8 c).toUpper.toUInt8
  else c

/-- The positions of the files and the writes so far. -/
structure Spec where
  pos : ℕ → ℤ
  writes : List (Write UInt8)

/-- The bytes the call moves : what is asked for, up to the end of the array. -/
def Call.count (t : Spec) : Call A → ℤ
  | read file _ lbuf => min lbuf.val (kbufSize A - t.pos file)
  | write file _ lbuf => min lbuf.val (kbufSize A - t.pos file)

/-- The writes the call adds. -/
def Call.writes (t : Spec) : Call A → List (Write UInt8)
  | read _ _ _ => []
  | c@(write file buf _) => [⟨t.pos file, c.count t, fun i => caseFold (minor file) (buf i)⟩]

/-- The specification after the call. -/
def Spec.next (t : Spec) (c : Call A) : Spec :=
  ⟨Function.update t.pos c.file (t.pos c.file + c.count t), t.writes ++ c.writes minor t⟩

/-- The driver, started on `kbuf₀`, is in the state of the specification. -/
structure Refines (A : Arch) (kbuf₀ : Bytes) (s : State) (t : Spec) : Prop where
  pos : s.pos = t.pos
  mem : ∀ file, 0 ≤ s.pos file ∧ s.pos file ≤ kbufSize A
  kbuf : s.kbuf = replay kbuf₀ t.writes

/-- The call does what the specification does. -/
structure Answers (kbuf₀ : Bytes) (s : State) (t : Spec) (c : Call A) : Prop where
  ret : c.count t ≠ 0 → (serve minor s c).ret = c.count t
  pos : (serve minor s c).ppos = s.pos c.file + c.count t
  /-- A read returns the latest write of each byte, and changes nothing. -/
  read : ∀ file buf lbuf, c = .read file buf lbuf → (serve minor s c).kbuf = s.kbuf ∧
    ∀ i, 0 ≤ i → i < c.count t →
      (serve minor s c).buf i = latest kbuf₀ t.writes (s.pos file + i)
  /-- A write folds and stores its bytes, and changes no other byte. -/
  write : ∀ file buf lbuf, c = .write file buf lbuf → ∀ a, (serve minor s c).kbuf a =
    if s.pos file ≤ a ∧ a < s.pos file + c.count t then caseFold (minor file) (buf (a - s.pos file))
    else s.kbuf a

/-! ## The loop of `convert` -/

theorem toLower_eq (c : UInt8) : toLower c = (Char.ofUInt8 c).toLower.toUInt8 := by
  refine forall_byte ?_ c
  decide +kernel

theorem toUpper_eq (c : UInt8) : toUpper c = (Char.ofUInt8 c).toUpper.toUInt8 := by
  refine forall_byte ?_ c
  decide +kernel

theorem fold_eq_caseFold (m : ℤ) (c : UInt8) : fold m c = caseFold m c := by
  rw [fold, caseFold, toLower_eq, toUpper_eq]

/-- The loop folds the bytes it passes and no other. -/
theorem convertLoop_apply (m : ℤ) : ∀ (n : ℕ) (i : ℤ) (str : Bytes) (a : ℤ),
    convertLoop m n i str a = if i ≤ a ∧ a < i + n then fold m (str a) else str a
  | 0, i, str, a => by
    rw [if_neg (by omega)]
    rfl
  | n + 1, i, str, a => by
    rw [convertLoop, convertLoop_apply m n (i + 1)]
    rcases eq_or_ne a i with rfl | hne
    · rw [if_neg (by omega), if_pos (by omega), Function.update_self]
    · rw [Function.update_of_ne hne]
      push_cast
      split_ifs with h h' h'
      · rfl
      · omega
      · omega
      · rfl

/-! ## Calls inside the array -/

variable (A) in
theorem kbufSize_eq : kbufSize A = 10 * A.pageSize := by
  have h := A.le_pageSize
  have h' := A.pageSize_le
  exact int32_of_mem (by omega) (by omega)

variable (A) in
theorem kbufSize_mem : 0 ≤ kbufSize A ∧ kbufSize A < 2 ^ 31 := by
  have h := A.le_pageSize
  have h' := A.pageSize_le
  rw [kbufSize_eq]
  omega

section InArray

variable {ppos : ℤ} (hp : 0 ≤ ppos) (hp' : ppos ≤ kbufSize A) {lbuf : ℤ} (hl : 0 ≤ lbuf) {n : ℤ}
  (hn : n = min lbuf (kbufSize A - ppos))

include hp hp' hl hn

theorem count_mem : 0 ≤ n ∧ n ≤ kbufSize A - ppos ∧ n < 2 ^ 31 := by
  have hsize := kbufSize_mem A
  omega

theorem bytesToDo_maxbytes : bytesToDo (maxbytes A ppos) lbuf = n := by
  have hsize := kbufSize_mem A
  have hmax : maxbytes A ppos = kbufSize A - ppos := by
    unfold maxbytes
    rw [int64_of_mem (by omega) (by omega), int32_of_mem (by omega) (by omega)]
  rw [hmax, bytesToDo_eq_min (by omega) (by omega) hl, hn]

theorem myRead_of_mem (kbuf buf : Bytes) : myRead A kbuf buf lbuf ppos 0 =
    ⟨if n = 0 then -ENOSPC else n, ppos + n, kbuf, memcpy buf 0 kbuf ppos n, ppos, n⟩ := by
  obtain ⟨hnonneg, hle, hlt⟩ := count_mem hp hp' hl hn
  have hsize := kbufSize_mem A
  rw [myRead, bytesToDo_maxbytes hp hp' hl hn]
  rcases eq_or_ne n 0 with h0 | h0
  · simp [h0, memcpy_of_nonpos]
  · simp only [h0, if_false, uint64_of_mem hnonneg (by omega)]
    exact copyOut_zero hnonneg hlt kbuf buf hp (by omega)

/-- The write is one write of the folded bytes. -/
theorem myWrite_of_mem (m : ℤ) (kbuf buf : Bytes) : myWrite A m kbuf buf lbuf ppos 0 =
    ⟨if n = 0 then -ENOSPC else n, ppos + n,
      Write.apply kbuf ⟨ppos, n, fun i => caseFold m (buf i)⟩, buf, ppos, n⟩ := by
  obtain ⟨hnonneg, hle, hlt⟩ := count_mem hp hp' hl hn
  have hsize := kbufSize_mem A
  rw [myWrite, bytesToDo_maxbytes hp hp' hl hn]
  rcases eq_or_ne n 0 with h0 | h0
  · simp [h0, Write.apply, memcpy_of_nonpos]
  · have hconvert : convert (memcpy kbuf ppos buf 0 n) ppos n m =
        Write.apply kbuf ⟨ppos, n, fun i => caseFold m (buf i)⟩ := by
      funext a
      rw [convert, convertLoop_apply, Int.toNat_of_nonneg hnonneg, Write.apply]
      by_cases ha : ppos ≤ a ∧ a < ppos + n
      · rw [if_pos ha, memcpy_of_mem ha.1 ha.2, memcpy_of_mem ha.1 ha.2, zero_add,
          fold_eq_caseFold]
      · rw [if_neg ha, memcpy_of_not_mem ha, memcpy_of_not_mem ha]
    simp only [h0, if_false, uint64_of_mem hnonneg (show n < 2 ^ 64 by omega),
      copyIn_zero hnonneg hlt kbuf buf hp (by omega), hconvert]

end InArray

/-! ## The driver follows the specification -/

variable {kbuf₀ : Bytes} {s : State} {t : Spec}

theorem count_read (h : Refines A kbuf₀ s t) {file : ℕ} {buf : Bytes} {lbuf : RwCount A} :
    (Call.read file buf lbuf).count t = min lbuf.val (kbufSize A - s.pos file) := by
  rw [h.pos]
  rfl

theorem serve_of_refines (h : Refines A kbuf₀ s t) (c : Call A) :
    (serve minor s c).ppos = s.pos c.file + c.count t ∧
      (c.count t ≠ 0 → (serve minor s c).ret = c.count t) ∧
      (serve minor s c).kbuf = replay s.kbuf (c.writes minor t) := by
  cases c with
  | read file buf lbuf =>
    obtain ⟨hp, hp'⟩ := h.mem file
    rw [serve, myRead_of_mem hp hp' lbuf.nonneg (count_read h)]
    exact ⟨rfl, fun h0 => by simp [h0], rfl⟩
  | write file buf lbuf =>
    obtain ⟨hp, hp'⟩ := h.mem file
    have hn : (Call.write file buf lbuf).count t = min lbuf.val (kbufSize A - s.pos file) := by
      rw [h.pos]
      rfl
    rw [serve, myWrite_of_mem hp hp' lbuf.nonneg hn]
    exact ⟨rfl, fun h0 => by simp [h0], by rw [h.pos]; rfl⟩

theorem count_of_refines (h : Refines A kbuf₀ s t) (c : Call A) :
    0 ≤ c.count t ∧ s.pos c.file + c.count t ≤ kbufSize A := by
  obtain ⟨hp, hp'⟩ := h.mem c.file
  rw [h.pos] at hp hp' ⊢
  cases c with
  | read file buf lbuf =>
    obtain ⟨hnonneg, hle, -⟩ := count_mem hp hp' lbuf.nonneg rfl
    exact ⟨hnonneg, by simp only [Call.count, Call.file] at hle ⊢; omega⟩
  | write file buf lbuf =>
    obtain ⟨hnonneg, hle, -⟩ := count_mem hp hp' lbuf.nonneg rfl
    exact ⟨hnonneg, by simp only [Call.count, Call.file] at hle ⊢; omega⟩

/-- A call keeps the driver in the state of the specification. -/
theorem refines_next (h : Refines A kbuf₀ s t) (c : Call A) :
    Refines A kbuf₀ (next minor s c) (t.next minor c) := by
  obtain ⟨hpos, -, hkbuf⟩ := serve_of_refines minor h c
  refine ⟨?_, ?_, ?_⟩
  · rw [next, Spec.next, hpos, h.pos]
  · intro file
    rcases eq_or_ne file c.file with rfl | hne
    · obtain ⟨hnonneg, hle⟩ := count_of_refines h c
      have hp := (h.mem c.file).1
      simp only [next, Function.update_self, hpos]
      omega
    · simpa only [next, Function.update_of_ne hne] using h.mem file
  · rw [next, Spec.next, hkbuf, h.kbuf, replay_append]

theorem answers_of_refines (h : Refines A kbuf₀ s t) (c : Call A) : Answers minor kbuf₀ s t c := by
  obtain ⟨hpos, hret, hkbuf⟩ := serve_of_refines minor h c
  refine ⟨hret, hpos, ?_, ?_⟩
  · rintro file buf lbuf rfl
    refine ⟨hkbuf, fun i hi hi' => ?_⟩
    obtain ⟨hp, hp'⟩ := h.mem file
    rw [serve, myRead_of_mem hp hp' lbuf.nonneg (count_read h), ← replay_eq_latest, ← h.kbuf]
    have hlt : i < 0 + (Call.read file buf lbuf).count t := by omega
    show memcpy buf 0 s.kbuf (s.pos file) _ i = _
    rw [memcpy_of_mem hi hlt, sub_zero]
  · rintro file buf lbuf rfl a
    rw [hkbuf, h.pos]
    exact Write.apply_apply s.kbuf ⟨t.pos file, _, _⟩ a

/-- After any calls through any files, from any contents of the buffer, the driver is in
the state of the specification, and the next call does what the specification does. -/
theorem udev_refines_array (kbuf₀ : Bytes) (calls : List (Call A)) (c : Call A) :
    Refines A kbuf₀ (calls.foldl (next minor) ⟨fun _ => 0, kbuf₀⟩)
        (calls.foldl (Spec.next minor) ⟨fun _ => 0, []⟩) ∧
      Answers minor kbuf₀ (calls.foldl (next minor) ⟨fun _ => 0, kbuf₀⟩)
        (calls.foldl (Spec.next minor) ⟨fun _ => 0, []⟩) c := by
  have h : Refines A kbuf₀ (calls.foldl (next minor) ⟨fun _ => 0, kbuf₀⟩)
      (calls.foldl (Spec.next minor) ⟨fun _ => 0, []⟩) := by
    induction calls using List.reverseRecOn with
    | nil => exact ⟨rfl, fun _ => ⟨le_rfl, (kbufSize_mem A).1⟩, rfl⟩
    | append_singleton calls c ih =>
      rw [List.foldl_append, List.foldl_append]
      exact refines_next minor ih c
  exact ⟨h, answers_of_refines minor h c⟩

end KernelExamples.MyDynamicUdev
