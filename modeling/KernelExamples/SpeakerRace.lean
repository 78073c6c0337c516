import KernelExamples.Speaker
import KernelExamples.Threads

/-!
# Writers that share the speaker

`sound` and `nosound` of `io_port/morse_io.c` read a port and write it back with no lock, and any
number of writers can be in `m_write`. Here a step is one access to a port, by any writer, and
`value` is the register of the writer. A writer alone leaves in the ports what `play` says
(`alone_eq_play`).

A writer can be silenced by another one in the middle of a tone. The port still ends up right
(`silent_when_none_keys`) : the other bits of `MORSE_PIO` never change, and once a writer has
written `MORSE_PIO` the speaker is off whenever no writer has a `nosound` ahead for the tone it
is in. Before that the port is as it was found, maybe with the speaker on.
-/

namespace KernelExamples.Morse

open CInt Traces Threads

/-! ## Accesses -/

/-- The accesses of `sound` and `nosound`. `toneOn` and `setup` are made if both tone bits are
clear in the register. -/
inductive Access
  | inb
  | toneOn
  | setup
  | data (b : UInt8)
  | toneOff
  deriving DecidableEq

/-- The accesses of a call. -/
def accesses : Event → List Access
  | .sound freq =>
    let freq := int32 (morseClkFreq.tdiv freq)
    [.inb, .toneOn, .setup, .data (UInt8.ofInt freq), .data (UInt8.ofInt (freq >>> (8 : ℕ)))]
  | .nosound => [.inb, .toneOff]
  | .load _ => []
  | .mdelay _ => []

/-- The ports and the register after an access. -/
def access (p : Ports) (value : UInt8) : Access → Ports × UInt8
  | .inb => (p, p.pio)
  | .toneOn =>
    (if value &&& morseToneOn = 0 then { p with pio := value ||| morseToneOn } else p, value)
  | .setup =>
    (if value &&& morseToneOn = 0 then { p with pitCmd := p.pitCmd ++ [morseSetup] } else p, value)
  | .data b => ({ p with pitData := p.pitData ++ [b] }, value)
  | .toneOff => ({ p with pio := value &&& morseToneOff }, value &&& morseToneOff)

/-- A writer : its register, and the accesses it has still to make. -/
structure Writer where
  value : UInt8
  todo : List Access

/-- The next access of a writer. -/
def prog {T : Type*} (_ : T) (_ : Unit) (p : Ports) (w : Writer) : Option (Ports × Writer) :=
  match w.todo with
  | [] => none
  | a :: todo => some ((access p w.value a).1, ⟨(access p w.value a).2, todo⟩)

/-- A writer alone. -/
theorem alone_eq_play : ∀ (es : List Event) (p : Ports) (value : UInt8),
    ((es.flatMap accesses).foldl (fun s a => access s.1 s.2 a) (p, value)).1 = play p es
  | [], _, _ => rfl
  | e :: es, p, value => by
    have hcall : ((accesses e).foldl (fun s a => access s.1 s.2 a) (p, value)).1 =
        nextPorts p e := by
      cases e with
      | sound freq =>
        simp only [accesses, List.foldl_cons, List.foldl_nil, access, nextPorts, sound]
        split_ifs <;> simp
      | _ => rfl
    rw [List.flatMap_cons, List.foldl_append, play, List.foldl_cons, ← hcall]
    exact alone_eq_play es _ _

/-! ## What a writer has ahead -/

/-- The access writes `MORSE_PIO`. -/
def Access.writes : Access → Bool
  | .toneOn | .toneOff => true
  | _ => false

/-- The next access that writes `MORSE_PIO` is that of `nosound`. -/
def keying (todo : List Access) : Prop := todo.find? Access.writes = some .toneOff

/-- A tone is ended before the next one. -/
def Paired : List Access → Prop
  | [] => True
  | .toneOn :: todo => keying todo ∧ Paired todo
  | _ :: todo => Paired todo

/-- The register is filled before it is used. -/
def Fresh (todo : List Access) : Prop := ∀ a ∈ todo.head?, a = .inb

theorem paired_symbol (minorNo : ℤ) (dash : Prop) [Decidable dash] (es : List Event) :
    Paired (((if dash then sendDash minorNo else sendDot minorNo) ++ es).flatMap accesses) ↔
      Paired (es.flatMap accesses) := by
  split_ifs <;> simp [sendDash, sendDot, accesses, Paired, keying, Access.writes]

theorem paired_keyBits (minorNo : ℤ) (es : List Event) : ∀ (n : ℕ) (c : UInt32),
    Paired ((keyBits minorNo n c ++ es).flatMap accesses) ↔ Paired (es.flatMap accesses)
  | 0, _ => Iff.rfl
  | n + 1, c => by
    rw [keyBits]
    by_cases hmask : c &&& morseBitMask = 0
    · rw [if_pos hmask, List.nil_append]
    · rw [if_neg hmask, List.append_assoc, paired_symbol, paired_keyBits minorNo es n]

theorem paired_morseChar (signed : Bool) (minorNo : ℤ) (c : UInt8) (es : List Event) :
    Paired ((morseChar signed minorNo c ++ es).flatMap accesses) ↔
      Paired (es.flatMap accesses) := by
  by_cases hc : isLetter c
  · rw [morseChar_of_letter signed minorNo hc, List.cons_append, List.append_assoc,
      List.flatMap_cons]
    exact paired_keyBits minorNo _ 32 (entry c)
  · rw [morseChar_of_not_letter signed minorNo hc, List.nil_append]

theorem paired_morse (signed : Bool) (minorNo : ℤ) (es : List Event) : ∀ s : List UInt8,
    Paired ((morse signed minorNo s ++ es).flatMap accesses) ↔ Paired (es.flatMap accesses)
  | [] => Iff.rfl
  | c :: s => by
    rw [morse]
    split_ifs
    · rfl
    · rw [List.append_assoc, paired_morseChar, paired_morse signed minorNo es s]

/-- The calls of a writer that sends one text after the other. -/
def sends (signed : Bool) (minorNo : ℤ) (texts : List (List UInt8)) : List Event :=
  texts.flatMap (morse signed minorNo)

theorem paired_sends (signed : Bool) (minorNo : ℤ) : ∀ texts : List (List UInt8),
    Paired ((sends signed minorNo texts).flatMap accesses)
  | [] => trivial
  | s :: texts => (paired_morse signed minorNo _ s).2 (paired_sends signed minorNo texts)

theorem fresh_accesses : ∀ es : List Event, Fresh (es.flatMap accesses)
  | [] => by simp [Fresh]
  | .sound _ :: _ => by simp [Fresh, accesses]
  | .nosound :: _ => by simp [Fresh, accesses]
  | .load _ :: es => fresh_accesses es
  | .mdelay _ :: es => fresh_accesses es

/-! ## Interleavings -/

section Race

variable {T : Type*} [DecidableEq T] {k : UInt8}

theorem toneOff_of_toneOn (v : UInt8) : (v ||| morseToneOn) &&& morseToneOff =
    v &&& morseToneOff := by
  refine forall_byte ?_ v
  decide +kernel

/-- The bits of `MORSE_PIO` that are not for the tone are those of `k`. -/
def OtherBits (k : UInt8) (p : Ports) : Prop := p.pio &&& morseToneOff = k

/-- The register has these bits too, once it is filled, and the tones ahead are ended. -/
structure Sends (k : UInt8) (w : Writer) : Prop where
  paired : Paired w.todo
  filled : w.value &&& morseToneOff = k ∨ Fresh w.todo

/-- The register is filled when it is written back. -/
theorem Sends.filled_of_cons {value : UInt8} {a : Access} {todo : List Access}
    (hw : Sends k ⟨value, a :: todo⟩) (ha : a ≠ .inb) : value &&& morseToneOff = k := by
  refine hw.filled.resolve_right fun hfresh => ha (hfresh a ?_)
  rfl

theorem otherBits_access {p : Ports} {value : UInt8} {a : Access} {todo : List Access}
    (hp : OtherBits k p) (hw : Sends k ⟨value, a :: todo⟩) :
    OtherBits k (access p value a).1 ∧ Sends k ⟨(access p value a).2, todo⟩ := by
  cases a with
  | inb => exact ⟨hp, hw.paired, .inl hp⟩
  | toneOn =>
    have hvalue := hw.filled_of_cons (by decide)
    refine ⟨?_, hw.paired.2, .inl hvalue⟩
    unfold OtherBits access
    split_ifs
    · exact (toneOff_of_toneOn value).trans hvalue
    · exact hp
  | setup =>
    refine ⟨?_, hw.paired, .inl (hw.filled_of_cons (by decide))⟩
    unfold OtherBits access
    split_ifs <;> exact hp
  | data b => exact ⟨hp, hw.paired, .inl (hw.filled_of_cons (by simp))⟩
  | toneOff =>
    have hvalue : value &&& morseToneOff &&& morseToneOff = k := by
      rw [UInt8.and_assoc, UInt8.and_self]
      exact hw.filled_of_cons (by decide)
    exact ⟨hvalue, hw.paired, .inl hvalue⟩

omit [DecidableEq T] in
theorem sends_own (t : T) (a : Unit) (p : Ports) (w : Writer) (p' : Ports) (w' : Writer)
    (hp : OtherBits k p) (hw : Sends k w) (h : prog t a p w = some (p', w')) :
    OtherBits k p' ∧ Sends k w' := by
  obtain ⟨value, todo⟩ := w
  cases todo with
  | nil => cases h
  | cons a todo =>
    cases h
    exact otherBits_access hp hw

/-- No writer has keyed a tone : none of the accesses of `start` it has made writes
`MORSE_PIO`. -/
def NoneKeyed (start : T → List Access) (s : Threads.State T Ports Writer) : Prop :=
  ∀ t, ∃ made, start t = made ++ (s.locals t).todo ∧ ∀ a ∈ made, a.writes = false

/-- A tone that is on is being keyed, unless none was keyed yet. -/
def Sounding (pio : UInt8) (start : T → List Access) (s : Threads.State T Ports Writer) : Prop :=
  s.shared.pio &&& morseToneOn = 0 ∨ (NoneKeyed start s ∧ s.shared.pio = pio) ∨
    ∃ t, keying (s.locals t).todo

/-- What an access does to the tone : it ends it, it starts one with an end ahead, or it does
nothing. -/
theorem access_cases (p : Ports) (value : UInt8) {a : Access} {todo : List Access}
    (hw : Paired (a :: todo)) :
    (access p value a).1.pio &&& morseToneOn = 0 ∨ keying todo ∨
      a.writes = false ∧ (access p value a).1.pio = p.pio ∧
        (keying (a :: todo) → keying todo) := by
  cases a with
  | toneOn => exact .inr (.inl hw.1)
  | toneOff => exact .inl (toneOn_of_nosound value)
  | setup =>
    refine .inr (.inr ⟨rfl, ?_, id⟩)
    unfold access
    split_ifs <;> rfl
  | inb => exact .inr (.inr ⟨rfl, rfl, id⟩)
  | data b => exact .inr (.inr ⟨rfl, rfl, id⟩)

/-- An access that does not write `MORSE_PIO` keys no tone. -/
theorem noneKeyed_step {start : T → List Access} {s s' : Threads.State T Ports Writer} {t : T}
    {a : Access} (hsame : ∀ u, u ≠ t → s'.locals u = s.locals u)
    (ha : (s.locals t).todo = a :: (s'.locals t).todo) (hwrites : a.writes = false)
    (hs : NoneKeyed start s) : NoneKeyed start s' := by
  intro u
  obtain ⟨made, hmade, hnone⟩ := hs u
  by_cases hut : u = t
  · subst hut
    refine ⟨made ++ [a], ?_, ?_⟩
    · rw [hmade, ha, List.append_assoc]
      rfl
    · intro b hb
      rcases List.mem_append.1 hb with hb | hb
      · exact hnone b hb
      · rwa [List.mem_singleton.1 hb]
  · rw [hsame u hut]
    exact ⟨made, hmade, hnone⟩

theorem sounding_step {pio : UInt8} {start : T → List Access}
    {s s' : Threads.State T Ports Writer} {a : T × Unit}
    (hs : Local (OtherBits k) (fun _ _ => Sends k) s) (hsounding : Sounding pio start s)
    (h : step prog s a = some s') : Sounding pio start s' := by
  obtain ⟨t, a⟩ := a
  obtain ⟨hprog, hsame⟩ := step_cases h
  have hpaired := (hs.2 t).paired
  obtain ⟨a, todo, htodo⟩ : ∃ a todo, (s.locals t).todo = a :: todo := by
    cases htodo : (s.locals t).todo with
    | nil => simp [prog, htodo] at hprog
    | cons a todo => exact ⟨a, todo, rfl⟩
  simp only [prog, htodo, Option.some.injEq, Prod.mk.injEq] at hprog
  obtain ⟨hshared, hlocal⟩ := hprog
  have htodo' : (s'.locals t).todo = todo := by rw [← hlocal]
  rw [htodo] at hpaired
  unfold Sounding
  rw [← hshared]
  obtain hoff | hkeying | ⟨hwrites, hpio, hkept⟩ :=
    access_cases s.shared (s.locals t).value hpaired
  · exact .inl hoff
  · exact .inr (.inr ⟨t, htodo' ▸ hkeying⟩)
  · rw [hpio]
    refine hsounding.imp_right (Or.imp (And.imp_left ?_) ?_)
    · exact noneKeyed_step hsame (htodo.trans (by rw [htodo'])) hwrites
    · rintro ⟨u, hu⟩
      refine ⟨u, ?_⟩
      by_cases hut : u = t
      · rw [hut, htodo']
        exact hkept (htodo ▸ hut ▸ hu)
      · rwa [hsame u hut]

/-- What holds in every interleaving. -/
structure Shared (pio : UInt8) (start : T → List Access) (s : Threads.State T Ports Writer) :
    Prop where
  bits : Local (OtherBits (pio &&& morseToneOff)) (fun _ _ => Sends (pio &&& morseToneOff)) s
  sounding : Sounding pio start s

theorem shared_step {pio : UInt8} {start : T → List Access} (s : Threads.State T Ports Writer)
    (a : T × Unit) (s' : Threads.State T Ports Writer) (hs : Shared pio start s)
    (h : step prog s a = some s') : Shared pio start s' :=
  ⟨local_step sends_own (fun _ _ _ _ _ _ _ _ _ _ _ hu _ => hu) s a s' hs.bits h,
    sounding_step hs.bits hs.sounding h⟩

/-- The accesses a writer has to make for its texts. -/
def toMake (signed : Bool) (minorNo : T → ℤ) (texts : T → List (List UInt8)) (t : T) :
    List Access :=
  (sends signed (minorNo t) (texts t)).flatMap accesses

/-- In every interleaving the other bits of `MORSE_PIO` stay, and the speaker is off in a state
in which no writer has a tone to end, unless no writer has keyed a tone yet. The port is then as
it was found. -/
theorem silent_when_none_keys (signed : Bool) (minorNo : T → ℤ)
    (texts : T → List (List UInt8)) (p : Ports) (value : T → UInt8) (acts : List (T × Unit)) :
    Throughout (step prog) (fun s => s.shared.pio &&& morseToneOff = p.pio &&& morseToneOff ∧
      ((∀ t, ¬keying (s.locals t).todo) → s.shared.pio &&& morseToneOn = 0 ∨
        (NoneKeyed (toMake signed minorNo texts) s ∧ s.shared.pio = p.pio)))
      ⟨p, fun t => ⟨value t, toMake signed minorNo texts t⟩⟩ acts := by
  intro pre post s hacts hs
  have hstart : Shared p.pio (toMake signed minorNo texts)
      (⟨p, fun t => ⟨value t, toMake signed minorNo texts t⟩⟩ : Threads.State T Ports Writer) :=
    ⟨⟨rfl, fun t => ⟨paired_sends signed (minorNo t) (texts t), .inr (fresh_accesses _)⟩⟩,
      .inr (.inl ⟨fun t => ⟨[], rfl, by simp⟩, rfl⟩)⟩
  obtain ⟨hbits, hsounding⟩ := throughout_of_step shared_step acts hstart pre post s hacts hs
  refine ⟨hbits.1, fun hnone => ?_⟩
  obtain hoff | hkept | ⟨t, ht⟩ := hsounding
  · exact .inl hoff
  · exact .inr hkept
  · exact absurd ht (hnone t)

end Race

end KernelExamples.Morse
