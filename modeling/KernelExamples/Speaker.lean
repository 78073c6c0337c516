import KernelExamples.Morse

/-!
# The ports of the speaker

`sound` and `nosound` of `io_port/morse_io.c`, and what the calls of `morse` leave in the ports.
Bits 0 and 1 of `MORSE_PIO` turn the speaker on, and the two bytes last written to
`MORSE_PIT_DATA` are the divisor of its clock.

`sound` sets the two bits only if both are clear. `nosound` clears both, so a tone after another
one is heard (`Ok.next`), and the first tone is heard unless one of the bits was set before
(`speaker_protocol_iff`).
-/

namespace KernelExamples.Morse

open CInt

/-! ## The source -/

def morseClkFreq : ℤ := 1193180

def morseSetup : UInt8 := 0xB6

def morseToneOn : UInt8 := 0x03

def morseToneOff : UInt8 := 0xFC

/-- The value of `MORSE_PIO`, and the bytes written to `MORSE_PIT_CMD` and to
`MORSE_PIT_DATA`. -/
structure Ports where
  pio : UInt8
  pitCmd : List UInt8
  pitData : List UInt8

def sound (freq : ℤ) (p : Ports) : Ports :=
  let value := p.pio
  let freq := int32 (morseClkFreq.tdiv freq)
  let p := if value &&& morseToneOn = 0 then
      { p with pio := value ||| morseToneOn, pitCmd := p.pitCmd ++ [morseSetup] }
    else p
  { p with pitData := p.pitData ++ [UInt8.ofInt freq, UInt8.ofInt (freq >>> (8 : ℕ))] }

def nosound (p : Ports) : Ports := { p with pio := p.pio &&& morseToneOff }

def minorCount : ℤ := 3

/-- A minor number of the driver. -/
structure Minor where
  val : ℤ
  nonneg : 0 ≤ val
  lt : val < minorCount

/-! ## What is heard -/

/-- The level the last call gave, `none` before the first one. -/
def nextLevel : Option Level → Event → Option Level
  | _, .sound _ => some .tone
  | _, .nosound => some .silence
  | l, .load _ => l
  | l, .mdelay _ => l

def nextPorts : Ports → Event → Ports
  | p, .sound freq => sound freq p
  | p, .nosound => nosound p
  | p, .load _ => p
  | p, .mdelay _ => p

/-- The ports after the calls. -/
def play (p : Ports) (es : List Event) : Ports := es.foldl nextPorts p

/-- The level after the calls. -/
def levelAfter (l : Option Level) (es : List Event) : Option Level := es.foldl nextLevel l

/-- The divisor for the tone of a minor number. -/
def divisor (minor : ℤ) : ℤ := morseClkFreq / (morseFrequency * (minor + 1))

/-- What the ports should hold at a level. -/
def Heard (minor : ℤ) (p : Ports) : Option Level → Prop
  | none => True
  | some .tone => p.pio &&& morseToneOn = morseToneOn ∧
      ∃ written, p.pitData = written ++
        [UInt8.ofInt (divisor minor % 256), UInt8.ofInt (divisor minor / 256)]
  | some .silence => p.pio &&& morseToneOn = 0

/-- In every delay the ports hold what is to be heard, and in the end the two bits are clear and
the others as before. -/
def SpeakerProtocol (minor : ℤ) (p : Ports) (es : List Event) : Prop :=
  (∀ pre ms post, es = pre ++ .mdelay ms :: post →
    Heard minor (play p pre) (levelAfter none pre)) ∧
  (play p es).pio &&& morseToneOn = 0 ∧
  (play p es).pio &&& morseToneOff = p.pio &&& morseToneOff

/-! ## One call -/

@[simp] theorem sound_pio (freq : ℤ) (p : Ports) : (sound freq p).pio =
    if p.pio &&& morseToneOn = 0 then p.pio ||| morseToneOn else p.pio := by
  dsimp only [sound]
  split_ifs
  · rfl
  · rfl

@[simp] theorem nosound_pio (p : Ports) : (nosound p).pio = p.pio &&& morseToneOff := rfl

theorem divisor_nonneg (minor : Minor) : 0 ≤ divisor minor.val := by
  have h := minor.nonneg
  exact Int.ediv_nonneg (by decide) (by unfold morseFrequency; omega)

/-- The clock gets the divisor, low byte first. -/
theorem sound_pitData (minor : Minor) (p : Ports) :
    (sound (morseFrequency * (minor.val + 1)) p).pitData = p.pitData ++
      [UInt8.ofInt (divisor minor.val % 256), UInt8.ofInt (divisor minor.val / 256)] := by
  have hle : divisor minor.val ≤ morseClkFreq := Int.ediv_le_self _ (by decide)
  have hdiv : int32 (morseClkFreq.tdiv (morseFrequency * (minor.val + 1))) = divisor minor.val := by
    rw [Int.tdiv_eq_ediv_of_nonneg (by decide)]
    exact int32_of_mem (le_trans (by decide) (divisor_nonneg minor)) (hle.trans_lt (by decide))
  have hlow : UInt8.ofInt (divisor minor.val) = UInt8.ofInt (divisor minor.val % 256) := by
    simp [UInt8.ofInt]
  have hhigh : divisor minor.val >>> (8 : ℕ) = divisor minor.val / 256 := by
    rw [Int.shiftRight_eq_div_pow]
    rfl
  dsimp only [sound]
  rw [hdiv, ← hlow, hhigh]
  split_ifs
  · rfl
  · rfl

theorem toneOn_of_sound {v : UInt8}
    (h : v &&& morseToneOn = 0 ∨ v &&& morseToneOn = morseToneOn) :
    (if v &&& morseToneOn = 0 then v ||| morseToneOn else v) &&& morseToneOn = morseToneOn := by
  revert h
  refine forall_byte ?_ v
  decide +kernel

theorem toneOff_of_sound (v : UInt8) :
    (if v &&& morseToneOn = 0 then v ||| morseToneOn else v) &&& morseToneOff =
      v &&& morseToneOff := by
  refine forall_byte ?_ v
  decide +kernel

theorem toneOn_of_nosound (v : UInt8) : v &&& morseToneOff &&& morseToneOn = 0 := by
  refine forall_byte ?_ v
  decide +kernel

/-- The tone bits after `sound` are both set only if they were equal before. -/
theorem toneOn_of_toneOn_sound {v : UInt8}
    (h : (if v &&& morseToneOn = 0 then v ||| morseToneOn else v) &&& morseToneOn = morseToneOn) :
    v &&& morseToneOn = 0 ∨ v &&& morseToneOn = morseToneOn := by
  revert h
  refine forall_byte ?_ v
  decide +kernel

/-! ## A run -/

/-- The ports hold what is to be heard at the level `l`. Before the first call they hold `v`. -/
structure Ok (minor : Minor) (v : UInt8) (p : Ports) (l : Option Level) : Prop where
  heard : Heard minor.val p l
  start : l = none → p.pio = v
  kept : p.pio &&& morseToneOff = v &&& morseToneOff

/-- A call for the right tone. -/
def Keyed (minor : Minor) (e : Event) : Prop :=
  ∀ freq, e = .sound freq → freq = morseFrequency * (minor.val + 1)

variable {minor : Minor} {v : UInt8} {p : Ports} {l : Option Level}

/-- The tone bits are equal before a tone. -/
theorem Ok.toneOn (h : Ok minor v p l)
    (hv : v &&& morseToneOn = 0 ∨ v &&& morseToneOn = morseToneOn) :
    p.pio &&& morseToneOn = 0 ∨ p.pio &&& morseToneOn = morseToneOn := by
  match l, h with
  | none, h => rwa [h.start rfl]
  | some .tone, h => exact .inr h.heard.1
  | some .silence, h => exact .inl h.heard

/-- Every call keeps this, if the bits were equal at first. -/
theorem Ok.next (h : Ok minor v p l)
    (hv : v &&& morseToneOn = 0 ∨ v &&& morseToneOn = morseToneOn) {e : Event}
    (he : Keyed minor e) : Ok minor v (nextPorts p e) (nextLevel l e) := by
  cases e with
  | load i => exact h
  | mdelay ms => exact h
  | sound freq =>
    obtain rfl := he freq rfl
    refine ⟨⟨?_, p.pitData, sound_pitData minor p⟩, nofun, ?_⟩
    · rw [nextPorts, sound_pio]
      exact toneOn_of_sound (h.toneOn hv)
    · rw [nextPorts, sound_pio, toneOff_of_sound, h.kept]
  | nosound =>
    refine ⟨toneOn_of_nosound p.pio, nofun, ?_⟩
    rw [nextPorts, nosound_pio, UInt8.and_assoc, UInt8.and_self, h.kept]

theorem Ok.run (hv : v &&& morseToneOn = 0 ∨ v &&& morseToneOn = morseToneOn) :
    ∀ {es : List Event} {p : Ports} {l : Option Level}, (∀ e ∈ es, Keyed minor e) →
      Ok minor v p l → Ok minor v (play p es) (levelAfter l es)
  | [], _, _, _, h => h
  | e :: es, _, _, hes, h => by
    have htail : ∀ e ∈ es, Keyed minor e := fun d hd => hes d (List.mem_cons_of_mem e hd)
    have hrun := Ok.run hv htail (h.next hv (hes e List.mem_cons_self))
    exact hrun

/-! ## The calls of morse -/

theorem keyed_of_ne {e : Event} (h : ∀ freq, e ≠ .sound freq) : Keyed minor e :=
  fun freq he => absurd he (h freq)

theorem keyed_symbol (minor : Minor) (dash : Prop) [Decidable dash] :
    ∀ e ∈ if dash then sendDash (minor.val + 1) else sendDot (minor.val + 1), Keyed minor e := by
  have hsound : Keyed minor (.sound (morseFrequency * (minor.val + 1))) :=
    fun freq h => (Event.sound.inj h).symm
  split_ifs
  · simp only [sendDash, List.forall_mem_cons]
    exact ⟨hsound, keyed_of_ne (by simp), keyed_of_ne (by simp), keyed_of_ne (by simp), by simp⟩
  · simp only [sendDot, List.forall_mem_cons]
    exact ⟨hsound, keyed_of_ne (by simp), keyed_of_ne (by simp), keyed_of_ne (by simp), by simp⟩

theorem keyed_keyBits (minor : Minor) : ∀ (n : ℕ) (c : UInt32),
    ∀ e ∈ keyBits (minor.val + 1) n c, Keyed minor e
  | 0, _, _, he => by simp [keyBits] at he
  | n + 1, c, e, he => by
    rw [keyBits] at he
    by_cases hmask : c &&& morseBitMask = 0
    · simp [hmask] at he
    · rw [if_neg hmask] at he
      rcases List.mem_append.1 he with he | he
      · exact keyed_symbol minor _ e he
      · exact keyed_keyBits minor n (c >>> 1) e he

/-- All tones of `morse` are the tone of the minor number. -/
theorem keyed_morse (signed : Bool) (minor : Minor) (s : List UInt8) :
    ∀ e ∈ morse signed (minor.val + 1) s, Keyed minor e := by
  intro e he
  obtain ⟨c, -, he⟩ := mem_morse he
  simp only [List.mem_cons, List.mem_append, letterSpace, List.not_mem_nil, or_false] at he
  rcases he with rfl | he | rfl
  · exact keyed_of_ne (by simp)
  · exact keyed_keyBits minor 32 (entry c) e he
  · exact keyed_of_ne (by simp)

/-- A letter has a first symbol. -/
theorem keyBits_of_letter (minorNo : ℤ) {c : UInt8} (hc : isLetter c) :
    ∃ ms, keyBits minorNo 32 (entry c) =
      .sound (morseFrequency * minorNo) :: .mdelay ms :: .nosound :: .mdelay morseUnitTime ::
        keyBits minorNo 31 (entry c >>> 1) := by
  obtain ⟨-, -, hbyte, hne, -⟩ := entry_of_letter hc
  have hmask : ¬entry c &&& morseBitMask = 0 :=
    fun h => hne (symbols_of_lt_two ((and_bitMask_eq_zero_iff hbyte).1 h))
  rw [keyBits, if_neg hmask]
  split_ifs
  · exact ⟨_, rfl⟩
  · exact ⟨_, rfl⟩

theorem levelAfter_keyBits (minorNo : ℤ) : ∀ (n : ℕ) (c : UInt32),
    levelAfter (some .silence) (keyBits minorNo n c) = some .silence
  | 0, _ => rfl
  | n + 1, c => by
    have ih := levelAfter_keyBits minorNo n (c >>> 1)
    rw [keyBits]
    split_ifs
    · rfl
    · exact ih
    · exact ih

theorem levelAfter_append (l : Option Level) (es es' : List Event) :
    levelAfter l (es ++ es') = levelAfter (levelAfter l es) es' :=
  List.foldl_append

/-- A string with a letter ends in silence, and so does any other one that starts in silence. -/
theorem levelAfter_morse (signed : Bool) (minorNo : ℤ) : ∀ {s : List UInt8} {l : Option Level},
    0 ∉ s → (∃ c ∈ s, isLetter c) ∨ l = some .silence →
      levelAfter l (morse signed minorNo s) = some .silence
  | [], _, _, h => by simpa [morse, levelAfter] using h
  | c :: s, l, hs, h => by
    rw [List.mem_cons, not_or] at hs
    rw [morse, if_neg (Ne.symm hs.1), levelAfter_append]
    by_cases hc : isLetter c
    · refine levelAfter_morse signed minorNo hs.2 (.inr ?_)
      obtain ⟨ms, hkey⟩ := keyBits_of_letter minorNo hc
      rw [morseChar_of_letter signed minorNo hc, hkey]
      exact (levelAfter_append _ _ _).trans
        (congrArg (levelAfter · letterSpace) (levelAfter_keyBits minorNo 31 _))
    · rw [morseChar_of_not_letter signed minorNo hc]
      exact levelAfter_morse signed minorNo hs.2
        (h.imp_left fun h => ((List.exists_mem_cons_iff _ c s).1 h).resolve_left hc)

/-- A string with a letter starts with a tone. -/
theorem morse_first_tone (signed : Bool) (minorNo : ℤ) : ∀ {s : List UInt8},
    0 ∉ s → (∃ c ∈ s, isLetter c) → ∃ i ms es,
      morse signed minorNo s = [.load i, .sound (morseFrequency * minorNo)] ++ .mdelay ms :: es
  | c :: s, hs, h => by
    rw [List.mem_cons, not_or] at hs
    rw [morse, if_neg (Ne.symm hs.1)]
    by_cases hc : isLetter c
    · obtain ⟨ms, hkey⟩ := keyBits_of_letter minorNo hc
      rw [morseChar_of_letter signed minorNo hc, hkey]
      exact ⟨_, ms, _, rfl⟩
    · rw [morseChar_of_not_letter signed minorNo hc]
      exact morse_first_tone signed minorNo hs.2
        (((List.exists_mem_cons_iff _ c s).1 h).resolve_left hc)

/-- A string with a letter in it. -/
structure LetterText extends CString where
  letter : ∃ c ∈ bytes, isLetter c

/-- The speaker is right for a text with a letter exactly when its two bits are both clear or
both set at first. -/
theorem speaker_protocol_iff (signed : Bool) (minor : Minor) (text : LetterText) (p : Ports) :
    SpeakerProtocol minor.val p (morse signed (minor.val + 1) text.bytes) ↔
      p.pio &&& morseToneOn = 0 ∨ p.pio &&& morseToneOn = morseToneOn := by
  constructor
  · rintro ⟨hdelay, -, -⟩
    obtain ⟨i, ms, es, hes⟩ :=
      morse_first_tone signed (minor.val + 1) text.nul_free text.letter
    have hfirst := (hdelay _ ms es hes).1
    rw [play, List.foldl_cons, List.foldl_cons, List.foldl_nil, nextPorts, nextPorts,
      sound_pio] at hfirst
    exact toneOn_of_toneOn_sound hfirst
  · intro hv
    have hstart : Ok minor p.pio p none := ⟨trivial, fun _ => rfl, rfl⟩
    have hkeyed := keyed_morse signed minor text.bytes
    have hend := hstart.run hv hkeyed
    rw [levelAfter_morse signed (minor.val + 1) text.nul_free (.inl text.letter)] at hend
    refine ⟨fun pre ms post hes => ?_, hend.heard, hend.kept⟩
    refine (hstart.run hv fun e he => hkeyed e ?_).heard
    rw [hes]
    exact List.mem_append_left _ he

/-- With only the timer's gate open, the `E` of the first device is keyed and nothing is heard. -/
theorem not_speaker_protocol_gate : ¬SpeakerProtocol 0 ⟨1, [], []⟩ (morse true 1 [69]) := by
  rintro ⟨hdelay, -, -⟩
  have hfirst := hdelay [.load 37, .sound 2000] 60 [.nosound, .mdelay 60, .mdelay 120] (by decide)
  exact absurd hfirst.1 (by decide)

end KernelExamples.Morse
