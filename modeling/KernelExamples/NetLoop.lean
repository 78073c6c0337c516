import KernelExamples.Hex
import KernelExamples.Traces
import Mathlib.Data.UInt

/-!
# A network device that sends to itself

`networking/mynet_drv.c`. `my_hard_start_xmit` prints the bytes of a frame, 16 in a line, and
hands the frame to `my_rx`, which gives it to `netif_rx`. The stack calls it with the device up
and the queue started, one call at a time. `netif_rx` drops a frame when its backlog is full, and
its result is not looked at. What `eth_type_trans` makes of a frame is a parameter.

A state holds the device, the log since it was registered, and what the stack received. A step
is a call of one of the `net_device_ops`, in any order. `readLog` reads frames off the log : a
line `Sending packet :` starts one, and the lines that start with a blank are its bytes.

The log shows exactly the frames sent, in order, between the messages of the other calls
(`Shows.readLog_eq`). The two counters are equal, so they do not show what `netif_rx` dropped
(`loopback_law`).
-/

namespace KernelExamples.NetLoop

open Hex Text Traces

/-! ## The source -/

/-- The name of a device, which the kernel does not accept with a blank in it. -/
structure DevName where
  text : List UInt8
  no_space : ∀ c ∈ text, isSpace c = false

/-- `IFF_UP`, the queue, the two counters of `stats`, the log and the received packets. -/
structure State (P : Type*) where
  up : Bool
  queue : Bool
  txPackets : UInt64
  rxPackets : UInt64
  log : List UInt8
  received : List P

/-- The calls of the stack. `accepted` says whether `netif_rx` has room. -/
inductive Act
  | ndoOpen
  | ndoStop
  | ndoStartXmit (data : List UInt8) (accepted : Bool)
  | ndoGetStats
  | ndoDoIoctl
  | ndoSetConfig
  | ndoChangeMtu (newMtu : ℕ)
  deriving DecidableEq

variable {P : Type*}

def State.printk (s : State P) (t : List UInt8) : State P := { s with log := s.log ++ t }

/-- `printk("function(%s)\n", dev->name)`. -/
def State.enter (s : State P) (function : List UInt8) (dev : DevName) : State P :=
  s.printk (function ++ dev.text ++ ascii ")\n")

/-- `netif_rx`. -/
def State.netifRx (s : State P) (skb : P) (accepted : Bool) : State P :=
  { s with received := if accepted then s.received ++ [skb] else s.received }

def myRx (s : State P) (skb : P) (accepted : Bool) : State P :=
  let s := s.printk (ascii "I'm receiving a packet\n")
  { s with rxPackets := s.rxPackets + 1 }.netifRx skb accepted

/-- The loop over the bytes of a frame, from the byte `i`. -/
def dumpFrom : ℕ → List UInt8 → List UInt8
  | _, [] => []
  | i, b :: data =>
    (if i &&& 0xf = 0 then ascii "\n " else []) ++ (hexByte b ++ ascii " ") ++ dumpFrom (i + 1) data

def NETDEV_TX_OK : ℤ := 0

variable (ethTypeTrans : List UInt8 → P) (dev : DevName)

def myHardStartXmit (s : State P) (data : List UInt8) (accepted : Bool) : State P × ℤ :=
  let s := s.enter (ascii "my_hard_start_xmit(") dev
  let s := s.printk (ascii "Sending packet :\n")
  let s := s.printk (dumpFrom 0 data)
  let s := s.printk (ascii "\n")
  let s := { s with txPackets := s.txPackets + 1 }
  (myRx s (ethTypeTrans data) accepted, NETDEV_TX_OK)

def myDoIoctl (s : State P) : State P × ℤ := (s.enter (ascii "my_do_ioctl(") dev, -1)

def myGetStats (s : State P) : State P × UInt64 × UInt64 :=
  (s.enter (ascii "my_get_stats(") dev, s.txPackets, s.rxPackets)

def EBUSY : ℤ := 16

def myConfig (s : State P) : State P × ℤ :=
  let s := s.enter (ascii "my_config(") dev
  if s.up then (s, -EBUSY) else (s, 0)

def myChangeMtu (s : State P) (_newMtu : ℕ) : State P × ℤ :=
  (s.enter (ascii "my_change_mtu(") dev, -1)

def myOpen (s : State P) : State P × ℤ :=
  let s := s.enter (ascii "my_open(") dev
  ({ s with queue := true }, 0)

def myClose (s : State P) : State P × ℤ :=
  let s := s.enter (ascii "my_close(") dev
  ({ s with queue := false }, 0)

/-- A call. `IFF_UP` is set if `my_open` returns `0`, and taken away after `my_close`. -/
def step (s : State P) : Act → Option (State P)
  | .ndoOpen =>
    if s.up = false then
      let r := myOpen dev s
      some { r.1 with up := decide (r.2 = 0) }
    else none
  | .ndoStop => if s.up = true then some { (myClose dev s).1 with up := false } else none
  | .ndoStartXmit data accepted =>
    if s.up = true ∧ s.queue = true then some (myHardStartXmit ethTypeTrans dev s data accepted).1
    else none
  | .ndoGetStats => some (myGetStats dev s).1
  | .ndoDoIoctl => some (myDoIoctl dev s).1
  | .ndoSetConfig => some (myConfig dev s).1
  | .ndoChangeMtu newMtu => some (myChangeMtu dev s newMtu).1

/-- The device as registered, with the counters that `alloc_netdev` set to zero. -/
def registered : State P := ⟨false, false, 0, 0, [], []⟩

/-! ## Reading the log -/

/-- The digits of the frames so far, the last one first, after one more line. -/
def readLine (frames : List (List UInt8)) (line : List UInt8) : List (List UInt8) :=
  if line = ascii "Sending packet :" then [] :: frames
  else if line.head? = some 32 then
    match frames with
    | [] => []
    | digits :: frames => (digits ++ line.filter isHexDigit) :: frames
  else frames

/-- The digits of the frames, from a text. -/
def readFrom (frames : List (List UInt8)) (t : List UInt8) : List (List UInt8) :=
  (t.splitOn 10).foldl readLine frames

/-- The frames in a log. -/
def readLog (t : List UInt8) : List (Option (List UInt8)) :=
  (readFrom [] t).reverse.map readBytes

/-- The text can be read without what comes after it. -/
def Complete (t : List UInt8) : Prop :=
  ∀ frames rest, readFrom frames (t ++ rest) = readFrom (readFrom frames t) rest

theorem readFrom_append_cons (frames : List (List UInt8)) (t rest : List UInt8) :
    readFrom frames (t ++ 10 :: rest) = readFrom (readFrom frames t) rest := by
  rw [readFrom, List.splitOn_eq_splitOnP, List.splitOnP_append_cons t rest (by decide),
    List.foldl_append]
  rfl

theorem readFrom_nil (frames : List (List UInt8)) : readFrom frames [] = frames := rfl

theorem readFrom_of_line (frames : List (List UInt8)) {line : List UInt8} (h : 10 ∉ line) :
    readFrom frames line = readLine frames line := by
  have hline : ∀ c ∈ line, (c == 10) = false := by
    intro c hc
    exact beq_false_of_ne fun hc' => h (hc' ▸ hc)
  rw [readFrom, List.splitOn_eq_splitOnP, List.splitOnP_eq_singleton hline]
  rfl

theorem complete_nil : Complete [] := fun _ _ => rfl

theorem complete_line (t : List UInt8) : Complete (t ++ [10]) := by
  intro frames rest
  rw [List.append_assoc, List.singleton_append, readFrom_append_cons, readFrom_append_cons,
    readFrom_nil]

theorem Complete.append {t u : List UInt8} (ht : Complete t) (hu : Complete u) :
    Complete (t ++ u) := by
  intro frames rest
  rw [List.append_assoc, ht, hu, ht]

/-! ## What the calls print -/

/-- The text is one of whole lines, and shows these frames. -/
structure Shows (t : List UInt8) (sent : List (List UInt8)) : Prop where
  complete : Complete t
  frames : ∀ frames, readFrom frames t = (sent.map (·.flatMap hexByte)).reverse ++ frames

theorem Shows.append {t u : List UInt8} {sent sent' : List (List UInt8)} (ht : Shows t sent)
    (hu : Shows u sent') : Shows (t ++ u) (sent ++ sent') := by
  refine ⟨ht.complete.append hu.complete, fun frames => ?_⟩
  rw [ht.complete, ht.frames, hu.frames, List.map_append, List.reverse_append, List.append_assoc]

/-- The frames that a text shows are read off it. -/
theorem Shows.readLog_eq {t : List UInt8} {sent : List (List UInt8)} (h : Shows t sent) :
    readLog t = sent.map some := by
  have hread : readBytes ∘ (fun data : List UInt8 => data.flatMap hexByte) = some :=
    funext readBytes_hexByte
  rw [readLog, h.frames, List.append_nil, List.reverse_reverse, List.map_map, hread]

theorem readLine_other (frames : List (List UInt8)) {line : List UInt8}
    (hblank : line.head? ≠ some 32) (hsending : line.head? ≠ some 83) :
    readLine frames line = frames := by
  unfold readLine
  rw [if_neg fun h => hsending (by rw [h]; rfl), if_neg hblank]

/-- A line that is none of a frame shows no frame. -/
theorem shows_line {line : List UInt8} (h : 10 ∉ line) (hblank : line.head? ≠ some 32)
    (hsending : line.head? ≠ some 83) : Shows (line ++ [10]) [] := by
  refine ⟨complete_line line, fun frames => ?_⟩
  rw [readFrom_append_cons, readFrom_nil, readFrom_of_line frames h,
    readLine_other frames hblank hsending]
  rfl

theorem DevName.not_mem_text (dev : DevName) : 10 ∉ dev.text := by
  intro h
  exact absurd (dev.no_space 10 h) (by decide)

/-- The message at the start of a function shows no frame, whatever the name. -/
theorem shows_enter {function : List UInt8} (hlf : 10 ∉ function)
    (hhead : function.head? = some 109) : Shows (function ++ dev.text ++ ascii ")\n") [] := by
  have hline : function ++ dev.text ++ ascii ")\n" = (function ++ dev.text ++ [41]) ++ [10] := by
    rw [List.append_assoc _ [41]]
    rfl
  have hmem : 10 ∉ function ++ dev.text ++ [41] := by
    simp [hlf, dev.not_mem_text]
  have hhead' : (function ++ dev.text ++ [41]).head? = some 109 := by
    rw [List.append_assoc, List.head?_append, hhead]
    rfl
  rw [hline]
  exact shows_line hmem (by rw [hhead']; decide) (by rw [hhead']; decide)

/-! ### The dump of a frame -/

theorem filter_hexByte (b : UInt8) : (hexByte b).filter isHexDigit = hexByte b :=
  List.filter_eq_self.2 fun _ hc => isHexDigit_of_mem_hexByte hc

theorem not_mem_hexByte (b : UInt8) : 10 ∉ hexByte b := by
  intro h
  exact absurd (isHexDigit_of_mem_hexByte h) (by decide)

/-- The line of a dump before the byte `i` : empty before the first one, and else one that starts
with a blank. -/
structure Part (i : ℕ) (line : List UInt8) : Prop where
  lf : 10 ∉ line
  head : line = [] ∧ i &&& 0xf = 0 ∨ line.head? = some 32

theorem readLine_part (digits : List UInt8) (frames : List (List UInt8)) {i : ℕ}
    {line : List UInt8} (h : Part i line) :
    readLine (digits :: frames) line = (digits ++ line.filter isHexDigit) :: frames := by
  rcases h.head with ⟨rfl, -⟩ | hhead
  · rw [List.filter_nil, List.append_nil]
    exact readLine_other _ (by simp) (by simp)
  · have hsending : line ≠ ascii "Sending packet :" := by
      rintro rfl
      exact absurd hhead (by decide)
    rw [readLine, if_neg hsending, if_pos hhead]

theorem part_byte {line : List UInt8} (hlf : 10 ∉ line) (hhead : line.head? = some 32)
    (b : UInt8) (i : ℕ) : Part i (line ++ (hexByte b ++ ascii " ")) := by
  refine ⟨?_, .inr ?_⟩
  · simp only [List.mem_append, not_or]
    exact ⟨hlf, not_mem_hexByte b, by decide⟩
  · rw [List.head?_append, hhead]
    rfl

theorem filter_byte (line : List UInt8) (b : UInt8) :
    (line ++ (hexByte b ++ ascii " ")).filter isHexDigit = line.filter isHexDigit ++ hexByte b := by
  have hblank : (ascii " ").filter isHexDigit = [] := by decide
  rw [List.filter_append, List.filter_append, filter_hexByte, hblank, List.append_nil]

/-- A dump shows its bytes, from any byte and any part of a line on. -/
theorem readFrom_dumpFrom (frames : List (List UInt8)) : ∀ (data : List UInt8) (i : ℕ)
    (digits line : List UInt8), Part i line →
      readFrom (digits :: frames) (line ++ (dumpFrom i data ++ [10])) =
        (digits ++ line.filter isHexDigit ++ data.flatMap hexByte) :: frames
  | [], i, digits, line, h => by
    rw [dumpFrom, List.nil_append, readFrom_append_cons, readFrom_nil, readFrom_of_line _ h.lf,
      readLine_part digits frames h, List.flatMap_nil, List.append_nil]
  | b :: data, i, digits, line, h => by
    by_cases hi : i &&& 0xf = 0
    · -- the line before is read, and the byte starts a new one
      have hpart : Part (i + 1) ([32] ++ (hexByte b ++ ascii " ")) :=
        part_byte (by decide) rfl b (i + 1)
      have hnext : line ++ (dumpFrom i (b :: data) ++ [10]) =
          line ++ 10 :: ([32] ++ (hexByte b ++ ascii " ") ++ (dumpFrom (i + 1) data ++ [10])) := by
        rw [dumpFrom, if_pos hi]
        simp [ascii]
      have hdigits : [32].filter isHexDigit = [] := by decide
      rw [hnext, readFrom_append_cons, readFrom_of_line _ h.lf, readLine_part digits frames h,
        readFrom_dumpFrom frames data (i + 1) _ _ hpart, filter_byte, hdigits, List.nil_append,
        List.flatMap_cons, List.append_assoc _ (hexByte b)]
    · have hhead := h.head.resolve_left fun hi' => hi hi'.2
      have hnext : line ++ (dumpFrom i (b :: data) ++ [10]) =
          line ++ (hexByte b ++ ascii " ") ++ (dumpFrom (i + 1) data ++ [10]) := by
        rw [dumpFrom, if_neg hi]
        simp
      rw [hnext, readFrom_dumpFrom frames data (i + 1) _ _ (part_byte h.lf hhead b (i + 1)),
        filter_byte, List.flatMap_cons]
      simp

theorem shows_dump (data : List UInt8) :
    Shows (ascii "Sending packet :\n" ++ dumpFrom 0 data ++ ascii "\n") [data] := by
  refine ⟨complete_line _, fun frames => ?_⟩
  have hsending : readFrom frames (ascii "Sending packet :") = [] :: frames := by
    rw [readFrom_of_line _ (by decide)]
    exact if_pos rfl
  have htext : ascii "Sending packet :\n" ++ dumpFrom 0 data ++ ascii "\n" =
      ascii "Sending packet :" ++ 10 :: ([] ++ (dumpFrom 0 data ++ [10])) := by
    simp [ascii]
  rw [htext, readFrom_append_cons, hsending,
    readFrom_dumpFrom frames data 0 [] [] ⟨by simp, .inl ⟨rfl, rfl⟩⟩]
  rfl

/-! ## Runs -/

/-- The frames that an action sends. -/
def Act.sent : Act → List (List UInt8)
  | .ndoStartXmit data _ => [data]
  | _ => []

/-- The frames that `netif_rx` takes. -/
def Act.taken : Act → List (List UInt8)
  | .ndoStartXmit data true => [data]
  | _ => []

/-- What a call does. -/
structure Effect (s : State P) (a : Act) (s' : State P) : Prop where
  log : ∃ t, s'.log = s.log ++ t ∧ Shows t a.sent
  tx : s'.txPackets = s.txPackets + UInt64.ofNat a.sent.length
  rx : s'.rxPackets = s.rxPackets + UInt64.ofNat a.sent.length
  received : s'.received = s.received ++ a.taken.map ethTypeTrans
  queue : s.queue = s.up → s'.queue = s'.up

variable {ethTypeTrans dev} {s s' : State P} {a : Act}

/-- A function that only prints its name, and may set the queue and the flag. -/
theorem effect_enter {function : List UInt8} (hlf : 10 ∉ function)
    (hhead : function.head? = some 109) (hsent : a.sent = []) (htaken : a.taken = [])
    {up queue : Bool} (hqueue : s.queue = s.up → queue = up) :
    Effect ethTypeTrans s a { s.enter function dev with up := up, queue := queue } := by
  refine ⟨⟨_, rfl, hsent ▸ shows_enter dev hlf hhead⟩, ?_, ?_, ?_, hqueue⟩
  · simp [hsent, State.enter, State.printk]
  · simp [hsent, State.enter, State.printk]
  · simp [htaken, State.enter, State.printk]

theorem effect_xmit (data : List UInt8) (accepted : Bool) :
    Effect ethTypeTrans s (.ndoStartXmit data accepted)
      (myHardStartXmit ethTypeTrans dev s data accepted).1 := by
  have henter : Shows (ascii "my_hard_start_xmit(" ++ dev.text ++ ascii ")\n") [] :=
    shows_enter dev (by decide) (by decide)
  have hline : Shows (ascii "I'm receiving a packet" ++ [10]) [] :=
    shows_line (by decide) (by decide) (by decide)
  have hrx : Shows (ascii "I'm receiving a packet\n") [] := hline
  refine ⟨⟨_, ?_, (henter.append (shows_dump data)).append hrx⟩, rfl, rfl, ?_, id⟩
  · simp [myHardStartXmit, myRx, State.netifRx, State.enter, State.printk]
  · cases accepted
    · exact (List.append_nil _).symm
    · rfl

theorem step_effect (h : step ethTypeTrans dev s a = some s') : Effect ethTypeTrans s a s' := by
  cases a with
  | ndoOpen =>
    obtain ⟨-, rfl⟩ := of_guard h
    exact effect_enter (by decide) (by decide) rfl rfl fun _ => rfl
  | ndoStop =>
    obtain ⟨-, rfl⟩ := of_guard h
    exact effect_enter (by decide) (by decide) rfl rfl fun _ => rfl
  | ndoStartXmit data accepted =>
    obtain ⟨-, rfl⟩ := of_guard h
    exact effect_xmit data accepted
  | ndoSetConfig =>
    obtain rfl : (s.enter (ascii "my_config(") dev) = s' := by
      simpa [step, myConfig, apply_ite Prod.fst] using h
    exact effect_enter (by decide) (by decide) rfl rfl id
  | ndoGetStats =>
    cases h
    exact effect_enter (by decide) (by decide) rfl rfl id
  | ndoDoIoctl =>
    cases h
    exact effect_enter (by decide) (by decide) rfl rfl id
  | ndoChangeMtu newMtu =>
    cases h
    exact effect_enter (by decide) (by decide) rfl rfl id

variable (ethTypeTrans) in
/-- What a run leaves. -/
structure Accounts (as : List Act) (s : State P) : Prop where
  log : Shows s.log (as.flatMap Act.sent)
  tx : s.txPackets = UInt64.ofNat (as.flatMap Act.sent).length
  rx : s.rxPackets = s.txPackets
  received : s.received = (as.flatMap Act.taken).map ethTypeTrans
  queue : s.queue = s.up

theorem accounts_step {as : List Act} (hs : Accounts ethTypeTrans as s)
    (h : step ethTypeTrans dev s a = some s') : Accounts ethTypeTrans (as ++ [a]) s' := by
  have heffect := step_effect h
  obtain ⟨t, ht, hshows⟩ := heffect.log
  have hsent : (as ++ [a]).flatMap Act.sent = as.flatMap Act.sent ++ a.sent := by simp
  have htaken : (as ++ [a]).flatMap Act.taken = as.flatMap Act.taken ++ a.taken := by simp
  refine ⟨?_, ?_, ?_, ?_, heffect.queue hs.queue⟩
  · rw [ht, hsent]
    exact hs.log.append hshows
  · rw [heffect.tx, hs.tx, hsent, List.length_append, UInt64.ofNat_add]
  · rw [heffect.rx, heffect.tx, hs.rx]
  · rw [heffect.received, hs.received, htaken, List.map_append]

/-- After a run, the frames read off the log are those sent, in order, and both counters count
them. The stack received what `eth_type_trans` makes of those that `netif_rx` took, in order, and
the queue is started exactly while the device is up. -/
theorem loopback_law {as : List Act} (h : runFrom (step ethTypeTrans dev) registered as = some s) :
    readLog s.log = (as.flatMap Act.sent).map some ∧
      s.txPackets = UInt64.ofNat (as.flatMap Act.sent).length ∧ s.rxPackets = s.txPackets ∧
      s.received = (as.flatMap Act.taken).map ethTypeTrans ∧ s.queue = s.up := by
  have hs : Accounts ethTypeTrans as s := of_run (Q := Accounts ethTypeTrans)
    ⟨⟨complete_nil, fun _ => rfl⟩, rfl, rfl, rfl, rfl⟩
    (fun _ _ _ _ hs hstep => accounts_step hs hstep) as h
  exact ⟨hs.log.readLog_eq, hs.tx, hs.rx, hs.received, hs.queue⟩

theorem mynet0_no_space : ∀ c ∈ ascii "mynet0", isSpace c = false := by
  have hall : (ascii "mynet0").all (fun c => !isSpace c) = true := by decide
  intro c hc
  simpa using List.all_eq_true.1 hall c hc

/-- A frame of 17 bytes, and an empty one that is dropped, on the device `mynet0`. -/
theorem loopback_of_two :
    ∃ s, runFrom (step (List.drop 14) ⟨ascii "mynet0", mynet0_no_space⟩) registered
        [.ndoOpen, .ndoStartXmit (List.replicate 17 255) true, .ndoSetConfig,
          .ndoStartXmit [] false] = some s ∧
      readLog s.log = [some (List.replicate 17 255), some []] ∧ s.txPackets = 2 ∧
      s.rxPackets = 2 ∧ s.received = [[255, 255, 255]] := by
  obtain ⟨s, hs⟩ : ∃ s, runFrom (step (List.drop 14) ⟨ascii "mynet0", mynet0_no_space⟩) registered
      [.ndoOpen, .ndoStartXmit (List.replicate 17 255) true, .ndoSetConfig,
        .ndoStartXmit [] false] = some s := ⟨_, rfl⟩
  obtain ⟨hlog, htx, hrx, hreceived, -⟩ := loopback_law hs
  exact ⟨s, hs, hlog, htx, hrx.trans htx, hreceived⟩

end KernelExamples.NetLoop
