import KernelExamples.Lifecycle
import Mathlib.Tactic.SplitIfs

/-!
# What the small modules take and give back

`my_init` and `my_exit` of modules that take a few resources : `dedicated_slab`, `kmalloc_rand`,
`my_sysfs`, `mynet_drv`, `gpio_legacy_led`, `kprobe_test`, `kprobe_zap`, `jprobe_test`,
`zap_jprobe`, `sysrq_task`, `pci_probe_test` and `pci_view`. An `Outcome` has the results of the
kernel's calls and the module parameters. `pci_view` and `kmalloc_rand` take resources in loops,
and have given them all back when `my_init` returns.

Four of the modules do not look at a result, or do not undo a call. `dedicated_slab` never gives
its buckets back, `my_sysfs` keeps its kobject when the file cannot be made, `mynet_drv` does not
test what `alloc_netdev` returns, and `gpio_legacy_led` does not test `gpio_request`. A run is
balanced exactly when it avoids these (`driver_balance_iff`).
-/

namespace KernelExamples.DriverLife

open Traces Lifecycle

/-! ## The source -/

/-- The calls that can fail. -/
inductive Call
  | bucketsCreate
  | bucketsAlloc
  | kmalloc (i : ℕ)
  | kobjectCreate
  | sysfsCreateFile
  | allocNetdev
  | registerNetdev
  | gpioIsValid
  | gpioRequest
  | gpioExport
  | registerProbe
  | registerSysrqKey
  | pciRegisterDriver
  deriving DecidableEq

/-- What the calls return, the parameters `address` and `name`, the result of
`kallsyms_lookup_name(name)`, and the number of devices that `pci_get_device` finds. -/
structure Outcome where
  ok : Call → Bool
  address : ℕ
  name : Option (List UInt8)
  symbol : ℕ
  devices : ℕ

inductive Res
  | buckets
  | data
  | block (i : ℕ)
  | kobject
  | file
  | netdev
  | registered
  | line
  | exported
  | probe
  | key
  | driver
  | pciDev (i : ℕ)
  deriving DecidableEq

/-- A module that makes something, and then something else with it, and does not take the first
back if the second fails. -/
def twoStepInit (make add : Call) (p q : Res) (o : Outcome) : Bool × List (Event Res) :=
  if ¬o.ok make then (false, [])
  else if ¬o.ok add then (false, [.acquire p, .use p])
  else (true, [.acquire p, .use p, .acquire q])

/-- `my_init` of `dedicated_slab`. -/
def slabInit : Outcome → Bool × List (Event Res) :=
  twoStepInit .bucketsCreate .bucketsAlloc .buckets .data

def slabExit (_ : Outcome) : List (Event Res) := [.release .data]

/-- The blocks that the calls of `kmalloc` from `k` on give to `data[0]` to `data[3]`. -/
def blocks (o : Outcome) (k : ℕ) : List Res :=
  ((List.range 4).filter fun i => o.ok (.kmalloc (k + i))).map fun i => .block (k + i)

/-- `my_init` of `kmalloc_rand` : the blocks are set and dumped, and then freed, twice. -/
def kmallocInit (o : Outcome) : Bool × List (Event Res) :=
  (true, (blocks o 0).flatMap (fun b => [.acquire b, .use b]) ++ (blocks o 0).map .release ++
    (blocks o 4).flatMap (fun b => [.acquire b, .use b]) ++ (blocks o 4).map .release)

/-- `my_init` of `my_sysfs`. -/
def sysfsInit : Outcome → Bool × List (Event Res) :=
  twoStepInit .kobjectCreate .sysfsCreateFile .kobject .file

/-- `kobject_put` also takes the files of the directory away. -/
def sysfsExit (_ : Outcome) : List (Event Res) := [.release .file, .release .kobject]

/-- `my_init` of `mynet_drv`. -/
def netInit (o : Outcome) : Bool × List (Event Res) :=
  let dev := if o.ok .allocNetdev then [.acquire .netdev] else []
  if ¬o.ok .registerNetdev then (false, dev ++ [.use .netdev, .release .netdev])
  else (true, dev ++ [.use .netdev, .acquire .registered])

def netExit (_ : Outcome) : List (Event Res) := [.release .registered, .release .netdev]

/-- `my_init` of `gpio_legacy_led`. -/
def gpioInit (o : Outcome) : Bool × List (Event Res) :=
  if ¬o.ok .gpioIsValid then (false, [])
  else
    (true, (if o.ok .gpioRequest then [.acquire .line] else []) ++ [.use .line] ++
      (if o.ok .gpioExport then [.acquire .exported] else []) ++ [.use .line])

/-- `gpio_unexport` does nothing to a line that is not exported. -/
def gpioExit (o : Outcome) : List (Event Res) :=
  .use .line :: (if o.ok .gpioExport then [.release .exported] else []) ++ [.release .line]

/-- The address that `kprobe_test` and `kprobe_zap` probe, or `0`. -/
def target (o : Outcome) : ℕ :=
  if o.address = 0 ∧ o.name.all List.isEmpty then 0
  else if o.name.isSome then o.symbol else o.address

/-- `my_init` of `kprobe_test` and `kprobe_zap`. -/
def kprobeInit (o : Outcome) : Bool × List (Event Res) :=
  if target o = 0 then (false, [])
  else if ¬o.ok .registerProbe then (false, []) else (true, [.acquire .probe])

/-- A module that makes one registration. -/
def registerInit (call : Call) (r : Res) (o : Outcome) : Bool × List (Event Res) :=
  if ¬o.ok call then (false, []) else (true, [.acquire r])

/-- The loop of `pci_view`. `pci_get_device` takes the next device before it drops the last. -/
def scan (n : ℕ) : List (Event Res) :=
  (List.range n).flatMap fun i =>
    .acquire (.pciDev i) :: (if i = 0 then [] else [.release (.pciDev (i - 1))]) ++
      [.use (.pciDev i)]

/-- `my_init` of `pci_view`, which always fails. -/
def viewInit (o : Outcome) : Bool × List (Event Res) :=
  (false, scan o.devices ++ if o.devices = 0 then [] else [.release (.pciDev (o.devices - 1))])

inductive Driver
  | dedicatedSlab
  | kmallocRand
  | mySysfs
  | mynetDrv
  | gpioLegacyLed
  | kprobeTest
  | kprobeZap
  | jprobeTest
  | zapJprobe
  | sysrqTask
  | pciProbeTest
  | pciView
  deriving DecidableEq

def code : Driver → Lifecycle.Module Outcome Res
  | .dedicatedSlab => ⟨slabInit, slabExit⟩
  | .kmallocRand => ⟨kmallocInit, fun _ => []⟩
  | .mySysfs => ⟨sysfsInit, sysfsExit⟩
  | .mynetDrv => ⟨netInit, netExit⟩
  | .gpioLegacyLed => ⟨gpioInit, gpioExit⟩
  | .kprobeTest => ⟨kprobeInit, fun _ => [.release .probe]⟩
  | .kprobeZap => ⟨kprobeInit, fun _ => [.release .probe]⟩
  | .jprobeTest => ⟨registerInit .registerProbe .probe, fun _ => [.release .probe]⟩
  | .zapJprobe => ⟨registerInit .registerProbe .probe, fun _ => [.release .probe]⟩
  | .sysrqTask => ⟨registerInit .registerSysrqKey .key, fun _ => [.release .key]⟩
  | .pciProbeTest => ⟨registerInit .pciRegisterDriver .driver, fun _ => [.release .driver]⟩
  | .pciView => ⟨viewInit, fun _ => []⟩

/-! ## Balance -/

/-- What a module holds while it is loaded. -/
def owned (o : Outcome) : Driver → List Res
  | .dedicatedSlab => [.buckets, .data]
  | .kmallocRand | .pciView => []
  | .mySysfs => [.kobject, .file]
  | .mynetDrv => [.netdev, .registered]
  | .gpioLegacyLed => if o.ok .gpioExport then [.line, .exported] else [.line]
  | .kprobeTest | .kprobeZap | .jprobeTest | .zapJprobe => [.probe]
  | .sysrqTask => [.key]
  | .pciProbeTest => [.driver]

def owns (d : Driver) (o : Outcome) (r : Res) : ℕ := (owned o d).count r

/-- The calls succeed whose results a module does not look at or does not undo. -/
def LoadClean (o : Outcome) : Driver → Prop
  | .dedicatedSlab => o.ok .bucketsCreate = true → o.ok .bucketsAlloc = true
  | .mySysfs => o.ok .kobjectCreate = true → o.ok .sysfsCreateFile = true
  | .mynetDrv => o.ok .allocNetdev = true
  | .gpioLegacyLed => o.ok .gpioIsValid = true → o.ok .gpioRequest = true
  | _ => True

/-- Such a load, or an unload of another module than `dedicated_slab`. -/
def Clean (d : Driver) (s : State Outcome Res) : Act Outcome → Prop
  | .load o => LoadClean o d
  | .unload => ∀ o, s.loaded = some o → d ≠ .dedicatedSlab

/-- Resources that are taken and used one after the other are held. -/
theorem account_take (r : Res) : ∀ (rs : List Res) (a : Account),
    account (rs.flatMap fun q => [.acquire q, .use q]) r a = ⟨a.held + rs.count r, a.misused⟩
  | [], _ => rfl
  | q :: rs, a => by
    rw [List.flatMap_cons, account_append, account_take r rs, List.count_cons]
    by_cases hq : q = r
    · simp only [hq, account_cons, account_nil, Account.next, if_true, beq_self_eq_true,
        Account.mk.injEq]
      exact ⟨by omega, by simp⟩
    · simp [hq, Account.next]

/-- A round of `kmalloc_rand` leaves nothing. -/
theorem account_round (rs : List Res) (r : Res) (a : Account) :
    account (rs.flatMap (fun b => [.acquire b, .use b]) ++ rs.map .release) r a = a := by
  rw [account_append, account_take, account_map_release _ _ _ (Nat.le_add_left _ _)]
  simp

theorem scan_succ (n : ℕ) : scan (n + 1) = scan n ++ (.acquire (.pciDev n) ::
    (if n = 0 then [] else [.release (.pciDev (n - 1))]) ++ [.use (.pciDev n)]) := by
  rw [scan, List.range_succ, List.flatMap_append, List.flatMap_singleton]
  rfl

/-- The loop of `pci_view` holds the device it is at, and no other. -/
theorem account_scan (r : Res) : ∀ n, account (scan (n + 1)) r ⟨0, false⟩ =
    ⟨if r = .pciDev n then 1 else 0, false⟩
  | 0 => by
    by_cases hr : r = .pciDev 0
    · simp [hr, scan, Account.next]
    · simp [hr, scan, Account.next, Ne.symm hr]
  | n + 1 => by
    rw [scan_succ, account_append, account_scan r n]
    by_cases hnext : r = .pciDev (n + 1)
    · simp [hnext, Account.next]
    · by_cases hlast : r = .pciDev n
      · simp [hlast, Account.next]
      · simp [hnext, hlast, Account.next, Ne.symm hnext, Ne.symm hlast]

/-- `pci_view` drops every device it takes. -/
theorem account_viewInit (o : Outcome) (r : Res) :
    account (viewInit o).2 r ⟨0, false⟩ = ⟨0, false⟩ := by
  unfold viewInit
  cases hn : o.devices with
  | zero => rfl
  | succ n =>
    rw [account_append, account_scan]
    by_cases hr : r = .pciDev n
    · simp [hr, Account.next]
    · simp [hr, Account.next, Ne.symm hr]

theorem account_kmallocInit (o : Outcome) (r : Res) (a : Account) :
    account (kmallocInit o).2 r a = a := by
  rw [kmallocInit, List.append_assoc _ _ ((blocks o 4).map Event.release), account_append,
    account_round, account_round]

/-! ### Loads -/

/-- A load that takes one resource, or fails. -/
theorem loadBalanced_of_acquire {d : Driver} {q : Res} {o : Outcome}
    (hinit : (code d).init o = (false, []) ∨ (code d).init o = (true, [.acquire q]))
    (howned : owned o d = [q]) : LoadBalanced (code d) (fun _ => True) (owns d) o := by
  intro r _
  rcases hinit with hinit | hinit
  · rw [hinit]
    rfl
  · rw [hinit, owns, howned]
    exact (account_map_acquire r [q] ⟨0, false⟩).trans (by simp)

theorem registerInit_cases (call : Call) (q : Res) (o : Outcome) :
    registerInit call q o = (false, []) ∨ registerInit call q o = (true, [.acquire q]) := by
  unfold registerInit
  split_ifs
  · exact .inr rfl
  · exact .inl rfl

theorem kprobeInit_cases (o : Outcome) :
    kprobeInit o = (false, []) ∨ kprobeInit o = (true, [.acquire .probe]) := by
  unfold kprobeInit
  split_ifs
  · exact .inl rfl
  · exact .inr rfl
  · exact .inl rfl

/-- Such a load is balanced exactly if the second step does not fail after the first. -/
theorem loadBalanced_twoStep {d : Driver} {make add : Call} {p q : Res} {o : Outcome} (hne : p ≠ q)
    (hinit : (code d).init o = twoStepInit make add p q o) (howned : owned o d = [p, q]) :
    LoadBalanced (code d) (fun _ => True) (owns d) o ↔ (o.ok make = true → o.ok add = true) := by
  simp only [LoadBalanced, hinit, twoStepInit, owns, howned]
  by_cases hmake : o.ok make = true
  · by_cases hadd : o.ok add = true
    · simp only [hmake, hadd]
      refine iff_of_true (fun r _ => ?_) fun _ => trivial
      by_cases hp : p = r
      · subst hp
        simp [Account.next, hne.symm]
      · by_cases hq : q = r <;> simp [Account.next, hp, hq]
    · simp only [hmake, hadd]
      refine iff_of_false (fun h => ?_) (by simp)
      have hkept := h p trivial
      simp [Account.next] at hkept
  · simp [hmake]

/-- Without memory for the device, `register_netdev` is called on `NULL`. -/
theorem loadBalanced_net (o : Outcome) :
    LoadBalanced (code .mynetDrv) (fun _ => True) (owns .mynetDrv) o ↔ LoadClean o .mynetDrv := by
  simp only [LoadBalanced, code, netInit, LoadClean, owns, owned]
  by_cases halloc : o.ok .allocNetdev = true <;> by_cases hreg : o.ok .registerNetdev = true <;>
    simp only [halloc, hreg]
  · refine iff_of_true (fun r _ => ?_) trivial
    cases r <;> rfl
  · refine iff_of_true (fun r _ => ?_) trivial
    cases r <;> rfl
  · exact iff_of_false (fun h => absurd (h .netdev trivial) (by decide)) (by simp)
  · exact iff_of_false (fun h => absurd (h .netdev trivial) (by decide)) (by simp)

theorem loadBalanced_gpio (o : Outcome) :
    LoadBalanced (code .gpioLegacyLed) (fun _ => True) (owns .gpioLegacyLed) o ↔
      LoadClean o .gpioLegacyLed := by
  simp only [LoadBalanced, code, gpioInit, LoadClean, owns, owned]
  by_cases hvalid : o.ok .gpioIsValid = true
  · by_cases hrequest : o.ok .gpioRequest = true <;> by_cases hexport : o.ok .gpioExport = true <;>
      simp only [hvalid, hrequest, hexport]
    · refine iff_of_true (fun r _ => ?_) fun _ => trivial
      cases r <;> rfl
    · refine iff_of_true (fun r _ => ?_) fun _ => trivial
      cases r <;> rfl
    · exact iff_of_false (fun h => absurd (h .line trivial) (by decide)) (by simp)
    · exact iff_of_false (fun h => absurd (h .line trivial) (by decide)) (by simp)
  · simp [hvalid]

/-- A load of a module is balanced exactly when it is clean. -/
theorem loadBalanced_iff (d : Driver) (o : Outcome) :
    LoadBalanced (code d) (fun _ => True) (owns d) o ↔ LoadClean o d := by
  cases d with
  | dedicatedSlab => exact loadBalanced_twoStep (by decide) rfl rfl
  | kmallocRand => exact iff_of_true (fun r _ => account_kmallocInit o r _) trivial
  | mySysfs => exact loadBalanced_twoStep (by decide) rfl rfl
  | mynetDrv => exact loadBalanced_net o
  | gpioLegacyLed => exact loadBalanced_gpio o
  | pciView => exact iff_of_true (fun r _ => account_viewInit o r) trivial
  | kprobeTest | kprobeZap =>
    exact iff_of_true (loadBalanced_of_acquire (kprobeInit_cases o) rfl) trivial
  | jprobeTest | zapJprobe | sysrqTask | pciProbeTest =>
    exact iff_of_true (loadBalanced_of_acquire (registerInit_cases _ _ o) rfl) trivial

/-! ### Unloads -/

theorem unloadBalanced_iff (d : Driver) (o : Outcome) :
    UnloadBalanced (code d) (fun _ => True) (owns d) o ↔ d ≠ .dedicatedSlab := by
  cases d with
  | dedicatedSlab =>
    refine iff_of_false (fun h => ?_) (by simp)
    have hleft : account [.release .data] Res.buckets ⟨1, false⟩ = ⟨0, false⟩ := h .buckets trivial
    exact absurd hleft (by decide)
  | gpioLegacyLed =>
    refine iff_of_true (fun r _ => ?_) (by simp)
    by_cases hexport : o.ok .gpioExport = true <;>
      simp only [code, gpioExit, owns, owned, hexport] <;> cases r <;> rfl
  | _ =>
    refine iff_of_true (fun r _ => ?_) (by simp)
    cases r <;> rfl

/-- In every run of loads and unloads, whatever the calls of the kernel return, a module holds
what it should and uses and gives back nothing else, exactly when the run is clean. Except
`dedicated_slab`, `my_sysfs`, `mynet_drv` and `gpio_legacy_led`, every module is so in every
run. -/
theorem driver_balance_iff (d : Driver) (acts : List (Act Outcome)) :
    Throughout (step (code d)) (Balanced (fun _ => True) (owns d)) initial acts ↔
      Along (step (code d)) (Clean d) initial acts := by
  refine balanced_iff (fun s a _ => ?_) acts
  cases a with
  | load o => exact loadBalanced_iff d o
  | unload => exact forall_congr' fun o => forall_congr' fun _ => unloadBalanced_iff d o

end KernelExamples.DriverLife
