import Punkos.Boot.KernelMain
import Punkos.Pci.Scan

/-!
# Which controller is brought up

The bus scan, the filter and the loop of `kernel_main` put together: from the contents of
configuration space to the one call of `Controller::init`. The list of devices in between does not
appear in the result (`boot_brings_up_first`).
-/

namespace Punkos

open Transition Pci

/-! ## In configuration space -/

/-- There is an xHCI controller at this place, with its registers at this address in memory. -/
structure IsController (cs : ConfigSpace) (bus : BitVec 8) (device : BitVec 5)
    (function : BitVec 3) (base : BitVec 64) : Prop where
  /-- The function is there. -/
  present : Present cs bus device function
  /-- The class code of an xHCI controller. -/
  classCode : (cs ⟨bus, device, function, 2⟩).extractLsb' 8 24 = 0x0C0330
  /-- BAR0 is a memory BAR. -/
  base : (Bar.ofRegisters (fun r ↦ cs ⟨bus, device, function, r⟩) 0).memoryBase = some base

/-- The controller that comes first: by bus, then device, then function. -/
structure IsFirst (cs : ConfigSpace) (bus : BitVec 8) (device : BitVec 5) (function : BitVec 3)
    (base : BitVec 64) : Prop extends IsController cs bus device function base where
  /-- No other comes before it. -/
  le : ∀ {bus' device' function' base'}, IsController cs bus' device' function' base' →
    (functionDevice cs bus device function).address ≤
      (functionDevice cs bus' device' function').address

/-! ## In the list of devices -/

/-- The first device of which BAR0 is a memory BAR. -/
def choice (devices : List Pci.Device) : Option (Pci.Device × BitVec 64) :=
  devices.findSome? fun xd ↦ xd.mmio.map fun base ↦ (xd, base)

/-- In an ordered list, the first element that passes comes before all that do. -/
theorem le_of_findSome?_eq_some {α β γ : Type*} [LinearOrder γ] {key : α → γ} {f : α → Option β}
    {xs : List α} (hxs : xs.Pairwise fun x y ↦ key x < key y) {b : β}
    (h : xs.findSome? f = some b) :
    ∃ x ∈ xs, f x = some b ∧ ∀ y ∈ xs, f y ≠ none → key x ≤ key y := by
  obtain ⟨pre, x, post, rfl, hx, hpre⟩ := List.findSome?_eq_some_iff.mp h
  refine ⟨x, List.mem_append_right pre List.mem_cons_self, hx, fun y hy hsome ↦ ?_⟩
  rcases List.mem_append.mp hy with hy | hy
  · exact absurd (hpre y hy) hsome
  rcases List.mem_cons.mp hy with rfl | hy
  · exact le_refl _
  · have hpost := (List.pairwise_append.mp hxs).2.1
    exact ((List.pairwise_cons.mp hpost).1 y hy).le

section Choice

variable {cs : ConfigSpace} {devices : List Pci.Device}

theorem classCode_iff (x : BitVec 32) : x.extractLsb' 8 24 = 0x0C0330 ↔
    x.extractLsb' 24 8 = 0x0C ∧ x.extractLsb' 16 8 = 0x03 ∧ x.extractLsb' 8 8 = 0x30 := by
  have happend : x.extractLsb' 8 24 =
      x.extractLsb' 24 8 ++ (x.extractLsb' 16 8 ++ x.extractLsb' 8 8) := by
    rw [BitVec.extractLsb'_append_extractLsb'_eq_extractLsb' (show 16 = 8 + 8 from rfl),
      BitVec.extractLsb'_append_extractLsb'_eq_extractLsb' (show 24 = 8 + (8 + 8) from rfl)]
  have hvalue : (0x0C0330 : BitVec 24) = 0x0C#8 ++ (0x03#8 ++ 0x30#8) := rfl
  rw [happend, hvalue, BitField.append_inj_iff, BitField.append_inj_iff]
  exact Iff.rfl

/-- The list the loop goes through. -/
theorem mem_findXhci_iff
    (hdevices : ∀ d, d ∈ devices ↔ ∃ bus device function, Present cs bus device function ∧
      d = functionDevice cs bus device function) {xd : Pci.Device} {base : BitVec 64} :
    xd ∈ findXhci devices ∧ xd.mmio = some base ↔ ∃ bus device function,
      IsController cs bus device function base ∧ xd = functionDevice cs bus device function := by
  rw [findXhci, List.mem_filter, decide_eq_true_eq, hdevices]
  constructor
  · rintro ⟨⟨⟨bus, device, function, hpresent, rfl⟩, hclass⟩, hbase⟩
    exact ⟨bus, device, function, ⟨hpresent, (classCode_iff _).mpr hclass, hbase⟩, rfl⟩
  · rintro ⟨bus, device, function, hctrl, rfl⟩
    exact ⟨⟨⟨bus, device, function, hctrl.present, rfl⟩, (classCode_iff _).mp hctrl.classCode⟩,
      hctrl.base⟩

/-- The scan finds what is there. -/
theorem mem_allDevices {d : Pci.Device} : d ∈ (List.range 256).flatMap (busDevices cs) ↔
    ∃ bus device function, Present cs bus device function ∧
      d = functionDevice cs bus device function := by
  rw [List.mem_flatMap]
  constructor
  · rintro ⟨bus, -, hd⟩
    obtain ⟨device, -, function, -, hpresent, rfl⟩ := mem_busDevices.mp hd
    exact ⟨_, _, _, hpresent, rfl⟩
  · rintro ⟨bus, device, function, hpresent, rfl⟩
    refine ⟨bus.toNat, List.mem_range.mpr bus.isLt, mem_busDevices.mpr
      ⟨device.toNat, device.isLt, function.toNat, function.isLt, ?_⟩⟩
    rw [recordAt, BitVec.ofNat_toNat, BitVec.ofNat_toNat, BitVec.ofNat_toNat, BitVec.setWidth_eq,
      BitVec.setWidth_eq, BitVec.setWidth_eq]
    exact ⟨hpresent, rfl⟩

/-- What the loop picks is the first controller in configuration space. -/
theorem choice_eq_some (hsorted : devices.Pairwise fun x y ↦ x.address < y.address)
    (hdevices : ∀ d, d ∈ devices ↔ ∃ bus device function, Present cs bus device function ∧
      d = functionDevice cs bus device function) {xd : Pci.Device} {base : BitVec 64}
    (h : choice (findXhci devices) = some (xd, base)) : ∃ bus device function,
      IsFirst cs bus device function base ∧ xd = functionDevice cs bus device function := by
  obtain ⟨xd', hmem, hpick, hle⟩ := le_of_findSome?_eq_some (hsorted.filter _) h
  obtain ⟨base', hbase, hpair⟩ := Option.map_eq_some_iff.mp hpick
  obtain ⟨rfl, rfl⟩ := Prod.mk.inj hpair
  obtain ⟨bus, device, function, hctrl, rfl⟩ := (mem_findXhci_iff hdevices).mp ⟨hmem, hbase⟩
  refine ⟨bus, device, function, ⟨hctrl, fun {bus' device' function' base'} hother ↦ ?_⟩, rfl⟩
  obtain ⟨hmem', hbase'⟩ := (mem_findXhci_iff hdevices).mpr ⟨bus', device', function', hother, rfl⟩
  exact hle _ hmem' (by rw [hbase']; exact Option.some_ne_none _)

theorem choice_eq_none_iff
    (hdevices : ∀ d, d ∈ devices ↔ ∃ bus device function, Present cs bus device function ∧
      d = functionDevice cs bus device function) :
    choice (findXhci devices) = none ↔
      ∀ bus device function base, ¬IsController cs bus device function base := by
  rw [choice, List.findSome?_eq_none_iff]
  constructor
  · intro h bus device function base hctrl
    obtain ⟨hmem, hbase⟩ := (mem_findXhci_iff hdevices).mpr ⟨bus, device, function, hctrl, rfl⟩
    have hnone := h _ hmem
    rw [hbase] at hnone
    cases hnone
  · intro h xd hmem
    rcases hbase : xd.mmio with _ | base
    · rfl
    · obtain ⟨bus, device, function, hctrl, -⟩ := (mem_findXhci_iff hdevices).mp ⟨hmem, hbase⟩
      exact absurd hctrl (h bus device function base)

end Choice

/-! ## In the loop -/

/-- The call of `Controller::init` in a step: the device and the address. -/
def BootState.initCall {D : Device} (s : BootState D) (_ : Unit) :
    List (Pci.Device × BitVec 64) :=
  match s.pc with
  | .scanning (xd :: _) => xd.mmio.toList.map fun base ↦ (xd, base)
  | _ => []

/-- How the calls so far, the place of `kernel_main` and the machine go together. -/
def BootCalls {D : Device} (devices : List Pci.Device) (m₀ : Machine D)
    (l : List (Pci.Device × BitVec 64)) (s : BootState D) : Prop :=
  match s.pc with
  | .scanning rest => l = [] ∧ s.machine = m₀ ∧ choice rest = choice devices
  | .after => l = (choice devices).toList ∧
      (l = [] → s.machine.dev = m₀.dev ∧ s.machine.writes = m₀.writes)
  | _ => l ≠ [] ∧ l = (choice devices).toList

section Loop

variable {D : Device} {P : Platform} {devices : List Pci.Device} {m₀ : Machine D}
  {l : List (Pci.Device × BitVec 64)} {s t : BootState D} {a : Unit}

theorem BootCalls.step (hs : BootCalls devices m₀ l s) (h : BootStep P s a t) :
    BootCalls devices m₀ (l ++ s.initCall a) t := by
  rcases h with hbar | ⟨hbar, hinit⟩ | _ | _ | _ | _ | _ | _ | halloc
  -- no memory BAR0: the loop goes on to the next device
  · obtain ⟨rfl, hmachine, hchoice⟩ := hs
    rw [BootState.initCall]
    simp only [hbar]
    refine ⟨rfl, hmachine, hchoice ▸ ?_⟩
    rw [choice, choice, List.findSome?_cons, hbar]
    rfl
  -- `Controller::init` is called
  · obtain ⟨rfl, hmachine, hchoice⟩ := hs
    rw [BootState.initCall]
    simp only [hbar]
    refine ⟨List.cons_ne_nil _ _, hchoice ▸ ?_⟩
    rw [choice, List.findSome?_cons, hbar]
    rfl
  -- what comes after the call makes no other
  case noop | ports | leave | free => exact (List.append_nil l).symm ▸ hs
  case dropped =>
    obtain ⟨hne, hl⟩ := hs
    exact (List.append_nil l).symm ▸ ⟨hl, fun h ↦ absurd h hne⟩
  case noneLeft =>
    obtain ⟨rfl, rfl, hchoice⟩ := hs
    refine ⟨?_, fun _ ↦ ⟨rfl, rfl⟩⟩
    rw [← hchoice]
    rfl
  case alloc =>
    obtain ⟨hl, hsame⟩ := hs
    obtain ⟨-, rfl⟩ := Machine.alloc_eq_some halloc
    exact (List.append_nil l).symm ▸ ⟨hl, hsame⟩

theorem bootCalls_of_trace {acts : List Unit}
    (h : Trace (BootStep P) BootState.initCall ⟨.scanning devices, m₀⟩ acts l s) :
    BootCalls devices m₀ l s := by
  have hstart : BootCalls devices m₀ [] (⟨.scanning devices, m₀⟩ : BootState D) := ⟨rfl, rfl, rfl⟩
  exact h.invariant (I := fun _ ↦ BootCalls devices m₀) (fun _ _ _ _ _ hs hstep ↦ hs.step hstep)
    hstart

/-- The calls are at most the one for the device that is picked. -/
theorem BootCalls.eq_toList (hs : BootCalls devices m₀ l s) (hl : l ≠ []) :
    l = (choice devices).toList := by
  rw [BootCalls] at hs
  split at hs
  · exact absurd hs.1 hl
  · exact hs.1
  · exact hs.2

end Loop

/-- **Which controller is brought up.** For all contents of configuration space the scan returns,
and in every run of what follows `Controller::init` is called once at most: for the first xHCI
controller, by bus, device and function, with a memory BAR0, and with the address in it. It has not
been called exactly as long as the loop has not come to that controller, or if there is none; and
until it is called nothing has been read from or written to any controller. -/
theorem boot_brings_up_first (cs : ConfigSpace) {D : Device} (P : Platform) (m₀ : Machine D) :
    ∃ devices, enumerate cs = some devices ∧ ∀ acts l s,
      Trace (BootStep P) BootState.initCall ⟨.scanning (findXhci devices), m₀⟩ acts l s →
        (l = [] ∨ ∃ bus device function base, IsFirst cs bus device function base ∧
          l = [(functionDevice cs bus device function, base)]) ∧
        (l = [] ↔ (∃ rest, s.pc = .scanning rest) ∨ s.pc = .after ∧
          ∀ bus device function base, ¬IsController cs bus device function base) ∧
        (l = [] → s.machine.dev = m₀.dev ∧ s.machine.writes = m₀.writes) := by
  refine ⟨_, enumerate_eq cs, fun acts l s h ↦ ?_⟩
  have hcalls := bootCalls_of_trace h
  have hnone := choice_eq_none_iff fun d ↦ @mem_allDevices cs d
  refine ⟨or_iff_not_imp_left.mpr fun hne ↦ ?_, ?_⟩
  · have hl := hcalls.eq_toList hne
    rcases hchoice : choice (findXhci ((List.range 256).flatMap (busDevices cs)))
      with _ | ⟨xd, base⟩
    · rw [hchoice] at hl
      exact absurd hl hne
    · obtain ⟨bus, device, function, hfirst, rfl⟩ :=
        choice_eq_some (pairwise_allDevices cs) (fun _ ↦ mem_allDevices) hchoice
      rw [hchoice] at hl
      exact ⟨bus, device, function, base, hfirst, hl⟩
  · rw [BootCalls] at hcalls
    split at hcalls
    case h_1 rest hpc =>
      obtain ⟨rfl, hmachine, -⟩ := hcalls
      exact ⟨iff_of_true rfl (.inl ⟨rest, hpc⟩), fun _ ↦
        ⟨congrArg Machine.dev hmachine, congrArg Machine.writes hmachine⟩⟩
    case h_2 hpc =>
      obtain ⟨rfl, hsame⟩ := hcalls
      refine ⟨?_, hsame⟩
      rw [hpc, Option.toList_eq_nil_iff, hnone]
      simp
    -- the loop has come to the controller
    case h_3 hscanning hafter =>
      refine ⟨iff_of_false hcalls.1 ?_, fun h ↦ absurd h hcalls.1⟩
      rintro (⟨rest, hpc⟩ | ⟨hpc, -⟩)
      · exact hscanning rest hpc
      · exact hafter hpc

/-- One xHCI controller at 00:04.0, and nothing else. -/
def qemuSpace : ConfigSpace := fun r ↦
  if r.bus = 0 ∧ r.device = 4 ∧ r.function = 0 then
    if r.register = 0 then 0x000D1B36
    else if r.register = 2 then 0x0C033001
    else if r.register = 4 then 0xFEBF0004
    else 0
  else BitVec.allOnes 32

theorem isController_qemuSpace : IsController qemuSpace 0 4 0 0xFEBF0000 := by
  refine ⟨?_, ?_, ?_⟩ <;> decide

theorem boot_brings_up_first_qemu :
    ∃ devices, enumerate qemuSpace = some devices ∧ ∃ P acts l s,
      Trace (BootStep P) BootState.initCall ⟨.scanning (findXhci devices), firmwareMachine 64 4⟩
        acts l s ∧
      l ≠ [] ∧
      (l = [] ∨ ∃ bus device function base, IsFirst qemuSpace bus device function base ∧
        l = [(functionDevice qemuSpace bus device function, base)]) := by
  obtain ⟨u, -, c, m', hinit⟩ := bare_init_returns 64 4
  obtain ⟨devices, henum, hall⟩ := boot_brings_up_first qemuSpace
    (kernelPlatform u.mem bareCr3 slotAlloc) (firmwareMachine 64 4)
  obtain rfl := Option.some.inj (henum.symm.trans (enumerate_eq qemuSpace))
  obtain ⟨hmem, hbase⟩ := (mem_findXhci_iff fun _ ↦ mem_allDevices).mpr
    ⟨0, 4, 0, isController_qemuSpace, rfl⟩
  obtain ⟨acts, xd, rest, base, hrun, hbase'⟩ := exists_run_scanning
    (P := kernelPlatform u.mem bareCr3 slotAlloc) (firmwareMachine 64 4)
    ⟨_, hmem, by rw [hbase]; exact Option.some_ne_none _⟩
  obtain ⟨l, hl⟩ := hrun.exists_trace BootState.initCall
  have htrace := hl.snoc (.init hbase' hinit)
  refine ⟨_, henum, _, _, _, _, htrace, ?_, (hall _ _ _ htrace).1⟩
  rw [BootState.initCall]
  simp only [hbase']
  exact List.append_ne_nil_of_right_ne_nil l (List.cons_ne_nil _ _)

end Punkos
