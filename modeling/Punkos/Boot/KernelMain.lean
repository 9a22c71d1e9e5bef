import Punkos.Foundation.Run
import Punkos.Pci.Device
import Punkos.Xhci.BringUp

/-!
# `kernel_main` and the controller it leaves running

The xHCI part of `kernel_main` as a step machine over the heap and the controller: walk the list of
controllers, bring up the first one whose BAR0 is a memory BAR, probe it, initialise its ports, and
leave the scope of the `Controller` value, which releases its three boxes one after the other.

## What goes wrong

Nothing stops the controller before its `Controller` is dropped. RS is still 1, and DCBAAP, CRCR
and the segment table still name the memory that goes back to the heap. (The segment table itself
is never released, which shows what was intended.) `dma_live_iff` makes this precise: for every
list of devices and every controller, the memory the controller holds stays live in every state if
and only if none is brought up at all, or bringing it up never ends.
-/

namespace Punkos

open Transition

/-! ## What the controller holds -/

/-- The value last written to a register. -/
def lastWrite (r : Mmio) : List (Mmio × BitVec 32) → Option (BitVec 32)
  | [] => none
  | (r', v) :: writes => if r' = r then some v else lastWrite r writes

namespace Machine

variable {D : Device} (m : Machine D)

/-- RS = 1. -/
def Running : Prop := ∃ v, lastWrite Reg.usbcmd m.writes = some v ∧ v &&& Usbcmd.rs ≠ 0

/-- A 64-bit register. -/
def held (low high : Mmio) : Option (BitVec 64) :=
  (lastWrite high m.writes).bind fun h ↦ (lastWrite low m.writes).map fun l ↦ h ++ l

/-- The command ring the controller holds; the low bits of CRCR are flags. -/
def heldCmdRing : Option (BitVec 64) := (m.held Reg.crcrLow Reg.crcrHigh).map (· &&& ~~~0x3F)

/-- The event ring the controller holds: the segment in the table at ERSTBA. -/
def heldEventRing : Option (BitVec 64) :=
  ((m.held Reg.erstbaLow Reg.erstbaHigh).bind m.erst).map ErstEntry.ringBase

/-- The device context base address array the controller holds. -/
def heldDcbaa : Option (BitVec 64) := m.held Reg.dcbaapLow Reg.dcbaapHigh

/-- A live block lies behind the physical address. -/
def Backed (P : Platform) (p : BitVec 64) : Prop :=
  ∃ b ∈ m.live, ∃ v, b.Contains v ∧ P.translate v = some p

/-- While the controller runs, what it holds is live. -/
def DmaLive (P : Platform) : Prop :=
  m.Running → ∀ p, m.heldCmdRing = some p ∨ m.heldEventRing = some p ∨ m.heldDcbaa = some p →
    m.Backed P p

end Machine

/-- What the kernel relies on: the allocator, and a translation that memory set-up has established.
-/
structure Platform.Lawful (P : Platform) : Prop extends AllocContract P.alloc where
  /-- No two heap addresses share a physical address. -/
  translate_injective : ∀ v w p, InHeap v → InHeap w → P.translate v = some p →
    P.translate w = some p → v = w
  /-- Translation keeps the offset within a page. -/
  translate_mod : ∀ v p, InHeap v → P.translate v = some p → p.toNat % 4096 = v % 4096

/-! ## The steps -/

/-- Where `kernel_main` stands. -/
inductive BootPc where
  /-- In the loop over the controllers, with these left. -/
  | scanning (rest : List Pci.Device)
  /-- `init` has returned. -/
  | initialised (c : Controller)
  /-- `noop` has returned. -/
  | probed (c : Controller)
  /-- `initialise_ports` has returned. -/
  | portsReady (c : Controller)
  /-- Leaving the scope, with these boxes (address and size) still to be released. -/
  | dropping (boxes : List (ℕ × ℕ))
  /-- Past the xHCI part. -/
  | after

/-- `kernel_main`, from the end of the bus scan on. -/
structure BootState (D : Device) where
  /-- Where it stands. -/
  pc : BootPc
  /-- The machine. -/
  machine : Machine D

/-- The boxes a `Controller` owns, in the order in which they are dropped. -/
def Controller.boxes (c : Controller) : List (ℕ × ℕ) :=
  [(c.cmdRing.base, c.cmdRing.trbs.length * 16), (c.eventRing.base, c.eventRing.trbs.length * 16),
    (c.dcbaa.base, c.dcbaa.ptrs.length * 8)]

/-- One step. The calls are made with as much fuel as they need. -/
inductive BootStep {D : Device} (P : Platform) : BootState D → Unit → BootState D → Prop
  /-- BAR0 is not a memory BAR: go on to the next device. -/
  | skip {xd : Pci.Device} {rest : List Pci.Device} {m : Machine D} : xd.mmio = none →
      BootStep P ⟨.scanning (xd :: rest), m⟩ () ⟨.scanning rest, m⟩
  | init {xd : Pci.Device} {rest : List Pci.Device} {m m' : Machine D} {base : BitVec 64}
    {fuel : ℕ}
      {c : Controller} : xd.mmio = some base → Controller.init P fuel m = some (c, m') →
      BootStep P ⟨.scanning (xd :: rest), m⟩ () ⟨.initialised c, m'⟩
  | noop {c c' : Controller} {b : Bool} {m m' : Machine D} : c.noop m = (b, c', m') →
      BootStep P ⟨.initialised c, m⟩ () ⟨.probed c', m'⟩
  | ports {c : Controller} {m m' : Machine D} {fuel n : ℕ} :
      c.initialisePorts fuel m = some (n, m') → BootStep P ⟨.probed c, m⟩ () ⟨.portsReady c, m'⟩
  /-- `break` ends the scope of the controller. -/
  | leave {c : Controller} {m : Machine D} :
      BootStep P ⟨.portsReady c, m⟩ () ⟨.dropping c.boxes, m⟩
  | free {ptr size : ℕ} {boxes : List (ℕ × ℕ)} {m : Machine D} :
      BootStep P ⟨.dropping ((ptr, size) :: boxes), m⟩ () ⟨.dropping boxes, m.dealloc ptr size⟩
  | dropped {m : Machine D} : BootStep P ⟨.dropping [], m⟩ () ⟨.after, m⟩
  | noneLeft {m : Machine D} : BootStep P ⟨.scanning [], m⟩ () ⟨.after, m⟩
  /-- The rest of the kernel uses the heap. -/
  | alloc {m m' : Machine D} {size align ptr : ℕ} : m.alloc P size align = some (ptr, m') →
      BootStep P ⟨.after, m⟩ () ⟨.after, m'⟩

/-- The machine when the bus scan has ended: nothing has been written to the controller, and the
live blocks lie in the heap. -/
structure Machine.Fresh {D : Device} (m : Machine D) : Prop where
  /-- No register has been written. -/
  writes_eq : m.writes = []
  /-- Blocks lie in the heap. -/
  live_inHeap : ∀ b ∈ m.live, ∀ v, b.Contains v → InHeap v

/-! ## Registers that stay as they are -/

/-- The registers that only `init` writes. -/
def Mmio.IsSetup : Mmio → Prop
  | .op offset => offset < 0x400
  | .rt _ => True
  | _ => False

instance : DecidablePred Mmio.IsSetup
  | .op offset => inferInstanceAs (Decidable (offset < 0x400))
  | .rt _ => .isTrue trivial
  | .cap _ => .isFalse id
  | .doorbell _ => .isFalse id

theorem lastWrite_cons_of_ne {r r' : Mmio} (h : r' ≠ r) (v : BitVec 32)
    (writes : List (Mmio × BitVec 32)) : lastWrite r ((r', v) :: writes) = lastWrite r writes :=
  if_neg h

/-- The heap, the segment table and the registers of the set-up are the same. -/
structure Machine.Agrees {D : Device} (m m' : Machine D) : Prop where
  /-- The heap. -/
  live_eq : m'.live = m.live
  /-- The segment table. -/
  erst_eq : m'.erst = m.erst
  /-- The registers. -/
  lastWrite_eq : ∀ r : Mmio, r.IsSetup → lastWrite r m'.writes = lastWrite r m.writes

section Agrees

variable {D : Device} {m m' m'' : Machine D}

theorem Machine.Agrees.refl (m : Machine D) : m.Agrees m := ⟨rfl, rfl, fun _ _ ↦ rfl⟩

theorem Machine.Agrees.trans (h : m.Agrees m') (h' : m'.Agrees m'') : m.Agrees m'' :=
  ⟨h'.live_eq.trans h.live_eq, h'.erst_eq.trans h.erst_eq,
    fun r hr ↦ (h'.lastWrite_eq r hr).trans (h.lastWrite_eq r hr)⟩

theorem Machine.Agrees.read (m : Machine D) (r : Mmio) : m.Agrees (m.read r).2 :=
  ⟨rfl, rfl, fun _ _ ↦ rfl⟩

theorem Machine.Agrees.write (m : Machine D) {r : Mmio} (hr : ¬ r.IsSetup) (v : BitVec 32) :
    m.Agrees (m.write r v) :=
  ⟨rfl, rfl, fun r' hr' ↦ lastWrite_cons_of_ne (fun heq : r = r' ↦ hr (heq ▸ hr')) v m.writes⟩

theorem Machine.Agrees.pollUntil {r : Mmio} {p : BitVec 32 → Bool} {fuel : ℕ} {v : BitVec 32}
    (h : m.pollUntil r p fuel = some (v, m')) : m.Agrees m' := by
  obtain ⟨hlive, herst, hwrites⟩ := Machine.pollUntil_frame h
  exact ⟨hlive, herst, fun r _ ↦ by rw [hwrites]⟩

theorem not_isSetup_portsc (port : ℕ) : ¬ (Reg.portsc port).IsSetup :=
  Nat.not_lt.mpr (Nat.le_add_right _ _)

theorem Machine.Agrees.initialisePort {fuel port : ℕ} {b : Bool}
    (h : Controller.initialisePort fuel port m = some (b, m')) : m.Agrees m' := by
  have hread := Machine.Agrees.read m (Reg.portsc port)
  rw [Controller.initialisePort] at h
  simp only at h
  split at h
  · obtain ⟨-, rfl⟩ := Prod.mk.inj (Option.some.inj h)
    exact hread
  split at h
  · obtain ⟨⟨sc, m₁⟩, hpoll, h⟩ := Option.bind_eq_some_iff.mp h
    obtain ⟨-, rfl⟩ := Prod.mk.inj (Option.some.inj h)
    have hport := not_isSetup_portsc port
    exact ((((hread.trans (.write _ hport _)).trans (.pollUntil hpoll)).trans
      (.write _ hport _)).trans (.read _ _))
  · obtain ⟨-, rfl⟩ := Prod.mk.inj (Option.some.inj h)
    exact hread

theorem Machine.Agrees.portLoop {fuel : ℕ} {ports : List ℕ} {n n' : ℕ}
    (h : Controller.portLoop fuel ports n m = some (n', m')) : m.Agrees m' := by
  induction ports generalizing m n with
  | nil =>
    obtain ⟨-, rfl⟩ := Prod.mk.inj (Option.some.inj h)
    exact .refl m
  | cons port ports ih =>
    obtain ⟨⟨b, m₁⟩, hbody, hloop⟩ := Option.bind_eq_some_iff.mp h
    exact (Machine.Agrees.initialisePort hbody).trans (ih hloop)

/-- A ring keeps its place. -/
def Ring.SamePlace (r r' : Ring) : Prop :=
  r'.base = r.base ∧ r'.phys = r.phys ∧ r'.trbs.length = r.trbs.length

theorem Ring.SamePlace.sync (m : Machine D) (r : Ring) : r.SamePlace (m.sync r).1 := by
  rw [Machine.sync]
  generalize (D.post m.dev).1 = events
  induction events generalizing r with
  | nil => exact ⟨rfl, rfl, rfl⟩
  | cons e events ih =>
    obtain ⟨hbase, hphys, hlen⟩ := ih (r.store e.1 e.2)
    exact ⟨hbase, hphys, hlen.trans (List.length_set ..)⟩

theorem awaitCompletion_frame (cmdRing : Ring) (n : ℕ) (eventRing : Ring) (m : Machine D) :
    m.Agrees (Controller.awaitCompletion cmdRing n eventRing m).2.2 ∧
      eventRing.SamePlace (Controller.awaitCompletion cmdRing n eventRing m).2.1 := by
  induction n generalizing eventRing m with
  | zero => exact ⟨.refl m, rfl, rfl, rfl⟩
  | succ n ih =>
    have hsync : m.Agrees (m.sync eventRing).2 := ⟨rfl, rfl, fun _ _ ↦ rfl⟩
    obtain ⟨hbase, hphys, hlen⟩ := Ring.SamePlace.sync m eventRing
    rw [Controller.awaitCompletion]
    split
    · next b cleared hseen =>
      refine ⟨hsync, ?_⟩
      obtain rfl := checkEvent_eq_some hseen
      exact ⟨hbase, hphys, (List.length_set ..).trans hlen⟩
    · obtain ⟨hagrees, hbase', hphys', hlen'⟩ := ih (m.sync eventRing).1 (m.sync eventRing).2
      exact ⟨hsync.trans hagrees, hbase'.trans hbase, hphys'.trans hphys, hlen'.trans hlen⟩

theorem Machine.Agrees.noop {c c' : Controller} {b : Bool} (h : c.noop m = (b, c', m')) :
    m.Agrees m' ∧ c.cmdRing.SamePlace c'.cmdRing ∧ c.eventRing.SamePlace c'.eventRing ∧
      c'.dcbaa = c.dcbaa := by
  obtain ⟨hagrees, hplace⟩ := awaitCompletion_frame (c.cmdRing.push noOpTrb) noopPolls c.eventRing
    ((m.read (.cap 0x14)).2.write (.doorbell 0) 0)
  rw [Controller.noop] at h
  obtain ⟨-, h⟩ := Prod.mk.inj h
  obtain ⟨rfl, rfl⟩ := Prod.mk.inj h
  refine ⟨?_, ⟨rfl, rfl, List.length_set ..⟩, hplace, rfl⟩
  exact ((Machine.Agrees.read m _).trans (.write _ id _)).trans hagrees

end Agrees

/-! ## What `init` leaves behind -/

/-- The flag bits of CRCR do not disturb an aligned pointer. -/
theorem crcr_pointer {p : BitVec 64} (h : p.toNat % 64 = 0) : (p ||| 1) &&& ~~~0x3F = p :=
  BitField.or_and_not_low (k := 6) (by decide) (Nat.dvd_of_mod_eq_zero h)

/-- What is true once `init` has returned: the controller runs, holds the three structures, and
each is backed by a live block; and the block of the command ring overlaps no other. -/
structure Installed {D : Device} (P : Platform) (c : Controller) (m : Machine D) : Prop where
  /-- RS = 1. -/
  running : m.Running
  /-- CRCR points to the command ring. -/
  heldCmdRing_eq : m.heldCmdRing = some c.cmdRing.phys
  /-- The segment table points to the event ring. -/
  heldEventRing_eq : m.heldEventRing = some c.eventRing.phys
  /-- DCBAAP points to the array. -/
  heldDcbaa_eq : m.heldDcbaa = some c.dcbaa.phys
  /-- The command ring is live. -/
  backed_cmdRing : m.Backed P c.cmdRing.phys
  /-- The event ring is live. -/
  backed_eventRing : m.Backed P c.eventRing.phys
  /-- The array is live. -/
  backed_dcbaa : m.Backed P c.dcbaa.phys
  /-- Blocks lie in the heap. -/
  live_inHeap : ∀ b ∈ m.live, ∀ v, b.Contains v → InHeap v
  /-- The command ring lies in the heap. -/
  cmdRing_inHeap : InHeap c.cmdRing.base
  /-- Its physical address. -/
  translate_cmdRing : P.translate c.cmdRing.base = some c.cmdRing.phys
  /-- Only the block that starts there contains its first byte. -/
  cmdRing_alone : ∀ b ∈ m.live, b.Contains c.cmdRing.base → b.start = c.cmdRing.base
  /-- It is not empty. -/
  cmdRing_pos : 0 < c.cmdRing.trbs.length

section Installed

variable {D : Device} {P : Platform} {m m' : Machine D} {c c' : Controller}

theorem Installed.dmaLive (h : Installed P c m) : m.DmaLive P := by
  intro _ p hp
  rw [h.heldCmdRing_eq, h.heldEventRing_eq, h.heldDcbaa_eq, Option.some.injEq, Option.some.injEq,
    Option.some.injEq] at hp
  rcases hp with rfl | rfl | rfl
  · exact h.backed_cmdRing
  · exact h.backed_eventRing
  · exact h.backed_dcbaa

/-- Nothing changes for the controller as long as its set-up registers and the heap stay as they
are and the rings keep their places. -/
theorem Installed.of_agrees (h : Installed P c m) (hm : m.Agrees m')
    (hcmd : c.cmdRing.SamePlace c'.cmdRing) (hevent : c.eventRing.SamePlace c'.eventRing)
    (hdcbaa : c'.dcbaa = c.dcbaa) : Installed P c' m' := by
  obtain ⟨hbase, hphys, hlen⟩ := hcmd
  have hheld : ∀ low high : Mmio, low.IsSetup → high.IsSetup →
    m'.held low high = m.held low high :=
    fun low high hlow hhigh ↦ by
      unfold Machine.held
      rw [hm.lastWrite_eq low hlow, hm.lastWrite_eq high hhigh]
  have hbacked : ∀ p, m.Backed P p → m'.Backed P p := fun p hp ↦ by
    rw [Machine.Backed]
    rwa [hm.live_eq]
  refine ⟨?_, ?_, ?_, ?_, ?_, ?_, ?_, ?_, ?_, ?_, ?_, ?_⟩
  · obtain ⟨v, hv, hrs⟩ := h.running
    exact ⟨v, (hm.lastWrite_eq _ (by decide)).trans hv, hrs⟩
  · rw [Machine.heldCmdRing, hheld _ _ (by decide) (by decide), hphys]
    exact h.heldCmdRing_eq
  · rw [Machine.heldEventRing, hheld _ _ (by decide) (by decide), hm.erst_eq, hevent.2.1]
    exact h.heldEventRing_eq
  · rw [Machine.heldDcbaa, hheld _ _ (by decide) (by decide), hdcbaa]
    exact h.heldDcbaa_eq
  · rw [hphys]
    exact hbacked _ h.backed_cmdRing
  · rw [hevent.2.1]
    exact hbacked _ h.backed_eventRing
  · rw [hdcbaa]
    exact hbacked _ h.backed_dcbaa
  · rw [hm.live_eq]
    exact h.live_inHeap
  · rw [hbase]
    exact h.cmdRing_inHeap
  · rw [hbase, hphys]
    exact h.translate_cmdRing
  · rw [hm.live_eq, hbase]
    exact h.cmdRing_alone
  · rw [hlen]
    exact h.cmdRing_pos

/-- The registers after `configure` and `start`: the pointers are the ones of the rings and of the
array. -/
theorem held_of_writes {fuel : ℕ} {segPhys : BitVec 64} (m₃ : Machine D) {m₅ : Machine D}
    (hm₅ : m₅.writes = (c.writeContexts m₃).writes)
    (hstart : Controller.start fuel (c.writeEventRing segPhys m₅) = some m') :
    m'.Running ∧ m'.held Reg.crcrLow Reg.crcrHigh = some (c.cmdRing.phys ||| 1) ∧
      m'.held Reg.erstbaLow Reg.erstbaHigh = some segPhys ∧
      m'.held Reg.dcbaapLow Reg.dcbaapHigh = some c.dcbaa.phys ∧ m'.live = m₅.live ∧
      m'.erst = m₅.erst := by
  obtain ⟨hlive, herst, hwrites⟩ := Controller.start_frame hstart
  have hall : m'.writes = (Reg.usbcmd, Usbcmd.rs ||| Usbcmd.inte ||| Usbcmd.hsee) ::
      (c.writeEventRing segPhys { m₅ with writes := (c.writeContexts m₃).writes }).writes := by
    rw [hwrites, ← hm₅]
  refine ⟨⟨Usbcmd.rs ||| Usbcmd.inte ||| Usbcmd.hsee, by rw [hall]; rfl, by decide⟩, ?_, ?_,
    ?_, hlive, herst⟩
  · rw [Machine.held, hall]
    exact congrArg some (append_halves _)
  · rw [Machine.held, hall]
    exact congrArg some (append_halves _)
  · rw [Machine.held, hall]
    exact congrArg some (append_halves _)

/-- A new block keeps the heap inside its bounds. -/
theorem Platform.Lawful.inHeap_cons (hP : P.Lawful) {live : List Block} {size align ptr : ℕ}
    (halloc : P.alloc live size align = some ptr)
    (hlive : ∀ b ∈ live, ∀ v, b.Contains v → InHeap v) :
    ∀ b ∈ (⟨ptr, size⟩ :: live : List Block), ∀ v, b.Contains v → InHeap v := by
  intro b hb v hv
  rcases List.mem_cons.mp hb with rfl | hb
  · exact (hP.inside _ _ _ _ halloc).inHeap hv
  · exact hlive b hb v hv

/-- A new block does not reach into a live one. -/
theorem Platform.Lawful.alone_cons (hP : P.Lawful) {live : List Block} {size align ptr : ℕ}
    (halloc : P.alloc live size align = some ptr) {a : ℕ} {b₀ : Block} (hb₀ : b₀ ∈ live)
    (ha : b₀.Contains a) (hlive : ∀ b ∈ live, b.Contains a → b.start = a) :
    ∀ b ∈ (⟨ptr, size⟩ :: live : List Block), b.Contains a → b.start = a := by
  intro b hb hba
  rcases List.mem_cons.mp hb with rfl | hb
  · exact absurd hba (hP.disjoint _ _ _ _ halloc b₀ hb₀ a ha)
  · exact hlive b hb hba

theorem Block.contains_start (ptr : ℕ) {size : ℕ} (hsize : 0 < size) :
    (⟨ptr, size⟩ : Block).Contains ptr :=
  ⟨le_rfl, Nat.lt_add_of_pos_right hsize⟩

theorem Machine.backed_of_mem {ptr size : ℕ} {phys : BitVec 64} (hmem : ⟨ptr, size⟩ ∈ m.live)
    (hsize : 0 < size) (htr : P.translate ptr = some phys) : m.Backed P phys :=
  ⟨_, hmem, ptr, Block.contains_start ptr hsize, htr⟩

/-- A ring of the kernel's starts its block. -/
theorem Ring.new_of_lawful (hP : P.Lawful) {ring : Ring} {hc : ∃ k, 256 = 2 ^ k}
    (h : Ring.new P 256 hc m = some (ring, m')) :
    P.alloc m.live (256 * 16 + 64) 64 = some ring.base ∧
      m'.live = ⟨ring.base, 256 * 16 + 64⟩ :: m.live ∧ P.translate ring.base = some ring.phys ∧
      ring.trbs.length = 256 := by
  obtain ⟨ptr, phys, halloc, htr, rfl, rfl⟩ := Ring.new_eq_some h
  rw [align64_of_dvd (hP.aligned _ _ _ _ halloc)] at htr ⊢
  exact ⟨halloc, rfl, htr, List.length_replicate⟩

/-- So does the array. -/
theorem Dcbaa.new_of_lawful (hP : P.Lawful) {maxSlots : BitVec 8} {dcbaa : Dcbaa}
    (h : Dcbaa.new P maxSlots m = some (dcbaa, m')) :
    P.alloc m.live ((maxSlots.toNat + 1) * 8 + 64) 64 = some dcbaa.base ∧
      m'.live = ⟨dcbaa.base, (maxSlots.toNat + 1) * 8 + 64⟩ :: m.live ∧
      P.translate dcbaa.base = some dcbaa.phys := by
  obtain ⟨ptr, phys, halloc, htr, rfl, rfl⟩ := Dcbaa.new_eq_some h
  rw [align64_of_dvd (hP.aligned _ _ _ _ halloc)] at htr ⊢
  exact ⟨halloc, rfl, htr⟩

/-- **`init` installs the controller.** -/
theorem installed_of_init (hP : P.Lawful) (hm : m.Fresh) {fuel : ℕ}
    (h : Controller.init P fuel m = some (c, m')) : Installed P c m' := by
  obtain ⟨cmd, m₁, m₂, m₃, m₄, hstop, hreset, hallocate, hconfigure, hstart⟩ :=
    Controller.init_eq_some h
  have hlive₂ : m₂.live = m.live :=
    (Controller.reset_frame hreset).1.trans (Controller.stop_frame hstop).1
  obtain ⟨m₂₁, m₂₂, hcmd, hevent, hdcbaa, -, -⟩ := Controller.allocate_eq_some hallocate
  obtain ⟨halloc₁, hl₁, htr₁, hlen₁⟩ := Ring.new_of_lawful hP hcmd
  obtain ⟨halloc₂, hl₂, htr₂, -⟩ := Ring.new_of_lawful hP hevent
  obtain ⟨halloc₃, hl₃, htr₃⟩ := Dcbaa.new_of_lawful hP hdcbaa
  obtain ⟨segPhys, m₅, herst, rfl⟩ := Controller.configure_eq_some hconfigure
  obtain ⟨ptr₄, halloc₄, -, hm₅⟩ := allocateErst_eq_some herst
  obtain ⟨hrunning, hcrcr, herstba, hdcbaap, hlive', herst'⟩ :=
    held_of_writes m₃ (by rw [hm₅]) hstart
  have halloc₄ : P.alloc m₃.live (16 + 64) 64 = some ptr₄ := halloc₄
  have hl₄ : m'.live = ⟨ptr₄, 16 + 64⟩ :: m₃.live := by rw [hlive', hm₅]; rfl
  rw [hlive₂] at halloc₁ hl₁
  -- the blocks of the three structures, in the heap as `init` leaves it
  have hb₁ : ⟨c.cmdRing.base, 256 * 16 + 64⟩ ∈ m₂₁.live := hl₁ ▸ List.mem_cons_self
  have hb₁₂ : ⟨c.cmdRing.base, 256 * 16 + 64⟩ ∈ m₂₂.live := hl₂ ▸ List.mem_cons_of_mem _ hb₁
  have hb₁₃ : ⟨c.cmdRing.base, 256 * 16 + 64⟩ ∈ m₃.live := hl₃ ▸ List.mem_cons_of_mem _ hb₁₂
  have hb₂ : ⟨c.eventRing.base, 256 * 16 + 64⟩ ∈ m₃.live :=
    hl₃ ▸ List.mem_cons_of_mem _ (hl₂ ▸ List.mem_cons_self)
  have hkept : ∀ b ∈ m₃.live, b ∈ m'.live := fun b hb ↦ hl₄ ▸ List.mem_cons_of_mem _ hb
  have hcontains : (⟨c.cmdRing.base, 256 * 16 + 64⟩ : Block).Contains c.cmdRing.base :=
    Block.contains_start _ (by decide)
  have hheap : InHeap c.cmdRing.base := (hP.inside _ _ _ _ halloc₁).inHeap hcontains
  have hmod : c.cmdRing.phys.toNat % 64 = 0 := by
    have := hP.translate_mod _ _ hheap htr₁
    have := hP.aligned _ _ _ _ halloc₁
    omega
  refine ⟨hrunning, ?_, ?_, hdcbaap, ?_, ?_, ?_, ?_, hheap, htr₁, ?_, ?_⟩
  · rw [Machine.heldCmdRing, hcrcr]
    exact congrArg some (crcr_pointer hmod)
  · rw [Machine.heldEventRing, herstba, Option.bind_some, herst', hm₅]
    simp only [Function.update_self, Option.map_some]
  · exact Machine.backed_of_mem (hkept _ hb₁₃) (by decide) htr₁
  · exact Machine.backed_of_mem (hkept _ hb₂) (by decide) htr₂
  · exact Machine.backed_of_mem (hkept _ (hl₃ ▸ List.mem_cons_self)) (Nat.succ_pos _) htr₃
  · have h₁ := hl₁ ▸ hP.inHeap_cons halloc₁ hm.live_inHeap
    have h₂ := hl₂ ▸ hP.inHeap_cons halloc₂ h₁
    have h₃ := hl₃ ▸ hP.inHeap_cons halloc₃ h₂
    exact hl₄ ▸ hP.inHeap_cons halloc₄ h₃
  · have h₁ : ∀ b ∈ m₂₁.live, b.Contains c.cmdRing.base → b.start = c.cmdRing.base := by
      intro b hb hba
      rcases List.mem_cons.mp (hl₁ ▸ hb) with rfl | hb
      · rfl
      · exact absurd hcontains (hP.disjoint _ _ _ _ halloc₁ b hb _ hba)
    have h₂ := hl₂ ▸ hP.alone_cons halloc₂ hb₁ hcontains h₁
    have h₃ := hl₃ ▸ hP.alone_cons halloc₃ hb₁₂ hcontains h₂
    exact hl₄ ▸ hP.alone_cons halloc₄ hb₁₃ hcontains h₃
  · rw [hlen₁]
    decide

/-- **Releasing the command ring is enough.** The controller still runs and still holds the
address, and no live block lies behind it. -/
theorem Installed.not_dmaLive_dealloc (hP : P.Lawful) (h : Installed P c m) :
    ¬ (m.dealloc c.cmdRing.base (c.cmdRing.trbs.length * 16)).DmaLive P := by
  intro hlive
  obtain ⟨b', hb', v, hv, htr⟩ := hlive h.running c.cmdRing.phys (.inl h.heldCmdRing_eq)
  obtain ⟨b, hb, rfl⟩ := List.mem_map.mp hb'
  have hpos := h.cmdRing_pos
  have hnew : b.Contains v ∧ v ≠ c.cmdRing.base := by
    by_cases hstart : b.start = c.cmdRing.base
    · rw [if_pos hstart] at hv
      obtain ⟨hle, hlt⟩ := hv
      dsimp only at hle hlt
      exact ⟨⟨by omega, by omega⟩, by omega⟩
    · rw [if_neg hstart] at hv
      exact ⟨hv, fun heq ↦ hstart (h.cmdRing_alone b hb (heq ▸ hv))⟩
  have hheap := h.live_inHeap b hb v hnew.1
  exact hnew.2 (hP.translate_injective _ _ _ hheap h.cmdRing_inHeap htr h.translate_cmdRing)

end Installed

/-! ## Whole runs -/

/-- The controller comes up: `init` returns and, after the probe, so does `initialise_ports`. -/
def ComesUp {D : Device} (P : Platform) (m : Machine D) : Prop :=
  ∃ fuel c m', Controller.init P fuel m = some (c, m') ∧
    ∃ fuel' r, (c.noop m').2.1.initialisePorts fuel' (c.noop m').2.2 = some r

section Runs

variable {D : Device} {P : Platform} {devices : List Pci.Device} {m₀ : Machine D}

/-- A controller is brought up and given back. -/
def GivenBack (P : Platform) (devices : List Pci.Device) (m₀ : Machine D) : Prop :=
  (∃ xd ∈ devices, xd.mmio ≠ none) ∧ ComesUp P m₀

/-- What is true at each point of `kernel_main`. -/
def BootInv (P : Platform) (devices : List Pci.Device) (m₀ : Machine D) (s : BootState D) : Prop :=
  match s.pc with
  | .scanning rest => s.machine = m₀ ∧ rest ⊆ devices
  | .initialised c => Installed P c s.machine ∧ (∃ xd ∈ devices, xd.mmio ≠ none) ∧
      ∃ fuel, Controller.init P fuel m₀ = some (c, s.machine)
  | .probed c => Installed P c s.machine ∧ (∃ xd ∈ devices, xd.mmio ≠ none) ∧
      ∃ fuel c₀ m₁ b, Controller.init P fuel m₀ = some (c₀, m₁) ∧ c₀.noop m₁ = (b, c, s.machine)
  | .portsReady c => Installed P c s.machine ∧ GivenBack P devices m₀
  | .dropping _ => GivenBack P devices m₀
  | .after => s.machine.writes = [] ∨ GivenBack P devices m₀

theorem BootInv.step (hP : P.Lawful) (hm₀ : m₀.Fresh) {s t : BootState D}
    (hs : BootInv P devices m₀ s) (h : BootStep P s () t) : BootInv P devices m₀ t := by
  rcases h with hskip | ⟨hmmio, hinit⟩ | hnoop | hports | _ | _ | _ | _ | halloc
  · exact ⟨hs.1, fun xd hxd ↦ hs.2 (List.mem_cons_of_mem _ hxd)⟩
  · obtain ⟨rfl, hsub⟩ := hs
    refine ⟨installed_of_init hP hm₀ hinit, ⟨_, hsub List.mem_cons_self, ?_⟩, _, hinit⟩
    rw [hmmio]
    exact Option.some_ne_none _
  · obtain ⟨hinst, htried, fuel, hinit⟩ := hs
    obtain ⟨hagrees, hcmd, hevent, hdcbaa⟩ := Machine.Agrees.noop hnoop
    exact ⟨hinst.of_agrees hagrees hcmd hevent hdcbaa, htried, fuel, _, _, _, hinit, hnoop⟩
  · obtain ⟨hinst, htried, fuel, c₀, m₁, b, hinit, hnoop⟩ := hs
    have hagrees := Machine.Agrees.portLoop hports
    refine ⟨hinst.of_agrees hagrees ⟨rfl, rfl, rfl⟩ ⟨rfl, rfl, rfl⟩ rfl, htried, fuel, c₀, m₁,
      hinit, ?_⟩
    rw [hnoop]
    exact ⟨_, _, hports⟩
  · exact hs.2
  · exact hs
  · exact .inr hs
  · obtain ⟨rfl, -⟩ := hs
    exact .inl hm₀.writes_eq
  · obtain ⟨ptr, -, hm'⟩ := Option.map_eq_some_iff.mp halloc
    obtain ⟨-, rfl⟩ := Prod.mk.inj hm'
    exact hs

theorem BootInv.run (hP : P.Lawful) (hm₀ : m₀.Fresh) {acts : List Unit} {s : BootState D}
    (h : Run (BootStep P) ⟨.scanning devices, m₀⟩ acts s) : BootInv P devices m₀ s :=
  have hstart : BootInv P devices m₀ ⟨.scanning devices, m₀⟩ := ⟨rfl, List.Subset.refl _⟩
  h.invariant (I := BootInv P devices m₀) (fun _ _ _ hs hstep ↦ hs.step hP hm₀ hstep) hstart

theorem dmaLive_of_writes_eq_nil {m : Machine D} (h : m.writes = []) : m.DmaLive P := by
  rintro ⟨v, hv, -⟩
  rw [h] at hv
  cases hv

/-- As long as no controller is given back, the memory stays live. -/
theorem BootInv.dmaLive (hm₀ : m₀.Fresh) {s : BootState D} (hs : BootInv P devices m₀ s)
    (hnot : ¬ GivenBack P devices m₀) : s.machine.DmaLive P := by
  obtain ⟨pc, m⟩ := s
  rcases pc with rest | c | c | c | boxes | _
  · obtain ⟨rfl, -⟩ := hs
    exact dmaLive_of_writes_eq_nil hm₀.writes_eq
  · exact hs.1.dmaLive
  · exact hs.1.dmaLive
  · exact hs.1.dmaLive
  · exact absurd hs hnot
  · rcases hs with hwrites | hback
    · exact dmaLive_of_writes_eq_nil hwrites
    · exact absurd hback hnot

/-- The loop reaches the first device whose BAR0 is a memory BAR. -/
theorem exists_run_scanning (m : Machine D) (h : ∃ xd ∈ devices, xd.mmio ≠ none) :
    ∃ acts xd rest base, Run (BootStep P) ⟨.scanning devices, m⟩ acts ⟨.scanning (xd :: rest), m⟩ ∧
      xd.mmio = some base := by
  induction devices with
  | nil =>
    obtain ⟨xd, hxd, -⟩ := h
    exact absurd hxd List.not_mem_nil
  | cons d devices ih =>
    rcases hd : d.mmio with _ | base
    · obtain ⟨xd, hxd, hbar⟩ := h
      rcases List.mem_cons.mp hxd with rfl | hxd
      · exact absurd hd hbar
      · obtain ⟨acts, xd', rest, base, hrun, hbase⟩ := ih ⟨xd, hxd, hbar⟩
        exact ⟨_, xd', rest, base, (Run.single (.skip hd)).append hrun, hbase⟩
    · exact ⟨[], d, devices, base, .nil _, hd⟩

/-- A controller that is given back is left without its command ring. -/
theorem exists_run_not_dmaLive (hP : P.Lawful) (hm₀ : m₀.Fresh) (h : GivenBack P devices m₀) :
    ∃ acts s, Run (BootStep P) ⟨.scanning devices, m₀⟩ acts s ∧ ¬ s.machine.DmaLive P := by
  obtain ⟨htried, fuel, c, m₁, hinit, fuel', ⟨n, m₃⟩, hports⟩ := h
  obtain ⟨acts, xd, rest, base, hrun, hbase⟩ := exists_run_scanning (P := P) m₀ htried
  rcases hnoop : c.noop m₁ with ⟨b, c', m₂⟩
  rw [hnoop] at hports
  have hready := (((hrun.snoc (.init hbase hinit)).snoc (.noop hnoop)).snoc (.ports hports))
  have hinst := (BootInv.run hP hm₀ hready).1
  exact ⟨_, _, (hready.snoc .leave).snoc .free, hinst.not_dmaLive_dealloc hP⟩

end Runs

/-! ## On the kernel's own heap -/

/-- Memory set-up makes the translation lawful. -/
theorem lawful_kernelPlatform {m : MemoryRegions} (hdis : m.RegionsDisjoint) (hal : m.PageAligned)
    {mem₀ : PhysMem} {cr3 : PhysFrame} {c : ℕ} {s : MemoryState}
    (hs : HeapInv m mem₀ cr3 c heapPages 2048 s) {alloc : List Block → ℕ → ℕ → Option ℕ}
    (halloc : AllocContract alloc) : (kernelPlatform s.mem cr3 alloc).Lawful := by
  refine ⟨halloc, fun v w p hv hw hvp hwp ↦ ?_, fun v p hv hvp ↦ ?_⟩
  · obtain ⟨j, hj, off, hoff, rfl⟩ := hv.exists_offset
    obtain ⟨k, hk, off', hoff', rfl⟩ := hw.exists_offset
    obtain ⟨f, hf, htrf⟩ := translate_heap alloc hs hj
    obtain ⟨g, hg, htrg⟩ := translate_heap alloc hs hk
    have haddr : f.startAddress + off = g.startAddress + off' := by
      have heq := (htrf off hoff).symm.trans (hvp.trans (hwp.symm.trans (htrg off' hoff')))
      have hnat := congrArg BitVec.toNat (Option.some.inj heq)
      have hflt := f.lt
      have hglt := g.lt
      rw [BitVec.toNat_ofNat, BitVec.toNat_ofNat] at hnat
      omega
    have hfdvd := f.aligned
    have hgdvd := g.aligned
    have hfg : f.startAddress = g.startAddress := by omega
    obtain rfl : f = g := PhysFrame.ext hfg
    have hpos := index_unique hdis hal (getElem?_of_nth hf) (getElem?_of_nth hg)
    have hjk : j = k := (framePos_strictMono mem₀ cr3 c heapPages).injective hpos
    omega
  · obtain ⟨j, hj, off, hoff, rfl⟩ := hv.exists_offset
    obtain ⟨f, -, htrf⟩ := translate_heap alloc hs hj
    obtain rfl := Option.some.inj ((htrf off hoff).symm.trans hvp)
    have hflt := f.lt
    have hfdvd := f.aligned
    rw [BitVec.toNat_ofNat]
    rw [heapStart]
    omega

/-- **When the controller's memory stays live.** After a successful memory set-up, for every list
of devices, every allocator and every controller: what the running controller holds is live in
every state `kernel_main` reaches, if and only if no xHCI controller has a memory BAR0 or the one
that has never comes up. -/
theorem dma_live_iff {mapTo : MapTo} {mem : PhysMem} {cr3 : PhysFrame}
    (hmapTo : MapToContract mapTo mem cr3) {m : MemoryRegions} (hdis : m.RegionsDisjoint)
    (hal : m.PageAligned) (htab : BootTables m mem cr3) {minAddr : ℕ} {s : MemoryState}
    (hsetUp : setUpMemory mapTo cr3 m minAddr mem = .ok (.ok (), s))
    {alloc : List Block → ℕ → ℕ → Option ℕ} (halloc : AllocContract alloc)
    (devices : List Pci.Device) {D : Device} {m₀ : Machine D} (hm₀ : m₀.Fresh) :
    (∀ acts t, Run (BootStep (kernelPlatform s.mem cr3 alloc))
        ⟨.scanning (Pci.findXhci devices), m₀⟩ acts t →
      t.machine.DmaLive (kernelPlatform s.mem cr3 alloc)) ↔
    (∀ xd ∈ Pci.findXhci devices, xd.mmio = none) ∨ ¬ ComesUp (kernelPlatform s.mem cr3 alloc)
      m₀ := by
  obtain ⟨c, s', -, hmem, hs⟩ := heapInv_of_setUpMemory hmapTo hdis hal htab hsetUp
  have hP := hmem ▸ lawful_kernelPlatform hdis hal hs halloc
  have hnot : (∀ xd ∈ Pci.findXhci devices, xd.mmio = none) ∨
      ¬ ComesUp (kernelPlatform s.mem cr3 alloc) m₀ ↔
      ¬ GivenBack (kernelPlatform s.mem cr3 alloc) (Pci.findXhci devices) m₀ := by
    rw [GivenBack, not_and_or]
    exact or_congr_left (by push Not; rfl)
  rw [hnot]
  constructor
  · intro hlive hback
    obtain ⟨acts, t, hrun, hdead⟩ := exists_run_not_dmaLive hP hm₀ hback
    exact hdead (hlive acts t hrun)
  · intro hback acts t hrun
    exact (BootInv.run hP hm₀ hrun).dmaLive hm₀ hback

/-! ## On the bare machine -/

section Silent

variable {P : Platform} {m m' : Machine xhciDevice}

/-- No port shows a device. -/
def XhciState.PortsSilent (st : XhciState) : Prop := ∀ port, st.config.regs (Reg.portsc port) = 0

theorem portsSilent_write (h : m.xhci.PortsSilent) {r : Mmio} (hcmd : r ≠ Reg.usbcmd)
    (hr : ∀ port, r ≠ Reg.portsc port) (v : BitVec 32) : (m.write r v).xhci.PortsSilent := by
  intro port
  rw [config_write hcmd, Config.regs_write, Function.update_of_ne (hr port).symm]
  exact h port

/-- The reset clears the ports, and `init` does not touch them. -/
theorem portsSilent_init {fuel : ℕ} {c : Controller}
    (h : Controller.init P fuel m = some (c, m')) :
    m'.xhci.PortsSilent := by
  have hset : ∀ r, r ≠ Reg.usbcmd ∧ r.IsSetup → ∀ (u : Machine xhciDevice) v, u.xhci.PortsSilent →
      (u.write r v).xhci.PortsSilent := fun r hr u v hu ↦
    portsSilent_write hu hr.1 (fun port heq ↦ not_isSetup_portsc port (heq ▸ hr.2)) v
  have hcontextRegs : ∀ r ∈ Controller.contextRegs, r ≠ Reg.usbcmd ∧ r.IsSetup := by decide
  have heventRegs : ∀ r ∈ Controller.eventRegs, r ≠ Reg.usbcmd ∧ r.IsSetup := by decide
  obtain ⟨cmd, m₁, m₂, m₃, m₄, -, hreset, hallocate, hconfigure, hstart⟩ :=
    Controller.init_eq_some h
  obtain ⟨segPhys, m₅, herst, rfl⟩ := Controller.configure_eq_some hconfigure
  have hm₃ : m₃.xhci.PortsSilent := by
    rw [xhci_allocate hallocate, XhciState.PortsSilent, config_reset hreset]
    exact fun _ ↦ rfl
  have hm₅ : m₅.xhci.PortsSilent := by
    obtain ⟨_, _, _, rfl⟩ := allocateErst_eq_some herst
    exact c.writeContexts_invariant (I := fun u ↦ u.xhci.PortsSilent)
      (fun r hr ↦ hset r (hcontextRegs r hr)) hm₃
  rw [XhciState.PortsSilent, config_start hstart]
  exact c.writeEventRing_invariant (I := fun u ↦ u.xhci.PortsSilent)
    (fun r hr ↦ hset r (heventRegs r hr)) segPhys hm₅

theorem xhci_awaitCompletion (cmdRing : Ring) (n : ℕ) (eventRing : Ring) :
    (Controller.awaitCompletion cmdRing n eventRing m).2.2.xhci = m.xhci := by
  induction n generalizing eventRing m with
  | zero => rfl
  | succ n ih =>
    rw [Controller.awaitCompletion]
    split
    · rfl
    · exact ih _

theorem portsSilent_noop (h : m.xhci.PortsSilent) {c c' : Controller} {b : Bool}
    (hnoop : c.noop m = (b, c', m')) : m'.xhci.PortsSilent := by
  rw [Controller.noop] at hnoop
  obtain ⟨-, hnoop⟩ := Prod.mk.inj hnoop
  obtain ⟨-, rfl⟩ := Prod.mk.inj hnoop
  rw [xhci_awaitCompletion]
  exact portsSilent_write h (by decide) (fun _ heq ↦ by cases heq) 0

/-- With nothing attached, `initialise_ports` returns. -/
theorem portLoop_of_portsSilent (fuel : ℕ) (ports : List ℕ) (n : ℕ) (h : m.xhci.PortsSilent) :
    ∃ r, Controller.portLoop fuel ports n m = some r := by
  induction ports generalizing m n with
  | nil => exact ⟨_, rfl⟩
  | cons port ports ih =>
    have hne : ∀ {r : Mmio}, r.IsSetup → Reg.portsc port ≠ r :=
      fun hr heq ↦ not_isSetup_portsc port (heq ▸ hr)
    have hread : m.read (Reg.portsc port) = (m.xhci.config.regs (Reg.portsc port), m) := by
      unfold Machine.read Machine.xhci xhciDevice
      simp only [if_neg (hne (r := Reg.usbcmd) (by decide)),
        if_neg (hne (r := Reg.usbsts) (by decide))]
      rfl
    have hport : Controller.initialisePort fuel port m = some (false, m) := by
      rw [Controller.initialisePort, hread, h port]
      exact if_pos (BitVec.zero_and)
    rw [Controller.portLoop, hport, Option.bind_some]
    exact ih _ h

end Silent

/-- An xHCI controller with the given BAR0. -/
def xhciFunction (bar : Pci.Bar) : Pci.Device where
  bus := 0
  device := 4
  function := 0
  vendorId := 0x1B36
  deviceId := 0x000D
  classCode := 0x0C
  subclass := 0x03
  progIf := 0x30
  headerType := 0
  bars i := if i.val = 0 then some bar else none

theorem firmwareMachine_fresh (maxSlots maxPorts : BitVec 8) :
    (firmwareMachine maxSlots maxPorts).Fresh :=
  ⟨rfl, fun _ hb ↦ absurd hb List.not_mem_nil⟩

/-- A controller with an I/O BAR0 is left alone. -/
theorem dma_live_io :
    ∃ s, setUpMemory offsetMapTo bareCr3 bareMap 0x200000 bareMem = .ok (.ok (), s) ∧
      ∀ acts t, Run (BootStep (kernelPlatform s.mem bareCr3 slotAlloc))
          ⟨.scanning (Pci.findXhci [xhciFunction (.io 0xC000)]), firmwareMachine 64 4⟩ acts t →
        t.machine.DmaLive (kernelPlatform s.mem bareCr3 slotAlloc) := by
  obtain ⟨s, hsetUp⟩ := bare_setUp_succeeds
  refine ⟨s, hsetUp, (dma_live_iff offsetMapTo_contract bareMap_wellFormed.1 bareMap_wellFormed.2
    bareTables hsetUp slotAlloc_contract _ (firmwareMachine_fresh 64 4)).mpr (.inl ?_)⟩
  intro xd hxd
  obtain rfl := List.mem_singleton.mp (List.mem_filter.mp hxd).1
  rfl

/-- On the bare machine, with a controller of 64 slots and 4 ports behind a memory BAR,
`kernel_main` reaches a state in which the running controller holds memory that has been released.
-/
theorem not_dma_live :
    ∃ s, setUpMemory offsetMapTo bareCr3 bareMap 0x200000 bareMem = .ok (.ok (), s) ∧
      ¬ ∀ acts t, Run (BootStep (kernelPlatform s.mem bareCr3 slotAlloc))
          ⟨.scanning (Pci.findXhci [xhciFunction (.memory64 0xFEBF0000 false)]),
            firmwareMachine 64 4⟩
          acts t →
        t.machine.DmaLive (kernelPlatform s.mem bareCr3 slotAlloc) := by
  obtain ⟨s, hsetUp, c, m₁, hinit⟩ := bare_init_returns 64 4
  obtain ⟨pos, s', -, hmem, hs⟩ := heapInv_of_setUpMemory offsetMapTo_contract bareMap_wellFormed.1
    bareMap_wellFormed.2 bareTables hsetUp
  have hP := hmem ▸ lawful_kernelPlatform bareMap_wellFormed.1 bareMap_wellFormed.2 hs
    slotAlloc_contract
  have hup : ComesUp (kernelPlatform s.mem bareCr3 slotAlloc) (firmwareMachine 64 4) := by
    refine ⟨1, c, m₁, hinit, 0, ?_⟩
    rcases hnoop : c.noop m₁ with ⟨b, c', m₂⟩
    exact portLoop_of_portsSilent 0 _ 0 (portsSilent_noop (portsSilent_init hinit) hnoop)
  have hback : GivenBack (kernelPlatform s.mem bareCr3 slotAlloc)
      (Pci.findXhci [xhciFunction (.memory64 0xFEBF0000 false)]) (firmwareMachine 64 4) :=
    ⟨⟨_, List.mem_singleton.mpr rfl, Option.some_ne_none _⟩, hup⟩
  obtain ⟨acts, t, hrun, hdead⟩ := exists_run_not_dmaLive hP (firmwareMachine_fresh 64 4) hback
  exact ⟨s, hsetUp, fun h ↦ hdead (h acts t hrun)⟩

end Punkos
