import Punkos.Xhci.Driver

/-!
# The driver on simulated controllers

The driver reaches a controller through its registers only. So when one controller does what
another one does, as far as a set of registers goes, the driver runs on both in the same way as
long as it keeps to these registers. `Device.Simulates` is that relation, along a map of the
states, and each function of the driver commutes with the map (`Controller.init_map`,
`Controller.noop_map`, `Controller.initialisePorts_map`).
-/

namespace Punkos

/-- On the registers in `S`, the controller `E` does after `f` what `D` does before it. -/
structure Device.Simulates {D E : Device} (S : Mmio → Prop) (f : D.State → E.State) : Prop where
  /-- The answers are the same. -/
  read : ∀ s r, S r → E.read (f s) r = ((D.read s r).1, f (D.read s r).2)
  /-- Writes have the same effect. -/
  write : ∀ erst s r v, S r → E.write erst (f s) r v = f (D.write erst s r v)
  /-- The events are the same. -/
  post : ∀ s, E.post (f s) = ((D.post s).1, f (D.post s).2)

namespace Machine

variable {D E : Device} {S : Mmio → Prop} {f : D.State → E.State} {m : Machine D}

/-- The machine with the other controller. -/
def map (f : D.State → E.State) (m : Machine D) : Machine E where
  dev := f m.dev
  live := m.live
  erst := m.erst
  writes := m.writes

/-- A result, with the other controller. -/
def mapResult {α : Type*} (f : D.State → E.State) (x : Option (α × Machine D)) :
    Option (α × Machine E) :=
  x.map fun r ↦ (r.1, r.2.map f)

/-! Each kind of result can be followed by each. -/

theorem mapResult_bind {α β : Type*} {x : Option (α × Machine D)}
    {k : α × Machine D → Option (β × Machine D)} {k' : α × Machine E → Option (β × Machine E)}
    (h : ∀ a m, k' (a, m.map f) = mapResult f (k (a, m))) :
    (mapResult f x).bind k' = mapResult f (x.bind k) := by
  rcases x with _ | ⟨a, m⟩
  · rfl
  · exact h a m

theorem mapResult_bind_map {α : Type*} {x : Option (α × Machine D)}
    {k : α × Machine D → Option (Machine D)} {k' : α × Machine E → Option (Machine E)}
    (h : ∀ a m, k' (a, m.map f) = (k (a, m)).map (map f)) :
    (mapResult f x).bind k' = (x.bind k).map (map f) := by
  rcases x with _ | ⟨a, m⟩
  · rfl
  · exact h a m

theorem map_bind_mapResult {β : Type*} {x : Option (Machine D)}
    {k : Machine D → Option (β × Machine D)} {k' : Machine E → Option (β × Machine E)}
    (h : ∀ m, k' (m.map f) = mapResult f (k m)) :
    (x.map (map f)).bind k' = mapResult f (x.bind k) := by
  rcases x with _ | m
  · rfl
  · exact h m

section Access

variable (hf : Device.Simulates S f) {r : Mmio}
include hf

theorem read_map (hr : S r) (m : Machine D) :
    (m.map f).read r = ((m.read r).1, (m.read r).2.map f) := by
  have hread := hf.read m.dev r hr
  rw [read, map, hread]
  rfl

theorem write_map (hr : S r) (m : Machine D) (v : BitVec 32) :
    (m.map f).write r v = (m.write r v).map f := by
  have hwrite := hf.write m.erst m.dev r v hr
  rw [write, map, hwrite]
  rfl

theorem write64_map {low high : Mmio} (hlow : S low) (hhigh : S high) (m : Machine D)
    (v : BitVec 64) : (m.map f).write64 low high v = (m.write64 low high v).map f := by
  rw [write64, write_map hf hlow, write_map hf hhigh]
  rfl

theorem pollUntil_map (hr : S r) (p : BitVec 32 → Bool) (fuel : ℕ) (m : Machine D) :
    (m.map f).pollUntil r p fuel = mapResult f (m.pollUntil r p fuel) := by
  induction fuel generalizing m with
  | zero => rfl
  | succ fuel ih =>
    rw [pollUntil, pollUntil, read_map hf hr, ih]
    split
    · rfl
    · rfl

theorem sync_map (ring : Ring) (m : Machine D) :
    (m.map f).sync ring = ((m.sync ring).1, (m.sync ring).2.map f) := by
  have hpost := hf.post m.dev
  rw [sync, map, hpost]
  rfl

end Access

/-! Memory is not touched by the map. -/

theorem alloc_map (P : Platform) (size align : ℕ) (m : Machine D) :
    (m.map f).alloc P size align = mapResult f (m.alloc P size align) := by
  rw [alloc, alloc, mapResult, Option.map_map]
  rfl

theorem allocBlock_map {α : Type*} (P : Platform) (size : ℕ)
    (k : (D : Device) → ℕ → BitVec 64 → Machine D → α × Machine D)
    (h : ∀ ptr phys m, k E ptr phys (m.map f) = ((k D ptr phys m).1, (k D ptr phys m).2.map f))
    (m : Machine D) :
    (((m.map f).alloc P size 64).bind fun x ↦
      (P.translate (align64 x.1)).bind fun phys ↦ some (k E x.1 phys x.2)) =
      mapResult f ((m.alloc P size 64).bind fun x ↦
        (P.translate (align64 x.1)).bind fun phys ↦ some (k D x.1 phys x.2)) := by
  rw [alloc_map]
  apply mapResult_bind
  intro ptr m
  dsimp only
  rcases P.translate (align64 ptr) with _ | phys
  · rfl
  · exact congrArg some (h ptr phys m)

end Machine

section Memory

variable {D E : Device} (f : D.State → E.State) (P : Platform) (m : Machine D)

theorem Ring.new_map (count : ℕ) (hcount : ∃ k, count = 2 ^ k) :
    Ring.new P count hcount (m.map f) = Machine.mapResult f (Ring.new P count hcount m) :=
  Machine.allocBlock_map P _
    (fun _ ptr phys m ↦ (Ring.fresh (align64 ptr) phys count hcount, m)) (fun _ _ _ ↦ rfl) m

theorem Dcbaa.new_map (maxSlots : BitVec 8) :
    Dcbaa.new P maxSlots (m.map f) = Machine.mapResult f (Dcbaa.new P maxSlots m) :=
  Machine.allocBlock_map P _
    (fun _ ptr phys m ↦ (Dcbaa.mk (align64 ptr) (List.replicate (maxSlots.toNat + 1) 0) phys, m))
    (fun _ _ _ ↦ rfl) m

theorem allocateErst_map (ring : Ring) :
    allocateErst P ring (m.map f) = Machine.mapResult f (allocateErst P ring m) :=
  Machine.allocBlock_map P _
    (fun _ _ phys m ↦ (phys, { m with
      erst := Function.update m.erst phys (some ⟨ring.phys, BitVec.ofNat 16 ring.trbs.length⟩) }))
    (fun _ _ _ ↦ rfl) m

end Memory

namespace Controller

/-- The registers `init` uses. -/
def initRegs : List Mmio :=
  [.cap 0x00, .cap 0x18, Reg.hcsparams1, Reg.usbcmd, Reg.usbsts] ++ contextRegs ++ eventRegs

variable {D E : Device} {S : Mmio → Prop} {f : D.State → E.State}

section Init

variable (hf : Device.Simulates S f) (hS : ∀ r ∈ initRegs, S r)
include hf hS

theorem identify_map (m : Machine D) :
    identify (m.map f) = ((identify m).1, (identify m).2.1, (identify m).2.2.map f) := by
  have hcap := Machine.read_map hf (hS (.cap 0x00) (by decide))
  have hrtsoff := Machine.read_map hf (hS (.cap 0x18) (by decide))
  have hparams := Machine.read_map hf (hS Reg.hcsparams1 (by decide))
  rw [identify]
  simp only [hcap, hrtsoff, hparams]
  rfl

theorem stop_map (fuel : ℕ) (m : Machine D) :
    stop fuel (m.map f) = Machine.mapResult f (stop fuel m) := by
  have hcmd := hS Reg.usbcmd (by decide)
  have hsts := hS Reg.usbsts (by decide)
  rw [stop]
  simp only [Machine.read_map hf hcmd, Machine.write_map hf hcmd, Machine.pollUntil_map hf hsts]
  exact Machine.mapResult_bind fun _ _ ↦ rfl

theorem reset_map (fuel : ℕ) (cmd : BitVec 32) (m : Machine D) :
    reset fuel cmd (m.map f) = (reset fuel cmd m).map (.map f) := by
  have hcmd := hS Reg.usbcmd (by decide)
  have hsts := hS Reg.usbsts (by decide)
  rw [reset]
  simp only [Machine.write_map hf hcmd, Machine.pollUntil_map hf hcmd]
  apply Machine.mapResult_bind_map
  intro _ m
  simp only [Machine.pollUntil_map hf hsts]
  exact Machine.mapResult_bind_map fun _ _ ↦ rfl

theorem start_map (fuel : ℕ) (m : Machine D) :
    start fuel (m.map f) = (start fuel m).map (.map f) := by
  have hcmd := hS Reg.usbcmd (by decide)
  have hsts := hS Reg.usbsts (by decide)
  rw [start]
  simp only [Machine.write_map hf hcmd, Machine.pollUntil_map hf hsts]
  exact Machine.mapResult_bind_map fun _ _ ↦ rfl

theorem writeContexts_map (c : Controller) (m : Machine D) :
    c.writeContexts (m.map f) = (c.writeContexts m).map f := by
  rw [writeContexts, Machine.write_map hf (hS Reg.config (by decide)),
    Machine.write64_map hf (hS Reg.dcbaapLow (by decide)) (hS Reg.dcbaapHigh (by decide)),
    Machine.write64_map hf (hS Reg.crcrLow (by decide)) (hS Reg.crcrHigh (by decide))]
  rfl

theorem writeEventRing_map (c : Controller) (segPhys : BitVec 64) (m : Machine D) :
    c.writeEventRing segPhys (m.map f) = (c.writeEventRing segPhys m).map f := by
  have himan := hS Reg.iman (by decide)
  rw [writeEventRing, writeErstba,
    Machine.write64_map hf (hS Reg.erstbaLow (by decide)) (hS Reg.erstbaHigh (by decide)),
    writeErstsz, Machine.write_map hf (hS Reg.erstsz (by decide)),
    Machine.write64_map hf (hS Reg.erdpLow (by decide)) (hS Reg.erdpHigh (by decide)),
    enableInterrupter, Machine.write_map hf himan, Machine.write_map hf himan]
  rfl

theorem configure_map (P : Platform) (c : Controller) (m : Machine D) :
    configure P c (m.map f) = (configure P c m).map (.map f) := by
  change (allocateErst P c.eventRing (c.writeContexts (m.map f))).bind
    (fun r ↦ some (c.writeEventRing r.1 r.2)) = _
  rw [writeContexts_map hf hS, allocateErst_map]
  apply Machine.mapResult_bind_map
  intro segPhys m
  exact congrArg some (writeEventRing_map hf hS c segPhys m)

end Init

theorem allocate_map (P : Platform) (maxSlots maxPorts : BitVec 8) (m : Machine D) :
    allocate P maxSlots maxPorts (m.map f) =
      Machine.mapResult f (allocate P maxSlots maxPorts m) := by
  rw [allocate, Ring.new_map]
  apply Machine.mapResult_bind
  intro cmdRing m
  simp only [Ring.new_map]
  apply Machine.mapResult_bind
  intro eventRing m
  simp only [Dcbaa.new_map]
  exact Machine.mapResult_bind fun _ _ ↦ rfl

/-- `init` runs in the same way on both controllers. -/
theorem init_map (hf : Device.Simulates S f) (hS : ∀ r ∈ initRegs, S r) (P : Platform) (fuel : ℕ)
    (m : Machine D) : init P fuel (m.map f) = Machine.mapResult f (init P fuel m) := by
  -- one stage of `init` after the other
  rw [init, identify_map hf hS]
  simp only [stop_map hf hS]
  apply Machine.mapResult_bind
  intro cmd m₁
  simp only [reset_map hf hS]
  apply Machine.map_bind_mapResult
  intro m₂
  simp only [allocate_map]
  apply Machine.mapResult_bind
  intro c m₃
  simp only [configure_map hf hS]
  apply Machine.map_bind_mapResult
  intro m₄
  simp only [start_map hf hS]
  exact Machine.map_bind_mapResult fun _ ↦ rfl

section Noop

variable (hf : Device.Simulates S f)
include hf

theorem awaitCompletion_map (cmdRing : Ring) (n : ℕ) (eventRing : Ring) (m : Machine D) :
    awaitCompletion cmdRing n eventRing (m.map f) =
      ((awaitCompletion cmdRing n eventRing m).1, (awaitCompletion cmdRing n eventRing m).2.1,
        (awaitCompletion cmdRing n eventRing m).2.2.map f) := by
  induction n generalizing eventRing m with
  | zero => rfl
  | succ n ih =>
    rw [awaitCompletion, awaitCompletion, Machine.sync_map hf]
    rcases checkEvent cmdRing (m.sync eventRing).1 with _ | ⟨b, cleared⟩
    · exact ih _ _
    · rfl

/-- `noop` runs in the same way on both controllers. -/
theorem noop_map (hdboff : S (.cap 0x14)) (hdoorbell : S (.doorbell 0)) (c : Controller)
    (m : Machine D) :
    c.noop (m.map f) = ((c.noop m).1, (c.noop m).2.1, (c.noop m).2.2.map f) := by
  rw [noop]
  simp only [Machine.read_map hf hdboff, Machine.write_map hf hdoorbell, awaitCompletion_map hf]
  rfl

end Noop

section Ports

variable (hf : Device.Simulates S f)
include hf

theorem initialisePort_map {port : ℕ} (hport : S (Reg.portsc port)) (fuel : ℕ) (m : Machine D) :
    initialisePort fuel port (m.map f) = Machine.mapResult f (initialisePort fuel port m) := by
  rw [initialisePort, initialisePort]
  simp only [Machine.read_map hf hport, Machine.write_map hf hport, Machine.pollUntil_map hf hport]
  split
  · rfl
  split
  · apply Machine.mapResult_bind
    intro sc m
    simp only [Machine.write_map hf hport, Machine.read_map hf hport]
    rfl
  · rfl

theorem portLoop_map (fuel : ℕ) {ports : List ℕ} (hports : ∀ p ∈ ports, S (Reg.portsc p)) (n : ℕ)
    (m : Machine D) :
    portLoop fuel ports n (m.map f) = Machine.mapResult f (portLoop fuel ports n m) := by
  induction ports generalizing n m with
  | nil => rfl
  | cons port ports ih =>
    obtain ⟨hport, hports⟩ := List.forall_mem_cons.mp hports
    rw [portLoop, portLoop, initialisePort_map hf hport]
    exact Machine.mapResult_bind fun _ m ↦ ih hports _ m

/-- `initialise_ports` runs in the same way on both controllers. -/
theorem initialisePorts_map (c : Controller)
    (hports : ∀ p, 1 ≤ p → p ≤ c.maxPorts.toNat → S (Reg.portsc p)) (fuel : ℕ) (m : Machine D) :
    c.initialisePorts fuel (m.map f) = Machine.mapResult f (c.initialisePorts fuel m) := by
  apply portLoop_map hf
  intro p hp
  rw [List.mem_range'_1] at hp
  exact hports p hp.1 (by omega)

end Ports

end Controller

end Punkos
