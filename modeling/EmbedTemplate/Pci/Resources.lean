import EmbedTemplate.Pci.Alloc
import Mathlib.Tactic.IntervalCases

/-! # The resources of a device

`pci_config_device_resources` of `pci_utils.c`: the window of the bridge above the device is set
around its BARs, the BARs are written again, and the device is enabled.
-/
namespace EmbedTemplate.Pci

def pciBridgeMemBase : ℕ := 0x20
def pciBridgeMemLimit : ℕ := 0x22

section Model
variable {σ : Type*} (pci : Ecam σ)

def secondaryBus (s : σ) (f : Func) : ℕ := busByte (pci.readDword s f pciConfigPrimaryBus) 1

/-- The first bridge of the database that leads to a bus. -/
def parentBridge (s : σ) (bridges : List BridgeInfo) (bus : ℕ) : Option BridgeInfo :=
  bridges.find? fun b => b.headerType = headerTypeBridge ∧ secondaryBus pci s b.f = bus

/-- One round of the loop over the BARs: the lowest start and the highest end so far, in 32 bits. -/
def spanBar (span : BitVec 32 × BitVec 32) (bar : Bar) : BitVec 32 × BitVec 32 :=
  if bar.size > 0#32 ∧ bar.address ≠ 0#32 then
    let last := bar.address + bar.size - 1#32
    (if bar.address < span.1 then bar.address else span.1,if last > span.2 then last else span.2)
  else span

def resourceSpan (bars : List Bar) : BitVec 32 × BitVec 32 := bars.foldl spanBar (0xFFFFFFFF#32,0#32)

/-- The window registers of the bridge are written in megabytes, or disabled. -/
def setBridgeWindow (f : Func) (base limit : BitVec 32) (s : σ) : σ :=
  if limit ≠ 0 then
    let memBase := ((base &&& 0xFFF00000) >>> 16).setWidth 16
    let memLimit := ((limit &&& 0xFFF00000) >>> 16).setWidth 16
    let s := pci.writeConfigWord s f pciBridgeMemBase memBase
    pci.writeConfigWord s f pciBridgeMemLimit memLimit
  else pci.writeDword s f pciBridgeMemBase 0x0000FFFF

/-- The BARs from an index on. -/
def programBars (f : Func) : ℕ → List Bar → σ → σ
  | _, [], s => s
  | barIdx, bar :: bars, s =>
    if bar.size = 0 then programBars f (barIdx + 1) bars s
    else programBars f (barIdx + 1) bars (pci.writeDword s f (pciConfigBar0 + barIdx * 4) bar.address)

def pciEnableDevice (f : Func) (s : σ) : σ :=
  let cmd := pci.readDword s f pciConfigCommand
  pci.writeDword s f pciConfigCommand (cmd ||| 0x03)

def pciSetMaster (f : Func) (s : σ) : σ :=
  let cmd := pci.readDword s f pciConfigCommand
  pci.writeDword s f pciConfigCommand (cmd ||| 0x04)

/-- The window of the bridge above the device, if it is not on the root bus. -/
def setUpstreamWindow (bridges : List BridgeInfo) (dev : DeviceInfo) (s : σ) : σ :=
  if dev.f.bus > 0 then
    match parentBridge pci s bridges dev.f.bus with
    | some b =>
      let (base,limit) := resourceSpan dev.bars
      setBridgeWindow pci b.f base limit s
    | none => s
  else s

def pciConfigDeviceResources (bridges : List BridgeInfo) (dev : DeviceInfo) (s : σ) : σ :=
  let s := setUpstreamWindow pci bridges dev s
  let oldCmd := pci.readDword s dev.f pciConfigCommand
  let s := pci.writeDword s dev.f pciConfigCommand (oldCmd &&& ~~~0x3)
  let s := programBars pci dev.f 0 dev.bars s
  pciSetMaster pci dev.f (pciEnableDevice pci dev.f s)

end Model

/-- The bits of the window register that hold the base and the limit. -/
def windowBits : BitVec 32 := 0xFFF0FFF0

/-- The addresses that a bridge forwards for a value of its window register: first and behind the last. -/
def windowOf (r : BitVec 32) : ℕ × ℕ := (((r &&& 0xFFF0) <<< 16).toNat,(r &&& 0xFFF00000).toNat + 2 ^ 20)

/-- The window that is set for a base and a limit. -/
def roundedWindow (base limit : BitVec 32) : ℕ × ℕ :=
  if limit ≠ 0 then ((base &&& 0xFFF00000).toNat,(limit &&& 0xFFF00000).toNat + 2 ^ 20) else (0xFFF00000,2 ^ 20)

/-- The bridges of the hardware: base and limit of the window are written as a whole or by halves, and the
writes reach no other register of a header. -/
structure BridgeSpec {σ : Type*} (pci : Ecam σ) : Prop where
  dword : ∀ s f v, pci.headerType s f = headerTypeBridge →
    pci.read (pci.write s ⟨f,0x20⟩ v) ⟨f,0x20⟩ &&& windowBits = v &&& windowBits
  base : ∀ s f v, pci.headerType s f = headerTypeBridge →
    pci.read (pci.writeWord s ⟨f,0x20⟩ v) ⟨f,0x20⟩ &&& windowBits =
      (v.setWidth 32 ||| (pci.read s ⟨f,0x20⟩ &&& 0xFFFF0000)) &&& windowBits
  limit : ∀ s f v, pci.headerType s f = headerTypeBridge →
    pci.read (pci.writeWord s ⟨f,0x22⟩ v) ⟨f,0x20⟩ &&& windowBits =
      (v.setWidth 32 <<< 16 ||| (pci.read s ⟨f,0x20⟩ &&& 0x0000FFFF)) &&& windowBits
  dwordApart : ∀ s f v r, pci.headerType s f = headerTypeBridge → r ≠ ⟨f,0x20⟩ → InHeader r →
    pci.read (pci.write s ⟨f,0x20⟩ v) r = pci.read s r
  wordApart : ∀ s f v r offset, pci.headerType s f = headerTypeBridge → offset = 0x20 ∨ offset = 0x22 →
    r ≠ ⟨f,0x20⟩ → InHeader r → pci.read (pci.writeWord s ⟨f,offset⟩ v) r = pci.read s r

section Words

theorem windowOf_congr {r r' : BitVec 32} (h : r &&& windowBits = r' &&& windowBits) : windowOf r = windowOf r' := by
  have hlow : (0xFFF0 : BitVec 32) = windowBits &&& 0xFFF0 := by decide
  have hhigh : (0xFFF00000 : BitVec 32) = windowBits &&& 0xFFF00000 := by decide
  unfold windowOf
  rw [hlow,hhigh,← BitVec.and_assoc,← BitVec.and_assoc,← BitVec.and_assoc,← BitVec.and_assoc,h]

theorem windowOf_disabled : windowOf 0x0000FFFF = (0xFFF00000,2 ^ 20) := by decide

/-- The halves that are written for a base and a limit make up their window. -/
theorem windowOf_halves (base limit : BitVec 32) :
    windowOf ((((limit &&& 0xFFF00000) >>> 16).setWidth 16).setWidth 32 <<< 16 |||
        (((base &&& 0xFFF00000) >>> 16).setWidth 16).setWidth 32) =
      ((base &&& 0xFFF00000).toNat,(limit &&& 0xFFF00000).toNat + 2 ^ 20) := by
  have hbase : ((((((limit &&& 0xFFF00000) >>> 16).setWidth 16).setWidth 32 <<< 16 |||
      (((base &&& 0xFFF00000) >>> 16).setWidth 16).setWidth 32) &&& 0xFFF0) <<< 16) = base &&& 0xFFF00000 := by
    apply BitVec.eq_of_getLsbD_eq
    intro i hi
    interval_cases i <;> simp
  have hlimit : ((((limit &&& 0xFFF00000) >>> 16).setWidth 16).setWidth 32 <<< 16 |||
      (((base &&& 0xFFF00000) >>> 16).setWidth 16).setWidth 32) &&& 0xFFF00000 = limit &&& 0xFFF00000 := by
    apply BitVec.eq_of_getLsbD_eq
    intro i hi
    interval_cases i <;> simp
  unfold windowOf
  rw [hbase,hlimit]

/-- The lower half is kept when the upper one is written behind it. -/
theorem merge_halves {r r' : BitVec 32} {low : BitVec 16} (high : BitVec 16)
    (h : r' &&& windowBits = (low.setWidth 32 ||| (r &&& 0xFFFF0000)) &&& windowBits) :
    (high.setWidth 32 <<< 16 ||| (r' &&& 0x0000FFFF)) &&& windowBits =
      (high.setWidth 32 <<< 16 ||| low.setWidth 32) &&& windowBits := by
  apply BitVec.eq_of_getLsbD_eq
  intro i hi
  have hbit := congrArg (fun v => v.getLsbD i) h
  interval_cases i <;> simp [windowBits] at hbit ⊢ <;> simp [hbit]

end Words

section Frame
variable {σ : Type*} {pci : Ecam σ} {mask : Reg → BitVec 32} {s t u : σ} {f : Func}

/-- The header types are the same, and so are the bus numbers and the windows of the bridges. -/
structure SameBridges (pci : Ecam σ) (s t : σ) : Prop where
  header : ∀ f, pci.headerType t f = pci.headerType s f
  buses : ∀ f, pci.headerType s f = headerTypeBridge → pci.read t ⟨f,0x18⟩ = pci.read s ⟨f,0x18⟩
  window : ∀ f, pci.headerType s f = headerTypeBridge → pci.read t ⟨f,0x20⟩ = pci.read s ⟨f,0x20⟩

theorem SameBridges.refl (s : σ) : SameBridges pci s s := ⟨fun _ => rfl,fun _ _ => rfl,fun _ _ => rfl⟩

theorem SameBridges.trans (h : SameBridges pci s t) (h' : SameBridges pci t u) : SameBridges pci s u where
  header f := (h'.header f).trans (h.header f)
  buses f hf := (h'.buses f ((h.header f).trans hf)).trans (h.buses f hf)
  window f hf := (h'.window f ((h.header f).trans hf)).trans (h.window f hf)

theorem SameHeader.sameBridges (h : SameHeader pci s t) : SameBridges pci s t where
  header f := by
    unfold Ecam.headerType
    rw [h ⟨f,pciConfigHeaderType⟩ ⟨le_rfl,show 0x0C < 0x28 by decide⟩]
  buses f _ := h ⟨f,0x18⟩ ⟨show 0x0C ≤ 0x18 by decide,show 0x18 < 0x28 by decide⟩
  window f _ := h ⟨f,0x20⟩ ⟨show 0x0C ≤ 0x20 by decide,show 0x20 < 0x28 by decide⟩

/-- An endpoint is not a bridge. -/
theorem ne_of_headerType {g : Func} (hf : pci.headerType s f = headerTypeEndpoint)
    (hg : pci.headerType s g = headerTypeBridge) : g ≠ f := by
  rintro rfl
  rw [hf] at hg
  exact absurd hg (by decide)

theorem Masked.sameBridges (hm : Masked pci mask) {i : ℕ} (hf : pci.headerType s f = headerTypeEndpoint)
    (hi : i < maxBars) (v : BitVec 32) : SameBridges pci s (pci.write s (barReg f i) v) where
  header g := hm.headerType (isBar_barReg hf hi) v g
  buses _ hg := hm.other _ _ _ _ (isBar_barReg hf hi) fun heq => ne_of_headerType hf hg (congrArg Reg.f heq)
  window _ hg := hm.other _ _ _ _ (isBar_barReg hf hi) fun heq => ne_of_headerType hf hg (congrArg Reg.f heq)

theorem Masked.programBars_same (hm : Masked pci mask) {bars : List Bar} {i : ℕ}
    (hf : pci.headerType s f = headerTypeEndpoint) (hi : i + bars.length ≤ maxBars) :
    SameBridges pci s (programBars pci f i bars s) := by
  induction bars generalizing i s with
  | nil => exact SameBridges.refl s
  | cons bar bars ih =>
    rw [List.length_cons] at hi
    rw [programBars]
    split
    · exact ih hf (by omega)
    · have hbar : i < maxBars := by omega
      rw [writeBar s hbar]
      have hsame := hm.sameBridges hf hbar bar.address
      exact hsame.trans (ih ((hsame.header f).trans hf) (by omega))

theorem Apart.command (ha : Apart pci) (s : σ) (f : Func) (v : BitVec 32) :
    SameBridges pci s (pci.writeDword s f pciConfigCommand v) :=
  (ha.writeDword s (fun h => absurd (show 0x0C ≤ 0x04 from h.1) (by decide)) v).sameBridges

theorem Apart.enable (ha : Apart pci) (f : Func) (s : σ) :
    SameBridges pci s (pciSetMaster pci f (pciEnableDevice pci f s)) := by
  unfold pciSetMaster pciEnableDevice
  exact (ha.command _ f _).trans (ha.command _ f _)

/-- Of the bridges, only the window register of one is written. -/
structure SetsWindow (pci : Ecam σ) (s t : σ) (f : Func) (window : ℕ × ℕ) : Prop where
  header : ∀ g, pci.headerType t g = pci.headerType s g
  buses : ∀ g, pci.read t ⟨g,0x18⟩ = pci.read s ⟨g,0x18⟩
  other : ∀ g, g ≠ f → pci.read t ⟨g,0x20⟩ = pci.read s ⟨g,0x20⟩
  sets : windowOf (pci.read t ⟨f,0x20⟩) = window

theorem SetsWindow.of_other {window : ℕ × ℕ}
    (hother : ∀ r : Reg, r ≠ ⟨f,0x20⟩ → InHeader r → pci.read t r = pci.read s r)
    (hsets : windowOf (pci.read t ⟨f,0x20⟩) = window) : SetsWindow pci s t f window where
  header g := by
    unfold Ecam.headerType
    rw [hother ⟨g,pciConfigHeaderType⟩ (fun h => by cases h) ⟨le_rfl,show 0x0C < 0x28 by decide⟩]
  buses g := hother ⟨g,0x18⟩ (fun h => by cases h) ⟨show 0x0C ≤ 0x18 by decide,show 0x18 < 0x28 by decide⟩
  other g hg := hother ⟨g,0x20⟩ (fun h => hg (congrArg Reg.f h)) ⟨show 0x0C ≤ 0x20 by decide,show 0x20 < 0x28 by decide⟩
  sets := hsets

theorem BridgeSpec.setBridgeWindow (hb : BridgeSpec pci) (hf : pci.headerType s f = headerTypeBridge)
    (base limit : BitVec 32) :
    SetsWindow pci s (setBridgeWindow pci f base limit s) f (roundedWindow base limit) := by
  unfold Pci.setBridgeWindow roundedWindow
  by_cases hlimit : limit ≠ 0
  · rw [if_pos hlimit,if_pos hlimit]
    -- the state between the two halves
    generalize hlow : ((base &&& 0xFFF00000) >>> 16).setWidth 16 = low
    have hfirst := fun r => hb.wordApart s f low r 0x20 hf (.inl rfl)
    have hf' : pci.headerType (pci.writeWord s ⟨f,0x20⟩ low) f = headerTypeBridge := by
      rw [← hf]
      unfold Ecam.headerType
      rw [hfirst ⟨f,pciConfigHeaderType⟩ (fun h => by cases h) ⟨le_rfl,show 0x0C < 0x28 by decide⟩]
    refine .of_other (fun r hr hin => ?_) ?_
    · exact (hb.wordApart _ f _ r 0x22 hf' (.inr rfl) hr hin).trans (hfirst r hr hin)
    · rw [← windowOf_halves,hlow]
      apply windowOf_congr
      exact (hb.limit _ f _ hf').trans (merge_halves _ (hb.base s f low hf))
  · rw [if_neg hlimit,if_neg hlimit]
    refine .of_other (fun r => hb.dwordApart s f _ r hf) ?_
    rw [← windowOf_disabled]
    exact windowOf_congr (hb.dword s f _ hf)

end Frame

end EmbedTemplate.Pci
