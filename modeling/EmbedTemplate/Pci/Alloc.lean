import EmbedTemplate.Library.BumpAllocator
import EmbedTemplate.Library.VectorTable
import EmbedTemplate.Pci.Restore

/-! # The allocation of MMIO windows

`pci_alloc` of `pci_rc.c`: the recorded BARs get their addresses from a running pointer, the
functions with an MSI capability a vector, and the decoding is switched on. What the platform
does for a vector is a parameter.
-/
namespace EmbedTemplate.Pci
open LastWrite VectorTable BumpAllocator

def pciMsiCapId : BitVec 8 := 0x05

/-- The supported architectures. -/
inductive Arch where
  | arm
  | riscv
  | x86
  deriving DecidableEq

/-- `PCI_MMIO_BASE`, where `free_mmio` starts. -/
def Arch.mmioBase : Arch → ℕ
  | .arm => 0x14000000
  | .riscv => 0x40000000
  | .x86 => 0xC0000000

/-- The hardware, the pointer to free MMIO space, and the state behind
`pcie_register_msi_vector`. -/
structure Alloc (σ τ : Type*) where
  hw : σ
  freeMmio : BitVec 32
  platform : τ

section Model
variable {σ τ : Type*} (pci : Ecam σ)

def Ecam.readConfigWord (s : σ) (f : Func) (offset : ℕ) : BitVec 16 :=
  (pci.readDword s f offset >>> (8 * (offset &&& 0x2))).setWidth 16
def Ecam.writeConfigWord (s : σ) (f : Func) (offset : ℕ) (value : BitVec 16) : σ :=
  pci.writeWord s ⟨f,offset &&& 0xFFE⟩ value

/-- The header of the capability at a pointer, from its bit offset in the register on. -/
def capHdr (s : σ) (f : Func) (capPtr : ℕ) : BitVec 32 :=
  pci.readDword s f (capPtr &&& 0xFC) >>> ((capPtr &&& 0x03) * 8)
def firstCap (s : σ) (f : Func) : ℕ := (pci.readDword s f 0x34 &&& 0xFF).toNat
def nextCap (s : σ) (f : Func) (capPtr : ℕ) : ℕ := ((capHdr pci s f capPtr >>> 8) &&& 0xFF).toNat

/-- The loop over the capabilities, with as many rounds still to go. -/
def findCapability (s : σ) (f : Func) (matchCapId : BitVec 8) : ℕ → ℕ → ℕ
  | 0, _ => 0
  | timeout + 1, capPtr =>
    if capPtr = 0 then 0
    else if (capHdr pci s f capPtr).setWidth 8 = matchCapId then capPtr
    else findCapability s f matchCapId timeout (nextCap pci s f capPtr)

/-- The offset of a capability, 0 standing for none. -/
def pcieFindCapability (s : σ) (f : Func) (matchCapId : BitVec 8) : ℕ :=
  let statusReg := pci.readDword s f 0x04 >>> 16
  if statusReg &&& 0x10 = 0 then 0 else findCapability pci s f matchCapId 15 (firstCap pci s f)

/-- The vector is written to the MSI capability, and MSI enabled. -/
def enableMsi (msiBase : BitVec 32) (f : Func) (msiCapOffset vectorIdx : ℕ) (s : σ) : σ :=
  let s := pci.writeDword s f (msiCapOffset + 0x04) msiBase
  let s := pci.writeDword s f (msiCapOffset + 0x08) 0
  let s := pci.writeConfigWord s f (msiCapOffset + 0x0C) (BitVec.ofNat 16 vectorIdx)
  let msgCtrl := pci.readConfigWord s f (msiCapOffset + 2)
  pci.writeConfigWord s f (msiCapOffset + 2) (msgCtrl ||| 1)

def enableDecoding (f : Func) (s : σ) : σ :=
  let cmd := pci.readDword s f pciConfigCommand
  pci.writeDword s f pciConfigCommand (cmd ||| 0x06)

variable (registerMsiVector : τ → DeviceInfo → τ × Option ℕ) (msiBase : BitVec 32)

def pciAllocIrqVectors (dev : DeviceInfo) (a : Alloc σ τ) : Alloc σ τ :=
  let msiCapOffset := pcieFindCapability pci a.hw dev.f pciMsiCapId
  if msiCapOffset = 0 then a
  else
    match registerMsiVector a.platform dev with
    | (platform,none) => { a with platform := platform }
    | (platform,some vectorIdx) =>
      { a with hw := enableMsi pci msiBase dev.f msiCapOffset vectorIdx a.hw, platform := platform }

/-- The BARs from an index on. -/
def allocBars (f : Func) : ℕ → List Bar → Alloc σ τ → Alloc σ τ × List Bar
  | _, [], a => (a,[])
  | barIdx, bar :: bars, a =>
    if bar.size = 0 then
      let (a,bars) := allocBars f (barIdx + 1) bars a
      (a,bar :: bars)
    else
      let alignment := bar.size
      let address := (a.freeMmio + (alignment - 1)) &&& ~~~(alignment - 1)
      let hw := pci.writeDword a.hw f (pciConfigBar0 + barIdx * 4) address
      let (a,bars) := allocBars f (barIdx + 1) bars { a with hw := hw, freeMmio := address + bar.size }
      (a,⟨bar.size,address⟩ :: bars)

def allocDevice (dev : DeviceInfo) (a : Alloc σ τ) : Alloc σ τ × DeviceInfo :=
  if dev.f = ⟨0,0,0⟩ then (a,dev)
  else if dev.headerType = headerTypeEndpoint then
    let (a,bars) := allocBars pci dev.f 0 dev.bars a
    let dev := { dev with bars := bars }
    let a := pciAllocIrqVectors pci registerMsiVector msiBase dev a
    ({ a with hw := enableDecoding pci dev.f a.hw },dev)
  else if dev.headerType = headerTypeBridge then
    let bridgeMemBase := a.freeMmio &&& 0xFFF00000
    let hw := pci.writeDword a.hw dev.f 0x20 (bridgeMemBase >>> 16)
    ({ a with hw := enableDecoding pci dev.f hw },dev)
  else (a,dev)

def allocDevices : List DeviceInfo → Alloc σ τ → Alloc σ τ × List DeviceInfo
  | [], a => (a,[])
  | dev :: devs, a =>
    let (a,dev) := allocDevice pci registerMsiVector msiBase dev a
    let (a,devs) := allocDevices devs a
    (a,dev :: devs)

/-- The allocation for the devices of the database. -/
def pciAlloc (freeMmio : BitVec 32) (platform : τ) (x : System σ) : System σ :=
  let (a,devices) := allocDevices pci registerMsiVector msiBase x.db.devices ⟨x.hw,freeMmio,platform⟩
  { hw := a.hw, db := { x.db with devices := devices } }

end Model

/-- The recorded window of a BAR. -/
structure Window where
  f : Func
  index : ℕ
  size : BitVec 32
  address : BitVec 32
  deriving DecidableEq

/-- The windows of the BARs with a size, from an index on. -/
def barWindows (f : Func) : ℕ → List Bar → List Window
  | _, [] => []
  | i, bar :: bars =>
    if bar.size = 0 then barWindows f (i + 1) bars else ⟨f,i,bar.size,bar.address⟩ :: barWindows f (i + 1) bars

/-- The devices whose BARs are allocated: endpoints other than the first function. -/
def DeviceInfo.allocated (dev : DeviceInfo) : Bool := dev.f ≠ ⟨0,0,0⟩ ∧ dev.headerType = headerTypeEndpoint
def DeviceInfo.windows (dev : DeviceInfo) : List Window := if dev.allocated then barWindows dev.f 0 dev.bars else []

/-- The windows of the allocated BARs. -/
def Database.windows (db : Database) : List Window := db.devices.flatMap DeviceInfo.windows

/-- The addresses that the pointer gives to windows, one behind the other. -/
def place : BitVec 32 → List Window → List Window
  | _, [] => []
  | free, w :: ws => { w with address := alignWord w.size free } :: place (alignWord w.size free + w.size) ws

/-- The pointer behind the last of them. -/
def placed : BitVec 32 → List Window → BitVec 32
  | free, [] => free
  | free, w :: ws => placed (alignWord w.size free + w.size) ws

/-- The write that gives a window its address. -/
def Window.write (w : Window) : Reg × BitVec 32 := ⟨barReg w.f w.index,w.address⟩

section Place
variable {free : BitVec 32} {ws ws' : List Window}

theorem place_append : place free (ws ++ ws') = place free ws ++ place (placed free ws) ws' := by
  induction ws generalizing free with
  | nil => rfl
  | cons w ws ih =>
    rw [List.cons_append,place,ih]
    rfl

/-- Placing gives new addresses to the same BARs, -/
theorem place_map {β : Type*} {g : Window → β} (hg : ∀ w a, g { w with address := a } = g w) :
    (place free ws).map g = ws.map g := by
  induction ws generalizing free with
  | nil => rfl
  | cons w ws ih => rw [place,List.map_cons,List.map_cons,hg,ih]

/-- which are the spans of their sizes. -/
theorem place_spans : (place free ws).map (fun w => (w.address,w.size)) = wordSpans free (ws.map Window.size) := by
  induction ws generalizing free with
  | nil => rfl
  | cons w ws ih => rw [place,List.map_cons,List.map_cons,wordSpans,ih]

end Place

section Spec
variable {σ τ : Type*} {pci : Ecam σ} {mask : Reg → BitVec 32} {s t u : σ} {ws ws' : List Window}

/-- The BARs hold what was written to them last, as far as they are writable. -/
structure Wrote (pci : Ecam σ) (mask : Reg → BitVec 32) (s t : σ) (ws : List Window) : Prop where
  header : ∀ f, pci.headerType t f = pci.headerType s f
  bar : ∀ r, pci.IsBar s r →
    pci.read t r = ((last (puts r) (ws.map Window.write)).getD (pci.read s r) &&& mask r) |||
      (pci.read s r &&& ~~~mask r)

theorem mask_self (mask v : BitVec 32) : (v &&& mask) ||| (v &&& ~~~mask) = v := by
  ext i hi
  by_cases h : mask[i] = true <;> simp [h]

theorem mask_again (mask v x y : BitVec 32) :
    (x &&& mask) ||| (((y &&& mask) ||| (v &&& ~~~mask)) &&& ~~~mask) = (x &&& mask) ||| (v &&& ~~~mask) := by
  ext i hi
  by_cases h : mask[i] = true <;> simp [h]

theorem Wrote.nothing (hheader : ∀ f, pci.headerType t f = pci.headerType s f)
    (hbar : ∀ r, pci.IsBar s r → pci.read t r = pci.read s r) : Wrote pci mask s t [] where
  header := hheader
  bar r hr := by
    rw [hbar r hr]
    exact (mask_self _ _).symm

theorem Wrote.refl (s : σ) : Wrote pci mask s s [] := .nothing (fun _ => rfl) fun _ _ => rfl

theorem Wrote.isBar (h : Wrote pci mask s t ws) {r : Reg} : pci.IsBar t r ↔ pci.IsBar s r := by
  rw [Ecam.IsBar,Ecam.IsBar,h.header]

theorem Wrote.trans (h : Wrote pci mask s t ws) (h' : Wrote pci mask t u ws') : Wrote pci mask s u (ws ++ ws') where
  header f := (h'.header f).trans (h.header f)
  bar r hr := by
    rw [h'.bar r (h.isBar.mpr hr),List.map_append,last_append,h.bar r hr]
    cases last (puts r) (ws'.map Window.write) with
    | none =>
      rw [Option.getD_none,Option.none_or]
      exact mask_self _ _
    | some v =>
      rw [Option.getD_some,Option.some_or,Option.getD_some]
      exact mask_again _ _ _ _

theorem Masked.wrote (hm : Masked pci mask) {w : Window} (hw : pci.IsBar s (barReg w.f w.index)) :
    Wrote pci mask s (pci.write s (barReg w.f w.index) w.address) [w] where
  header f := hm.headerType hw w.address f
  bar r hr := by
    rw [List.map_singleton,last_singleton]
    by_cases heq : barReg w.f w.index = r
    · have hputs : puts r w.write = some w.address := if_pos heq
      subst heq
      rw [hm.bar _ _ _ hw,hputs,Option.getD_some]
    · have hputs : puts r w.write = none := if_neg heq
      rw [hm.other _ _ _ _ hw (Ne.symm heq),hputs]
      exact (mask_self _ _).symm

theorem allocBars_spec (hm : Masked pci mask) {f : Func} {i : ℕ} {bars : List Bar} {a : Alloc σ τ}
    (hf : pci.headerType a.hw f = headerTypeEndpoint) (hi : i + bars.length ≤ maxBars) :
    Wrote pci mask a.hw (allocBars pci f i bars a).1.hw (place a.freeMmio (barWindows f i bars)) ∧
      barWindows f i (allocBars pci f i bars a).2 = place a.freeMmio (barWindows f i bars) ∧
      (allocBars pci f i bars a).1.freeMmio = placed a.freeMmio (barWindows f i bars) ∧
      (allocBars pci f i bars a).1.platform = a.platform := by
  induction bars generalizing i a with
  | nil => exact ⟨Wrote.refl _,rfl,rfl,rfl⟩
  | cons bar bars ih =>
    rw [List.length_cons] at hi
    by_cases hsize : bar.size = 0
    · simp only [allocBars,barWindows,if_pos hsize]
      exact ih hf (by omega)
    · have hbar : pci.IsBar a.hw (barReg f i) := isBar_barReg hf (by omega)
      have hwrote := hm.wrote (w := ⟨f,i,bar.size,alignWord bar.size a.freeMmio⟩) hbar
      have hfree : (a.freeMmio + (bar.size - 1)) &&& ~~~(bar.size - 1) = alignWord bar.size a.freeMmio := rfl
      obtain ⟨hrest,hwindows,hnext,hplatform⟩ := ih
        (a := { a with hw := pci.write a.hw (barReg f i) (alignWord bar.size a.freeMmio)
                       freeMmio := alignWord bar.size a.freeMmio + bar.size })
        ((hwrote.header f).trans hf) (show i + 1 + bars.length ≤ maxBars by omega)
      simp only [allocBars,barWindows,if_neg hsize,writeBar a.hw (show i < maxBars by omega),hfree]
      refine ⟨hwrote.trans hrest,?_,hnext,hplatform⟩
      rw [hwindows]
      rfl

/-- The capability pointers of a function. -/
inductive CapPtr (pci : Ecam σ) (s : σ) (f : Func) : ℕ → Prop where
  | first : CapPtr pci s f (firstCap pci s f)
  | next {capPtr : ℕ} (hptr : CapPtr pci s f capPtr) (hne : capPtr ≠ 0) : CapPtr pci s f (nextCap pci s f capPtr)

/-- The registers with the header type and the BARs. -/
def InHeader (r : Reg) : Prop := 0x0C ≤ r.offset ∧ r.offset < 0x28

/-- Writes to other registers leave them alone, and the capabilities lie behind the header. -/
structure Apart (pci : Ecam σ) : Prop where
  dword : ∀ s r v r', ¬InHeader r → InHeader r' → pci.read (pci.write s r v) r' = pci.read s r'
  word : ∀ s r v r', ¬InHeader r → InHeader r' → pci.read (pci.writeWord s r v) r' = pci.read s r'
  capability : ∀ s f capPtr, CapPtr pci s f capPtr → capPtr = 0 ∨ 0x40 ≤ capPtr

/-- The registers of the header are the same. -/
def SameHeader (pci : Ecam σ) (s t : σ) : Prop := ∀ r, InHeader r → pci.read t r = pci.read s r

theorem SameHeader.trans (h : SameHeader pci s t) (h' : SameHeader pci t u) : SameHeader pci s u :=
  fun r hr => (h' r hr).trans (h r hr)

theorem SameHeader.wrote (h : SameHeader pci s t) : Wrote pci mask s t [] := by
  refine .nothing (fun f => ?_) fun r hr => h r ?_
  · rw [Ecam.headerType,h ⟨f,pciConfigHeaderType⟩ ⟨le_rfl,show 0x0C < 0x28 by decide⟩,Ecam.headerType]
  · obtain ⟨i,hi,hreg⟩ := hr.2
    rw [maxBars] at hi
    rw [hreg]
    exact ⟨show 0x0C ≤ 0x10 + i * 4 by omega,show 0x10 + i * 4 < 0x28 by omega⟩

theorem capPtr_lt {f : Func} {capPtr : ℕ} (h : CapPtr pci s f capPtr) : capPtr < 256 := by
  have hlow : ∀ v : BitVec 32, (v &&& 0xFF).toNat < 256 := by
    intro v
    rw [BitVec.toNat_and]
    exact Nat.lt_succ_of_le Nat.and_le_right
  cases h with
  | first => exact hlow _
  | next => exact hlow _

theorem findCapability_capPtr {f : Func} {matchCapId : BitVec 8} {timeout capPtr : ℕ} (h : CapPtr pci s f capPtr) :
    findCapability pci s f matchCapId timeout capPtr = 0 ∨
      CapPtr pci s f (findCapability pci s f matchCapId timeout capPtr) := by
  induction timeout generalizing capPtr with
  | zero => exact .inl rfl
  | succ timeout ih =>
    rw [findCapability]
    split
    · exact .inl rfl
    · split
      · exact .inr h
      · exact ih (h.next ‹_›)

theorem behind_header : ∀ offset < 0x110, 0x40 ≤ offset → 0x28 ≤ offset &&& 0xFFC ∧ 0x28 ≤ offset &&& 0xFFE := by
  decide +kernel

variable {f : Func}

theorem Apart.writeDword (ha : Apart pci) (s : σ) {offset : ℕ} (hoffset : ¬InHeader ⟨f,offset &&& 0xFFC⟩)
    (v : BitVec 32) :
    SameHeader pci s (pci.writeDword s f offset v) := fun r hr => ha.dword s _ v r hoffset hr

theorem Apart.writeConfigWord (ha : Apart pci) (s : σ) {offset : ℕ} (hoffset : ¬InHeader ⟨f,offset &&& 0xFFE⟩)
    (v : BitVec 16) : SameHeader pci s (pci.writeConfigWord s f offset v) := fun r hr => ha.word s _ v r hoffset hr

theorem Apart.enableMsi (ha : Apart pci) (msiBase : BitVec 32) {msiCapOffset : ℕ} (hlow : 0x40 ≤ msiCapOffset)
    (hhigh : msiCapOffset < 256) (vectorIdx : ℕ) (s : σ) :
    SameHeader pci s (enableMsi pci msiBase f msiCapOffset vectorIdx s) := by
  have hout : ∀ n < 0x10, ¬InHeader ⟨f,msiCapOffset + n &&& 0xFFC⟩ ∧ ¬InHeader ⟨f,msiCapOffset + n &&& 0xFFE⟩ := by
    intro n hn
    obtain ⟨hdword,hword⟩ := behind_header (msiCapOffset + n) (by omega) (by omega)
    exact ⟨fun h => Nat.not_lt.mpr hdword h.2,fun h => Nat.not_lt.mpr hword h.2⟩
  unfold Pci.enableMsi
  exact (ha.writeDword s (hout 4 (by decide)).1 _).trans ((ha.writeDword _ (hout 8 (by decide)).1 _).trans
    ((ha.writeConfigWord _ (hout 12 (by decide)).2 _).trans (ha.writeConfigWord _ (hout 2 (by decide)).2 _)))

variable (registerMsiVector : τ → DeviceInfo → τ × Option ℕ) (msiBase : BitVec 32)

theorem Apart.pciAllocIrqVectors (ha : Apart pci) (dev : DeviceInfo) (a : Alloc σ τ) :
    SameHeader pci a.hw (pciAllocIrqVectors pci registerMsiVector msiBase dev a).hw ∧
      (pciAllocIrqVectors pci registerMsiVector msiBase dev a).freeMmio = a.freeMmio := by
  unfold Pci.pciAllocIrqVectors
  dsimp only
  split
  · exact ⟨fun _ _ => rfl,rfl⟩
  · rename_i hne
    split
    · exact ⟨fun _ _ => rfl,rfl⟩
    · have hcap : CapPtr pci a.hw dev.f (pcieFindCapability pci a.hw dev.f pciMsiCapId) := by
        rw [pcieFindCapability] at hne ⊢
        split
        · rename_i hstatus
          exact absurd (if_pos hstatus) hne
        · rename_i hstatus
          rw [if_neg hstatus] at hne
          exact (findCapability_capPtr .first).resolve_left hne
      exact ⟨ha.enableMsi _ ((ha.capability _ _ _ hcap).resolve_left hne) (capPtr_lt hcap) _ _,rfl⟩

theorem Apart.enableDecoding (ha : Apart pci) (s : σ) : SameHeader pci s (enableDecoding pci f s) :=
  ha.writeDword s (fun h => absurd (show 0x0C ≤ 0x04 from h.1) (by decide)) _

/-- A recorded endpoint. -/
def EndpointIn (pci : Ecam σ) (s : σ) (dev : DeviceInfo) : Prop :=
  dev.headerType = headerTypeEndpoint ∧ pci.headerType s dev.f = headerTypeEndpoint ∧ dev.bars.length ≤ maxBars

theorem allocDevice_spec (hm : Masked pci mask) (ha : Apart pci) {dev : DeviceInfo} {a : Alloc σ τ}
    (hdev : EndpointIn pci a.hw dev) :
    Wrote pci mask a.hw (allocDevice pci registerMsiVector msiBase dev a).1.hw (place a.freeMmio dev.windows) ∧
      (allocDevice pci registerMsiVector msiBase dev a).2.windows = place a.freeMmio dev.windows ∧
      (allocDevice pci registerMsiVector msiBase dev a).1.freeMmio = placed a.freeMmio dev.windows := by
  rw [allocDevice]
  by_cases hroot : dev.f = ⟨0,0,0⟩
  · have hnone : dev.windows = [] := if_neg (by simp [DeviceInfo.allocated,hroot])
    rw [if_pos hroot,hnone]
    exact ⟨Wrote.refl _,rfl,rfl⟩
  · obtain ⟨hendpoint,hf,hlength⟩ := hdev
    have hwindows : dev.windows = barWindows dev.f 0 dev.bars := if_pos (by simp [DeviceInfo.allocated,hroot,hendpoint])
    have hfits : 0 + dev.bars.length ≤ maxBars := by omega
    obtain ⟨hwrote,hbars,hfree,_⟩ := allocBars_spec hm (a := a) hf hfits
    rw [if_neg hroot,if_pos hendpoint,hwindows]
    simp only
    obtain ⟨hirq,hirqFree⟩ := ha.pciAllocIrqVectors registerMsiVector msiBase
      { dev with bars := (allocBars pci dev.f 0 dev.bars a).2 } (allocBars pci dev.f 0 dev.bars a).1
    refine ⟨?_,?_,hirqFree.trans hfree⟩
    · rw [← List.append_nil (place _ _)]
      exact hwrote.trans (hirq.trans (ha.enableDecoding _)).wrote
    · rw [DeviceInfo.windows,if_pos (by simp [DeviceInfo.allocated,hroot,hendpoint]),hbars]

/-- The windows of the devices are placed one behind the other, and the BARs are written so. -/
theorem allocDevices_spec (hm : Masked pci mask) (ha : Apart pci) {devs : List DeviceInfo} {a : Alloc σ τ}
    (hdevs : ∀ dev ∈ devs, EndpointIn pci a.hw dev) :
    Wrote pci mask a.hw (allocDevices pci registerMsiVector msiBase devs a).1.hw
        (place a.freeMmio (devs.flatMap DeviceInfo.windows)) ∧
      (allocDevices pci registerMsiVector msiBase devs a).2.flatMap DeviceInfo.windows =
        place a.freeMmio (devs.flatMap DeviceInfo.windows) := by
  induction devs generalizing a with
  | nil => exact ⟨Wrote.refl _,rfl⟩
  | cons dev devs ih =>
    obtain ⟨hwrote,hwindows,hfree⟩ := allocDevice_spec registerMsiVector msiBase hm ha
      (hdevs dev (List.mem_cons_self ..))
    obtain ⟨hrest,hwindows'⟩ := ih (a := (allocDevice pci registerMsiVector msiBase dev a).1) (by
      intro d hd
      obtain ⟨htype,hf,hlength⟩ := hdevs d (List.mem_cons_of_mem _ hd)
      exact ⟨htype,(hwrote.header d.f).trans hf,hlength⟩)
    rw [hfree] at hrest hwindows'
    rw [allocDevices,List.flatMap_cons,place_append]
    simp only [List.flatMap_cons]
    exact ⟨hwrote.trans hrest,congrArg₂ _ hwindows hwindows'⟩

end Spec

end EmbedTemplate.Pci
