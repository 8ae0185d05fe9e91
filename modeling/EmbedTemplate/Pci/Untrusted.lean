import EmbedTemplate.Library.FuelBound
import EmbedTemplate.Pci.Config

/-! # The scan on hardware that answers anything

`pci_rc.c` once more, with the tables of the database as the arrays that they are and with
every read free to change what later reads answer. An index outside its table, and a count
above the size of its table, end a run without a result, as a run out of fuel does; the scan
always has one.
-/
namespace EmbedTemplate.Pci.Untrusted
open FuelBound

/-- The hardware behind the ECAM window. -/
structure LiveEcam (σ : Type) where
  read : σ → Reg → σ × BitVec 32
  write : σ → Reg → BitVec 32 → σ

/-- `pci_device_info_t` -/
structure DeviceRow where
  f : Func
  headerType : BitVec 8
  vendorId : BitVec 16
  deviceId : BitVec 16
  barSize : Vector (BitVec 32) maxBars
  barAddress : Vector (BitVec 32) maxBars
  deriving DecidableEq

/-- `pci_database_t` -/
structure Tables where
  scanned : Bool
  deviceCount : ℕ
  bridgeCount : ℕ
  deviceInfo : Vector DeviceRow maxPciDevices
  bridgeInfo : Vector BridgeInfo maxPciBridges

structure Live (σ : Type) where
  hw : σ
  db : Tables

namespace Live
variable {σ : Type} (s : Live σ)

/-- An access to the device that the scan is filling in, `pci_devices[device_count]`. -/
def atDevice (f : DeviceRow → Option DeviceRow) : Option (Live σ) := do
  let rows ← atRow s.db.deviceInfo s.db.deviceCount f
  some { s with db := { s.db with deviceInfo := rows } }

def setDevice (f : Func) (idReg : BitVec 32) (hdrType : BitVec 8) : Option (Live σ) :=
  s.atDevice fun row =>
    some { row with f := f, headerType := hdrType, vendorId := vendorOf idReg, deviceId := deviceOf idReg }

def setBarSize (barIdx : ℕ) (size : BitVec 32) : Option (Live σ) :=
  s.atDevice fun row => do
    let sizes ← atRow row.barSize barIdx fun _ => some size
    some { row with barSize := sizes }

def setBarAddress (barIdx : ℕ) (address : BitVec 32) : Option (Live σ) :=
  s.atDevice fun row => do
    let addresses ← atRow row.barAddress barIdx fun _ => some address
    some { row with barAddress := addresses }

def setBridge (bridge : BridgeInfo) : Option (Live σ) := do
  let rows ← atRow s.db.bridgeInfo s.db.bridgeCount fun _ => some bridge
  some { s with db := { s.db with bridgeInfo := rows } }

/-- `device_count++`, up to the size of the table. -/
def countDevice : Option (Live σ) :=
  if s.db.deviceCount < maxPciDevices then some { s with db := { s.db with deviceCount := s.db.deviceCount + 1 } }
  else none

/-- `bridge_count++`, up to the size of the table. -/
def countBridge : Option (Live σ) :=
  if s.db.bridgeCount < maxPciBridges then some { s with db := { s.db with bridgeCount := s.db.bridgeCount + 1 } }
  else none

end Live

section Scan
variable {σ : Type} (pci : LiveEcam σ)

def LiveEcam.readDword (s : Live σ) (f : Func) (offset : ℕ) : Live σ × BitVec 32 :=
  let (hw,value) := pci.read s.hw ⟨f,offset &&& 0xFFC⟩
  ({ s with hw := hw },value)

def LiveEcam.writeDword (s : Live σ) (f : Func) (offset : ℕ) (value : BitVec 32) : Live σ :=
  { s with hw := pci.write s.hw ⟨f,offset &&& 0xFFC⟩ value }

/-- The inner loop at a BAR that reads zero. -/
def clearBars (original : BitVec 32) : ℕ → ℕ → Live σ → Option (Live σ)
  | 0, _, _ => none
  | fuel + 1, barIdx, s =>
    if barIdx < maxBars then do
      let s ← s.setBarSize barIdx 0
      let s ← s.setBarAddress barIdx (original &&& 0xFFFFFFF0)
      clearBars original fuel (barIdx + 1) s
    else some s

/-- The sizing loop from a BAR on. -/
def sizeBars (f : Func) : ℕ → ℕ → Live σ → Option (Live σ)
  | 0, _, _ => none
  | fuel + 1, barIdx, s =>
    if barIdx < maxBars then
      let barOffset := pciConfigBar0 + barIdx * 4
      let (s,original) := pci.readDword s f barOffset
      if original = 0 then clearBars original fuel barIdx s
      else
        let s := pci.writeDword s f barOffset 0xFFFFFFFF
        let (s,readBack) := pci.readDword s f barOffset
        if readBack = 0 ∨ readBack = 0xFFFFFFFF ∨ readBack &&& 0x01 ≠ 0 then do
          let s ← (pci.writeDword s f barOffset original).setBarSize barIdx 0
          sizeBars f fuel (barIdx + 1) s
        else if readBack &&& pciMemTypeMask = pciMemType64 ∧ barIdx < maxBars - 1 then do
          let upperOffset := barOffset + 4
          let (s,origUpper) := pci.readDword s f upperOffset
          let s := pci.writeDword s f upperOffset 0xFFFFFFFF
          let (s,upperReadBack) := pci.readDword s f upperOffset
          let s := pci.writeDword s f barOffset original
          let s := pci.writeDword s f upperOffset origUpper
          let bar := bar64 original readBack origUpper upperReadBack
          let s ← s.setBarAddress barIdx bar.address
          let s ← s.setBarSize barIdx bar.size
          let s ← s.setBarSize (barIdx + 1) 0
          sizeBars f fuel (barIdx + 2) s
        else do
          let bar := bar32 original readBack
          let s ← s.setBarAddress barIdx bar.address
          let s ← s.setBarSize barIdx bar.size
          sizeBars f fuel (barIdx + 1) (pci.writeDword s f barOffset original)
    else some s

def scanEndpoint (fuel : ℕ) (f : Func) (idReg : BitVec 32) (hdrType : BitVec 8) (s : Live σ) : Option (Live σ) := do
  let s ← s.setDevice f idReg hdrType
  let s ← sizeBars pci f fuel 0 s
  s.countDevice

/-- A bridge, and the bus behind it. -/
def scanBridge (recurse : ℕ → Live σ → Option (Live σ)) (f : Func) (idReg : BitVec 32) (hdrType : BitVec 8)
    (s : Live σ) : Option (Live σ) := do
  let (s,busReg) := pci.readDword s f pciConfigPrimaryBus
  let secondaryBus := busByte busReg 1
  let (s,memReg) := pci.readDword s f 0x20
  let s ← s.setBridge ⟨f,hdrType,vendorOf idReg,deviceOf idReg,busByte busReg 0,secondaryBus,busByte busReg 2,
    (memReg &&& 0xFFF0) <<< 16,memReg &&& 0xFFF00000⟩
  let s ← s.countBridge
  if secondaryBus > f.bus then recurse secondaryBus s else some s

/-- One function; a full table ends the scan of the bus. -/
def scanFunction (recurse : ℕ → Live σ → Option (Live σ)) (fuel : ℕ) (f : Func) (s : Live σ) : Option (Live σ × Bool) :=
  let (s,idReg) := pci.readDword s f pciConfigVendorId
  if absent (vendorOf idReg) then some (s,false)
  else if s.db.deviceCount ≥ maxPciDevices then some (s,true)
  else
    let (s,hdrReg) := pci.readDword s f pciConfigHeaderType
    let hdrType := headerOf hdrReg &&& 0x7F
    if hdrType = headerTypeEndpoint then do
      let s ← scanEndpoint pci fuel f idReg hdrType s
      some (s,false)
    else if hdrType = headerTypeBridge then
      if s.db.bridgeCount ≥ maxPciBridges then some (s,true)
      else do
        let s ← scanBridge pci recurse f idReg hdrType s
        some (s,false)
    else some (s,false)

/-- The functions of one device. -/
def scanDevice (recurse : ℕ → Live σ → Option (Live σ)) (fuel bus dev : ℕ) (s : Live σ) : Option (Live σ × Bool) :=
  let (s,idRegF0) := pci.readDword s ⟨bus,dev,0⟩ 0x00
  if absent (vendorOf idRegF0) then some (s,false)
  else
    let (s,hdrRegF0) := pci.readDword s ⟨bus,dev,0⟩ 0x0C
    let numFunctions := if headerOf hdrRegF0 &&& 0x80 ≠ 0 then maxFunctions else 1
    loop (fun func => scanFunction pci recurse fuel ⟨bus,dev,func⟩) (List.range numFunctions) s

/-- The scan of a bus and of the buses behind it. -/
def doPciScan : ℕ → ℕ → Live σ → Option (Live σ)
  | 0, _, _ => none
  | fuel + 1, bus, s => do
    let (s,_) ← loop (scanDevice pci (doPciScan fuel) fuel bus) (List.range maxPciDevices) s
    some s

def pciScan (fuel bus : ℕ) (s : Live σ) : Option (Live σ) :=
  if s.db.scanned then some s
  else do
    let s ← doPciScan pci fuel bus s
    some { s with db := { s.db with scanned := true } }

end Scan

namespace Live
variable {σ : Type} {n i : ℕ} {s : Live σ}

/-- How many rows of the tables are in use. -/
def counts (s : Live σ) : ℕ × ℕ := (s.db.deviceCount,s.db.bridgeCount)

/-- No more rows are in use than there are. -/
def Fits (s : Live σ) : Prop := s.db.deviceCount ≤ maxPciDevices ∧ s.db.bridgeCount ≤ maxPciBridges

theorem Fits.congr {t : Live σ} (hs : s.Fits) (h : t.counts = s.counts) : t.Fits := by
  obtain ⟨hdevices,hbridges⟩ := Prod.mk.inj h
  exact ⟨hdevices ▸ hs.1,hbridges ▸ hs.2⟩

variable {k : ℕ × ℕ}

theorem settles_atDevice {f : DeviceRow → Option DeviceRow} (hk : k.1 < maxPciDevices) (hs : s.counts = k)
    (hf : ∀ row, ∃ row', f row = some row') : Settles n (fun _ => s.atDevice f) fun t => t.counts = k := by
  subst hs
  obtain ⟨rows,hrows⟩ := exists_atRow (t := s.db.deviceInfo) (i := s.db.deviceCount) hk hf
  unfold atDevice
  rw [hrows]
  exact .pure rfl

theorem settles_setDevice (hk : k.1 < maxPciDevices) (hs : s.counts = k) (f : Func) (idReg : BitVec 32)
    (hdrType : BitVec 8) : Settles n (fun _ => s.setDevice f idReg hdrType) fun t => t.counts = k :=
  settles_atDevice hk hs fun _ => ⟨_,rfl⟩

theorem settles_setBarSize (hk : k.1 < maxPciDevices) (hi : i < maxBars) (hs : s.counts = k) (size : BitVec 32) :
    Settles n (fun _ => s.setBarSize i size) fun t => t.counts = k := by
  apply settles_atDevice hk hs
  intro row
  obtain ⟨sizes,hsizes⟩ := exists_atRow (t := row.barSize) (f := fun _ => some size) hi fun _ => ⟨_,rfl⟩
  exact ⟨{ row with barSize := sizes },by rw [hsizes]; rfl⟩

theorem settles_setBarAddress (hk : k.1 < maxPciDevices) (hi : i < maxBars) (hs : s.counts = k)
    (address : BitVec 32) : Settles n (fun _ => s.setBarAddress i address) fun t => t.counts = k := by
  apply settles_atDevice hk hs
  intro row
  obtain ⟨addresses,haddresses⟩ := exists_atRow (t := row.barAddress) (f := fun _ => some address) hi fun _ => ⟨_,rfl⟩
  exact ⟨{ row with barAddress := addresses },by rw [haddresses]; rfl⟩

theorem settles_setBridge (hk : k.2 < maxPciBridges) (hs : s.counts = k) (bridge : BridgeInfo) :
    Settles n (fun _ => s.setBridge bridge) fun t => t.counts = k := by
  subst hs
  obtain ⟨rows,hrows⟩ := exists_atRow (t := s.db.bridgeInfo) (i := s.db.bridgeCount) (f := fun _ => some bridge) hk
    fun _ => ⟨_,rfl⟩
  unfold setBridge
  rw [hrows]
  exact .pure rfl

theorem settles_countDevice (hfits : s.Fits) (hs : s.counts.1 < maxPciDevices) :
    Settles n (fun _ => s.countDevice) Fits := by
  unfold countDevice
  rw [if_pos (show s.db.deviceCount < maxPciDevices from hs)]
  exact .pure ⟨hs,hfits.2⟩

theorem settles_countBridge (hfits : s.Fits) (hs : s.counts.2 < maxPciBridges) :
    Settles n (fun _ => s.countBridge) Fits := by
  unfold countBridge
  rw [if_pos (show s.db.bridgeCount < maxPciBridges from hs)]
  exact .pure ⟨hfits.1,hs⟩

end Live

section Bounds
variable {σ : Type} (pci : LiveEcam σ) {n i : ℕ} {s : Live σ}

@[simp] theorem counts_readDword (s : Live σ) (f : Func) (offset : ℕ) :
    (pci.readDword s f offset).1.counts = s.counts := rfl

@[simp] theorem counts_writeDword (s : Live σ) (f : Func) (offset : ℕ) (value : BitVec 32) :
    (pci.writeDword s f offset value).counts = s.counts := rfl

theorem settles_clearBars (original : BitVec 32) {k : ℕ × ℕ} (hk : k.1 < maxPciDevices) (hs : s.counts = k)
    (hi : maxBars ≤ i + n) : Settles (n + 1) (fun fuel => clearBars original fuel i s) fun t => t.counts = k := by
  induction n generalizing i s with
  | zero =>
    apply Settles.succ
    simp only [clearBars,if_neg (show ¬i < maxBars by omega)]
    exact .pure hs
  | succ n ih =>
    apply Settles.succ
    simp only [clearBars]
    split
    case isFalse => exact .pure hs
    case isTrue hroom =>
      apply Settles.bind (Live.settles_setBarSize hk hroom hs _)
      intro t ht
      apply Settles.bind (Live.settles_setBarAddress hk hroom ht _)
      intro u hu
      exact ih hu (by omega)

/-- The sizing loop stays in the tables and ends: every round goes one or two BARs on. -/
theorem settles_sizeBars (f : Func) {k : ℕ × ℕ} (hk : k.1 < maxPciDevices) (hs : s.counts = k)
    (hi : maxBars ≤ i + n) : Settles (n + 2) (fun fuel => sizeBars pci f fuel i s) fun t => t.counts = k := by
  induction n generalizing i s with
  | zero =>
    apply Settles.succ
    simp only [sizeBars,if_neg (show ¬i < maxBars by omega)]
    exact .pure hs
  | succ n ih =>
    apply Settles.succ
    simp only [sizeBars]
    split
    case isFalse => exact .pure hs
    case isTrue hroom =>
      split
      case isTrue => exact settles_clearBars _ hk hs (by omega)
      case isFalse =>
        split
        case isTrue =>
          apply Settles.bind (Live.settles_setBarSize hk hroom (by exact hs) _)
          intro t ht
          exact ih ht (by omega)
        case isFalse =>
          split
          case isTrue hwide =>
            apply Settles.bind (Live.settles_setBarAddress hk hroom (by exact hs) _)
            intro t ht
            apply Settles.bind (Live.settles_setBarSize hk hroom ht _)
            intro u hu
            apply Settles.bind (Live.settles_setBarSize hk (by omega) hu _)
            intro v hv
            exact ih hv (by omega)
          case isFalse =>
            apply Settles.bind (Live.settles_setBarAddress hk hroom (by exact hs) _)
            intro t ht
            apply Settles.bind (Live.settles_setBarSize hk hroom ht _)
            intro u hu
            exact ih hu (by omega)

theorem settles_scanEndpoint (f : Func) (idReg : BitVec 32) (hdrType : BitVec 8) (hs : s.Fits)
    (hroom : s.db.deviceCount < maxPciDevices) (hn : maxBars + 2 ≤ n) :
    Settles n (fun fuel => scanEndpoint pci fuel f idReg hdrType s) Live.Fits := by
  unfold scanEndpoint
  apply Settles.bind (Live.settles_setDevice hroom rfl f idReg hdrType)
  intro t ht
  apply Settles.bind ((settles_sizeBars pci f hroom ht (by omega)).later hn)
  intro u hu
  exact Live.settles_countDevice (hs.congr hu) (by rw [hu]; exact hroom)

variable {recurse : ℕ → ℕ → Live σ → Option (Live σ)}

theorem settles_scanBridge {f : Func} (idReg : BitVec 32) (hdrType : BitVec 8) (hs : s.Fits)
    (hroom : s.db.bridgeCount < maxPciBridges)
    (hrec : ∀ bus t, f.bus < bus → bus < 256 → t.Fits → Settles n (fun fuel => recurse fuel bus t) Live.Fits) :
    Settles n (fun fuel => scanBridge pci (recurse fuel) f idReg hdrType s) Live.Fits := by
  unfold scanBridge
  apply Settles.bind (Live.settles_setBridge (k := s.counts) hroom (by rfl) _)
  intro t ht
  apply Settles.bind (Live.settles_countBridge (hs.congr ht) (by rw [ht]; exact hroom))
  intro u hu
  split
  case isTrue hbehind => exact hrec _ u hbehind (busByte_lt _ _) hu
  case isFalse => exact .pure hu

theorem settles_scanFunction {f : Func} (hs : s.Fits) (hn : maxBars + 2 ≤ n)
    (hrec : ∀ bus t, f.bus < bus → bus < 256 → t.Fits → Settles n (fun fuel => recurse fuel bus t) Live.Fits) :
    Settles n (fun fuel => scanFunction pci (recurse fuel) fuel f s) fun r => r.1.Fits := by
  simp only [scanFunction]
  split
  case isTrue => exact .pure hs
  case isFalse =>
    split
    case isTrue => exact .pure hs
    case isFalse hdevices =>
      split
      case isTrue =>
        apply Settles.bind (settles_scanEndpoint pci f _ _ (by exact hs) (by exact Nat.lt_of_not_le hdevices) hn)
        exact fun t ht => .pure ht
      case isFalse =>
        split
        case isTrue =>
          split
          case isTrue => exact .pure hs
          case isFalse hbridges =>
            apply Settles.bind (settles_scanBridge pci _ _ (by exact hs) (by exact Nat.lt_of_not_le hbridges) hrec)
            exact fun t ht => .pure ht
        case isFalse => exact .pure hs

theorem settles_scanDevice {bus : ℕ} (dev : ℕ) (hs : s.Fits) (hn : maxBars + 2 ≤ n)
    (hrec : ∀ bus' t, bus < bus' → bus' < 256 → t.Fits → Settles n (fun fuel => recurse fuel bus' t) Live.Fits) :
    Settles n (fun fuel => scanDevice pci (recurse fuel) fuel bus dev s) fun r => r.1.Fits := by
  simp only [scanDevice]
  split
  case isTrue => exact .pure hs
  case isFalse =>
    apply Settles.loop (I := Live.Fits) _ (by exact hs)
    intro func _ t ht
    apply settles_scanFunction pci ht hn hrec

theorem settles_bus {bus : ℕ} (hs : s.Fits) (hn : maxBars + 2 ≤ n)
    (hrec : ∀ bus' t, bus < bus' → bus' < 256 → t.Fits → Settles n (fun fuel => doPciScan pci fuel bus' t) Live.Fits) :
    Settles (n + 1) (fun fuel => doPciScan pci fuel bus s) Live.Fits := by
  apply Settles.succ
  simp only [doPciScan]
  have hloop : Settles n (fun fuel => loop (scanDevice pci (doPciScan pci fuel) fuel bus) (List.range maxPciDevices) s)
      fun r => r.1.Fits := by
    apply Settles.loop _ hs
    intro dev _ t ht
    exact settles_scanDevice pci dev ht hn hrec
  apply Settles.bind hloop
  exact fun r hr => .pure hr

/-- The scan of a bus ends: a bus behind a bridge has a larger number, of eight bits. -/
theorem settles_doPciScan {bus : ℕ} (hs : s.Fits) (hbus : 256 ≤ bus + n) :
    Settles (n + maxBars + 3) (fun fuel => doPciScan pci fuel bus s) Live.Fits := by
  induction n generalizing bus s with
  | zero =>
    apply settles_bus (n := 0 + maxBars + 2) pci hs (by omega)
    intro bus' _ hbehind hbyte _
    omega
  | succ n ih =>
    have hrec : Settles (n + maxBars + 3 + 1) (fun fuel => doPciScan pci fuel bus s) Live.Fits := by
      apply settles_bus pci hs (by omega)
      intro bus' t hbehind _ ht
      exact ih ht (by omega)
    exact hrec.later (by omega)

/-- Whatever the hardware answers, the scan ends, inside its tables. -/
theorem pciScan_settles (bus : ℕ) (hdevices : s.db.deviceCount ≤ maxPciDevices)
    (hbridges : s.db.bridgeCount ≤ maxPciBridges) :
    ∃ t : Live σ, t.db.deviceCount ≤ 32 ∧ t.db.bridgeCount ≤ 2 ∧
      ∀ fuel, 256 + maxBars + 3 ≤ fuel → pciScan pci fuel bus s = some t := by
  have hfits : s.Fits := ⟨hdevices,hbridges⟩
  have hsettles : Settles (256 + maxBars + 3) (fun fuel => pciScan pci fuel bus s) Live.Fits := by
    unfold pciScan
    split
    case isTrue => exact .pure hfits
    case isFalse =>
      apply Settles.bind (settles_doPciScan pci hfits (by omega))
      exact fun t ht => .pure ht
  obtain ⟨t,⟨htDevices,htBridges⟩,ht⟩ := hsettles
  exact ⟨t,htDevices,htBridges,ht⟩

/-- The database before the scan. -/
def bootTables : Tables where
  scanned := false
  deviceCount := 0
  bridgeCount := 0
  deviceInfo := Vector.replicate _ ⟨⟨0,0,0⟩,0,0,0,Vector.replicate _ 0,Vector.replicate _ 0⟩
  bridgeInfo := Vector.replicate _ ⟨⟨0,0,0⟩,0,0,0,0,0,0,0,0⟩

/-- Every function is there, and says something else at every read: now it is an endpoint and now a bridge to
some bus. -/
def restlessEcam : LiveEcam ℕ where
  read s r := (s + 1,if r.offset = 0 then 0x12348086 else BitVec.ofNat 32 (s % 3 / 2 * 0x10000 + s % 256 * 0x100 + 0xF4))
  write s _ value := s + value.toNat

theorem pciScan_settles_restless : ∃ t : Live ℕ, t.db.deviceCount ≤ 32 ∧ t.db.bridgeCount ≤ 2 ∧
    ∀ fuel, 256 + maxBars + 3 ≤ fuel → pciScan restlessEcam fuel 0 ⟨0,bootTables⟩ = some t :=
  pciScan_settles restlessEcam 0 (Nat.zero_le _) (Nat.zero_le _)

end Bounds

end EmbedTemplate.Pci.Untrusted
