import EmbedTemplate.Library.ReturnLoop
import Mathlib.Data.BitVec

/-! # The configuration space and its enumeration

`pci_rc.c`: the configuration registers behind the ECAM window, the sizing of the BARs and
the recursive scan that fills the database. The hardware is a state with the effect of a
read and a write on it.
-/
namespace EmbedTemplate.Pci
open ReturnLoop

def maxPciDevices : ℕ := 32
def maxPciBridges : ℕ := 2
def maxFunctions : ℕ := 8
def maxBars : ℕ := 6
def pciConfigVendorId : ℕ := 0x00
def pciConfigCommand : ℕ := 0x04
def pciConfigHeaderType : ℕ := 0x0C
def pciConfigBar0 : ℕ := 0x10
def pciConfigPrimaryBus : ℕ := 0x18
def pciMemTypeMask : BitVec 32 := 0x06
def pciMemType64 : BitVec 32 := 0x04
def headerTypeEndpoint : BitVec 8 := 0
def headerTypeBridge : BitVec 8 := 1

/-- A function of a device on a bus. -/
structure Func where
  bus : ℕ
  dev : ℕ
  func : ℕ
  deriving DecidableEq

/-- A configuration register: the fields of an ECAM address. -/
structure Reg where
  f : Func
  offset : ℕ
  deriving DecidableEq

/-- The hardware behind the ECAM window, with 32-bit and 16-bit accesses. -/
structure Ecam (σ : Type*) where
  read : σ → Reg → BitVec 32
  write : σ → Reg → BitVec 32 → σ
  writeWord : σ → Reg → BitVec 16 → σ

/-- Size and address of a BAR, as the database has them. -/
structure Bar where
  size : BitVec 32
  address : BitVec 32
  deriving DecidableEq

/-- `pci_device_info_t`. -/
structure DeviceInfo where
  f : Func
  headerType : BitVec 8
  vendorId : BitVec 16
  deviceId : BitVec 16
  bars : List Bar
  deriving DecidableEq

/-- `pci_bridge_info_t`. -/
structure BridgeInfo where
  f : Func
  headerType : BitVec 8
  vendorId : BitVec 16
  deviceId : BitVec 16
  primaryBus : ℕ
  secondaryBus : ℕ
  subordinateBus : ℕ
  memBase : BitVec 32
  memLimit : BitVec 32
  deriving DecidableEq

/-- `pci_database_t`, whose counts are the lengths of the lists. -/
structure Database where
  scanned : Bool
  devices : List DeviceInfo
  bridges : List BridgeInfo
  deriving DecidableEq

/-- The hardware and the database. -/
structure System (σ : Type*) where
  hw : σ
  db : Database

section Scan
variable {σ : Type*} (pci : Ecam σ)

def Ecam.readDword (s : σ) (f : Func) (offset : ℕ) : BitVec 32 := pci.read s ⟨f,offset &&& 0xFFC⟩
def Ecam.writeDword (s : σ) (f : Func) (offset : ℕ) (value : BitVec 32) : σ := pci.write s ⟨f,offset &&& 0xFFC⟩ value

/-- The BAR of a 32-bit memory window. -/
def bar32 (original readBack : BitVec 32) : Bar :=
  let lowerMask := readBack &&& 0xFFFFFFF0
  { address := original &&& 0xFFFFFFF0
    size := if lowerMask ≠ 0 ∧ lowerMask ≠ 0xFFFFFFF0 then ~~~lowerMask + 1 else 0 }

/-- The BAR of a 64-bit memory window; the database has room for 32 bits of it. -/
def bar64 (original readBack origUpper upperReadBack : BitVec 32) : Bar :=
  let fullAddr : BitVec 64 := (origUpper.setWidth 64 <<< 32) ||| (original &&& 0xFFFFFFF0).setWidth 64
  let totalMask : BitVec 64 := (upperReadBack.setWidth 64 <<< 32) ||| (readBack &&& 0xFFFFFFF0).setWidth 64
  let size64 := ~~~totalMask + 1
  { address := fullAddr.setWidth 32
    size := if totalMask ≠ 0 then
        if size64 > 0xFFFFFFFF then 0xFFFFFFFF else size64.setWidth 32
      else 0 }

/-- The sizing loop, with as many BARs still to go. -/
def sizeBars (f : Func) : ℕ → σ → σ × List Bar
  | 0, s => (s,[])
  | n + 1, s =>
    let barOffset := pciConfigBar0 + (maxBars - (n + 1)) * 4
    let original := pci.readDword s f barOffset
    if original = 0 then (s,List.replicate (n + 1) ⟨0,0⟩)
    else
      let s := pci.writeDword s f barOffset 0xFFFFFFFF
      let readBack := pci.readDword s f barOffset
      if readBack = 0 ∨ readBack = 0xFFFFFFFF ∨ readBack &&& 0x01 ≠ 0 then
        let (s,bars) := sizeBars f n (pci.writeDword s f barOffset original)
        (s,⟨0,0⟩ :: bars)
      else
        match n, decide (readBack &&& pciMemTypeMask = pciMemType64) with
        | m + 1, true =>
          let upperOffset := barOffset + 4
          let origUpper := pci.readDword s f upperOffset
          let s := pci.writeDword s f upperOffset 0xFFFFFFFF
          let upperReadBack := pci.readDword s f upperOffset
          let s := pci.writeDword s f barOffset original
          let s := pci.writeDword s f upperOffset origUpper
          let (s,bars) := sizeBars f m s
          (s,bar64 original readBack origUpper upperReadBack :: ⟨0,0⟩ :: bars)
        | n, _ =>
          let (s,bars) := sizeBars f n (pci.writeDword s f barOffset original)
          (s,bar32 original readBack :: bars)

def vendorOf (idReg : BitVec 32) : BitVec 16 := idReg.setWidth 16
def deviceOf (idReg : BitVec 32) : BitVec 16 := (idReg >>> 16).setWidth 16
def headerOf (hdrReg : BitVec 32) : BitVec 8 := (hdrReg >>> 16).setWidth 8

/-- No function answers with this vendor. -/
def absent (vendor : BitVec 16) : Bool := vendor = 0xFFFF || vendor = 0x0000

def scanEndpoint (f : Func) (idReg : BitVec 32) (hdrType : BitVec 8) (s : System σ) : System σ :=
  let (hw,bars) := sizeBars pci f maxBars s.hw
  { hw := hw
    db := { s.db with devices := s.db.devices ++ [⟨f,hdrType,vendorOf idReg,deviceOf idReg,bars⟩] } }

/-- The `n`-th byte of the bus number register. -/
def busByte (busReg : BitVec 32) (n : ℕ) : ℕ := ((busReg >>> (8 * n)).setWidth 8).toNat

/-- A bridge, and the bus behind it. -/
def scanBridge (recurse : ℕ → System σ → System σ) (f : Func) (idReg : BitVec 32) (hdrType : BitVec 8)
    (s : System σ) : System σ :=
  let busReg := pci.readDword s.hw f pciConfigPrimaryBus
  let secondaryBus := busByte busReg 1
  let memReg := pci.readDword s.hw f 0x20
  let bridge : BridgeInfo := ⟨f,hdrType,vendorOf idReg,deviceOf idReg,busByte busReg 0,secondaryBus,busByte busReg 2,
    (memReg &&& 0xFFF0) <<< 16,memReg &&& 0xFFF00000⟩
  let s := { s with db := { s.db with bridges := s.db.bridges ++ [bridge] } }
  if secondaryBus > f.bus then recurse secondaryBus s else s

/-- One function; a full table ends the scan of the bus. -/
def scanFunction (recurse : ℕ → System σ → System σ) (f : Func) (s : System σ) : System σ × Bool :=
  let idReg := pci.readDword s.hw f pciConfigVendorId
  if absent (vendorOf idReg) then (s,false)
  else if s.db.devices.length ≥ maxPciDevices then (s,true)
  else
    let hdrType := headerOf (pci.readDword s.hw f pciConfigHeaderType) &&& 0x7F
    if hdrType = headerTypeEndpoint then (scanEndpoint pci f idReg hdrType s,false)
    else if hdrType = headerTypeBridge then
      if s.db.bridges.length ≥ maxPciBridges then (s,true) else (scanBridge pci recurse f idReg hdrType s,false)
    else (s,false)

/-- The functions of one device. -/
def scanDevice (recurse : ℕ → System σ → System σ) (bus dev : ℕ) (s : System σ) : System σ × Bool :=
  if absent (vendorOf (pci.readDword s.hw ⟨bus,dev,0⟩ 0x00)) then (s,false)
  else
    let hdrTypeF0 := headerOf (pci.readDword s.hw ⟨bus,dev,0⟩ 0x0C)
    let numFunctions := if hdrTypeF0 &&& 0x80 ≠ 0 then maxFunctions else 1
    loop (fun func => scanFunction pci recurse ⟨bus,dev,func⟩) (List.range numFunctions) s

/-- The scan of a bus and of the buses behind it, to a depth. -/
def doPciScan : ℕ → ℕ → System σ → System σ
  | 0, _, s => s
  | depth + 1, bus, s => (loop (scanDevice pci (doPciScan depth) bus) (List.range maxPciDevices) s).1

theorem busByte_lt (busReg : BitVec 32) (n : ℕ) : busByte busReg n < 256 := BitVec.isLt _

/-- Bus numbers grow behind bridges, so that no scan is deeper than there are larger buses. -/
theorem doPciScan_depth {depth depth' bus : ℕ} (hbus : bus < 256) (h : 256 ≤ bus + depth) (h' : 256 ≤ bus + depth')
    (s : System σ) : doPciScan pci depth bus s = doPciScan pci depth' bus s := by
  induction depth generalizing depth' bus s with
  | zero => omega
  | succ depth ih =>
    obtain ⟨depth',rfl⟩ : ∃ d, depth' = d + 1 := ⟨depth' - 1,by omega⟩
    have hbody : ∀ dev s, scanDevice pci (doPciScan pci depth) bus dev s =
        scanDevice pci (doPciScan pci depth') bus dev s := by
      intro dev s
      rw [scanDevice,scanDevice]
      refine if_congr Iff.rfl rfl (loop_congr (fun func _ s => ?_) s)
      have hbridge : ∀ idReg hdrType, scanBridge pci (doPciScan pci depth) ⟨bus,dev,func⟩ idReg hdrType s =
          scanBridge pci (doPciScan pci depth') ⟨bus,dev,func⟩ idReg hdrType s := by
        intro idReg hdrType
        rw [scanBridge,scanBridge]
        simp only
        split
        · exact ih (busByte_lt _ _) (by omega) (by omega) _
        · rfl
      simp only [scanFunction,hbridge]
    rw [doPciScan,doPciScan,loop_congr (fun dev _ s => hbody dev s)]

/-- The scan from a bus, with as much depth as there are buses. -/
def pciScan (bus : ℕ) (s : System σ) : System σ :=
  if s.db.scanned then s
  else
    let s := doPciScan pci 256 bus s
    { s with db := { s.db with scanned := true } }

end Scan

end EmbedTemplate.Pci
