import EmbedTemplate.Pci.Restore
import EmbedTemplate.Pci.Topology

/-! # The scan is complete and duplicate-free

On hardware where a write to a BAR reaches BARs only, the scan records the functions that
the depth-first walk meets, as long as its two tables have room for them.
-/
namespace EmbedTemplate.Pci
open ReturnLoop
variable {σ : Type*}

/-- A write to a BAR reaches BARs only. -/
def Quiet (pci : Ecam σ) : Prop :=
  ∀ s r v r', pci.IsBar s r → ¬pci.IsBar s r' → pci.read (pci.write s r v) r' = pci.read s r'

/-- Two states of the hardware that differ in BARs only. -/
def Aside (pci : Ecam σ) (s t : σ) : Prop := ∀ r, ¬pci.IsBar s r → pci.read t r = pci.read s r

variable {pci : Ecam σ} {s t u : σ} {f : Func}

theorem headerReg_not_isBar (s : σ) (f : Func) : ¬pci.IsBar s ⟨f,pciConfigHeaderType⟩ := by
  rintro ⟨_,i,_,hreg⟩
  exact headerReg_ne _ _ _ hreg

theorem idReg_not_isBar (s : σ) (f : Func) : ¬pci.IsBar s ⟨f,pciConfigVendorId⟩ := by
  rintro ⟨_,i,_,hreg⟩
  have hoffset : 0 = 16 + i * 4 := congrArg Reg.offset hreg
  omega

namespace Aside

theorem refl (s : σ) : Aside pci s s := fun _ _ => rfl

theorem headerReg (h : Aside pci s t) (f : Func) : pci.read t ⟨f,pciConfigHeaderType⟩ =
    pci.read s ⟨f,pciConfigHeaderType⟩ :=
  h _ (headerReg_not_isBar s f)

theorem headerType (h : Aside pci s t) (f : Func) : pci.headerType t f = pci.headerType s f := by
  rw [Ecam.headerType,Ecam.headerType,h.headerReg]

theorem isBar (h : Aside pci s t) (r : Reg) : pci.IsBar t r ↔ pci.IsBar s r := by
  rw [Ecam.IsBar,Ecam.IsBar,h.headerType]

theorem trans (h : Aside pci s t) (h' : Aside pci t u) : Aside pci s u :=
  fun r hr => (h' r ((h.isBar r).not.mpr hr)).trans (h r hr)

theorem idReg (h : Aside pci s t) (f : Func) : pci.idReg t f = pci.idReg s f := h _ (idReg_not_isBar s f)

theorem present (h : Aside pci s t) (f : Func) : pci.present t f = pci.present s f := by
  rw [Ecam.present,Ecam.present,h.idReg]

theorem functions (h : Aside pci s t) (bus dev : ℕ) : pci.functions t bus dev = pci.functions s bus dev := by
  have hreg : pci.readDword t ⟨bus,dev,0⟩ 0x0C = pci.readDword s ⟨bus,dev,0⟩ 0x0C := h.headerReg ⟨bus,dev,0⟩
  rw [Ecam.functions,Ecam.functions,hreg]

theorem bridgeReg (h : Aside pci s t) (hf : pci.isBridge s f = true) (offset : ℕ) :
    pci.readDword t f offset = pci.readDword s f offset := by
  refine h _ ?_
  rintro ⟨hend,_⟩
  have hbr : pci.headerType s f = headerTypeBridge := of_decide_eq_true hf
  have hend : pci.headerType s f = headerTypeEndpoint := hend
  rw [hbr] at hend
  cases hend

end Aside

theorem Quiet.write (hq : Quiet pci) {r : Reg} (hr : pci.IsBar s r) (v : BitVec 32) : Aside pci s (pci.write s r v) :=
  fun r' hr' => hq s r v r' hr hr'

theorem Quiet.write_behind (hq : Quiet pci) (h : Aside pci s t) {r : Reg} (hr : pci.IsBar s r) (v : BitVec 32) :
    Aside pci s (pci.write t r v) :=
  h.trans (hq.write ((h.isBar r).mpr hr) v)

theorem Quiet.sized (hq : Quiet pci) {n : ℕ} {bars : List Bar} (h : Sized pci f n s t bars) (hn : n ≤ maxBars)
    (hf : pci.headerType s f = headerTypeEndpoint) : Aside pci s t := by
  refine h.related Aside.refl Aside.trans (fun haside => haside.headerType f) (fun hbar => ?_) (fun hbar hbar' => ?_) hn hf
  · exact hq.write_behind (hq.write hbar _) hbar _
  · have hwritten := hq.write_behind (hq.write hbar 0xFFFFFFFF) hbar' 0xFFFFFFFF
    exact hq.write_behind (hq.write_behind hwritten hbar _) hbar' _

/-- What the database says about an endpoint, but for its BARs. -/
structure Identity where
  f : Func
  headerType : BitVec 8
  vendorId : BitVec 16
  deviceId : BitVec 16
  deriving DecidableEq

def DeviceInfo.identity (d : DeviceInfo) : Identity := ⟨d.f,d.headerType,d.vendorId,d.deviceId⟩

section Records
variable (pci s) (f : Func)

/-- An endpoint as its registers describe it. -/
def endpointRecord : Identity := ⟨f,pci.headerType s f,vendorOf (pci.idReg s f),deviceOf (pci.idReg s f)⟩

/-- A bridge as its registers describe it. -/
def bridgeRecord : BridgeInfo :=
  let busReg := pci.readDword s f pciConfigPrimaryBus
  let memReg := pci.readDword s f 0x20
  ⟨f,pci.headerType s f,vendorOf (pci.idReg s f),deviceOf (pci.idReg s f),busByte busReg 0,busByte busReg 1,
    busByte busReg 2,(memReg &&& 0xFFF0) <<< 16,memReg &&& 0xFFF00000⟩

end Records

/-- The database records the functions met so far, and the hardware differs in BARs only. -/
structure Recorded (pci : Ecam σ) (s : σ) (met : List Func) (t : System σ) : Prop where
  aside : Aside pci s t.hw
  devices : t.db.devices.map DeviceInfo.identity = (met.filter (pci.isEndpoint s)).map (endpointRecord pci s)
  bridges : t.db.bridges = (met.filter (pci.isBridge s)).map (bridgeRecord pci s)

/-- The tables have room. -/
def Fits (pci : Ecam σ) (s : σ) (met : List Func) : Prop :=
  (met.filter (pci.isEndpoint s)).length < maxPciDevices ∧ (met.filter (pci.isBridge s)).length ≤ maxPciBridges

theorem Fits.front (v w : List Func) (h : Fits pci s (v ++ w)) : Fits pci s v := by
  simp only [Fits,List.filter_append,List.length_append] at h ⊢
  omega

section Scan
variable {met : List Func} {x : System σ}

/-- What a scan of a bus adds to the functions met, for the buses behind a bus. -/
def Descends (pci : Ecam σ) (s : σ) (bus : ℕ) (recurse : ℕ → System σ → System σ) (below : ℕ → List Func) : Prop :=
  ∀ c > bus, ∀ met x, Recorded pci s met x → Fits pci s (met ++ below c) → Recorded pci s (met ++ below c) (recurse c x)

theorem Recorded.devices_length (h : Recorded pci s met x) :
    x.db.devices.length = (met.filter (pci.isEndpoint s)).length := by
  have hlen := congrArg List.length h.devices
  rwa [List.length_map,List.length_map] at hlen

theorem Recorded.bridges_length (h : Recorded pci s met x) :
    x.db.bridges.length = (met.filter (pci.isBridge s)).length := by rw [h.bridges,List.length_map]

theorem Recorded.endpoint (hq : Quiet pci) (h : Recorded pci s met x) (hf : pci.isEndpoint s f = true)
    (hbr : pci.isBridge s f = false) :
    Recorded pci s (met ++ [f]) (scanEndpoint pci f (pci.idReg x.hw f) (pci.headerType x.hw f) x) := by
  have hend : pci.headerType x.hw f = headerTypeEndpoint := (h.aside.headerType f).trans (of_decide_eq_true hf)
  constructor
  case aside => exact h.aside.trans (hq.sized (sizeBars_sized f (Nat.le_refl _) x.hw) (Nat.le_refl _) hend)
  case devices =>
    simp only [scanEndpoint,List.map_append,List.filter_append,h.devices,List.filter_cons,hf,if_true,List.filter_nil,
      List.map_cons,List.map_nil,DeviceInfo.identity,endpointRecord,h.aside.idReg,h.aside.headerType]
  case bridges =>
    simp only [scanEndpoint,List.filter_append,h.bridges,List.filter_cons,hbr,Bool.false_eq_true,if_false,
      List.filter_nil,List.append_nil]

theorem Recorded.bridge (h : Recorded pci s met x) {recurse : ℕ → System σ → System σ} {below : ℕ → List Func}
    (hrec : Descends pci s f.bus recurse below) (hf : pci.isBridge s f = true) (hend : pci.isEndpoint s f = false)
    (hfits : Fits pci s (met ++ visit pci s below f)) :
    Recorded pci s (met ++ visit pci s below f)
      (scanBridge pci recurse f (pci.idReg x.hw f) (pci.headerType x.hw f) x) := by
  have hregs := h.aside.bridgeReg hf
  have hrecord : ∀ y : System σ, y.hw = x.hw → y.db.devices = x.db.devices →
      y.db.bridges = x.db.bridges ++ [bridgeRecord pci s f] → Recorded pci s (met ++ [f]) y := by
    intro y hhw hdevices hbridges
    constructor
    case aside => rw [hhw]; exact h.aside
    case devices =>
      simp only [hdevices,h.devices,List.filter_append,List.filter_cons,hend,Bool.false_eq_true,if_false,
        List.filter_nil,List.append_nil]
    case bridges =>
      simp only [hbridges,h.bridges,List.filter_append,List.filter_cons,hf,if_true,List.filter_nil,List.map_append,
        List.map_cons,List.map_nil]
  simp only [scanBridge,hregs,h.aside.idReg,h.aside.headerType]
  by_cases hlt : busByte (pci.readDword s f pciConfigPrimaryBus) 1 > f.bus
  · have hvisit : visit pci s below f = f :: below (pci.secondaryBus s f) := by
      rw [visit,hf,Bool.true_and,if_pos (decide_eq_true (show pci.secondaryBus s f > f.bus from hlt))]
    rw [hvisit,List.append_cons] at hfits ⊢
    rw [if_pos hlt]
    exact hrec _ hlt _ _ (hrecord _ rfl rfl rfl) hfits
  · have hvisit : visit pci s below f = [f] := by
      rw [visit,hf,Bool.true_and,if_neg (fun h => hlt (of_decide_eq_true (p := pci.secondaryBus s f > f.bus) h))]
    rw [hvisit,if_neg hlt]
    exact hrecord _ rfl rfl rfl

theorem Recorded.function (hq : Quiet pci) (h : Recorded pci s met x) {recurse : ℕ → System σ → System σ}
    {below : ℕ → List Func} (hrec : Descends pci s f.bus recurse below) (hf : pci.present s f = true)
    (hfits : Fits pci s (met ++ visit pci s below f)) :
    (scanFunction pci recurse f x).2 = false ∧
      Recorded pci s (met ++ visit pci s below f) (scanFunction pci recurse f x).1 := by
  have hpresent : absent (vendorOf (pci.idReg x.hw f)) = false := by
    rw [h.aside.idReg]
    simpa [Ecam.present] using hf
  have hroom : ¬x.db.devices.length ≥ maxPciDevices := by
    rw [h.devices_length]
    exact Nat.not_le.mpr (Fits.front _ _ hfits).1
  have hheader : headerOf (pci.readDword x.hw f pciConfigHeaderType) &&& 0x7F = pci.headerType s f :=
    h.aside.headerType f
  have hid : pci.readDword x.hw f pciConfigVendorId = pci.idReg x.hw f := rfl
  simp only [scanFunction,hid,hpresent,Bool.false_eq_true,if_false,hroom,hheader]
  by_cases hend : pci.headerType s f = headerTypeEndpoint
  · have hbr : pci.isBridge s f = false := by
      rw [Ecam.isBridge,hend]
      rfl
    have hvisit : visit pci s below f = [f] := by
      rw [visit,hbr,Bool.false_and,if_neg Bool.false_ne_true]
    rw [if_pos hend,hvisit,← h.aside.headerType]
    exact ⟨rfl,h.endpoint hq (decide_eq_true hend) hbr⟩
  · have hendpoint : pci.isEndpoint s f = false := decide_eq_false hend
    rw [if_neg hend]
    by_cases hbr : pci.headerType s f = headerTypeBridge
    · have hbridge : pci.isBridge s f = true := decide_eq_true hbr
      have hfull : ¬x.db.bridges.length ≥ maxPciBridges := by
        have hsum := hfits.2
        rw [visit,List.append_cons,List.filter_append,List.filter_append,List.length_append,List.length_append,
          List.filter_cons,hbridge,if_pos rfl] at hsum
        rw [h.bridges_length]
        simp only [List.filter_nil,List.length_cons,List.length_nil] at hsum
        omega
      rw [if_pos hbr,if_neg hfull,← h.aside.headerType]
      exact ⟨rfl,h.bridge hrec hbridge hendpoint hfits⟩
    · have hbridge : pci.isBridge s f = false := decide_eq_false hbr
      have hvisit : visit pci s below f = [f] := by
        rw [visit,hbridge,Bool.false_and,if_neg Bool.false_ne_true]
      rw [if_neg hbr,hvisit]
      refine ⟨rfl,h.aside,?_,?_⟩
      · simp [List.filter_append,hendpoint,h.devices]
      · simp [List.filter_append,hbridge,h.bridges]

theorem filter_flatMap {α β : Type*} (p : α → Bool) (g : α → List β) (l : List α) :
    (l.filter p).flatMap g = l.flatMap fun a => if p a then g a else [] := by
  induction l with
  | nil => rfl
  | cons a l ih =>
    rw [List.filter_cons,List.flatMap_cons]
    split
    · rw [List.flatMap_cons,ih]
    · rw [ih,List.nil_append]

theorem Recorded.device (hq : Quiet pci) {bus dev : ℕ} (h : Recorded pci s met x)
    {recurse : ℕ → System σ → System σ} {below : ℕ → List Func} (hrec : Descends pci s bus recurse below)
    (hfits : Fits pci s (met ++ (deviceFunctions pci s bus dev).flatMap (visit pci s below))) :
    (scanDevice pci recurse bus dev x).2 = false ∧
      Recorded pci s (met ++ (deviceFunctions pci s bus dev).flatMap (visit pci s below))
        (scanDevice pci recurse bus dev x).1 := by
  have hid : pci.readDword x.hw ⟨bus,dev,0⟩ 0x00 = pci.idReg s ⟨bus,dev,0⟩ := h.aside.idReg _
  have hcount : (if headerOf (pci.readDword x.hw ⟨bus,dev,0⟩ 0x0C) &&& 0x80 ≠ 0 then maxFunctions else 1) =
      pci.functions s bus dev := h.aside.functions bus dev
  rw [scanDevice,hid,deviceFunctions] at *
  cases hpresent : pci.present s ⟨bus,dev,0⟩ with
  | false =>
    have habsent : absent (vendorOf (pci.idReg s ⟨bus,dev,0⟩)) = true := by simpa [Ecam.present] using hpresent
    rw [if_pos habsent,if_neg Bool.false_ne_true,List.flatMap_nil,List.append_nil]
    exact ⟨rfl,h⟩
  | true =>
    have habsent : absent (vendorOf (pci.idReg s ⟨bus,dev,0⟩)) = false := by simpa [Ecam.present] using hpresent
    rw [hpresent,if_pos rfl,filter_flatMap,List.flatMap_map] at hfits
    rw [habsent,if_neg Bool.false_ne_true,if_pos rfl,filter_flatMap,List.flatMap_map]
    simp only [hcount]
    have hfront : ∀ v w, Fits pci s (v ++ w) → Fits pci s v := fun v w => Fits.front v w
    refine loop_produces hfront ?_ h hfits
    intro func _ met x hx hroom
    split at hroom
    · rename_i hf
      rw [if_pos hf]
      exact hx.function hq hrec hf hroom
    · rename_i hf
      rw [if_neg hf,List.append_nil]
      have hmissing : absent (vendorOf (pci.readDword x.hw ⟨bus,dev,func⟩ pciConfigVendorId)) = true := by
        change absent (vendorOf (pci.idReg x.hw ⟨bus,dev,func⟩)) = true
        rw [hx.aside.idReg]
        simpa [Ecam.present] using hf
      rw [scanFunction,if_pos hmissing]
      exact ⟨rfl,hx⟩

/-- The scan of a bus records the functions of the walk from it. -/
theorem Recorded.bus (hq : Quiet pci) (depth bus : ℕ) (h : Recorded pci s met x)
    (hfits : Fits pci s (met ++ walk pci s depth bus)) :
    Recorded pci s (met ++ walk pci s depth bus) (doPciScan pci depth bus x) := by
  induction depth generalizing bus met x with
  | zero =>
    rw [walk,List.append_nil]
    exact h
  | succ depth ih =>
    have hrec : Descends pci s bus (doPciScan pci depth) (walk pci s depth) := fun c _ met x hx hroom => ih c hx hroom
    rw [walk,busFunctions,List.flatMap_assoc] at hfits ⊢
    rw [doPciScan]
    have hfront : ∀ v w, Fits pci s (v ++ w) → Fits pci s v := fun v w => Fits.front v w
    exact (loop_produces hfront
      (fun dev _ met x hx hroom => hx.device hq hrec hroom) h hfits).2

end Scan

/-- The functions of a kind in a walk without repetition are as many as the set of them. -/
theorem length_filter_eq_ncard {l : List Func} (hl : l.Nodup) (p : Func → Bool) {S : Set Func}
    (hS : ∀ f, f ∈ S ↔ f ∈ l ∧ p f = true) : (l.filter p).length = S.ncard := by
  have hset : S = ((l.filter p).toFinset : Set Func) := by
    ext f
    rw [hS,Finset.mem_coe,List.mem_toFinset,List.mem_filter]
  rw [hset,Set.ncard_coe_finset,List.toFinset_card_of_nodup (hl.filter p)]

theorem pciScan_again {pci : Ecam σ} (bus : ℕ) {t : System σ} (ht : t.db.scanned = true) : pciScan pci bus t = t := by
  rw [pciScan,if_pos ht]

/-- The scan of an empty database records the functions of the walk from bus 0, which are those
present on the reachable buses, each once, as their registers describe them; a further scan
changes nothing. -/
theorem pciScan_complete {pci : Ecam σ} (hq : Quiet pci) (s : σ) (ht : BusTree pci s 0)
    (hendpoints : (endpoints pci s 0).ncard < 32) (hbridges : (bridges pci s 0).ncard ≤ 2) :
    let t := pciScan pci 0 ⟨s,false,[],[]⟩
    t.db.devices.map DeviceInfo.identity = ((walk pci s 256 0).filter (pci.isEndpoint s)).map (endpointRecord pci s) ∧
      t.db.bridges = ((walk pci s 256 0).filter (pci.isBridge s)).map (bridgeRecord pci s) ∧
      (walk pci s 256 0).Nodup ∧ (∀ f, f ∈ walk pci s 256 0 ↔ Reachable pci s 0 f.bus ∧ OnBus pci s f) ∧
      ∀ bus, pciScan pci bus t = t := by
  intro t
  have hnodup : (walk pci s 256 0).Nodup := ht.walk_nodup .root
  have hmem : ∀ f, f ∈ walk pci s 256 0 ↔ Reachable pci s 0 f.bus ∧ OnBus pci s f :=
    fun f => ht.mem_walk .root (by decide) (by decide)
  have hfits : Fits pci s ([] ++ walk pci s 256 0) := by
    rw [List.nil_append,Fits]
    rw [length_filter_eq_ncard hnodup (pci.isEndpoint s) (S := endpoints pci s 0) fun f => by
        rw [hmem]
        exact and_assoc.symm,
      length_filter_eq_ncard hnodup (pci.isBridge s) (S := bridges pci s 0) fun f => by
        rw [hmem]
        exact and_assoc.symm]
    exact ⟨hendpoints,hbridges⟩
  have hstart : Recorded pci s [] (⟨s,false,[],[]⟩ : System σ) := ⟨Aside.refl s,rfl,rfl⟩
  have hrecorded := hstart.bus hq 256 0 hfits
  rw [List.nil_append] at hrecorded
  exact ⟨hrecorded.devices,hrecorded.bridges,hnodup,hmem,fun bus => pciScan_again bus rfl⟩

theorem Masked.quiet {pci : Ecam σ} {mask : Reg → BitVec 32} (hm : Masked pci mask) : Quiet pci := by
  intro s r v r' hr hr'
  exact hm.other s r v r' hr fun heq => hr' (heq ▸ hr)

section Board

theorem board_isBridge (f : Func) (h : (maskedEcam boardMask).isBridge board f = true) : f = ⟨0,2,0⟩ := by
  have hheader : headerOf (board ⟨f,0x0C⟩) &&& 0x7F = headerTypeBridge := of_decide_eq_true h
  revert hheader
  rw [board]
  split_ifs <;> simp_all [headerOf,headerTypeBridge]

theorem board_present (f : Func) (h : (maskedEcam boardMask).present board f = true) :
    f ∈ ({⟨0,0,0⟩,⟨0,1,0⟩,⟨0,2,0⟩,⟨1,0,0⟩} : Set Func) := by
  have hpresent : absent (vendorOf (board ⟨f,0⟩)) = false := by
    rw [Ecam.present,Bool.not_eq_true'] at h
    exact h
  revert hpresent
  rw [board]
  split_ifs <;> simp_all [vendorOf,absent]

/-- The three endpoints of the board are found in depth-first order and its bridge with the bus behind it,
and a second scan leaves it at that. -/
theorem pciScan_complete_board :
    let t := pciScan (maskedEcam boardMask) 0 ⟨board,false,[],[]⟩
    t.db.devices.map DeviceInfo.identity = [⟨⟨0,0,0⟩,0,0x1B36,0x0008⟩,⟨⟨0,1,0⟩,0,0x1AF4,0x1041⟩,
        ⟨⟨1,0,0⟩,0,0x1AF4,0x1000⟩] ∧
      t.db.bridges = [⟨⟨0,2,0⟩,1,0x1B36,0x000C,0,1,1,0,0⟩] ∧ ∀ bus, pciScan (maskedEcam boardMask) bus t = t := by
  have hboard := pciScan_complete (masked_maskedEcam boardMask).quiet board ⟨?_,?_⟩ ?_ ?_
  · obtain ⟨hdevices,hbridges,-,-,hagain⟩ := hboard
    exact ⟨hdevices.trans (by decide +kernel),hbridges.trans (by decide +kernel),hagain⟩
  · intro f hf
    rw [board_isBridge f hf.2.2]
    decide
  · intro f hf g hg _
    rw [board_isBridge f hf.2.2,board_isBridge g hg.2.2]
  · have hsub : endpoints (maskedEcam boardMask) board 0 ⊆ ↑({⟨0,0,0⟩,⟨0,1,0⟩,⟨0,2,0⟩,⟨1,0,0⟩} : Finset Func) := by
      intro f hf
      have hmem := board_present f hf.2.1.present
      simpa using hmem
    refine (Set.ncard_le_ncard hsub (Finset.finite_toSet _)).trans_lt ?_
    rw [Set.ncard_coe_finset]
    decide
  · have hsub : bridges (maskedEcam boardMask) board 0 ⊆ ↑({⟨0,2,0⟩} : Finset Func) := by
      intro f hf
      simpa using board_isBridge f hf.2.2
    refine (Set.ncard_le_ncard hsub (Finset.finite_toSet _)).trans ?_
    rw [Set.ncard_coe_finset]
    decide

end Board

end EmbedTemplate.Pci
