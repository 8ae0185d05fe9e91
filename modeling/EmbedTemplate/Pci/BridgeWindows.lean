import EmbedTemplate.Library.Machine
import EmbedTemplate.Pci.Resources
import EmbedTemplate.Pci.MsiCapability

/-! # The windows of the bridges

The calls of `pci_config_device_resources` on the devices of a database, one after the other. Each sets
the window of one bridge around one device, whatever the bridge was set to before: the devices that
share it are covered exactly as far as the last of them reaches.
-/
namespace EmbedTemplate.Pci
open Machine
variable {σ τ : Type*}

/-- The range of a BAR lies in a window. -/
def Window.Inside (w : Window) (window : ℕ × ℕ) : Prop :=
  window.1 ≤ w.address.toNat ∧ w.address.toNat + w.size.toNat ≤ window.2

instance (w : Window) (window : ℕ × ℕ) : Decidable (w.Inside window) := inferInstanceAs (Decidable (_ ∧ _))

/-- The hardware and the devices that have been configured. -/
structure ConfigRun (σ : Type*) where
  hw : σ
  done : List DeviceInfo

section Run
variable (pci : Ecam σ) (db : Database)

def subordinateBus (s : σ) (f : Func) : ℕ := busByte (pci.readDword s f pciConfigPrimaryBus) 2

/-- The memory window that is programmed in a bridge: its first address and the one behind its last. -/
def memoryWindow (s : σ) (f : Func) : ℕ × ℕ := windowOf (pci.readDword s f pciBridgeMemBase)

/-- The device is on the secondary bus of the bridge, or on a bus further down. -/
def Behind (s : σ) (b : BridgeInfo) (dev : DeviceInfo) : Prop :=
  0 < dev.f.bus ∧ (secondaryBus pci s b.f = dev.f.bus ∨
    secondaryBus pci s b.f ≤ dev.f.bus ∧ dev.f.bus ≤ subordinateBus pci s b.f)

instance (s : σ) (b : BridgeInfo) (dev : DeviceInfo) : Decidable (Behind pci s b dev) :=
  inferInstanceAs (Decidable (_ ∧ (_ ∨ _ ∧ _)))

/-- The bridge whose window a call sets. -/
def upstream (s : σ) (dev : DeviceInfo) : Option Func :=
  if dev.f.bus > 0 then (parentBridge pci s db.bridges dev.f.bus).map BridgeInfo.f else none

/-- A call on a device of the database. -/
def configStep (r : ConfigRun σ) (dev : {dev // dev ∈ db.devices}) : Option (ConfigRun σ) :=
  some ⟨pciConfigDeviceResources pci db.bridges dev.1 r.hw,r.done ++ [dev.1]⟩

/-- The bridges above the configured devices forward all their memory BARs. -/
def Covered (r : ConfigRun σ) : Prop :=
  ∀ dev ∈ r.done, ∀ b ∈ db.bridges, Behind pci r.hw b dev → ∀ w ∈ dev.windows, w.Inside (memoryWindow pci r.hw b.f)

/-- The devices are covered behind the call. -/
def CoveredAfter (r : ConfigRun σ) (dev : {dev // dev ∈ db.devices}) : Prop :=
  ∀ u, configStep pci db r dev = some u → Covered pci db u

/-- The megabytes around the BARs of the device hold what lies behind the bridge whose window is set, and the
bridges further up forward the device already. -/
def SpanFits (r : ConfigRun σ) (dev : {dev // dev ∈ db.devices}) : Prop :=
  ∀ b ∈ db.bridges,
    (upstream pci db r.hw dev.1 = some b.f → ∀ e ∈ r.done ++ [dev.1], Behind pci r.hw b e →
      ∀ w ∈ e.windows, w.Inside (roundedWindow (resourceSpan dev.1.bars).1 (resourceSpan dev.1.bars).2)) ∧
    (upstream pci db r.hw dev.1 ≠ some b.f → Behind pci r.hw b dev.1 →
      ∀ w ∈ dev.1.windows, w.Inside (memoryWindow pci r.hw b.f))

instance (r : ConfigRun σ) (dev : {dev // dev ∈ db.devices}) : Decidable (SpanFits pci db r dev) :=
  inferInstanceAs (Decidable (∀ b ∈ db.bridges, _ ∧ _))

/-- The functions of the database are endpoints and bridges of the hardware. -/
structure HeadersIn (s : σ) : Prop where
  device : ∀ dev ∈ db.devices, EndpointIn pci s dev
  bridge : ∀ b ∈ db.bridges, b.headerType = headerTypeBridge ∧ pci.headerType s b.f = headerTypeBridge

end Run

section Span

/-- The BAR has an address, and its range ends below 4 GiB. -/
def Bar.Addressable (bar : Bar) : Prop :=
  bar.size ≠ 0 → bar.address ≠ 0 ∧ bar.address.toNat + bar.size.toNat ≤ 2 ^ 32

/-- The range of a BAR lies from the one address to the other. -/
def Bar.Between (bar : Bar) (base limit : ℕ) : Prop :=
  bar.size ≠ 0 → base ≤ bar.address.toNat ∧ bar.address.toNat + bar.size.toNat ≤ limit + 1

/-- The span after a BAR lies between two addresses if the one before and the BAR do. -/
theorem spanBar_hull (span : BitVec 32 × BitVec 32) {bar : Bar} (h : bar.Addressable) (base limit : ℕ) :
    (base ≤ (spanBar span bar).1.toNat ∧ (spanBar span bar).2.toNat ≤ limit) ↔
      (base ≤ span.1.toNat ∧ span.2.toNat ≤ limit) ∧ bar.Between base limit := by
  unfold spanBar Bar.Between
  by_cases hsize : bar.size = 0
  · rw [if_neg (by rw [hsize]; exact fun hboth => absurd hboth.1 (by decide))]
    exact ⟨fun hspan => ⟨hspan,fun hne => absurd hsize hne⟩,fun hspan => hspan.1⟩
  · obtain ⟨haddress,hend⟩ := h hsize
    have hpos : 0 < bar.size.toNat := Nat.pos_of_ne_zero fun hzero => hsize (BitVec.eq_of_toNat_eq hzero)
    have hlast : (bar.address + bar.size - 1#32).toNat = bar.address.toNat + bar.size.toNat - 1 := by
      have hlt := bar.address.isLt
      rw [BitVec.toNat_sub,BitVec.toNat_add]
      simp only [BitVec.toNat_ofNat]
      omega
    rw [if_pos ⟨BitVec.lt_def.mpr hpos,haddress⟩]
    simp only [gt_iff_lt,BitVec.lt_def,hlast,ne_eq,hsize,not_false_eq_true,forall_const]
    split_ifs <;> omega

theorem foldl_spanBar_hull {bars : List Bar} (h : ∀ bar ∈ bars, bar.Addressable) (span : BitVec 32 × BitVec 32)
    (base limit : ℕ) : (base ≤ (bars.foldl spanBar span).1.toNat ∧ (bars.foldl spanBar span).2.toNat ≤ limit) ↔
      (base ≤ span.1.toNat ∧ span.2.toNat ≤ limit) ∧ ∀ bar ∈ bars, bar.Between base limit := by
  induction bars generalizing span with
  | nil => simp
  | cons bar bars ih =>
    rw [List.foldl_cons,ih (fun b hb => h b (List.mem_cons_of_mem _ hb)),spanBar_hull span (h bar List.mem_cons_self),
      List.forall_mem_cons,and_assoc]

/-- The span of a device is the hull of its BARs: it lies between two addresses exactly if all of them do. -/
theorem resourceSpan_hull {bars : List Bar} (h : ∀ bar ∈ bars, bar.Addressable) {base limit : ℕ} (hbase : base < 2 ^ 32) :
    (base ≤ (resourceSpan bars).1.toNat ∧ (resourceSpan bars).2.toNat ≤ limit) ↔
      ∀ bar ∈ bars, bar.Between base limit := by
  have hstart : base ≤ (0xFFFFFFFF#32).toNat ∧ (0#32).toNat ≤ limit := ⟨Nat.le_of_lt_succ hbase,Nat.zero_le limit⟩
  unfold resourceSpan
  rw [foldl_spanBar_hull h]
  exact and_iff_right hstart

theorem mem_barWindows {f : Func} {bars : List Bar} {i : ℕ} {w : Window} (h : w ∈ barWindows f i bars) :
    ∃ bar ∈ bars, bar.size ≠ 0 ∧ w.size = bar.size ∧ w.address = bar.address := by
  induction bars generalizing i with
  | nil => cases h
  | cons bar bars ih =>
    rw [barWindows] at h
    split at h
    · obtain ⟨b,hb,hw⟩ := ih h
      exact ⟨b,List.mem_cons_of_mem _ hb,hw⟩
    · rcases List.mem_cons.mp h with rfl | h
      · exact ⟨bar,List.mem_cons_self ..,‹_›,rfl,rfl⟩
      · obtain ⟨b,hb,hw⟩ := ih h
        exact ⟨b,List.mem_cons_of_mem _ hb,hw⟩

/-- Whole megabytes. -/
theorem and_megabytes (v : BitVec 32) : (v &&& 0xFFF00000).toNat = v.toNat / 2 ^ 20 * 2 ^ 20 := by
  rw [← BumpAllocator.toNat_clear_low (show 20 < 32 by decide) v]
  congr 2

/-- The window around a device holds its own BARs, unless the allocation ran past the end. -/
theorem DeviceInfo.inside_own {dev : DeviceInfo} (h : ∀ bar ∈ dev.bars, bar.Addressable) {w : Window}
    (hw : w ∈ dev.windows) : w.Inside (roundedWindow (resourceSpan dev.bars).1 (resourceSpan dev.bars).2) := by
  unfold DeviceInfo.windows at hw
  split at hw
  · obtain ⟨bar,hbar,hsize,hwsize,hwaddress⟩ := mem_barWindows hw
    have hhull := (resourceSpan_hull h (resourceSpan dev.bars).1.isLt).mp ⟨le_rfl,le_rfl⟩
    obtain ⟨hfrom,hto⟩ := hhull bar hbar hsize
    have hpos : 0 < bar.size.toNat := Nat.pos_of_ne_zero fun hzero => hsize (BitVec.eq_of_toNat_eq hzero)
    have haddress : 0 < bar.address.toNat :=
      Nat.pos_of_ne_zero fun hzero => (h bar hbar hsize).1 (BitVec.eq_of_toNat_eq hzero)
    have hlimit : (resourceSpan dev.bars).2 ≠ 0 := by
      intro hzero
      rw [hzero] at hto
      have hnone : (0 : BitVec 32).toNat = 0 := rfl
      omega
    unfold roundedWindow Window.Inside
    rw [if_pos hlimit,hwsize,hwaddress]
    dsimp only
    rw [and_megabytes,and_megabytes]
    constructor <;> omega
  · cases hw

end Span

section Step
variable {pci : Ecam σ} {db : Database} {mask : Reg → BitVec 32} {s t : σ}

theorem HeadersIn.of_header (h : HeadersIn pci db s) (hheader : ∀ f, pci.headerType t f = pci.headerType s f) :
    HeadersIn pci db t where
  device dev hdev := by
    obtain ⟨htype,hf,hlength⟩ := h.device dev hdev
    exact ⟨htype,(hheader dev.f).trans hf,hlength⟩
  bridge b hb := ⟨(h.bridge b hb).1,(hheader b.f).trans (h.bridge b hb).2⟩

/-- A bridge of the hardware keeps its bus numbers, and the call sets the window of one of them. -/
structure Configures (pci : Ecam σ) (db : Database) (s t : σ) (dev : DeviceInfo) : Prop where
  header : ∀ f, pci.headerType t f = pci.headerType s f
  buses : ∀ f, pci.headerType s f = headerTypeBridge → pci.read t ⟨f,0x18⟩ = pci.read s ⟨f,0x18⟩
  window : ∀ f, pci.headerType s f = headerTypeBridge → memoryWindow pci t f =
    if upstream pci db s dev = some f then roundedWindow (resourceSpan dev.bars).1 (resourceSpan dev.bars).2
    else memoryWindow pci s f

theorem setUpstreamWindow_configures (hw : BridgeSpec pci) (hrec : HeadersIn pci db s) (dev : DeviceInfo) :
    Configures pci db s (setUpstreamWindow pci db.bridges dev s) dev := by
  have hnothing : upstream pci db s dev = none → Configures pci db s s dev := fun hnone =>
    ⟨fun _ => rfl,fun _ _ => rfl,fun _ _ => by rw [hnone,if_neg (by simp)]⟩
  unfold setUpstreamWindow
  by_cases hbus : dev.f.bus > 0
  · rw [if_pos hbus]
    cases hparent : parentBridge pci s db.bridges dev.f.bus with
    | none =>
      apply hnothing
      rw [upstream,if_pos hbus,hparent,Option.map_none]
    | some b =>
      have hbridge := (hrec.bridge b (List.mem_of_find?_eq_some hparent)).2
      have hsets := hw.setBridgeWindow hbridge (resourceSpan dev.bars).1 (resourceSpan dev.bars).2
      have hupstream : upstream pci db s dev = some b.f := by rw [upstream,if_pos hbus,hparent,Option.map_some]
      refine ⟨hsets.header,fun f _ => hsets.buses f,fun f _ => ?_⟩
      rw [hupstream]
      by_cases hf : b.f = f
      · subst hf
        rw [if_pos rfl]
        exact hsets.sets
      · rw [if_neg fun h => hf (Option.some.inj h)]
        exact congrArg windowOf (hsets.other f (Ne.symm hf))
  · rw [if_neg hbus]
    apply hnothing
    rw [upstream,if_neg hbus]

/-- Behind the window, only registers of the device are written. -/
theorem configures (hm : Masked pci mask) (ha : Apart pci) (hw : BridgeSpec pci) (hrec : HeadersIn pci db s)
    {dev : DeviceInfo} (hdev : dev ∈ db.devices) :
    Configures pci db s (pciConfigDeviceResources pci db.bridges dev s) dev := by
  obtain ⟨_,hf,hlength⟩ := hrec.device dev hdev
  have hset := setUpstreamWindow_configures hw hrec dev
  have hcommand := ha.command (setUpstreamWindow pci db.bridges dev s) dev.f
    (pci.readDword (setUpstreamWindow pci db.bridges dev s) dev.f pciConfigCommand &&& ~~~0x3)
  have hbars := hm.programBars_same (f := dev.f) (((hcommand.header _).trans (hset.header _)).trans hf)
    (i := 0) (show 0 + dev.bars.length ≤ maxBars by omega)
  have hrest := hcommand.trans (hbars.trans (ha.enable dev.f _))
  refine ⟨fun f => (hrest.header f).trans (hset.header f),fun f hbridge => ?_,fun f hbridge => ?_⟩
  · exact (hrest.buses f ((hset.header f).trans hbridge)).trans (hset.buses f hbridge)
  · rw [← hset.window f hbridge]
    exact congrArg windowOf (hrest.window f ((hset.header f).trans hbridge))

theorem Configures.behind_iff {dev e : DeviceInfo} {b : BridgeInfo} (h : Configures pci db s t dev)
    (hb : pci.headerType s b.f = headerTypeBridge) : Behind pci t b e ↔ Behind pci s b e := by
  have hread : pci.readDword t b.f pciConfigPrimaryBus = pci.readDword s b.f pciConfigPrimaryBus := h.buses b.f hb
  unfold Behind secondaryBus subordinateBus
  rw [hread]

/-- A call covers the devices exactly if they fit, when those before it are covered. -/
theorem coveredAfter_iff (hm : Masked pci mask) (ha : Apart pci) (hw : BridgeSpec pci) {r : ConfigRun σ}
    (hrec : HeadersIn pci db r.hw) (hcovered : Covered pci db r) (dev : {dev // dev ∈ db.devices}) :
    CoveredAfter pci db r dev ↔ SpanFits pci db r dev := by
  have hconfig := configures hm ha hw hrec dev.2
  constructor
  · intro h b hb
    have hbridge := (hrec.bridge b hb).2
    have hafter := h _ rfl
    constructor
    · intro hup e he hbehind w hmem
      have hinside := hafter e he b hb ((hconfig.behind_iff hbridge).mpr hbehind) w hmem
      dsimp only at hinside
      rwa [hconfig.window b.f hbridge,if_pos hup] at hinside
    · intro hup hbehind w hmem
      have hinside := hafter dev.1 (List.mem_append_right _ (List.mem_singleton_self _)) b hb
        ((hconfig.behind_iff hbridge).mpr hbehind) w hmem
      dsimp only at hinside
      rwa [hconfig.window b.f hbridge,if_neg hup] at hinside
  · rintro h u ⟨⟩ e he b hb hbehind w hmem
    have hbridge := (hrec.bridge b hb).2
    have hbefore := (hconfig.behind_iff hbridge).mp hbehind
    dsimp only
    rw [hconfig.window b.f hbridge]
    by_cases hup : upstream pci db r.hw dev.1 = some b.f
    · rw [if_pos hup]
      exact (h b hb).1 hup e he hbefore w hmem
    · rw [if_neg hup]
      rcases List.mem_append.mp he with he | he
      · exact hcovered e he b hb hbefore w hmem
      · rw [List.mem_singleton.mp he] at hbefore hmem
        exact (h b hb).2 hup hbefore w hmem

/-- The device is behind the bridge whose window a call sets. -/
theorem behind_of_upstream {b : BridgeInfo} {dev : DeviceInfo} (h : upstream pci db s dev = some b.f) :
    Behind pci s b dev := by
  unfold upstream at h
  split at h
  next hbus =>
    obtain ⟨parent,hparent,hf⟩ := Option.map_eq_some_iff.mp h
    have hfound := List.find?_some hparent
    rw [decide_eq_true_eq,hf] at hfound
    exact ⟨hbus,.inl hfound.2⟩
  next => cases h

/-- A device fits that is the first one behind its bridge, if no other bridge is above it. -/
theorem spanFits_of_alone {r : ConfigRun σ} {dev : {dev // dev ∈ db.devices}}
    (haddressable : ∀ bar ∈ dev.1.bars, bar.Addressable)
    (halone : ∀ e ∈ r.done, ∀ b ∈ db.bridges, Behind pci r.hw b dev.1 → ¬Behind pci r.hw b e)
    (hparent : ∀ b ∈ db.bridges, Behind pci r.hw b dev.1 → upstream pci db r.hw dev.1 = some b.f) :
    SpanFits pci db r dev := by
  intro b hb
  refine ⟨fun hup e he hbehind w hw => ?_,fun hup hbehind => absurd (hparent b hb hbehind) hup⟩
  rcases List.mem_append.mp he with he | he
  · exact absurd hbehind (halone e he b hb (behind_of_upstream hup))
  · rw [List.mem_singleton.mp he] at hw
    exact DeviceInfo.inside_own haddressable hw

/-- The calls of a run cover the devices one after the other exactly if each of them fits. -/
theorem meets_coveredAfter_iff (hm : Masked pci mask) (ha : Apart pci) (hw : BridgeSpec pci)
    (hrec : HeadersIn pci db s) (calls : List {dev // dev ∈ db.devices}) :
    Meets (configStep pci db) (CoveredAfter pci db) ⟨s,[]⟩ calls ↔
      Meets (configStep pci db) (SpanFits pci db) ⟨s,[]⟩ calls := by
  refine meets_congr_guarded (I := fun r => HeadersIn pci db r.hw ∧ Covered pci db r) (configStep pci db) ?_
    (fun r dev h => coveredAfter_iff hm ha hw h.1 h.2 dev) ⟨hrec,fun dev hdev => (by cases hdev)⟩ calls
  rintro r dev u ⟨hr,_⟩ hafter ⟨⟩
  exact ⟨hr.of_header (configures hm ha hw hr dev.2).header,hafter _ rfl⟩

end Step

section Database
variable {pci : Ecam σ} {mask : Reg → BitVec 32}

/-- A scan records endpoints as devices and bridges as bridges. -/
theorem Masked.headersIn_pciScan (hm : Masked pci mask) (bus : ℕ) (s : σ) :
    HeadersIn pci (Pci.pciScan pci bus ⟨s,false,[],[]⟩).db (Pci.pciScan pci bus ⟨s,false,[],[]⟩).hw := by
  have hempty : HeadersIn pci ⟨false,[],[]⟩ s := ⟨fun dev hdev => (by cases hdev),fun b hb => (by cases hb)⟩
  suffices h : HeadersIn pci (doPciScan pci 256 bus ⟨s,false,[],[]⟩).db (doPciScan pci 256 bus ⟨s,false,[],[]⟩).hw from
    ⟨h.device,h.bridge⟩
  refine doPciScan_keeps (I := fun x => HeadersIn pci x.db x.hw) ?_ ?_ 256 bus hempty
  · intro x f idReg hf hx
    have hsized : Sized pci f maxBars x.hw _ _ := sizeBars_sized f (Nat.le_refl maxBars) x.hw
    have hsame := hm.sized hsized (Nat.le_refl _) hf
    have hheader : ∀ g, pci.headerType (scanEndpoint pci f idReg (pci.headerType x.hw f) x).hw g =
        pci.headerType x.hw g := by
      intro g
      unfold Ecam.headerType
      exact congrArg (fun v => headerOf v &&& 0x7F) (hsame _)
    have hold := hx.of_header hheader
    refine ⟨fun dev hdev => ?_,hold.bridge⟩
    rcases List.mem_append.mp hdev with hdev | hdev
    · exact hold.device dev hdev
    · rw [List.mem_singleton.mp hdev]
      exact ⟨hf,(hheader f).trans hf,hsized.length.le⟩
  · intro x bridge htype hf hx
    refine ⟨hx.device,fun b hb => ?_⟩
    rcases List.mem_append.mp hb with hb | hb
    · exact hx.bridge b hb
    · rw [List.mem_singleton.mp hb]
      exact ⟨htype,hf⟩

theorem allocBars_length (f : Func) (i : ℕ) (bars : List Bar) (a : Alloc σ τ) :
    (allocBars pci f i bars a).2.length = bars.length := by
  induction bars generalizing i a with
  | nil => rfl
  | cons bar bars ih =>
    rw [allocBars]
    split
    · exact congrArg Nat.succ (ih _ _)
    · exact congrArg Nat.succ (ih _ _)

variable {registerMsiVector : τ → DeviceInfo → τ × Option ℕ} {msiBase : BitVec 32}

theorem allocDevice_info (dev : DeviceInfo) (a : Alloc σ τ) :
    (allocDevice pci registerMsiVector msiBase dev a).2.f = dev.f ∧
      (allocDevice pci registerMsiVector msiBase dev a).2.headerType = dev.headerType ∧
      (allocDevice pci registerMsiVector msiBase dev a).2.bars.length = dev.bars.length := by
  rw [allocDevice]
  split
  · exact ⟨rfl,rfl,rfl⟩
  · split
    · exact ⟨rfl,rfl,allocBars_length _ _ _ _⟩
    · split
      · exact ⟨rfl,rfl,rfl⟩
      · exact ⟨rfl,rfl,rfl⟩

/-- The allocation only gives other addresses to the BARs of the devices. -/
theorem mem_allocDevices {dev : DeviceInfo} {devs : List DeviceInfo} {a : Alloc σ τ}
    (hdev : dev ∈ (allocDevices pci registerMsiVector msiBase devs a).2) :
    ∃ d ∈ devs, dev.f = d.f ∧ dev.headerType = d.headerType ∧ dev.bars.length = d.bars.length := by
  induction devs generalizing a with
  | nil => cases hdev
  | cons d devs ih =>
    rw [allocDevices] at hdev
    rcases List.mem_cons.mp hdev with rfl | hdev
    · exact ⟨d,List.mem_cons_self ..,allocDevice_info d a⟩
    · obtain ⟨e,he,hinfo⟩ := ih hdev
      exact ⟨e,List.mem_cons_of_mem _ he,hinfo⟩

theorem HeadersIn.pciAlloc (hm : Masked pci mask) (ha : Apart pci) {x : System σ} (h : HeadersIn pci x.db x.hw)
    (freeMmio : BitVec 32) (platform : τ) :
    HeadersIn pci (pciAlloc pci registerMsiVector msiBase freeMmio platform x).db
      (pciAlloc pci registerMsiVector msiBase freeMmio platform x).hw := by
  obtain ⟨hwrote,_⟩ := allocDevices_spec registerMsiVector msiBase hm ha (a := ⟨x.hw,freeMmio,platform⟩) h.device
  have hold := h.of_header hwrote.header
  refine ⟨fun dev hdev => ?_,hold.bridge⟩
  obtain ⟨d,hd,hf,htype,hlength⟩ := mem_allocDevices hdev
  unfold EndpointIn
  rw [hf,htype,hlength]
  exact hold.device d hd

/-- Behind a scan and an allocation, the calls leave every device covered exactly if each of them fits. -/
theorem windows_cover_iff (hm : Masked pci mask) (ha : Apart pci) (hw : BridgeSpec pci) (bus : ℕ) (s : σ)
    (freeMmio : BitVec 32) (platform : τ) :
    let y := pciAlloc pci registerMsiVector msiBase freeMmio platform (pciScan pci bus ⟨s,false,[],[]⟩)
    ∀ calls : List {dev // dev ∈ y.db.devices},
      Meets (configStep pci y.db) (CoveredAfter pci y.db) ⟨y.hw,[]⟩ calls ↔
        Meets (configStep pci y.db) (SpanFits pci y.db) ⟨y.hw,[]⟩ calls := by
  intro y calls
  have hrec : HeadersIn pci y.db y.hw := (hm.headersIn_pciScan bus s).pciAlloc hm ha freeMmio platform
  exact meets_coveredAfter_iff hm ha hw hrec calls

end Database

section Wired
variable {mask wired : Reg → BitVec 32}

theorem windowBits_wired {m : BitVec 32} (h : m &&& windowBits = windowBits) (v w : BitVec 32) :
    ((v &&& m) ||| (w &&& ~~~m)) &&& windowBits = v &&& windowBits := by
  apply BitVec.eq_of_getLsbD_eq
  intro i hi
  have hbit := congrArg (fun v => v.getLsbD i) h
  simp only [BitVec.getLsbD_and] at hbit
  rw [BitVec.getLsbD_and,getLsbD_masked _ _ _ hi,BitVec.getLsbD_and]
  cases hm : m.getLsbD i with
  | true => rw [if_pos rfl]
  | false =>
    rw [hm,Bool.false_and] at hbit
    rw [← hbit,Bool.and_false,Bool.and_false]

theorem windowBits_half {x y : BitVec 32} (h : x &&& windowBits = y &&& windowBits) (v half : BitVec 32) :
    (v ||| (x &&& half)) &&& windowBits = (v ||| (y &&& half)) &&& windowBits := by
  rw [BitVec.and_or_distrib_right,BitVec.and_or_distrib_right,BitVec.and_assoc,BitVec.and_assoc,
    BitVec.and_comm half,← BitVec.and_assoc,← BitVec.and_assoc,h]

/-- A half of the window register is written, the other half is as it was read. -/
theorem windowBits_writeWord {f : Func} (h : mask ⟨f,0x20⟩ &&& windowBits = windowBits) (s : Reg → BitVec 32) (v : BitVec 16)
    (offset : ℕ) (hoffset : offset / 4 * 4 = 0x20) :
    (wiredEcam mask wired).read ((wiredEcam mask wired).writeWord s ⟨f,offset⟩ v) ⟨f,0x20⟩ &&& windowBits =
      (v.setWidth 32 <<< (8 * (offset % 4)) |||
        ((wiredEcam mask wired).read s ⟨f,0x20⟩ &&& ~~~((0xFFFF : BitVec 32) <<< (8 * (offset % 4))))) &&& windowBits := by
  have hread : s ⟨f,0x20⟩ &&& windowBits = (wiredEcam mask wired).read s ⟨f,0x20⟩ &&& windowBits :=
    (windowBits_wired h _ _).symm
  have hwrite : (wiredEcam mask wired).read ((wiredEcam mask wired).writeWord s ⟨f,offset⟩ v) ⟨f,0x20⟩ &&& windowBits =
      (v.setWidth 32 <<< (8 * (offset % 4)) |||
        (s ⟨f,0x20⟩ &&& ~~~((0xFFFF : BitVec 32) <<< (8 * (offset % 4))))) &&& windowBits := by
    simp only [wiredEcam,hoffset,Function.update_self]
    exact windowBits_wired h _ _
  exact hwrite.trans (windowBits_half hread _ _)

theorem bridgeSpec_wiredEcam (h : ∀ s f, (wiredEcam mask wired).headerType s f = headerTypeBridge →
    mask ⟨f,0x20⟩ &&& windowBits = windowBits) : BridgeSpec (wiredEcam mask wired) where
  dword s f v hf := by
    simp only [wiredEcam,Function.update_self]
    exact windowBits_wired (h s f hf) v _
  base s f v hf := by
    have hword : (wiredEcam mask wired).read ((wiredEcam mask wired).writeWord s ⟨f,0x20⟩ v) ⟨f,0x20⟩ &&& windowBits =
        (v.setWidth 32 <<< 0 ||| ((wiredEcam mask wired).read s ⟨f,0x20⟩ &&& 0xFFFF0000)) &&& windowBits :=
      windowBits_writeWord (h s f hf) s v 0x20 rfl
    rwa [BitVec.shiftLeft_zero] at hword
  limit s f v hf := windowBits_writeWord (h s f hf) s v 0x22 rfl
  dwordApart s f v r _ hne _ := by simp only [wiredEcam,Function.update_of_ne hne]
  wordApart s f v r offset _ hoffset hne _ := by
    have hne' : r ≠ ⟨f,offset / 4 * 4⟩ := by rcases hoffset with rfl | rfl <;> exact hne
    simp only [wiredEcam,Function.update_of_ne hne']

end Wired

/-- A bridge with two devices behind it that have a window each. -/
def sharedBoard (r : Reg) : BitVec 32 :=
  if r.f = ⟨0,1,0⟩ then
    if r.offset = 0 then 0x000C1B36 else if r.offset = 0x0C then 0x00010000 else if r.offset = 0x18 then 0x00010100 else 0
  else if r.f = ⟨1,0,0⟩ ∨ r.f = ⟨1,1,0⟩ then if r.offset = 0 then 0x10001AF4 else 0
  else if r.offset < 0x10 then 0xFFFFFFFF else 0

section Shared
variable (barMask : BitVec 32)

def sharedMasks (r : Reg) : BitVec 32 :=
  if r.f = ⟨0,1,0⟩ then if r.offset = 0x20 then windowBits else 0
  else if r.f = ⟨1,0,0⟩ ∨ r.f = ⟨1,1,0⟩ then
    if r.offset = 0x04 then 0xFFFF else if r.offset = 0x10 then barMask else 0
  else 0

def sharedEcam : Ecam (Reg → BitVec 32) := wiredEcam (sharedMasks barMask) sharedBoard

def sharedState (r : Reg) : BitVec 32 := if r.offset = 0x10 then 0xFE000000 else 0

theorem apart_sharedEcam : Apart (sharedEcam barMask) := by
  refine apart_wiredEcam fun s f capPtr h => ?_
  have hmask : sharedMasks barMask ⟨f,0x34⟩ = 0 := by
    rw [sharedMasks]
    split_ifs <;> simp_all
  have hboard : sharedBoard ⟨f,0x34⟩ = 0 := by
    rw [sharedBoard]
    split_ifs <;> simp_all
  have hfirst : firstCap (wiredEcam (sharedMasks barMask) sharedBoard) s f = 0 := by
    have hread : (wiredEcam (sharedMasks barMask) sharedBoard).readDword s f 0x34 &&& 0xFF =
        sharedBoard ⟨f,0x34⟩ &&& 0xFF :=
      wiredEcam_and s (show sharedMasks barMask ⟨f,0x34⟩ &&& 0xFF = 0 by rw [hmask]; exact BitVec.zero_and)
    rw [firstCap,hread,hboard]
    rfl
  have hzero : capPtr = 0 := by
    induction h with
    | first => exact hfirst
    | next _ hne ih => exact absurd ih hne
  exact .inl hzero

theorem bridgeSpec_sharedEcam : BridgeSpec (sharedEcam barMask) := by
  refine bridgeSpec_wiredEcam fun s f hf => ?_
  have hbridge : f = ⟨0,1,0⟩ := by
    by_contra hno
    simp [Ecam.headerType,wiredEcam,sharedMasks,sharedBoard,hno,pciConfigHeaderType,headerTypeBridge,headerOf] at hf
    split_ifs at hf <;> simp_all
  rw [hbridge]
  exact (BitVec.and_self : windowBits &&& windowBits = windowBits)

/-- The board behind the scan and the allocation on an ARM board. -/
def sharedSystem : System (Reg → BitVec 32) :=
  pciAlloc (sharedEcam barMask) (fun (t : Unit) _ => (t,none)) 0x08020040 (BitVec.ofNat 32 Arch.arm.mmioBase) ()
    (pciScan (sharedEcam barMask) 0 ⟨sharedState,false,[],[]⟩)

end Shared

/-- The masks of windows of a page and of a megabyte. -/
def pageMask : BitVec 32 := 0xFFFFF000
def megabyteMask : BitVec 32 := 0xFFF00000

def sharedDevice (dev : ℕ) (size address : BitVec 32) : DeviceInfo :=
  ⟨⟨1,dev,0⟩,0,0x1AF4,0x1000,⟨size,address⟩ :: List.replicate 5 ⟨0,0⟩⟩

theorem pagedSystem_devices : (sharedSystem pageMask).db.devices =
    [sharedDevice 0 0x1000 0x14000000,sharedDevice 1 0x1000 0x14001000] := by
  decide +kernel

def firstPaged : {dev // dev ∈ (sharedSystem pageMask).db.devices} :=
  ⟨sharedDevice 0 0x1000 0x14000000,by rw [pagedSystem_devices]; exact List.mem_cons_self ..⟩

def secondPaged : {dev // dev ∈ (sharedSystem pageMask).db.devices} :=
  ⟨sharedDevice 1 0x1000 0x14001000,by rw [pagedSystem_devices]; exact List.mem_cons_of_mem _ (List.mem_cons_self ..)⟩

/-- Two devices with windows in the same megabyte are covered, also when the first is configured again. -/
theorem windows_cover_iff_paged :
    Meets (configStep (sharedEcam pageMask) (sharedSystem pageMask).db)
      (CoveredAfter (sharedEcam pageMask) (sharedSystem pageMask).db) ⟨(sharedSystem pageMask).hw,[]⟩
      [firstPaged,secondPaged,firstPaged] :=
  (windows_cover_iff (masked_wiredEcam (sharedMasks pageMask) sharedBoard) (apart_sharedEcam pageMask)
    (bridgeSpec_sharedEcam pageMask) 0 sharedState (BitVec.ofNat 32 Arch.arm.mmioBase) ()
    [firstPaged,secondPaged,firstPaged]).mpr (by decide +kernel)

theorem sharedSystem_devices : (sharedSystem megabyteMask).db.devices =
    [sharedDevice 0 0x100000 0x14000000,sharedDevice 1 0x100000 0x14100000] := by
  decide +kernel

def firstShared : {dev // dev ∈ (sharedSystem megabyteMask).db.devices} :=
  ⟨sharedDevice 0 0x100000 0x14000000,by rw [sharedSystem_devices]; exact List.mem_cons_self ..⟩

def secondShared : {dev // dev ∈ (sharedSystem megabyteMask).db.devices} :=
  ⟨sharedDevice 1 0x100000 0x14100000,by rw [sharedSystem_devices]; exact List.mem_cons_of_mem _ (List.mem_cons_self ..)⟩

/-- With the second device the window has moved away from the first one. -/
theorem shared_not_covered : Masked (sharedEcam megabyteMask) (sharedMasks megabyteMask) ∧ Apart (sharedEcam megabyteMask) ∧
    BridgeSpec (sharedEcam megabyteMask) ∧
    ¬Meets (configStep (sharedEcam megabyteMask) (sharedSystem megabyteMask).db)
      (CoveredAfter (sharedEcam megabyteMask) (sharedSystem megabyteMask).db) ⟨(sharedSystem megabyteMask).hw,[]⟩
      [firstShared,secondShared] := by
  refine ⟨masked_wiredEcam _ _,apart_sharedEcam _,bridgeSpec_sharedEcam _,fun h => ?_⟩
  have hcovered := (h.2 _ rfl).1 _ rfl
  obtain ⟨b,hb,hbehind,hbeyond⟩ : ∃ b ∈ (sharedSystem megabyteMask).db.bridges,
      Behind (sharedEcam megabyteMask) (pciConfigDeviceResources (sharedEcam megabyteMask)
        (sharedSystem megabyteMask).db.bridges secondShared.1 (pciConfigDeviceResources (sharedEcam megabyteMask)
        (sharedSystem megabyteMask).db.bridges firstShared.1 (sharedSystem megabyteMask).hw)) b firstShared.1 ∧
      ¬(⟨⟨1,0,0⟩,0,0x100000,0x14000000⟩ : Window).Inside (memoryWindow (sharedEcam megabyteMask)
        (pciConfigDeviceResources (sharedEcam megabyteMask) (sharedSystem megabyteMask).db.bridges secondShared.1
          (pciConfigDeviceResources (sharedEcam megabyteMask) (sharedSystem megabyteMask).db.bridges firstShared.1
            (sharedSystem megabyteMask).hw)) b.f) := by
    decide +kernel
  exact hbeyond (hcovered firstShared.1 (List.mem_cons_self ..) b hb hbehind _ (by decide +kernel))

end EmbedTemplate.Pci
