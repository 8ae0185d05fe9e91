import EmbedTemplate.Pci.MsiDelivery
import EmbedTemplate.Pci.Windows

/-! # The programming of the MSI capability

`pci_alloc_irq_vectors` writes the address, the vector and the enable bit to the capability
that the search has found. Bit 7 of message control tells whether the capability has an
upper address register, behind which the message data moves by a dword. The code always
writes as if it had one.
-/
namespace EmbedTemplate.Pci

/-- A dword register with a mask of writable bits, which is written as a whole or by halves. -/
structure MaskedReg {σ : Type*} (pci : Ecam σ) (mask : BitVec 32) (r : Reg) : Prop where
  dword : ∀ s v, pci.read (pci.write s r v) r = (v &&& mask) ||| (pci.read s r &&& ~~~mask)
  low : ∀ s v, pci.read (pci.writeWord s r v) r =
    (v.setWidth 32 &&& (mask &&& 0xFFFF)) ||| (pci.read s r &&& ~~~(mask &&& 0xFFFF))
  high : ∀ s v, pci.read (pci.writeWord s ⟨r.f,r.offset + 2⟩ v) r =
    (v.setWidth 32 <<< 16 &&& (mask &&& 0xFFFF0000)) ||| (pci.read s r &&& ~~~(mask &&& 0xFFFF0000))

/-- Where the message data lies. -/
def msiData (wide : Bool) : ℕ := if wide then 0x0C else 0x08

/-- An MSI capability in the registers of a function, with or without an upper address register. -/
structure MsiCapability {σ : Type*} (pci : Ecam σ) (mask : Reg → BitVec 32) (f : Func) (cap : ℕ)
    (wide : Bool) : Prop where
  aligned : 4 ∣ cap
  dwordApart : ∀ s v r k, k < 0x10 → r ≠ ⟨f,cap + k⟩ → 4 ∣ r.offset →
    pci.read (pci.write s ⟨f,cap + k⟩ v) r = pci.read s r
  wordApart : ∀ s v r k, k < 0x10 → r ≠ ⟨f,(cap + k) / 4 * 4⟩ → 4 ∣ r.offset →
    pci.read (pci.writeWord s ⟨f,cap + k⟩ v) r = pci.read s r
  layout : ∀ s, (pci.read s ⟨f,cap⟩).getLsbD 23 = wide
  control : MaskedReg pci (mask ⟨f,cap⟩) ⟨f,cap⟩ ∧ (mask ⟨f,cap⟩).getLsbD 16 = true
  address : MaskedReg pci 0xFFFFFFFC ⟨f,cap + 4⟩ ∧ ∀ s, pci.read s ⟨f,cap + 4⟩ &&& 0x03 = 0
  upper : wide = true → MaskedReg pci 0xFFFFFFFF ⟨f,cap + 8⟩
  data : MaskedReg pci (mask ⟨f,cap + msiData wide⟩) ⟨f,cap + msiData wide⟩ ∧
    mask ⟨f,cap + msiData wide⟩ &&& 0xFFFF = 0xFFFF

/-- The bits of a register that MSI is programmed with. -/
def msiFields (f : Func) (cap : ℕ) (wide : Bool) (r : Reg) : BitVec 32 :=
  if r = ⟨f,cap⟩ then 0x00010000
  else if r = ⟨f,cap + 4⟩ then 0xFFFFFFFF
  else if r = ⟨f,cap + msiData wide⟩ then 0x0000FFFF
  else if wide ∧ r = ⟨f,cap + 8⟩ then 0xFFFFFFFF
  else 0

/-- The message goes to the base address and carries the vector, MSI is enabled, and nothing else
has changed. -/
structure MsiProgrammed {σ : Type*} (pci : Ecam σ) (f : Func) (cap : ℕ) (wide : Bool) (msiBase : BitVec 32)
    (vectorIdx : ℕ) (s t : σ) : Prop where
  address : pci.read t ⟨f,cap + 4⟩ = msiBase
  upper : wide = true → pci.read t ⟨f,cap + 8⟩ = 0
  data : (pci.read t ⟨f,cap + msiData wide⟩ &&& 0xFFFF).toNat = vectorIdx
  enabled : (pci.read t ⟨f,cap⟩).getLsbD 16 = true
  rest : ∀ r : Reg, 4 ∣ r.offset →
    pci.read t r &&& ~~~msiFields f cap wide r = pci.read s r &&& ~~~msiFields f cap wide r

/-- Where the vectors of a port start, with the address that its messages are written to. -/
inductive MsiPlatform : ℕ → BitVec 32 → Prop
  | cortexA9 : MsiPlatform gicv2mSpiBase 0x08020040
  | x86 : MsiPlatform Interrupt.msiIrqVectorBase 0xFEE00000

theorem getLsbD_masked (mask old v : BitVec 32) {i : ℕ} (hi : i < 32) : ((v &&& mask) ||| (old &&& ~~~mask)).getLsbD i =
    if mask.getLsbD i then v.getLsbD i else old.getLsbD i := by
  rw [BitVec.getLsbD_or,BitVec.getLsbD_and,BitVec.getLsbD_and,BitVec.getLsbD_not]
  cases mask.getLsbD i <;> simp [hi]

/-- The enable bit is set in the upper half of its register, which is otherwise written back. -/
theorem masked_enable {mask old : BitVec 32} (h : mask.getLsbD 16 = true) :
    ((((old >>> 16).setWidth 16 ||| 1#16).setWidth 32 <<< 16) &&& (mask &&& 0xFFFF0000#32)) |||
      (old &&& ~~~(mask &&& 0xFFFF0000#32)) = old ||| 0x00010000#32 := by
  have hhigh : ∀ i < 32, (0xFFFF0000#32).getLsbD i = decide (16 ≤ i) := by decide
  have hbit : ∀ i < 32, (0x00010000#32).getLsbD i = decide (i = 16) := by decide
  apply BitVec.eq_of_getLsbD_eq
  intro i hi
  rw [getLsbD_masked _ _ _ hi,BitVec.getLsbD_and,BitVec.getLsbD_or,hhigh i hi,hbit i hi]
  by_cases hlow : i < 16
  · rw [decide_eq_false (Nat.not_le.mpr hlow),Bool.and_false,if_neg Bool.false_ne_true,decide_eq_false (Nat.ne_of_lt hlow),
      Bool.or_false]
  · have hle : 16 ≤ i := Nat.le_of_not_lt hlow
    rw [decide_eq_true hle,Bool.and_true,BitVec.getLsbD_shiftLeft,BitVec.getLsbD_setWidth,BitVec.getLsbD_or,
      BitVec.getLsbD_setWidth,BitVec.getLsbD_ushiftRight,BitVec.getLsbD_one,Nat.add_sub_cancel' hle]
    by_cases hsixteen : i = 16
    · subst hsixteen
      rw [h]
      simp
    · cases mask.getLsbD i <;> simp [hi,hlow,hsixteen,show i - 16 < 32 by omega,show i - 16 < 16 by omega,show i - 16 ≠ 0 by omega]

theorem dword_offset : ∀ cap < 256, cap % 4 = 0 →
    cap + 4 &&& 0xFFC = cap + 4 ∧ cap + 8 &&& 0xFFC = cap + 8 ∧ cap + 0x0C &&& 0xFFE = cap + 0x0C ∧
      cap + 2 &&& 0xFFC = cap ∧ cap + 2 &&& 0xFFE = cap + 2 ∧ cap + 2 &&& 2 = 2 := by
  decide +kernel

section Program
variable {σ τ : Type*} {pci : Ecam σ} {mask : Reg → BitVec 32} {f : Func} {cap : ℕ} {wide : Bool} {s : σ}

/-- The address and the vector, as they are written. -/
def writeMessage (pci : Ecam σ) (msiBase : BitVec 32) (f : Func) (cap vectorIdx : ℕ) (s : σ) : σ :=
  pci.writeWord (pci.write (pci.write s ⟨f,cap + 4⟩ msiBase) ⟨f,cap + 8⟩ 0) ⟨f,cap + 0x0C⟩ (BitVec.ofNat 16 vectorIdx)

theorem enableMsi_eq (hlt : cap < 256) (haligned : 4 ∣ cap) (msiBase : BitVec 32) (vectorIdx : ℕ) :
    enableMsi pci msiBase f cap vectorIdx s =
      pci.writeWord (writeMessage pci msiBase f cap vectorIdx s) ⟨f,cap + 2⟩
        ((pci.read (writeMessage pci msiBase f cap vectorIdx s) ⟨f,cap⟩ >>> 16).setWidth 16 ||| 1) := by
  obtain ⟨hfour,height,htwelve,hcap,htwo,hhalf⟩ := dword_offset cap hlt (Nat.mod_eq_zero_of_dvd haligned)
  simp only [enableMsi,Ecam.writeDword,Ecam.writeConfigWord,Ecam.readConfigWord,Ecam.readDword,hfour,height,htwelve,hcap,htwo,
    hhalf,writeMessage]

namespace MsiCapability
variable (hcap : MsiCapability pci mask f cap wide)
include hcap

theorem dword_frame {k j : ℕ} (hk : k < 0x10) (hj : 4 ∣ j) (hne : j ≠ k) (v : BitVec 32) :
    pci.read (pci.write s ⟨f,cap + k⟩ v) ⟨f,cap + j⟩ = pci.read s ⟨f,cap + j⟩ := by
  refine hcap.dwordApart s v _ k hk (fun heq => ?_) (Nat.dvd_add hcap.aligned hj)
  have hoffset := congrArg Reg.offset heq
  simp only at hoffset
  omega

theorem word_frame {k j : ℕ} (hk : k < 0x10) (hj : 4 ∣ j) (hne : j ≠ k / 4 * 4) (v : BitVec 16) :
    pci.read (pci.writeWord s ⟨f,cap + k⟩ v) ⟨f,cap + j⟩ = pci.read s ⟨f,cap + j⟩ := by
  have haligned := hcap.aligned
  refine hcap.wordApart s v _ k hk (fun heq => ?_) (Nat.dvd_add haligned hj)
  have hoffset := congrArg Reg.offset heq
  simp only at hoffset
  omega

variable (hlt : cap < 256) (msiBase : BitVec 32) (vectorIdx : ℕ)

theorem writeMessage_control : pci.read (writeMessage pci msiBase f cap vectorIdx s) ⟨f,cap⟩ = pci.read s ⟨f,cap⟩ := by
  have hword := hcap.word_frame (k := 0x0C) (j := 0) (s := pci.write (pci.write s ⟨f,cap + 4⟩ msiBase) ⟨f,cap + 8⟩ 0)
    (by decide) (by decide) (by decide) (BitVec.ofNat 16 vectorIdx)
  have height := hcap.dword_frame (k := 8) (j := 0) (s := pci.write s ⟨f,cap + 4⟩ msiBase) (by decide) (by decide)
    (by decide) 0
  have hfour := hcap.dword_frame (k := 4) (j := 0) (s := s) (by decide) (by decide) (by decide) msiBase
  exact hword.trans (height.trans hfour)

include hlt

/-- Setting the enable bit changes the first register of the capability only. -/
theorem enableMsi_frame {j : ℕ} (hj : 4 ∣ j) (hne : j ≠ 0) :
    pci.read (enableMsi pci msiBase f cap vectorIdx s) ⟨f,cap + j⟩ =
    pci.read (writeMessage pci msiBase f cap vectorIdx s) ⟨f,cap + j⟩ := by
  rw [enableMsi_eq hlt hcap.aligned]
  exact hcap.word_frame (k := 2) (by decide) hj hne _

theorem enableMsi_control :
    pci.read (enableMsi pci msiBase f cap vectorIdx s) ⟨f,cap⟩ = pci.read s ⟨f,cap⟩ ||| 0x00010000 := by
  rw [enableMsi_eq hlt hcap.aligned,hcap.control.1.high]
  exact (masked_enable hcap.control.2).trans (congrArg (· ||| _) (hcap.writeMessage_control msiBase vectorIdx))

theorem enableMsi_address (hbase : msiBase &&& 0xFFFFFFFC = msiBase) :
    pci.read (enableMsi pci msiBase f cap vectorIdx s) ⟨f,cap + 4⟩ = msiBase := by
  rw [hcap.enableMsi_frame hlt msiBase vectorIdx (by decide) (by decide)]
  unfold writeMessage
  rw [hcap.word_frame (by decide) (by decide) (by decide),hcap.dword_frame (by decide) (by decide) (by decide),
    hcap.address.1.dword,hbase,show ~~~(0xFFFFFFFC : BitVec 32) = 0x03 from rfl,hcap.address.2]
  exact BitVec.or_zero

/-- The register behind the address is cleared as far as it is writable. -/
theorem enableMsi_eight {m : BitVec 32} (hm : MaskedReg pci m ⟨f,cap + 8⟩) :
    pci.read (enableMsi pci msiBase f cap vectorIdx s) ⟨f,cap + 8⟩ = pci.read s ⟨f,cap + 8⟩ &&& ~~~m := by
  rw [hcap.enableMsi_frame hlt msiBase vectorIdx (by decide) (by decide)]
  unfold writeMessage
  rw [hcap.word_frame (by decide) (by decide) (by decide),hm.dword,hcap.dword_frame (by decide) (by decide) (by decide)]
  exact (congrArg (· ||| _) BitVec.zero_and).trans BitVec.zero_or

/-- The lower half of the register behind that one takes the vector. -/
theorem enableMsi_twelve {m : BitVec 32} (hm : MaskedReg pci m ⟨f,cap + 0x0C⟩) (hdata : m &&& 0xFFFF = 0xFFFF) :
    pci.read (enableMsi pci msiBase f cap vectorIdx s) ⟨f,cap + 0x0C⟩ =
      ((BitVec.ofNat 16 vectorIdx).setWidth 32 &&& 0xFFFF) ||| (pci.read s ⟨f,cap + 0x0C⟩ &&& ~~~0xFFFF) := by
  rw [hcap.enableMsi_frame hlt msiBase vectorIdx (by decide) (by decide)]
  unfold writeMessage
  rw [hm.low,hdata,hcap.dword_frame (by decide) (by decide) (by decide),hcap.dword_frame (by decide) (by decide) (by decide)]

theorem enableMsi_other {r : Reg} (hr : 4 ∣ r.offset) (hzero : r ≠ ⟨f,cap⟩) (hfour : r ≠ ⟨f,cap + 4⟩)
    (height : r ≠ ⟨f,cap + 8⟩) (htwelve : r ≠ ⟨f,cap + 0x0C⟩) :
    pci.read (enableMsi pci msiBase f cap vectorIdx s) r = pci.read s r := by
  obtain ⟨n,rfl⟩ := hcap.aligned
  have hword : (4 * n + 0x0C) / 4 * 4 = 4 * n + 0x0C ∧ (4 * n + 2) / 4 * 4 = 4 * n := by omega
  rw [enableMsi_eq hlt hcap.aligned,hcap.wordApart _ _ r 2 (by decide) (by rw [hword.2]; exact hzero) hr]
  unfold writeMessage
  rw [hcap.wordApart _ _ r 0x0C (by decide) (by rw [hword.1]; exact htwelve) hr,hcap.dwordApart _ _ r 8 (by decide) height hr,
    hcap.dwordApart _ _ r 4 (by decide) hfour hr]

end MsiCapability

theorem MsiPlatform.base {vectorBase : ℕ} {msiBase : BitVec 32} (h : MsiPlatform vectorBase msiBase) :
    msiBase &&& 0xFFFFFFFC = msiBase := by
  cases h <;> decide

/-- A vector that a platform hands out is not 0 and fits in the message data. -/
theorem MsiPlatform.vector {p : Port} {b : MsiBuild} {msi : Msi} {dev : DeviceInfo} {msiBase : BitVec 32} {vectorIdx : ℕ}
    (h : MsiPlatform p.vectorBase msiBase) (hvector : (p.pcieRegisterMsiVector b msi dev).2 = some vectorIdx) :
    0 < vectorIdx ∧ vectorIdx < 2 ^ 16 := by
  have hbase : 0 < p.vectorBase ∧ p.vectorBase ≤ 64 := by
    generalize p.vectorBase = vectorBase at h
    cases h <;> decide
  have hle := b.maxPciMsi_le
  rw [maxMsiSequence] at hle
  unfold Port.pcieRegisterMsiVector at hvector
  split at hvector
  · cases hvector
  · split at hvector
    · cases hvector
    · cases hvector
      exact ⟨by omega,by omega⟩

theorem pciAllocIrqVectors_hw {registerMsiVector : τ → DeviceInfo → τ × Option ℕ} {msiBase : BitVec 32} {dev : DeviceInfo}
    {a : Alloc σ τ} {vectorIdx : ℕ} (hfound : pcieFindCapability pci a.hw dev.f pciMsiCapId ≠ 0)
    (hvector : (registerMsiVector a.platform dev).2 = some vectorIdx) :
    (pciAllocIrqVectors pci registerMsiVector msiBase dev a).hw =
      enableMsi pci msiBase dev.f (pcieFindCapability pci a.hw dev.f pciMsiCapId) vectorIdx a.hw := by
  have hpair : registerMsiVector a.platform dev = ((registerMsiVector a.platform dev).1,some vectorIdx) := by
    rw [← hvector]
  unfold pciAllocIrqVectors
  simp only [if_neg hfound]
  rw [hpair]

theorem pcieFindCapability_lt {matchCapId : BitVec 8} (h : pcieFindCapability pci s f matchCapId ≠ 0) :
    pcieFindCapability pci s f matchCapId < 256 := by
  unfold pcieFindCapability at h ⊢
  dsimp only at h ⊢
  split at h
  · exact absurd rfl h
  · rename_i hstatus
    rw [if_neg hstatus]
    exact capPtr_lt ((findCapability_capPtr .first).resolve_left h)

/-- Without an upper address register the message data is cleared, -/
theorem MsiCapability.narrow_data (hcap : MsiCapability pci mask f cap false) (hlt : cap < 256) (msiBase : BitVec 32)
    (vectorIdx : ℕ) : pci.read (enableMsi pci msiBase f cap vectorIdx s) ⟨f,cap + msiData false⟩ &&& 0xFFFF = 0 := by
  have hread := hcap.enableMsi_eight hlt msiBase vectorIdx (s := s) hcap.data.1
  have hmask : ~~~(mask ⟨f,cap + msiData false⟩) &&& 0xFFFF = 0 := by
    rw [← hcap.data.2,← BitVec.and_assoc,BitVec.and_comm (~~~_),BitVec.and_not_self]
    exact BitVec.zero_and
  exact (congrArg (· &&& _) hread).trans ((BitVec.and_assoc ..).trans ((congrArg _ hmask).trans BitVec.and_zero))

theorem low_half (v : BitVec 16) (old : BitVec 32) :
    ((v.setWidth 32 &&& 0xFFFF) ||| (old &&& ~~~0xFFFF)) &&& 0xFFFF = v.setWidth 32 := by
  have hhalf : ∀ i < 32, (0xFFFF : BitVec 32).getLsbD i = decide (i < 16) := by decide
  apply BitVec.eq_of_getLsbD_eq
  intro i hi
  rw [BitVec.getLsbD_and,getLsbD_masked _ _ _ hi,hhalf i hi,BitVec.getLsbD_setWidth]
  by_cases hlow : i < 16
  · simp [hi,hlow]
  · simp [hlow,BitVec.getLsbD_of_ge v i (Nat.le_of_not_lt hlow)]

/-- and with one everything is as it should be. -/
theorem MsiCapability.wide_programmed (hcap : MsiCapability pci mask f cap true) (hlt : cap < 256) {msiBase : BitVec 32}
    (hbase : msiBase &&& 0xFFFFFFFC = msiBase) {vectorIdx : ℕ} (hvector : vectorIdx < 2 ^ 16) :
    MsiProgrammed pci f cap true msiBase vectorIdx s (enableMsi pci msiBase f cap vectorIdx s) := by
  have hcontrol := hcap.enableMsi_control hlt msiBase vectorIdx (s := s)
  have height := hcap.enableMsi_eight hlt msiBase vectorIdx (s := s) (hcap.upper rfl)
  have htwelve := hcap.enableMsi_twelve hlt msiBase vectorIdx (s := s) hcap.data.1 hcap.data.2
  have hnone : ~~~(0xFFFFFFFF : BitVec 32) = 0 := rfl
  constructor
  · exact hcap.enableMsi_address hlt msiBase vectorIdx hbase
  · intro _
    rw [height,hnone]
    exact BitVec.and_zero
  · rw [show msiData true = 0x0C from rfl,htwelve,low_half,BitVec.toNat_setWidth,BitVec.toNat_ofNat]
    omega
  · rw [hcontrol,BitVec.getLsbD_or,show (0x00010000 : BitVec 32).getLsbD 16 = true from rfl,Bool.or_true]
  · intro r hr
    unfold msiFields
    by_cases hzero : r = ⟨f,cap⟩
    · subst hzero
      rw [if_pos rfl,hcontrol,BitVec.and_or_distrib_right,BitVec.and_not_self]
      exact BitVec.or_zero
    · rw [if_neg hzero]
      by_cases hfour : r = ⟨f,cap + 4⟩
      · rw [if_pos hfour,hnone]
        exact BitVec.and_zero.trans BitVec.and_zero.symm
      · rw [if_neg hfour]
        by_cases hdata : r = ⟨f,cap + msiData true⟩
        · subst hdata
          rw [if_pos rfl,show msiData true = 0x0C from rfl,htwelve,BitVec.and_or_distrib_right,BitVec.and_assoc,
            BitVec.and_not_self,BitVec.and_assoc,BitVec.and_self]
          exact (congrArg (· ||| _) BitVec.and_zero).trans BitVec.zero_or
        · rw [if_neg hdata]
          by_cases height' : r = ⟨f,cap + 8⟩
          · rw [if_pos ⟨rfl,height'⟩,hnone]
            exact BitVec.and_zero.trans BitVec.and_zero.symm
          · rw [if_neg fun h => height' h.2,hcap.enableMsi_other hlt msiBase vectorIdx hr hzero hfour height' hdata]

/-- A vector that is allocated is programmed into the MSI capability if and only if the capability
has an upper address register. -/
theorem pciAllocIrqVectors_iff {p : Port} {b : MsiBuild} {msiBase : BitVec 32} {dev : DeviceInfo} {a : Alloc σ Msi}
    {vectorIdx : ℕ} (hplatform : MsiPlatform p.vectorBase msiBase)
    (hfound : pcieFindCapability pci a.hw dev.f pciMsiCapId ≠ 0)
    (hcap : MsiCapability pci mask dev.f (pcieFindCapability pci a.hw dev.f pciMsiCapId) wide)
    (hvector : (p.pcieRegisterMsiVector b a.platform dev).2 = some vectorIdx) :
    MsiProgrammed pci dev.f (pcieFindCapability pci a.hw dev.f pciMsiCapId) wide msiBase vectorIdx a.hw
        (pciAllocIrqVectors pci (p.pcieRegisterMsiVector b) msiBase dev a).hw ↔
      (pci.read a.hw ⟨dev.f,pcieFindCapability pci a.hw dev.f pciMsiCapId⟩).getLsbD 23 = true := by
  have hlt := pcieFindCapability_lt hfound
  obtain ⟨hpos,hfits⟩ := hplatform.vector hvector
  rw [pciAllocIrqVectors_hw hfound hvector,hcap.layout]
  cases wide with
  | true => exact iff_of_true (hcap.wide_programmed hlt hplatform.base hfits) rfl
  | false =>
    refine iff_of_false (fun h => ?_) Bool.false_ne_true
    have hdata := h.data
    rw [hcap.narrow_data hlt] at hdata
    exact Nat.ne_of_lt hpos hdata

end Program

section Board
variable {mask wired : Reg → BitVec 32} {r : Reg}

theorem wired_half {m h v x w : BitVec 32} (hv : v &&& h = v) : ((v ||| (x &&& ~~~h)) &&& m) ||| (w &&& ~~~m) =
    (v &&& (m &&& h)) ||| (((x &&& m) ||| (w &&& ~~~m)) &&& ~~~(m &&& h)) := by
  ext i hi
  have hbit : (v[i] && h[i]) = v[i] := by rw [← BitVec.getElem_and,hv]
  simp only [BitVec.getElem_or,BitVec.getElem_and,BitVec.getElem_not]
  rw [← hbit]
  cases m[i] <;> cases h[i] <;> simp

theorem maskedReg_wiredEcam (hr : 4 ∣ r.offset) : MaskedReg (wiredEcam mask wired) (mask r) r where
  dword s v := by
    simp only [wiredEcam,Function.update_self]
    ext i hi
    by_cases h : (mask r)[i] = true <;> simp [h]
  low s v := by
    simp only [wiredEcam,Nat.div_mul_cancel hr,Nat.mod_eq_zero_of_dvd hr,Function.update_self,Nat.mul_zero,
      BitVec.shiftLeft_zero]
    apply wired_half
    apply BitVec.eq_of_getLsbD_eq
    intro i hi
    have hhalf : ∀ i < 32, (0xFFFF : BitVec 32).getLsbD i = decide (i < 16) := by decide
    rw [BitVec.getLsbD_and,hhalf i hi,BitVec.getLsbD_setWidth]
    by_cases hlow : i < 16
    · rw [decide_eq_true hlow,Bool.and_true]
    · rw [BitVec.getLsbD_of_ge v i (Nat.le_of_not_lt hlow),Bool.and_false,Bool.false_and]
  high s v := by
    have hoffset : (r.offset + 2) / 4 * 4 = r.offset ∧ (r.offset + 2) % 4 = 2 := by omega
    have hlane : (0xFFFF : BitVec 32) <<< (8 * 2) = 0xFFFF0000 := by decide
    simp only [wiredEcam,hoffset,Function.update_self,hlane]
    apply wired_half
    apply BitVec.eq_of_getLsbD_eq
    intro i hi
    have hhalf : ∀ i < 32, (0xFFFF0000 : BitVec 32).getLsbD i = !decide (i < 16) := by decide
    rw [BitVec.getLsbD_and,hhalf i hi,BitVec.getLsbD_shiftLeft]
    cases decide (i < 16) <;> simp

/-- A VFIO device with an MSI capability at 0x40. -/
def msiBoard (wide : Bool) (r : Reg) : BitVec 32 :=
  if r.f = ⟨0,1,0⟩ then
    if r.offset = 0 then 0x0DC8494F else if r.offset = 0x04 then 0x00100000 else if r.offset = 0x34 then 0x40
    else if r.offset = 0x40 then if wide then 0x00800005 else 0x00000005 else 0
  else 0xFFFFFFFF

def msiMasks (r : Reg) : BitVec 32 :=
  if r.offset = 0x40 then 0x00710000 else if r.offset = 0x44 then 0xFFFFFFFC else if r.offset = 0x48 then 0xFFFFFFFF
  else if r.offset = 0x4C then 0x0000FFFF else 0

theorem msiCapability_board (wide : Bool) :
    MsiCapability (wiredEcam msiMasks (msiBoard wide)) msiMasks ⟨0,1,0⟩ 0x40 wide where
  aligned := by decide
  dwordApart s v r k _ hne _ := by simp only [wiredEcam,Function.update_of_ne hne]
  wordApart s v r k _ hne _ := by simp only [wiredEcam,Function.update_of_ne hne]
  layout s := by
    simp only [wiredEcam]
    rw [getLsbD_masked _ _ _ (by decide)]
    cases wide <;> rfl
  control := ⟨maskedReg_wiredEcam (by decide),by decide⟩
  address := ⟨maskedReg_wiredEcam (r := ⟨⟨0,1,0⟩,0x44⟩) (by decide),fun s => (wiredEcam_and s (by decide)).trans (by cases wide <;> rfl)⟩
  upper _ := maskedReg_wiredEcam (r := ⟨⟨0,1,0⟩,0x48⟩) (by decide)
  data := by cases wide <;> exact ⟨maskedReg_wiredEcam (by decide),by decide⟩

def msiSystem : Alloc (Reg → BitVec 32) Msi := ⟨fun _ => 0,0,(msiBoot (cortexA9 false) twoVectors 0 none).msi⟩

/-- With an upper address register the device signals the first vector. -/
theorem pciAllocIrqVectors_iff_wide : MsiProgrammed (wiredEcam msiMasks (msiBoard true)) ⟨0,1,0⟩ 0x40 true 0x08020040 48
    msiSystem.hw (pciAllocIrqVectors (wiredEcam msiMasks (msiBoard true)) ((cortexA9 false).pcieRegisterMsiVector twoVectors)
      0x08020040 vfioDevice msiSystem).hw := by
  have hcap : pcieFindCapability (wiredEcam msiMasks (msiBoard true)) msiSystem.hw vfioDevice.f pciMsiCapId = 0x40 := by
    decide +kernel
  have hboard : MsiCapability (wiredEcam msiMasks (msiBoard true)) msiMasks vfioDevice.f
      (pcieFindCapability (wiredEcam msiMasks (msiBoard true)) msiSystem.hw vfioDevice.f pciMsiCapId) true := by
    rw [hcap]
    exact msiCapability_board true
  have hvector : ((cortexA9 false).pcieRegisterMsiVector twoVectors msiSystem.platform vfioDevice).2 = some 48 := by
    decide
  have hiff := pciAllocIrqVectors_iff .cortexA9 (by rw [hcap]; decide) hboard hvector
  rw [hcap] at hiff
  exact hiff.mpr (by decide +kernel)

/-- Without one the message data stays 0. -/
theorem narrow_not_programmed : MsiCapability (wiredEcam msiMasks (msiBoard false)) msiMasks ⟨0,1,0⟩ 0x40 false ∧
    pcieFindCapability (wiredEcam msiMasks (msiBoard false)) msiSystem.hw vfioDevice.f pciMsiCapId = 0x40 ∧
    ((cortexA9 false).pcieRegisterMsiVector twoVectors msiSystem.platform vfioDevice).2 = some 48 ∧
    ¬MsiProgrammed (wiredEcam msiMasks (msiBoard false)) ⟨0,1,0⟩ 0x40 false 0x08020040 48 msiSystem.hw
      (pciAllocIrqVectors (wiredEcam msiMasks (msiBoard false)) ((cortexA9 false).pcieRegisterMsiVector twoVectors)
        0x08020040 vfioDevice msiSystem).hw := by
  refine ⟨msiCapability_board false,by decide +kernel,by decide,fun h => ?_⟩
  have hdata := h.data
  revert hdata
  decide +kernel

end Board

end EmbedTemplate.Pci
