import EmbedTemplate.Pci.Windows

/-! # What the scan records of the BARs

For every memory BAR the scan is to record its size and the base address that it had before,
and no size for the other registers. A register that reads 0 ends the loop, a 32-bit window
of 16 bytes is taken for a register that stores nothing, and the addresses are recorded in
32 bits.
-/
namespace EmbedTemplate.Pci
open ReturnLoop

/-- The first register of a memory BAR. -/
def BarKind.isMemory : BarKind → Bool
  | .mem32 _ | .mem64 _ => true
  | _ => false

/-- The second register of a 64-bit BAR. -/
def BarKind.isUpper : BarKind → Bool
  | .upper _ => true
  | _ => false

def BarKind.isWide : BarKind → Bool
  | .mem64 _ => true
  | _ => false

/-- The bytes of the window. -/
def BarKind.size : BarKind → ℕ
  | .mem32 k | .mem64 k => 2 ^ k
  | _ => 0

section Spec
variable {σ : Type*} (pci : Ecam σ) (kind : Func → ℕ → BarKind) (s : σ) (f : Func)

/-- The base address that a memory BAR is programmed with. -/
def baseAddress (i : ℕ) : ℕ :=
  (pci.read s (barReg f i) &&& 0xFFFFFFF0).toNat +
    if (kind f i).isWide then 2 ^ 32 * (pci.read s (barReg f (i + 1))).toNat else 0

/-- A BAR is recorded with its size, and a memory BAR with its base address. -/
structure BarRecorded (i : ℕ) (bar : Bar) : Prop where
  size : bar.size.toNat = (kind f i).size
  address : (kind f i).isMemory = true → bar.address.toNat = baseAddress pci kind s f i

/-- The records of the BARs from an index on. -/
def Records (start : ℕ) (bars : List Bar) : Prop :=
  ∀ i bar, bars[i]? = some bar → BarRecorded pci kind s f (start + i) bar

/-- From an index on, no register that reads 0 has a memory BAR in it or behind it, apart from the
second ones of 64-bit BARs, no window of one register has 16 bytes, and no base address is at 4 GiB
or above. -/
structure Plain (start : ℕ) : Prop where
  zero : ∀ i < maxBars, start ≤ i → (kind f i).isUpper = false → pci.read s (barReg f i) = 0 →
    ∀ j < maxBars, i ≤ j → (kind f j).isMemory = false
  small : ∀ i < maxBars, start ≤ i → (kind f i).size = 16 → (kind f i).isWide = true
  low : ∀ i < maxBars, start ≤ i → (kind f i).isWide = true → pci.read s (barReg f (i + 1)) = 0

end Spec

section Step
variable {σ : Type*} {pci : Ecam σ} {kind : Func → ℕ → BarKind} {s t : σ} {f : Func} {i n k : ℕ}

theorem BarKind.size_eq_zero {kind : BarKind} : kind.size = 0 ↔ kind.isMemory = false := by
  cases kind <;> simp [BarKind.size,BarKind.isMemory]

theorem BarKind.isMemory_of_isWide {kind : BarKind} (h : kind.isWide = true) : kind.isMemory = true := by
  cases kind with
  | mem64 k => rfl
  | _ => cases h

theorem records_cons {bar : Bar} {bars : List Bar} : Records pci kind s f i (bar :: bars) ↔
    BarRecorded pci kind s f i bar ∧ Records pci kind s f (i + 1) bars := by
  constructor
  · intro h
    refine ⟨h 0 bar rfl,fun j b hj => ?_⟩
    rw [Nat.add_assoc,Nat.add_comm 1]
    exact h (j + 1) b hj
  · rintro ⟨hbar,hbars⟩ j b hj
    cases j with
    | zero =>
      obtain rfl := Option.some.inj hj
      exact hbar
    | succ j =>
      rw [← Nat.add_assoc,Nat.add_right_comm]
      exact hbars j b hj

/-- The conditions on a register that does not end the loop, and on the ones behind it. -/
theorem plain_succ (hi : i < maxBars) (h : (kind f i).isUpper = true ∨ pci.read s (barReg f i) ≠ 0) :
    Plain pci kind s f i ↔ (((kind f i).size = 16 → (kind f i).isWide = true) ∧
      ((kind f i).isWide = true → pci.read s (barReg f (i + 1)) = 0)) ∧ Plain pci kind s f (i + 1) := by
  constructor
  · intro hplain
    exact ⟨⟨hplain.small i hi le_rfl,hplain.low i hi le_rfl⟩,fun a ha hle => hplain.zero a ha (Nat.le_of_succ_le hle),
      fun a ha hle => hplain.small a ha (Nat.le_of_succ_le hle),fun a ha hle => hplain.low a ha (Nat.le_of_succ_le hle)⟩
  · rintro ⟨⟨hsmall,hlow⟩,hplain⟩
    constructor
    · intro a ha hle hupper hzero
      obtain rfl | hlt := Nat.eq_or_lt_of_le hle
      · rcases h with h | h
        · rw [h] at hupper
          cases hupper
        · exact absurd hzero h
      · exact hplain.zero a ha hlt hupper hzero
    · intro a ha hle
      obtain rfl | hlt := Nat.eq_or_lt_of_le hle
      · exact hsmall
      · exact hplain.small a ha hlt
    · intro a ha hle
      obtain rfl | hlt := Nat.eq_or_lt_of_le hle
      · exact hlow
      · exact hplain.low a ha hlt

theorem plain_zero (hi : i < maxBars) (hupper : (kind f i).isUpper = false) (hzero : pci.read s (barReg f i) = 0) :
    Plain pci kind s f i ↔ ∀ j < maxBars, i ≤ j → (kind f j).isMemory = false := by
  constructor
  · exact fun hplain => hplain.zero i hi le_rfl hupper hzero
  · intro hnone
    constructor
    · exact fun a _ hle _ _ j hj haj => hnone j hj (hle.trans haj)
    · intro a ha hle hsize
      rw [BarKind.size_eq_zero.mpr (hnone a ha hle)] at hsize
      cases hsize
    · intro a ha hle hwide
      have hmemory := BarKind.isMemory_of_isWide hwide
      rw [hnone a ha hle] at hmemory
      cases hmemory

theorem records_replicate (hn : i + n = maxBars) : Records pci kind s f i (List.replicate n ⟨0,0⟩) ↔
    ∀ j < maxBars, i ≤ j → (kind f j).isMemory = false := by
  constructor
  · intro h j hj hij
    have hbar : (List.replicate n (⟨0,0⟩ : Bar))[j - i]? = some ⟨0,0⟩ := List.getElem?_replicate_of_lt (by omega)
    have hsize := (h (j - i) _ hbar).size
    rw [Nat.add_sub_cancel' hij] at hsize
    exact BarKind.size_eq_zero.mp hsize.symm
  · intro hnone j bar hj
    rw [List.getElem?_replicate] at hj
    split at hj
    · rename_i hlt
      obtain rfl := Option.some.inj hj
      have hmemory := hnone (i + j) (by omega) (Nat.le_add_right i j)
      refine ⟨(BarKind.size_eq_zero.mpr hmemory).symm,fun h => ?_⟩
      rw [hmemory] at h
      cases h
    · cases hj

theorem Same.plain (h : Same pci s t) : Plain pci kind t f i ↔ Plain pci kind s f i := by
  have hread : ∀ r, pci.read t r = pci.read s r := h
  constructor
  · rintro ⟨hzero,hsmall,hlow⟩
    simp only [hread] at hzero hlow
    exact ⟨hzero,hsmall,hlow⟩
  · rintro ⟨hzero,hsmall,hlow⟩
    simp only [← hread] at hzero hlow
    exact ⟨hzero,hsmall,hlow⟩

theorem Same.records (h : Same pci s t) {bars : List Bar} :
    Records pci kind t f i bars ↔ Records pci kind s f i bars := by
  have hbase : ∀ j, baseAddress pci kind t f j = baseAddress pci kind s f j := by
    intro j
    rw [baseAddress,baseAddress,h,h]
  refine forall₃_congr fun j bar _ => ⟨fun hr => ⟨hr.size,?_⟩,fun hr => ⟨hr.size,?_⟩⟩
  · rw [← hbase]
    exact hr.address
  · rw [hbase]
    exact hr.address

end Step

section Windows
variable {k : ℕ} {mask v : BitVec 32}

theorem bar32_records (original : BitVec 32) (hk : 4 ≤ k) (hk' : k < 32) (h : v &&& 0xFFFFFFF0 = lowMask k) :
    (bar32 original v).size.toNat = 2 ^ k ↔ k ≠ 4 := by
  simp only [bar32,h]
  interval_cases k <;> decide

theorem bar64_records (original origUpper : BitVec 32) (hk : 4 ≤ k) (hk' : k < 32) (h : v &&& 0xFFFFFFF0 = lowMask k) :
    (bar64 original v origUpper (highMask k)).size.toNat = 2 ^ k := by
  rw [bar64_size original origUpper hk (by omega) h,recordedSize,if_pos hk',BitVec.toNat_twoPow_of_lt hk']

theorem bar64_address (original readBack origUpper upperReadBack : BitVec 32) :
    (bar64 original readBack origUpper upperReadBack).address = original &&& 0xFFFFFFF0 := by
  simp only [bar64]
  generalize original &&& 0xFFFFFFF0 = low
  ext i hi
  simp

/-- A window of one register is sized, as its mask is not empty. -/
theorem Holds.sized32 (h : (BarKind.mem32 k).Holds mask v) (haddress : v &&& 0xFFFFFFF0 = lowMask k) : ¬skipped v := by
  obtain ⟨⟨hk,hk'⟩,_,_,hmem,_⟩ := h
  rintro (hzero | hones | hio)
  · rw [hzero] at haddress
    revert haddress
    interval_cases k <;> decide
  · rw [hones] at hmem
    exact absurd hmem (by decide)
  · exact hio hmem

end Windows

section Scan
variable {σ : Type*} {pci : Ecam σ} {mask : Reg → BitVec 32} {kind : Func → ℕ → BarKind} {s : σ} {f : Func} {i n k : ℕ}

theorem recorded_nothing (h : (kind f i).isMemory = false) : BarRecorded pci kind s f i ⟨0,0⟩ where
  size := (BarKind.size_eq_zero.mpr h).symm
  address hmemory := by
    rw [h] at hmemory
    cases hmemory

/-- A register without a window of its own is recorded, and has no condition to meet. -/
theorem recorded_nothing_iff (h : (kind f i).isMemory = false) : BarRecorded pci kind s f i ⟨0,0⟩ ↔
    ((kind f i).size = 16 → (kind f i).isWide = true) ∧
      ((kind f i).isWide = true → pci.read s (barReg f (i + 1)) = 0) := by
  refine iff_of_true (recorded_nothing h) ⟨fun hsize => ?_,fun hwide => ?_⟩
  · rw [BarKind.size_eq_zero.mpr h] at hsize
    cases hsize
  · rw [BarKind.isMemory_of_isWide hwide] at h
    cases h

/-- A window of one register is recorded unless it has 16 bytes. -/
theorem recorded32_iff (hkind : kind f i = .mem32 k) (hk : 4 ≤ k) (hk' : k < 32) {readBack : BitVec 32}
    (h : readBack &&& 0xFFFFFFF0 = lowMask k) : BarRecorded pci kind s f i (bar32 (pci.read s (barReg f i)) readBack) ↔
      ((kind f i).size = 16 → (kind f i).isWide = true) ∧
        ((kind f i).isWide = true → pci.read s (barReg f (i + 1)) = 0) := by
  have hsixteen : (kind f i).size = 16 ↔ k = 4 := by
    rw [hkind]
    exact Nat.pow_right_injective (le_refl 2) |>.eq_iff (a := k) (b := 4)
  have hwide : (kind f i).isWide = false := by rw [hkind]; rfl
  have hsize := bar32_records (pci.read s (barReg f i)) hk hk' h
  rw [hsixteen,hwide]
  simp only [Bool.false_eq_true,imp_false,false_imp_iff,and_true]
  constructor
  · intro hrecorded
    have heq := hrecorded.size
    rw [hkind] at heq
    exact hsize.mp heq
  · intro hne
    constructor
    · rw [hkind]
      exact hsize.mpr hne
    · intro _
      rw [baseAddress,hwide,if_neg Bool.false_ne_true]
      rfl

/-- A window of two registers is recorded unless its base address has an upper half. -/
theorem recorded64_iff (hkind : kind f i = .mem64 k) (hk : 4 ≤ k) (hk' : k < 32) {readBack : BitVec 32}
    (h : readBack &&& 0xFFFFFFF0 = lowMask k) :
    BarRecorded pci kind s f i
        (bar64 (pci.read s (barReg f i)) readBack (pci.read s (barReg f (i + 1))) (highMask k)) ↔
      ((kind f i).size = 16 → (kind f i).isWide = true) ∧
        ((kind f i).isWide = true → pci.read s (barReg f (i + 1)) = 0) := by
  have hwide : (kind f i).isWide = true := by rw [hkind]; rfl
  rw [hwide]
  simp only [implies_true,true_and,true_imp_iff]
  constructor
  · intro hrecorded
    have haddress := hrecorded.address (BarKind.isMemory_of_isWide hwide)
    rw [bar64_address,baseAddress,hwide,if_pos rfl] at haddress
    exact BitVec.eq_of_toNat_eq (show _ = 0 by omega)
  · intro hupper
    constructor
    · rw [bar64_records _ _ hk hk' h,hkind]
      rfl
    · intro _
      rw [bar64_address,baseAddress,hwide,if_pos rfl,hupper]
      rfl

/-- The loop over the last `m` registers, from a state in which the registers are the same. -/
def RestIff (pci : Ecam σ) (kind : Func → ℕ → BarKind) (s : σ) (f : Func) (m : ℕ) : Prop :=
  ∀ u, Same pci s u → (Records pci kind s f (maxBars - m) (sizeBars pci f m u).2 ↔ Plain pci kind s f (maxBars - m))

section Registers
variable (hb : BarSpec pci mask kind) (hf : pci.headerType s f = headerTypeEndpoint) (hi : i + (n + 1) = maxBars)
  (hne : pci.read s (barReg f i) ≠ 0)
include hb hf hi hne

theorem BarSpec.io_step (hkind : kind f i = .io) (hrest : RestIff pci kind s f n) :
    Records pci kind s f i (sizeBars pci f (n + 1) s).2 ↔ Plain pci kind s f i := by
  have hlt : i < maxBars := by omega
  have hholds := (hb.readBack (k := 0) hf hlt).1
  rw [hkind] at hholds
  have hio : pci.read (pci.write s (barReg f i) 0xFFFFFFFF) (barReg f i) &&& 0x01 = 1 := hholds
  have hskip : skipped (pci.read (pci.write s (barReg f i) 0xFFFFFFFF) (barReg f i)) :=
    .inr (.inr (by rw [hio]; decide))
  have hnext : i + 1 = maxBars - n := by omega
  rw [sizeBars_skip (Nat.eq_sub_of_add_eq hi) hne hskip,records_cons,plain_succ hlt (.inr hne)]
  refine and_congr (recorded_nothing_iff ?_) ?_
  · rw [hkind]
    rfl
  · rw [hnext]
    exact hrest _ (hb.masked.restore (isBar_barReg hf hlt) 0xFFFFFFFF)

theorem BarSpec.mem32_step (hkind : kind f i = .mem32 k) (hrest : RestIff pci kind s f n) :
    Records pci kind s f i (sizeBars pci f (n + 1) s).2 ↔ Plain pci kind s f i := by
  have hlt : i < maxBars := by omega
  obtain ⟨hholds,haddress,_⟩ := hb.readBack (k := k) hf hlt
  rw [hkind] at hholds
  have haddress := haddress (.inl hkind)
  have hwindow := Holds.sized32 hholds haddress
  obtain ⟨⟨hlow,hhigh⟩,_,_,_,htype⟩ := hholds
  have hnext : i + 1 = maxBars - n := by omega
  rw [sizeBars_narrow (Nat.eq_sub_of_add_eq hi) hne hwindow fun _ => htype,records_cons,plain_succ hlt (.inr hne)]
  refine and_congr (recorded32_iff hkind hlow hhigh haddress) ?_
  rw [hnext]
  exact hrest _ (hb.masked.restore (isBar_barReg hf hlt) 0xFFFFFFFF)

theorem BarSpec.mem64_step (hkind : kind f i = .mem64 k) (hk : k < 32) {m : ℕ} (hm : n = m + 1)
    (hpair : i + 1 < maxBars)
    (hrest : RestIff pci kind s f m) :
    Records pci kind s f i (sizeBars pci f (n + 1) s).2 ↔ Plain pci kind s f i := by
  subst hm
  have hlt : i < maxBars := Nat.lt_of_succ_lt hpair
  have hbar := isBar_barReg hf hlt
  obtain ⟨hholds,haddress,_⟩ := hb.readBack (k := k) hf hlt
  rw [hkind] at hholds
  have haddress := haddress (.inr hkind)
  have hwindow := Holds.not_skipped hholds
  obtain ⟨⟨hlow,_⟩,_,_,_,htype⟩ := hholds
  have hupper := (hb.paired f i k hpair).mp hkind
  have hread : pci.read (pci.write s (barReg f i) 0xFFFFFFFF) (barReg f (i + 1)) = pci.read s (barReg f (i + 1)) :=
    hb.masked.other _ _ _ _ hbar (barReg_ne (Nat.succ_ne_self i))
  have hones := (hb.readBack (k := k) ((hb.masked.headerType hbar 0xFFFFFFFF f).trans hf) hpair).2.2 hupper
  have hsame := hb.masked.restore_pair hbar (isBar_barReg hf hpair) (barReg_ne (Nat.succ_ne_self i)) 0xFFFFFFFF 0xFFFFFFFF
  have hnext : i + 1 + 1 = maxBars - m := by omega
  have hplain : Plain pci kind s f (i + 1) ↔ _ := plain_succ hpair (.inl (by rw [hupper]; rfl))
  rw [sizeBars_wide hne hwindow (Nat.eq_sub_of_add_eq hi) htype hpair,records_cons,records_cons,
    plain_succ hlt (.inr hne),hplain,hones]
  have hnothing : (kind f (i + 1)).isMemory = false := by
    rw [hupper]
    rfl
  refine and_congr ?_ (and_congr (recorded_nothing_iff hnothing) ?_)
  · rw [hread]
    exact recorded64_iff hkind hlow hk haddress
  · rw [hnext]
    exact hrest _ hsame

end Registers

theorem BarSpec.records_iff (hb : BarSpec pci mask kind) (hsize : ∀ f i k, kind f i = .mem64 k → k < 32)
    (hf : pci.headerType s f = headerTypeEndpoint) (hi : i + n = maxBars) (hfirst : 0 < n → (kind f i).isUpper = false) :
    Records pci kind s f i (sizeBars pci f n s).2 ↔ Plain pci kind s f i := by
  induction n using Nat.strong_induction_on generalizing i s with
  | _ n ih =>
    cases n with
    | zero => exact iff_of_true (fun j bar hbar => by cases hbar) ⟨by omega,by omega,by omega⟩
    | succ n =>
      have hlt : i < maxBars := by omega
      have hupper := hfirst (Nat.succ_pos n)
      have hrest (m : ℕ) (hm : m < n + 1) (hfirst' : 0 < m → (kind f (maxBars - m)).isUpper = false) :
          RestIff pci kind s f m := by
        intro u hsame
        have hu : pci.headerType u f = headerTypeEndpoint := by
          rw [Ecam.headerType,hsame]
          exact hf
        exact hsame.records.symm.trans ((ih m hm hu (by omega) hfirst').trans hsame.plain)
      have hnext : maxBars - n = i + 1 := by omega
      -- the second register of a 64-bit BAR is passed with the first one
      have hafter (hmem64 : ∀ k, kind f i ≠ .mem64 k) : RestIff pci kind s f n := by
        refine hrest n (Nat.lt_succ_self n) fun hpos => ?_
        rw [hnext]
        cases hkind : kind f (i + 1) with
        | upper k => exact absurd ((hb.paired f i k (by omega)).mpr hkind) (hmem64 k)
        | _ => rfl
      by_cases hzero : pci.read s (barReg f i) = 0
      · rw [sizeBars_empty (Nat.eq_sub_of_add_eq hi) hzero,plain_zero hlt hupper hzero]
        exact records_replicate hi
      · cases hkind : kind f i with
        | none =>
          have hholds := hb.holds s f i hf hlt
          rw [hkind] at hholds
          exact absurd hholds hzero
        | io => exact hb.io_step hf hi hzero hkind (hafter (by simp [hkind]))
        | mem32 k => exact hb.mem32_step hf hi hzero hkind (hafter (by simp [hkind]))
        | mem64 k =>
          have hpair : i + 1 < maxBars := by
            by_contra hend
            obtain rfl : i = maxBars - 1 := by omega
            exact hb.last f k hkind
          obtain ⟨m,rfl⟩ : ∃ m, n = m + 1 := ⟨n - 1,by omega⟩
          refine hb.mem64_step hf hi hzero hkind (hsize f i k hkind) rfl hpair (hrest m (by omega) fun hpos => ?_)
          rw [show maxBars - m = i + 1 + 1 by omega]
          cases hkind' : kind f (i + 1 + 1) with
          | upper k' =>
            have hmem64 := (hb.paired f (i + 1) k' (by omega)).mpr hkind'
            rw [(hb.paired f i k hpair).mp hkind] at hmem64
            cases hmem64
          | _ => rfl
        | upper k =>
          rw [hkind] at hupper
          cases hupper

/-- Every endpoint that the scan records has six BARs, and they are recorded as they are if and
only if no memory BAR is hidden behind a register that reads 0, has 16 bytes in one register, or
lies at 4 GiB or above. -/
theorem pciScan_records_iff (hb : BarSpec pci mask kind) (hsize : ∀ f i k, kind f i = .mem64 k → k < 32) (bus : ℕ)
    (s : σ) :
    ∀ dev ∈ (Pci.pciScan pci bus ⟨s,false,[],[]⟩).db.devices, dev.bars.length = maxBars ∧
      (Records pci kind s dev.f 0 dev.bars ↔ Plain pci kind s dev.f 0) := by
  refine (doPciScan_invariant (I := fun x => Same pci s x.hw ∧ ∀ dev ∈ x.db.devices, dev.bars.length = maxBars ∧
    (Records pci kind s dev.f 0 dev.bars ↔ Plain pci kind s dev.f 0)) ?_ (fun _ _ hx => hx) 256 bus
      ⟨Same.refl pci s,fun _ hdev => (by cases hdev)⟩).2
  rintro x f idReg hf ⟨hsame,hdevs⟩
  have hsized : Sized pci f maxBars x.hw _ _ := sizeBars_sized f (Nat.le_refl maxBars) x.hw
  refine ⟨hsame.trans (hb.masked.sized hsized (Nat.le_refl _) hf),fun dev hdev => ?_⟩
  rcases List.mem_append.mp hdev with hdev | hdev
  · exact hdevs dev hdev
  · rw [List.mem_singleton.mp hdev]
    have hfirst : (kind f 0).isUpper = false := by
      cases hkind : kind f 0 with
      | upper k => exact absurd hkind (hb.first f k)
      | _ => rfl
    have hrecords := hb.records_iff hsize hf (show 0 + maxBars = maxBars from Nat.zero_add _) fun _ => hfirst
    exact ⟨hsized.length,hsame.records.symm.trans (hrecords.trans hsame.plain)⟩

end Scan

theorem windowKinds_small (f : Func) (i k : ℕ) (h : windowKinds f i = .mem64 k) : k < 32 := by
  simp only [windowKinds] at h
  split_ifs at h
  cases h
  decide

/-- The scanned board, with a first device that has a 64-bit window and a second one with a 32-bit
window of 4 KB at this address. -/
def scannedBoard (address : BitVec 32) : System (Reg → BitVec 32) :=
  pciScan windowEcam 0 ⟨Function.update (windowState 0) (barReg ⟨0,2,0⟩ 0) address,false,[],[]⟩

/-- The second device is recorded. -/
theorem pciScan_records_iff_board : ∃ bars, ⟨⟨0,2,0⟩,0,0x1AF4,0x1000,bars⟩ ∈ (scannedBoard 0xFD000000).db.devices ∧
    Records windowEcam windowKinds (Function.update (windowState 0) (barReg ⟨0,2,0⟩ 0) 0xFD000000) ⟨0,2,0⟩ 0 bars := by
  refine ⟨⟨0x1000,0xFD000000⟩ :: List.replicate 5 ⟨0,0⟩,by decide +kernel,?_⟩
  refine (pciScan_records_iff barSpec_windowEcam windowKinds_small 0 _
    ⟨⟨0,2,0⟩,0,0x1AF4,0x1000,⟨0x1000,0xFD000000⟩ :: List.replicate 5 ⟨0,0⟩⟩ (by decide +kernel)).2.mpr ⟨?_,?_,?_⟩
  · intro i hi _
    rw [maxBars] at hi
    interval_cases i <;> decide +kernel
  · decide +kernel
  · decide +kernel

/-- At the address 0 it is not. -/
theorem addressZero_not_recorded : BarSpec windowEcam windowMasks windowKinds ∧
    ⟨⟨0,2,0⟩,0,0x1AF4,0x1000,List.replicate 6 ⟨0,0⟩⟩ ∈ (scannedBoard 0).db.devices ∧
    ¬Records windowEcam windowKinds (Function.update (windowState 0) (barReg ⟨0,2,0⟩ 0) 0) ⟨0,2,0⟩ 0 (List.replicate 6 ⟨0,0⟩) := by
  refine ⟨barSpec_windowEcam,by decide +kernel,fun h => ?_⟩
  have hsize := (h 0 ⟨0,0⟩ rfl).size
  revert hsize
  decide

end EmbedTemplate.Pci
