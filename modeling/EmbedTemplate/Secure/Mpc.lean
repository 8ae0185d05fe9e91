import EmbedTemplate.Library.Bytes

/-! # The memory protection controllers

`init_secure.c`: the look-up table of a controller has a bit for every block of its memory,
clear for secure and set for non-secure, and is written a word at a time through an index
register.
-/
namespace EmbedTemplate.Secure
open Bytes

/-- `MPC_t`, the table behind its index register, and the words that were written to it. -/
structure Mpc where
  ctrl : BitVec 32
  blkMax : BitVec 32
  blkCfg : BitVec 32
  blkIdx : ℕ
  intClear : BitVec 32
  lut : ℕ → BitVec 32
  written : List (ℕ × BitVec 32)

/-- A write to `BLK_LUT`, whose index advances by itself if the control register says so. -/
def Mpc.writeLut (m : Mpc) (word : BitVec 32) : Mpc :=
  { m with
    lut := if m.blkIdx ≤ m.blkMax.toNat then Function.update m.lut m.blkIdx word else m.lut
    blkIdx := if m.ctrl.getLsbD 8 then m.blkIdx + 1 else m.blkIdx
    written := m.written ++ [(m.blkIdx,word)] }

/-- The word of the table at an index: all secure, the boundary, or all non-secure. -/
def lutWord (secLuts secRem idx : ℕ) : BitVec 32 :=
  if idx < secLuts then 0
  else if idx = secLuts ∧ secRem > 0 then ~~~((1#32 <<< secRem) - 1#32)
  else 0xFFFFFFFF

/-- One round of the loop over the table. -/
def writeWord (secLuts secRem : ℕ) (m : Mpc) (idx : ℕ) : Mpc :=
  { m with blkIdx := idx }.writeLut (lutWord secLuts secRem idx)

/-- The size of a block, as the configuration register has it. -/
def Mpc.blkSizeBytes (m : Mpc) : ℕ := 1 <<< ((m.blkCfg &&& 0xF).toNat + 5)

/-- The number of words that cover the blocks of both sizes. -/
def maxLuts (blkSizeBytes seSizeBytes nsSizeBytes : ℕ) : ℕ :=
  u32 (u32 (seSizeBytes + nsSizeBytes) / blkSizeBytes + 31) / 32

/-- `init_mpc`, with the message of the check that halts it. -/
def initMpc (seSizeBytes nsSizeBytes : ℕ) (m : Mpc) : Mpc × Option String :=
  let m := { m with ctrl := m.ctrl ||| BitVec.twoPow 32 4 }
  let m := { m with ctrl := m.ctrl &&& ~~~BitVec.twoPow 32 8 }
  let maxIdx := m.blkMax.toNat
  let blkSizeBytes := m.blkSizeBytes
  if seSizeBytes % blkSizeBytes ≠ 0 then
    (m,some "[CRITICAL] Secure Memory Size is not aligned to the block size!")
  else if nsSizeBytes % blkSizeBytes ≠ 0 then
    (m,some "[CRITICAL] Non-Secure Memory Size is not aligned to the block size!")
  else
    let maxLuts := maxLuts blkSizeBytes seSizeBytes nsSizeBytes
    let secBlks := seSizeBytes / blkSizeBytes
    let secLuts := secBlks / 32
    let secRem := secBlks % 32
    if maxLuts > u32 (maxIdx + 1) then
      (m,some "[CRITICAL] MPC SRAM Block LUTs exceed the maximum index!")
    else
      let m := (List.range maxLuts).foldl (writeWord secLuts secRem) m
      let m := { m with intClear := m.intClear ||| BitVec.twoPow 32 0 }
      ({ m with ctrl := m.ctrl ||| BitVec.twoPow 32 8 },none)

/-- Is a block open to the non-secure world? -/
def Mpc.nonSecure (m : Mpc) (block : ℕ) : Bool := (m.lut (block / 32)).getLsbD (block % 32)

theorem lowOnes_toNat {n : ℕ} (hn : n < 32) : ((1#32 <<< n) - 1#32).toNat = 2 ^ n - 1 := by
  have hlt : 2 ^ n < 2 ^ 32 := Nat.pow_lt_pow_right (by omega) hn
  have hpos : 0 < 2 ^ n := Nat.two_pow_pos n
  have hshift : (1#32 <<< n).toNat = 2 ^ n := by simpa [Nat.shiftLeft_eq] using hlt
  rw [BitVec.toNat_sub,hshift]
  simp only [BitVec.toNat_ofNat]
  omega

/-- Bit by bit the word is the split at a number of secure blocks. -/
theorem lutWord_bit (secBlks idx : ℕ) {j : ℕ} (hj : j < 32) :
    (lutWord (secBlks / 32) (secBlks % 32) idx).getLsbD j = decide (secBlks ≤ idx * 32 + j) := by
  unfold lutWord
  split
  case isTrue hsecure =>
    have hinside : ¬secBlks ≤ idx * 32 + j := by omega
    simp [hinside]
  case isFalse =>
    split
    case isTrue hboundary =>
      have hbit : decide (secBlks ≤ idx * 32 + j) = !decide (j < secBlks % 32) := by
        rw [← decide_not,decide_eq_decide]
        omega
      rw [BitVec.getLsbD_not,BitVec.getLsbD,lowOnes_toNat (Nat.mod_lt _ (by omega)),Nat.testBit_two_pow_sub_one]
      rw [hbit,decide_eq_true hj,Bool.true_and]
    case isFalse =>
      have houtside : secBlks ≤ idx * 32 + j := by omega
      have hones : (0xFFFFFFFF : BitVec 32) = BitVec.allOnes 32 := rfl
      rw [hones,BitVec.getLsbD_allOnes]
      simp [hj,houtside]

/-- What the first rounds of the loop leave, as long as the table has their words. -/
structure Written (word : ℕ → BitVec 32) (n : ℕ) (m m' : Mpc) : Prop where
  blkMax : m'.blkMax = m.blkMax
  lut : ∀ idx < n, m'.lut idx = word idx
  written : m'.written = m.written ++ (List.range n).map fun idx => (idx,word idx)

theorem written_foldl {m : Mpc} (secLuts secRem : ℕ) {n : ℕ} (hn : n ≤ m.blkMax.toNat + 1) :
    Written (lutWord secLuts secRem) n m ((List.range n).foldl (writeWord secLuts secRem) m) := by
  induction n with
  | zero =>
    constructor
    case lut => exact fun idx hidx => absurd hidx (Nat.not_lt_zero _)
    case written => exact (List.append_nil _).symm
    case blkMax => rfl
  | succ n ih =>
    have hrounds := ih (by omega)
    rw [List.range_succ,List.foldl_append]
    generalize (List.range n).foldl (writeWord secLuts secRem) m = mid at hrounds
    have hinside : n ≤ mid.blkMax.toNat := by
      rw [hrounds.blkMax]
      omega
    constructor
    case blkMax => exact hrounds.blkMax
    case lut =>
      intro idx hidx
      simp only [List.foldl_cons,List.foldl_nil,writeWord,Mpc.writeLut,if_pos hinside]
      rcases Nat.lt_succ_iff_lt_or_eq.mp hidx with hbefore | rfl
      · rw [Function.update_of_ne hbefore.ne,hrounds.lut idx hbefore]
      · rw [Function.update_self]
    case written =>
      simp only [List.foldl_cons,List.foldl_nil,writeWord,Mpc.writeLut,hrounds.written]
      rw [List.range_succ,List.map_append,List.append_assoc]
      rfl

/-- The table as the split of a memory has it: the blocks of the first bytes secure, the others open. -/
structure Mpc.Split (m : Mpc) (blkSizeBytes seSizeBytes nsSizeBytes : ℕ) : Prop where
  block : ∀ b < (seSizeBytes + nsSizeBytes) / blkSizeBytes,
    m.nonSecure b = false ↔ (b + 1) * blkSizeBytes ≤ seSizeBytes
  secure : ∀ a < seSizeBytes, m.nonSecure (a / blkSizeBytes) = false
  nonSecure : ∀ a, seSizeBytes ≤ a → a < seSizeBytes + nsSizeBytes → m.nonSecure (a / blkSizeBytes) = true

section Init
variable {m : Mpc} {seSizeBytes nsSizeBytes : ℕ}

theorem initMpc_halted (h : (initMpc seSizeBytes nsSizeBytes m).2 ≠ none) :
    (initMpc seSizeBytes nsSizeBytes m).1.lut = m.lut ∧
      (initMpc seSizeBytes nsSizeBytes m).1.written = m.written := by
  unfold initMpc at h ⊢
  simp only at h ⊢
  split
  case isTrue => exact ⟨rfl,rfl⟩
  case isFalse haligned =>
    rw [if_neg haligned] at h
    split
    case isTrue => exact ⟨rfl,rfl⟩
    case isFalse haligned' =>
      rw [if_neg haligned'] at h
      split
      case isTrue => exact ⟨rfl,rfl⟩
      case isFalse hroom =>
        rw [if_neg hroom] at h
        exact absurd rfl h

theorem initMpc_passed (h : (initMpc seSizeBytes nsSizeBytes m).2 = none) :
    m.blkSizeBytes ∣ seSizeBytes ∧ m.blkSizeBytes ∣ nsSizeBytes ∧
      Written (lutWord (seSizeBytes / m.blkSizeBytes / 32) (seSizeBytes / m.blkSizeBytes % 32))
        (maxLuts m.blkSizeBytes seSizeBytes nsSizeBytes) m (initMpc seSizeBytes nsSizeBytes m).1 := by
  unfold initMpc at h ⊢
  simp only at h ⊢
  split at h
  case isTrue => cases h
  case isFalse hse =>
    split at h
    case isTrue => cases h
    case isFalse hns =>
      split at h
      case isTrue => cases h
      case isFalse hroom =>
        rw [if_neg hse,if_neg hns,if_neg hroom]
        have hfits : maxLuts m.blkSizeBytes seSizeBytes nsSizeBytes ≤ m.blkMax.toNat + 1 := by
          refine le_trans (Nat.le_of_not_lt hroom) ?_
          exact Nat.mod_le _ _
        refine ⟨Nat.dvd_of_mod_eq_zero (not_not.mp hse),Nat.dvd_of_mod_eq_zero (not_not.mp hns),?_⟩
        obtain ⟨hblkMax,hlut,hwritten⟩ := written_foldl (m := { m with
          ctrl := (m.ctrl ||| BitVec.twoPow 32 4) &&& ~~~BitVec.twoPow 32 8 }) _ _ hfits
        exact ⟨hblkMax,hlut,hwritten⟩

theorem Mpc.le_blkSizeBytes (m : Mpc) : 32 ≤ m.blkSizeBytes := by
  unfold Mpc.blkSizeBytes
  rw [Nat.one_shiftLeft,pow_add]
  have hpos : 0 < 2 ^ (m.blkCfg &&& 0xF).toNat := Nat.two_pow_pos _
  omega

theorem block_lt_maxLuts {blkSizeBytes : ℕ} (hblk : 32 ≤ blkSizeBytes) (hsum : seSizeBytes + nsSizeBytes < 2 ^ 32)
    {b : ℕ} (hb : b < (seSizeBytes + nsSizeBytes) / blkSizeBytes) :
    b / 32 < maxLuts blkSizeBytes seSizeBytes nsSizeBytes := by
  have hblks : (seSizeBytes + nsSizeBytes) / blkSizeBytes ≤ (seSizeBytes + nsSizeBytes) / 32 :=
    Nat.div_le_div_left hblk (by omega)
  unfold maxLuts
  rw [u32_of_lt hsum,u32_of_lt (by omega)]
  omega

theorem Written.split {blkSizeBytes n : ℕ} {m' : Mpc} (hblk : 0 < blkSizeBytes) (hse : blkSizeBytes ∣ seSizeBytes)
    (hns : blkSizeBytes ∣ nsSizeBytes)
    (hn : ∀ b < (seSizeBytes + nsSizeBytes) / blkSizeBytes, b / 32 < n)
    (h : Written (lutWord (seSizeBytes / blkSizeBytes / 32) (seSizeBytes / blkSizeBytes % 32)) n m m') :
    m'.Split blkSizeBytes seSizeBytes nsSizeBytes := by
  have hbit : ∀ b < (seSizeBytes + nsSizeBytes) / blkSizeBytes,
      m'.nonSecure b = decide (seSizeBytes / blkSizeBytes ≤ b) := by
    intro b hb
    unfold Mpc.nonSecure
    rw [h.lut _ (hn b hb),lutWord_bit _ _ (Nat.mod_lt _ (by omega)),Nat.div_add_mod']
  obtain ⟨secBlks,rfl⟩ := hse
  obtain ⟨nsBlks,rfl⟩ := hns
  rw [← Nat.mul_add,Nat.mul_div_cancel_left _ hblk] at hbit
  rw [Nat.mul_div_cancel_left _ hblk] at hbit
  constructor
  case block =>
    intro b hb
    rw [← Nat.mul_add,Nat.mul_div_cancel_left _ hblk] at hb
    rw [hbit b hb,decide_eq_false_iff_not,Nat.mul_comm blkSizeBytes,Nat.mul_le_mul_right_iff hblk]
    omega
  case secure =>
    intro a ha
    have hblock : a / blkSizeBytes < secBlks := Nat.div_lt_of_lt_mul ha
    rw [hbit _ (by omega),decide_eq_false_iff_not]
    omega
  case nonSecure =>
    intro a hse ha
    rw [← Nat.mul_add] at ha
    have hblock : secBlks ≤ a / blkSizeBytes := (Nat.le_div_iff_mul_le hblk).mpr (by rwa [Nat.mul_comm])
    rw [hbit _ (Nat.div_lt_of_lt_mul ha),decide_eq_true_iff]
    exact hblock

theorem Written.closed {blkSizeBytes n : ℕ} {m' : Mpc} (hblk : 0 < blkSizeBytes)
    (h : Written (lutWord (seSizeBytes / blkSizeBytes / 32) (seSizeBytes / blkSizeBytes % 32)) n m m') :
    ∃ words, m'.written = m.written ++ words ∧ ∀ w ∈ words, ∀ j < 32,
      (w.1 * 32 + j + 1) * blkSizeBytes ≤ seSizeBytes → w.2.getLsbD j = false := by
  refine ⟨_,h.written,fun w hw j hj hsecure => ?_⟩
  obtain ⟨idx,_,rfl⟩ := List.mem_map.mp hw
  rw [lutWord_bit _ _ hj,decide_eq_false_iff_not]
  have hblock : idx * 32 + j + 1 ≤ seSizeBytes / blkSizeBytes := (Nat.le_div_iff_mul_le hblk).mpr hsecure
  omega

theorem initMpc_split (hsum : seSizeBytes + nsSizeBytes < 2 ^ 32) (h : (initMpc seSizeBytes nsSizeBytes m).2 = none) :
    (initMpc seSizeBytes nsSizeBytes m).1.Split m.blkSizeBytes seSizeBytes nsSizeBytes := by
  obtain ⟨hse,hns,hwritten⟩ := initMpc_passed h
  have hblk := m.le_blkSizeBytes
  exact hwritten.split (by omega) hse hns fun b hb => block_lt_maxLuts hblk hsum hb

/-- A controller whose checks pass has the table split at the secure size, and no word that was written on the
way opened a secure block; a check that fails leaves the table unwritten. -/
theorem initMpc_splits (m : Mpc) (hsum : seSizeBytes + nsSizeBytes < 2 ^ 32) :
    ((initMpc seSizeBytes nsSizeBytes m).2 = none →
      (initMpc seSizeBytes nsSizeBytes m).1.Split m.blkSizeBytes seSizeBytes nsSizeBytes ∧
      ∃ words, (initMpc seSizeBytes nsSizeBytes m).1.written = m.written ++ words ∧ ∀ w ∈ words, ∀ j < 32,
        (w.1 * 32 + j + 1) * m.blkSizeBytes ≤ seSizeBytes → w.2.getLsbD j = false) ∧
    ((initMpc seSizeBytes nsSizeBytes m).2 ≠ none →
      (initMpc seSizeBytes nsSizeBytes m).1.lut = m.lut ∧
      (initMpc seSizeBytes nsSizeBytes m).1.written = m.written) := by
  constructor
  · intro hpassed
    obtain ⟨_,_,hwritten⟩ := initMpc_passed hpassed
    have hblk := m.le_blkSizeBytes
    exact ⟨initMpc_split hsum hpassed,hwritten.closed (by omega)⟩
  · exact initMpc_halted

/-- A controller of 512 blocks of 4 KiB. -/
def bootMpc : Mpc where
  ctrl := 0
  blkMax := 15
  blkCfg := 7
  blkIdx := 0
  intClear := 0
  lut _ := 0
  written := []

theorem initMpc_splits_boot : (initMpc 0x4000 0x1FC000 bootMpc).2 = none ∧
    (initMpc 0x4000 0x1FC000 bootMpc).1.Split bootMpc.blkSizeBytes 0x4000 0x1FC000 ∧
    (initMpc 0x4000 0x1F0000 { bootMpc with blkMax := 14 }).2 =
      some "[CRITICAL] MPC SRAM Block LUTs exceed the maximum index!" ∧
    (initMpc 0x4000 0x1F0000 { bootMpc with blkMax := 14 }).1.written = [] := by
  have hpassed : (initMpc 0x4000 0x1FC000 bootMpc).2 = none := by decide
  have hhalted : (initMpc 0x4000 0x1F0000 { bootMpc with blkMax := 14 }).2 =
      some "[CRITICAL] MPC SRAM Block LUTs exceed the maximum index!" := by decide
  have hfailed := (@initMpc_splits 0x4000 0x1F0000 { bootMpc with blkMax := 14 } (by decide)).2 (by rw [hhalted]; exact nofun)
  exact ⟨hpassed,((initMpc_splits bootMpc (by decide)).1 hpassed).1,hhalted,hfailed.2⟩

end Init

def flashSizeBytes : ℕ := 4 * 1024 * 1024
def ramBankSizeBytes : ℕ := 2 * 1024 * 1024
def flashSeMemSizeBytes : ℕ := 128 * 1024
def flashNsMemSizeBytes : ℕ := flashSizeBytes - flashSeMemSizeBytes
def sram1SeMemSizeBytes : ℕ := 16 * 1024
def sram1NsMemSizeBytes : ℕ := ramBankSizeBytes - sram1SeMemSizeBytes
def sram2NsMemSizeBytes : ℕ := ramBankSizeBytes

/-- The controllers of the board. -/
structure Mpcs where
  flash : Mpc
  sram1 : Mpc
  sram2 : Mpc

/-- `init_mpcs`, up to the check that halts it. -/
def initMpcs (s : Mpcs) : Mpcs × Option String :=
  let (flash,halted) := initMpc flashSeMemSizeBytes flashNsMemSizeBytes s.flash
  if halted.isSome then ({ s with flash := flash },halted)
  else
    let (sram1,halted) := initMpc sram1SeMemSizeBytes sram1NsMemSizeBytes s.sram1
    if halted.isSome then ({ s with flash := flash, sram1 := sram1 },halted)
    else
      let (sram2,halted) := initMpc 0 sram2NsMemSizeBytes s.sram2
      ({ flash := flash, sram1 := sram1, sram2 := sram2 },halted)

/-- A board that starts has its memories split as its layout says. -/
theorem initMpcs_split {s : Mpcs} (h : (initMpcs s).2 = none) :
    (initMpcs s).1.flash.Split s.flash.blkSizeBytes flashSeMemSizeBytes flashNsMemSizeBytes ∧
    (initMpcs s).1.sram1.Split s.sram1.blkSizeBytes sram1SeMemSizeBytes sram1NsMemSizeBytes ∧
    (initMpcs s).1.sram2.Split s.sram2.blkSizeBytes 0 sram2NsMemSizeBytes := by
  unfold initMpcs at h ⊢
  simp only at h ⊢
  split at h
  case isTrue hhalted => exact absurd h (Option.isSome_iff_ne_none.mp hhalted)
  case isFalse hflash =>
    split at h
    case isTrue hhalted => exact absurd h (Option.isSome_iff_ne_none.mp hhalted)
    case isFalse hsram1 =>
      rw [if_neg hflash,if_neg hsram1]
      rw [Option.not_isSome_iff_eq_none] at hflash hsram1
      exact ⟨initMpc_split (by decide) hflash,initMpc_split (by decide) hsram1,initMpc_split (by decide) h⟩

end EmbedTemplate.Secure
