import EmbedTemplate.Library.PointerList
import EmbedTemplate.Pci.Alloc
import Mathlib.Data.List.Find

/-! # The search for a capability

The capabilities of a function form a list in its configuration space: the status register
announces it, the byte at 0x34 points to the first node, and a node starts with its id and
the pointer to the next one. `pcie_find_capability` gives up after 15 nodes.
-/
namespace EmbedTemplate.Pci
open PointerList

section Model
variable {σ : Type*} (pci : Ecam σ) (s : σ) (f : Func)

/-- A byte of the configuration space. -/
def Ecam.byte (offset : ℕ) : BitVec 8 := (pci.read s ⟨f,offset / 4 * 4⟩ >>> (8 * (offset % 4))).setWidth 8

/-- Bit 4 of the status register. -/
def Ecam.announces : Prop := (pci.byte s f 0x06).getLsbD 4 = true

instance : Decidable (pci.announces s f) := inferInstanceAs (Decidable (_ = _))

/-- The capability list, in dwords. -/
structure CapabilityList (nodes : List ℕ) : Prop where
  follows : Follows 0 (fun node => (pci.byte s f (node + 1)).toNat) (pci.byte s f 0x34).toNat nodes
  aligned : ∀ node ∈ nodes, 4 ∣ node

/-- The first node with an id, 0 standing for none. -/
def firstWith (capId : BitVec 8) (nodes : List ℕ) : ℕ := (nodes.find? fun node => pci.byte s f node = capId).getD 0

/-- `pcie_find_capability` with the number of its reads. -/
def findCapabilityReads (matchCapId : BitVec 8) : ℕ × ℕ :=
  let statusReg := pci.readDword s f 0x04 >>> 16
  if statusReg &&& 0x10 = 0 then (0,1)
  else
    let r := search 0 (nextCap pci s f) (fun capPtr => (capHdr pci s f capPtr).setWidth 8 = matchCapId) 15 (firstCap pci s f)
    (r.1,r.2 + 2)

end Model

section Spec
variable {σ : Type*} {pci : Ecam σ} {s : σ} {f : Func} {matchCapId : BitVec 8} {nodes : List ℕ}

theorem findCapability_eq_search (timeout capPtr : ℕ) : findCapability pci s f matchCapId timeout capPtr =
    (search 0 (nextCap pci s f) (fun capPtr => (capHdr pci s f capPtr).setWidth 8 = matchCapId) timeout capPtr).1 := by
  induction timeout generalizing capPtr with
  | zero => rfl
  | succ timeout ih =>
    rw [findCapability,search]
    split
    · rfl
    · by_cases hid : (capHdr pci s f capPtr).setWidth 8 = matchCapId
      · rw [if_pos hid,if_pos (decide_eq_true hid)]
      · rw [if_neg hid,if_neg (by rw [decide_eq_true_eq]; exact hid)]
        exact ih _

/-- Counting changes nothing, -/
theorem findCapabilityReads_fst : (findCapabilityReads pci s f matchCapId).1 =
    pcieFindCapability pci s f matchCapId := by
  rw [findCapabilityReads,pcieFindCapability]
  split
  · rfl
  · exact (findCapability_eq_search _ _).symm

/-- and whatever the configuration space holds, there are at most 17 reads. -/
theorem findCapabilityReads_snd : (findCapabilityReads pci s f matchCapId).2 ≤ 17 := by
  rw [findCapabilityReads]
  split
  · decide
  · exact Nat.add_le_add_right (search_count_le _) 2

theorem toNat_low_byte (v : BitVec 32) : (v &&& 0xFF).toNat = (v.setWidth 8).toNat := by
  rw [BitVec.toNat_and,BitVec.toNat_setWidth]
  exact Nat.and_two_pow_sub_one_eq_mod v.toNat 8

theorem firstCap_eq : firstCap pci s f = (pci.byte s f 0x34).toNat := toNat_low_byte _

theorem announces_iff : pci.announces s f ↔ ¬(pci.readDword s f 0x04 >>> 16) &&& 0x10 = 0 := by
  have hbit (v : BitVec 32) : ((v >>> 16).setWidth 8).getLsbD 4 = true ↔ ¬(v >>> 16) &&& 0x10#32 = 0 := by
    have hmask : (0x10#32) = BitVec.twoPow 32 4 := by decide
    have hone : BitVec.twoPow 32 4 ≠ 0 := by decide
    rw [hmask,BitVec.and_twoPow,BitVec.getLsbD_setWidth]
    cases (v >>> 16).getLsbD 4 with
    | true => exact iff_of_true rfl hone
    | false => exact iff_of_false Bool.false_ne_true (not_not.mpr rfl)
  exact hbit _

theorem aligned_node : ∀ node < 256, node % 4 = 0 →
    node &&& 0xFC = node ∧ node &&& 0x03 = 0 ∧ node &&& 0xFFC = node := by
  decide +kernel

/-- The header of a dword-aligned node has its id and the pointer to the next one. -/
theorem capHdr_aligned {node : ℕ} (hnode : node < 256) (haligned : 4 ∣ node) :
    (capHdr pci s f node).setWidth 8 = pci.byte s f node ∧ nextCap pci s f node = (pci.byte s f (node + 1)).toNat := by
  obtain ⟨hptr,hshift,hdword⟩ := aligned_node node hnode (Nat.mod_eq_zero_of_dvd haligned)
  have hhdr : capHdr pci s f node = pci.read s ⟨f,node⟩ := by
    rw [capHdr,Ecam.readDword,hptr,hshift,hdword]
    exact BitVec.ushiftRight_zero _
  have hself : node / 4 * 4 = node := Nat.div_mul_cancel haligned
  have hnext : (node + 1) / 4 * 4 = node ∧ (node + 1) % 4 = 1 := by omega
  constructor
  · rw [hhdr,Ecam.byte,hself,Nat.mod_eq_zero_of_dvd haligned]
    exact congrArg _ (BitVec.ushiftRight_zero _).symm
  · rw [nextCap,toNat_low_byte,hhdr,Ecam.byte,hnext.1,hnext.2]

theorem Follows.toNat_lt {link : ℕ → BitVec 8} {start : BitVec 8}
    (h : Follows 0 (fun node => (link node).toNat) start.toNat nodes) : ∀ node ∈ nodes, node < 256 := by
  induction nodes generalizing start with
  | nil => exact fun node hmem => absurd hmem List.not_mem_nil
  | cons first nodes ih =>
    intro node hmem
    obtain rfl | hmem := List.mem_cons.mp hmem
    · exact h.1 ▸ start.isLt
    · exact ih h.2.2 node hmem

theorem Follows.congr_next {next next' : ℕ → ℕ} {p : ℕ} (h : Follows 0 next p nodes)
    (hnext : ∀ node ∈ nodes, next' node = next node) : Follows 0 next' p nodes := by
  induction nodes generalizing p with
  | nil => exact h
  | cons first nodes ih =>
    refine ⟨h.1,h.2.1,?_⟩
    rw [hnext first (List.mem_cons_self ..)]
    exact ih h.2.2 fun node hmem => hnext node (List.mem_cons_of_mem _ hmem)

theorem CapabilityList.length_le (h : CapabilityList pci s f nodes) (hbehind : ∀ node ∈ nodes, 0x40 ≤ node) :
    nodes.length ≤ 48 := by
  have hlt := Follows.toNat_lt h.follows
  have hsub : nodes ⊆ (List.range 48).map fun i => 0x40 + 4 * i := by
    intro node hmem
    obtain ⟨i,rfl⟩ := h.aligned node hmem
    have hlow := hbehind _ hmem
    have hhigh := hlt _ hmem
    exact List.mem_map.mpr ⟨i - 16,List.mem_range.mpr (by omega),by omega⟩
  have hlength := (h.follows.nodup.subperm hsub).length_le
  rwa [List.length_map,List.length_range] at hlength

/-- The search finds the first node with an id exactly when there is none, or one among the first 15. -/
theorem CapabilityList.finds_iff (h : CapabilityList pci s f nodes) (hannounces : pci.announces s f) :
    pcieFindCapability pci s f matchCapId = firstWith pci s f matchCapId nodes ↔
      ((∃ node ∈ nodes, pci.byte s f node = matchCapId) →
        ∃ node ∈ nodes.take 15, pci.byte s f node = matchCapId) := by
  have hlt := Follows.toNat_lt h.follows
  have hhdr (node : ℕ) (hmem : node ∈ nodes) : (capHdr pci s f node).setWidth 8 = pci.byte s f node ∧
      nextCap pci s f node = (pci.byte s f (node + 1)).toNat :=
    capHdr_aligned (hlt node hmem) (h.aligned node hmem)
  have hfollows : Follows 0 (nextCap pci s f) (firstCap pci s f) nodes := by
    rw [firstCap_eq]
    exact Follows.congr_next h.follows fun node hmem => (hhdr node hmem).2
  have hid : firstWith pci s f matchCapId nodes =
      (nodes.find? fun capPtr => (capHdr pci s f capPtr).setWidth 8 = matchCapId).getD 0 := by
    refine congrArg (Option.getD · 0) (List.find?_congr fun node hmem => ?_)
    rw [(hhdr node hmem).1]
  rw [pcieFindCapability,if_neg (announces_iff.mp hannounces),findCapability_eq_search,hid,hfollows.search_eq_iff]
  simp only [decide_eq_true_eq]
  refine imp_congr ?_ ?_
  · exact exists_congr fun node => and_congr_right fun hmem => by rw [(hhdr node hmem).1]
  · exact exists_congr fun node => and_congr_right fun hmem => by rw [(hhdr node (List.mem_of_mem_take hmem)).1]

/-- For every configuration space the search ends after at most 17 reads. Without a list it finds
nothing, and in a list it finds the first node with the id exactly when there is none, or one among
the first 15. -/
theorem pcieFindCapability_iff (pci : Ecam σ) (s : σ) (f : Func) (matchCapId : BitVec 8) :
    ((findCapabilityReads pci s f matchCapId).1 = pcieFindCapability pci s f matchCapId ∧
      (findCapabilityReads pci s f matchCapId).2 ≤ 17) ∧
    (¬pci.announces s f → pcieFindCapability pci s f matchCapId = 0) ∧
    ∀ nodes, pci.announces s f → CapabilityList pci s f nodes →
      (pcieFindCapability pci s f matchCapId = firstWith pci s f matchCapId nodes ↔
        ((∃ node ∈ nodes, pci.byte s f node = matchCapId) →
          ∃ node ∈ nodes.take 15, pci.byte s f node = matchCapId)) := by
  refine ⟨⟨findCapabilityReads_fst,findCapabilityReads_snd⟩,fun hnone => ?_,fun nodes hannounces h => h.finds_iff hannounces⟩
  rw [announces_iff,not_not] at hnone
  exact if_pos hnone

end Spec

/-- A function with as many capabilities, in a row behind the header: MSI is the last one, and the
others are of vendors. -/
def capabilitiesInRow (n : ℕ) (r : Reg) : BitVec 32 :=
  if r.offset = 0x04 then 0x00100000
  else if r.offset = 0x34 then 0x40
  else if r.offset < 0x40 + 4 * (n - 1) then (BitVec.ofNat 32 (r.offset + 4) <<< 8) ||| 0x09
  else 0x05

def nodesInRow (n : ℕ) : List ℕ := (List.range n).map fun i => 0x40 + 4 * i

/-- MSI is found as the third capability. -/
theorem pcieFindCapability_iff_three :
    pcieFindCapability (maskedEcam 0) (capabilitiesInRow 3) ⟨0,1,0⟩ pciMsiCapId = 0x48 := by
  have hfinds := (pcieFindCapability_iff (maskedEcam 0) (capabilitiesInRow 3) ⟨0,1,0⟩ pciMsiCapId).2.2 (nodesInRow 3)
    (by decide) ⟨by decide,by decide⟩
  exact (hfinds.mpr fun _ => by decide).trans (by decide)

/-- As the sixteenth it is not. -/
theorem sixteenth_not_found : (maskedEcam 0).announces (capabilitiesInRow 16) ⟨0,1,0⟩ ∧
    CapabilityList (maskedEcam 0) (capabilitiesInRow 16) ⟨0,1,0⟩ (nodesInRow 16) ∧
    firstWith (maskedEcam 0) (capabilitiesInRow 16) ⟨0,1,0⟩ pciMsiCapId (nodesInRow 16) = 0x7C ∧
    pcieFindCapability (maskedEcam 0) (capabilitiesInRow 16) ⟨0,1,0⟩ pciMsiCapId = 0 :=
  ⟨by decide,⟨by decide +kernel,by decide⟩,by decide +kernel,by decide +kernel⟩

end EmbedTemplate.Pci
