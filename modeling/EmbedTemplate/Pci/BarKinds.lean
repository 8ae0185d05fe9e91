import EmbedTemplate.Pci.Alloc
import Mathlib.Tactic.IntervalCases

/-! # The kinds of BARs

What the hardware has behind the BARs of an endpoint: nothing, an I/O range, or a memory
window of a power of two behind one register or two. The scan then records the sizes of the
memory windows, those from 4 GiB on as all ones.
-/
namespace EmbedTemplate.Pci
open BumpAllocator

inductive BarKind where
  | none
  | io
  | mem32 (k : ℕ)
  | mem64 (k : ℕ)
  | upper (k : ℕ)

/-- The writable address bits of a window of `2 ^ k` bytes, over two registers. -/
def windowMask (k : ℕ) : BitVec 64 := -(BitVec.twoPow 64 k)
def lowMask (k : ℕ) : BitVec 32 := (windowMask k).setWidth 32
def highMask (k : ℕ) : BitVec 32 := (windowMask k >>> 32).setWidth 32

/-- The register of a kind, with its mask and its value: the address bits that are not
writable are zero, and the low bits say which kind it is. -/
def BarKind.Holds (mask v : BitVec 32) : BarKind → Prop
  | .none => v = 0
  | .io => v &&& 0x01 = 1
  | .mem32 k => (4 ≤ k ∧ k < 32) ∧ mask = lowMask k ∧ v &&& ~~~mask &&& 0xFFFFFFF0 = 0 ∧ v &&& 0x01 = 0 ∧
      v &&& pciMemTypeMask ≠ pciMemType64
  | .mem64 k => (4 ≤ k ∧ k < 64) ∧ mask = lowMask k ∧ v &&& ~~~mask &&& 0xFFFFFFF0 = 0 ∧ v &&& 0x01 = 0 ∧
      v &&& pciMemTypeMask = pciMemType64
  | .upper k => mask = highMask k ∧ v &&& ~~~mask = 0

/-- The BARs of the endpoints in every state of the hardware. -/
structure BarSpec {σ : Type*} (pci : Ecam σ) (mask : Reg → BitVec 32) (kind : Func → ℕ → BarKind) : Prop where
  masked : Masked pci mask
  holds : ∀ s f i, pci.headerType s f = headerTypeEndpoint → i < maxBars →
    (kind f i).Holds (mask (barReg f i)) (pci.read s (barReg f i))
  paired : ∀ f i k, i + 1 < maxBars → (kind f i = .mem64 k ↔ kind f (i + 1) = .upper k)
  first : ∀ f k, kind f 0 ≠ .upper k
  last : ∀ f k, kind f (maxBars - 1) ≠ .mem64 k

/-- The size that the database has room for. -/
def recordedSize (k : ℕ) : BitVec 32 := if k < 32 then BitVec.twoPow 32 k else BitVec.allOnes 32

theorem recordedSize_size (k : ℕ) : Size (recordedSize k) := by
  rw [recordedSize]
  split
  · exact .inl ⟨k,‹_›,rfl⟩
  · exact .inr rfl

/-- A window of a memory BAR, with the size that the scan finds for it. -/
def Window.Sized (kind : Func → ℕ → BarKind) (w : Window) : Prop :=
  w.index < maxBars ∧ ∃ k, (kind w.f w.index = .mem32 k ∨ kind w.f w.index = .mem64 k) ∧ w.size = recordedSize k

theorem lowMask_address {k : ℕ} (hk : 4 ≤ k) (hk' : k < 64) : lowMask k &&& 0xFFFFFFF0 = lowMask k := by
  interval_cases k <;> rfl

theorem readBack_address {mask v : BitVec 32} (hmask : mask &&& 0xFFFFFFF0 = mask)
    (hv : v &&& ~~~mask &&& 0xFFFFFFF0 = 0) (w : BitVec 32) :
    ((w &&& mask) ||| (v &&& ~~~mask)) &&& 0xFFFFFFF0 = w &&& mask := by
  rw [BitVec.and_or_distrib_right,hv,BitVec.and_assoc,hmask]
  exact BitVec.or_zero

theorem bar32_size (original : BitVec 32) {readBack : BitVec 32} {k : ℕ} (hk : 4 ≤ k) (hk' : k < 32)
    (h : readBack &&& 0xFFFFFFF0 = lowMask k) (hsize : (bar32 original readBack).size ≠ 0) :
    (bar32 original readBack).size = recordedSize k := by
  revert hsize
  simp only [bar32,h]
  interval_cases k <;> decide

theorem bar64_size (original origUpper : BitVec 32) {readBack : BitVec 32} {k : ℕ} (hk : 4 ≤ k) (hk' : k < 64)
    (h : readBack &&& 0xFFFFFFF0 = lowMask k) : (bar64 original readBack origUpper (highMask k)).size =
        recordedSize k := by
  simp only [bar64,h]
  interval_cases k <;> decide

section Scan
variable {σ : Type*} {pci : Ecam σ} {mask : Reg → BitVec 32} {kind : Func → ℕ → BarKind} {s t : σ} {f : Func} {i n k : ℕ}

theorem BarSpec.readBack (hb : BarSpec pci mask kind) (hf : pci.headerType s f = headerTypeEndpoint)
    (hi : i < maxBars) :
    let readBack := pci.read (pci.write s (barReg f i) 0xFFFFFFFF) (barReg f i)
    (kind f i).Holds (mask (barReg f i)) readBack ∧
      (kind f i = .mem32 k ∨ kind f i = .mem64 k → readBack &&& 0xFFFFFFF0 = lowMask k) ∧
      (kind f i = .upper k → readBack = highMask k) := by
  intro readBack
  have hbar := isBar_barReg hf hi
  have hread : readBack = ((0xFFFFFFFF &&& mask (barReg f i)) ||| (pci.read s (barReg f i) &&& ~~~mask (barReg f i))) :=
    hb.masked.bar _ _ _ hbar
  have hbefore := hb.holds s f i hf hi
  have hones : 0xFFFFFFFF &&& mask (barReg f i) = mask (barReg f i) := BitVec.allOnes_and
  refine ⟨hb.holds _ f i ((hb.masked.headerType hbar _ f).trans hf) hi,?_,?_⟩
  · rintro (hkind | hkind) <;> rw [hkind] at hbefore <;> obtain ⟨⟨hk,hk'⟩,hmask,hfixed,_⟩ := hbefore
    · have haddress := lowMask_address hk (by omega)
      rw [hread,readBack_address (hmask ▸ haddress) hfixed,hones,hmask]
    · have haddress := lowMask_address hk hk'
      rw [hread,readBack_address (hmask ▸ haddress) hfixed,hones,hmask]
  · intro hkind
    rw [hkind] at hbefore
    obtain ⟨hmask,hfixed⟩ := hbefore
    rw [hread,hfixed,hones,hmask]
    exact BitVec.or_zero

/-- Only a memory BAR is sized, and its type bits tell which. -/
theorem Holds.window {mask v : BitVec 32} {kind : BarKind} (h : kind.Holds mask v) (hwindow : ¬skipped v)
    (hupper : ∀ k, kind ≠ .upper k) :
    (∃ k, kind = .mem32 k ∧ v &&& pciMemTypeMask ≠ pciMemType64) ∨
      ∃ k, kind = .mem64 k ∧ v &&& pciMemTypeMask = pciMemType64 := by
  cases kind with
  | none => exact absurd (.inl h) hwindow
  | io => exact absurd (.inr (.inr (by rw [show v &&& 0x01 = 1 from h]; decide))) hwindow
  | mem32 k => exact .inl ⟨k,rfl,h.2.2.2.2⟩
  | mem64 k => exact .inr ⟨k,rfl,h.2.2.2.2⟩
  | upper k => exact absurd rfl (hupper k)

theorem Holds.not_skipped {mask v : BitVec 32} (h : (BarKind.mem64 k).Holds mask v) : ¬skipped v := by
  obtain ⟨_,_,_,hmem,htype⟩ := h
  rintro (hzero | hones | hio)
  · rw [hzero] at htype
    exact absurd htype (by decide)
  · rw [hones] at hmem
    exact absurd hmem (by decide)
  · exact hio hmem

/-- The scan of an endpoint sizes its memory BARs, and no register but their first ones. -/
theorem BarSpec.sized (hb : BarSpec pci mask kind) {bars : List Bar} (h : Sized pci f n s t bars) (hn : n ≤ maxBars)
    (hf : pci.headerType s f = headerTypeEndpoint) (hfirst : 0 < n → ∀ k, kind f (maxBars - n) ≠ .upper k) :
    ∀ w ∈ barWindows f (maxBars - n) bars, w.f = f ∧ w.Sized kind := by
  have hstill : ∀ u, Same pci s u → pci.headerType u f = headerTypeEndpoint := by
    intro u hu
    rw [Ecam.headerType,hu]
    exact hf
  induction h with
  | done s => exact fun w hw => (by cases hw)
  | @empty n s hzero =>
    have hnone : ∀ m i, barWindows f i (List.replicate m ⟨0,0⟩) = [] := by
      intro m
      induction m with
      | zero => exact fun _ => rfl
      | succ m ih => exact fun i => ih (i + 1)
    rw [hnone]
    exact fun w hw => (by cases hw)
  | @skip n i s s₁ t bars hi hs₁ hskip _ ih =>
    have hlt : i < maxBars := by omega
    subst hs₁
    have hsame := hb.masked.restore (isBar_barReg hf hlt) 0xFFFFFFFF
    have hholds := (hb.readBack (k := 0) hf hlt).1
    have hnext : maxBars - n = i + 1 := by omega
    rw [← hi,barWindows,if_pos rfl,← hnext]
    refine ih (by omega) (hstill _ hsame) (fun hpos k hk => ?_) fun u hu => hstill u (hsame.trans hu)
    rw [hnext] at hk
    rw [(hb.paired f i k (by omega)).mpr hk] at hholds
    exact Holds.not_skipped hholds hskip
  | @narrow n i s s₁ t bars hi hs₁ hwindow htype _ ih =>
    have hlt : i < maxBars := by omega
    subst hs₁
    have hsame := hb.masked.restore (isBar_barReg hf hlt) 0xFFFFFFFF
    have hnext : maxBars - n = i + 1 := by omega
    rw [← hi] at hfirst ⊢
    have hmem32 : ∃ k, kind f i = .mem32 k := by
      rcases Holds.window (hb.readBack (k := 0) hf hlt).1 hwindow (hfirst (Nat.succ_pos n)) with ⟨k,hk,_⟩ | ⟨k,hk,hwide⟩
      · exact ⟨k,hk⟩
      · by_cases hzero : n = 0
        · exact absurd (show kind f (maxBars - 1) = .mem64 k by rw [← hk,hi,hzero]) (hb.last f k)
        · exact absurd hwide (htype hzero)
    obtain ⟨k,hk⟩ := hmem32
    have hrest := ih (by omega) (hstill _ hsame) (fun hpos k' hk' => by
      rw [hnext] at hk'
      have hmem64 := (hb.paired f i k' (by omega)).mpr hk'
      rw [hk] at hmem64
      cases hmem64) fun u hu => hstill u (hsame.trans hu)
    rw [hnext] at hrest
    rw [barWindows]
    split
    · exact hrest
    · rename_i hsize
      have hholds := (hb.readBack (k := k) hf hlt).1
      rw [hk] at hholds
      obtain ⟨⟨hlow,hhigh⟩,_⟩ := hholds
      refine List.forall_mem_cons.mpr ⟨⟨rfl,hlt,k,.inl hk,?_⟩,hrest⟩
      exact bar32_size _ hlow hhigh ((hb.readBack hf hlt).2.1 (.inl hk)) hsize
  | @wide n i s s₁ s₂ t bars hi hs₁ hs₂ hwindow htype _ ih =>
    have hlt : i + 1 < maxBars := by omega
    subst hs₁ hs₂
    have hbar := isBar_barReg hf (Nat.lt_of_succ_lt hlt)
    have hf₁ := (hb.masked.headerType hbar 0xFFFFFFFF f).trans hf
    have hsame := hb.masked.restore_pair hbar (isBar_barReg hf hlt) (barReg_ne (Nat.succ_ne_self i)) 0xFFFFFFFF 0xFFFFFFFF
    have hnext : maxBars - n = i + 1 + 1 := by omega
    rw [← hi] at hfirst ⊢
    have hmem64 : ∃ k, kind f i = .mem64 k := by
      rcases Holds.window (hb.readBack (k := 0) hf (Nat.lt_of_succ_lt hlt)).1 hwindow (hfirst (Nat.succ_pos _)) with
        ⟨k,_,hnarrow⟩ | ⟨k,hk,_⟩
      · exact absurd htype hnarrow
      · exact ⟨k,hk⟩
    obtain ⟨k,hk⟩ := hmem64
    have hupper := (hb.paired f i k hlt).mp hk
    have hrest := ih (by omega) (hstill _ hsame) (fun hpos k' hk' => by
      rw [hnext] at hk'
      have hmem64 := (hb.paired f (i + 1) k' (by omega)).mpr hk'
      rw [hupper] at hmem64
      cases hmem64) fun u hu => hstill u (hsame.trans hu)
    rw [hnext] at hrest
    have hlow := (hb.readBack (k := k) hf (Nat.lt_of_succ_lt hlt)).1
    rw [hk] at hlow
    obtain ⟨⟨hlow,hhigh⟩,_⟩ := hlow
    rw [barWindows,barWindows,if_pos rfl,(hb.readBack hf₁ hlt).2.2 hupper]
    split
    · exact hrest
    · refine List.forall_mem_cons.mpr ⟨⟨rfl,Nat.lt_of_succ_lt hlt,k,.inr hk,?_⟩,hrest⟩
      exact bar64_size (pci.read s (barReg f i)) (pci.read (pci.write s (barReg f i) 0xFFFFFFFF) (barReg f (i + 1)))
        hlow hhigh ((hb.readBack hf (Nat.lt_of_succ_lt hlt)).2.1 (.inr hk))

end Scan

end EmbedTemplate.Pci
