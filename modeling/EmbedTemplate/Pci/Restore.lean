import EmbedTemplate.Pci.Sizing

/-! # The scan restores what it writes

Sizing writes all ones to a BAR and then its original value. On hardware whose BARs keep
the unwritable bits, and where a write to a BAR reaches no other register, this restores
every register, on every path of the loop and wherever the scan stops.
-/
namespace EmbedTemplate.Pci
open ReturnLoop
variable {σ : Type*} (pci : Ecam σ)

/-- BAR registers with a mask of writable bits, and no effect on other registers. -/
structure Masked (mask : Reg → BitVec 32) : Prop where
  bar : ∀ s r v, pci.IsBar s r → pci.read (pci.write s r v) r = (v &&& mask r) ||| (pci.read s r &&& ~~~mask r)
  other : ∀ s r v r', pci.IsBar s r → r' ≠ r → pci.read (pci.write s r v) r' = pci.read s r'

/-- Two states of the hardware with the same registers. -/
def Same (s t : σ) : Prop := ∀ r, pci.read t r = pci.read s r

theorem Same.refl (s : σ) : Same pci s s := fun _ => rfl

variable {pci} {mask : Reg → BitVec 32} {s t u : σ} {r r' : Reg}

theorem Same.trans (h : Same pci s t) (h' : Same pci t u) : Same pci s u := fun r => (h' r).trans (h r)

theorem Same.isBar (h : Same pci s t) : pci.IsBar t r ↔ pci.IsBar s r := by
  rw [Ecam.IsBar,Ecam.IsBar,Ecam.headerType,Ecam.headerType,h]

theorem Masked.headerType (hm : Masked pci mask) (hr : pci.IsBar s r) (v : BitVec 32) (f : Func) :
    pci.headerType (pci.write s r v) f = pci.headerType s f := by
  obtain ⟨i,_,hreg⟩ := hr.2
  rw [Ecam.headerType,Ecam.headerType,hm.other s r v _ hr]
  rw [hreg]
  exact headerReg_ne f r.f i

theorem Masked.isBar (hm : Masked pci mask) (hr : pci.IsBar s r) (v : BitVec 32) :
    pci.IsBar (pci.write s r v) r' ↔ pci.IsBar s r' := by
  rw [Ecam.IsBar,Ecam.IsBar,hm.headerType hr]

/-- The original value behind any other restores a masked register. -/
theorem mask_restore (mask original v : BitVec 32) :
    (original &&& mask) ||| (((v &&& mask) ||| (original &&& ~~~mask)) &&& ~~~mask) = original := by
  ext i hi
  by_cases h : mask[i] = true <;> simp [h]

theorem Masked.restore (hm : Masked pci mask) (hr : pci.IsBar s r) (v : BitVec 32) :
    Same pci s (pci.write (pci.write s r v) r (pci.read s r)) := by
  have hr' := (hm.isBar hr v).mpr hr
  intro q
  by_cases hq : q = r
  · rw [hq,hm.bar _ _ _ hr',hm.bar _ _ _ hr]
    exact mask_restore _ _ _
  · rw [hm.other _ _ _ _ hr' hq,hm.other _ _ _ _ hr hq]

/-- The two halves of a 64-bit BAR, written and restored one after the other. -/
theorem Masked.restore_pair (hm : Masked pci mask) (hr : pci.IsBar s r) (hr' : pci.IsBar s r') (hne : r' ≠ r)
    (v v' : BitVec 32) :
    Same pci s (pci.write (pci.write (pci.write (pci.write s r v) r' v') r (pci.read s r)) r'
      (pci.read (pci.write s r v) r')) := by
  have h1 := (hm.isBar hr v).mpr hr'
  have h2 := (hm.isBar h1 v').mpr ((hm.isBar hr v).mpr hr)
  have h3 := (hm.isBar h2 (pci.read s r)).mpr ((hm.isBar h1 v').mpr h1)
  intro q
  by_cases hq' : q = r'
  · rw [hq',hm.bar _ _ _ h3,hm.other _ _ _ _ h2 hne,hm.bar _ _ _ h1,hm.other _ _ _ _ hr hne]
    exact mask_restore _ _ _
  · rw [hm.other _ _ _ _ h3 hq']
    by_cases hq : q = r
    · rw [hq,hm.bar _ _ _ h2,hm.other _ _ _ _ h1 hne.symm,hm.bar _ _ _ hr]
      exact mask_restore _ _ _
    · rw [hm.other _ _ _ _ h2 hq,hm.other _ _ _ _ h1 hq',hm.other _ _ _ _ hr hq]

theorem Masked.sized (hm : Masked pci mask) {f : Func} {n : ℕ} {bars : List Bar} (h : Sized pci f n s t bars)
    (hn : n ≤ maxBars) (hf : pci.headerType s f = headerTypeEndpoint) : Same pci s t := by
  refine h.related (Same.refl pci) Same.trans (fun hsame => ?_) (fun hbar => hm.restore hbar _) (fun hbar hbar' => ?_) hn hf
  · rw [Ecam.headerType,hsame]
    rfl
  · exact hm.restore_pair hbar hbar' (barReg_ne (Nat.succ_ne_self _)) _ _

section Invariant
variable {I : System σ → Prop}
  (hendpoint : ∀ x f idReg, pci.headerType x.hw f = headerTypeEndpoint → I x →
    I (scanEndpoint pci f idReg (pci.headerType x.hw f) x))

section Bridge
variable (hbridge : ∀ (x : System σ) (bridge : BridgeInfo), bridge.headerType = headerTypeBridge →
    pci.headerType x.hw bridge.f = headerTypeBridge → I x →
    I { x with db := { x.db with bridges := x.db.bridges ++ [bridge] } })
include hbridge

theorem scanBridge_invariant {recurse : ℕ → System σ → System σ} (hrec : ∀ bus x, I x → I (recurse bus x)) {f : Func}
    (idReg : BitVec 32) {x : System σ} (hf : pci.headerType x.hw f = headerTypeBridge) (hx : I x) :
    I (scanBridge pci recurse f idReg (pci.headerType x.hw f) x) := by
  rw [scanBridge]
  simp only
  split
  · exact hrec _ _ (hbridge x _ hf hf hx)
  · exact hbridge x _ hf hf hx

include hendpoint

/-- A scan keeps what the recording of an endpoint and that of a bridge keep. -/
theorem doPciScan_keeps (depth bus : ℕ) {x : System σ} (hx : I x) : I (doPciScan pci depth bus x) := by
  induction depth generalizing bus x with
  | zero => exact hx
  | succ depth ih =>
    refine loop_invariant (fun dev _ x hx => ?_) hx
    rw [scanDevice]
    split
    · exact hx
    · refine loop_invariant (fun func _ x hx => ?_) hx
      simp only [scanFunction]
      split
      · exact hx
      · split
        · exact hx
        · split
          · exact hendpoint x _ _ ‹_› hx
          · split
            · split
              · exact hx
              · exact scanBridge_invariant hbridge (fun bus x hx => ih bus hx) _ ‹_› hx
            · exact hx

end Bridge

include hendpoint in
/-- What is kept does not always depend on the bridge that is recorded. -/
theorem doPciScan_invariant (hbridge : ∀ (x : System σ) (bridge : BridgeInfo), I x →
      I { x with db := { x.db with bridges := x.db.bridges ++ [bridge] } })
    (depth bus : ℕ) {x : System σ} (hx : I x) : I (doPciScan pci depth bus x) :=
  doPciScan_keeps hendpoint (fun x bridge _ _ => hbridge x bridge) depth bus hx

end Invariant

section Scan
variable {R : σ → σ → Prop} (hrefl : ∀ s, R s s) (htrans : ∀ {s t u}, R s t → R t u → R s u)
  (hsize : ∀ s f, pci.headerType s f = headerTypeEndpoint → R s (sizeBars pci f maxBars s).1)
include hrefl htrans hsize

/-- A relation that the sizing of an endpoint keeps, a scan keeps: it writes nothing else. -/
theorem doPciScan_relates (depth bus : ℕ) (s : System σ) : R s.hw (doPciScan pci depth bus s).hw :=
  doPciScan_invariant (I := fun x => R s.hw x.hw) (fun x f _ hf hx => htrans hx (hsize x.hw f hf)) (fun _ _ hx => hx)
    depth bus (hrefl s.hw)

theorem pciScan_relates (bus : ℕ) (s : System σ) : R s.hw (pciScan pci bus s).hw := by
  rw [pciScan]
  split
  · exact hrefl _
  · exact doPciScan_relates hrefl htrans hsize 256 bus s

end Scan

/-- On hardware with masked BARs every configuration register of every function has its
value of before behind a scan, whatever the database and wherever the scan stops. -/
theorem pciScan_restores (hm : Masked pci mask) (bus : ℕ) (s : System σ) (r : Reg) :
    pci.read (pciScan pci bus s).hw r = pci.read s.hw r :=
  pciScan_relates (Same.refl pci) (fun h h' => h.trans h')
    (fun s f hf => hm.sized (sizeBars_sized f (Nat.le_refl _) s) (Nat.le_refl _) hf) bus s r

/-- Registers that are words with a mask of writable bits. -/
def maskedEcam (mask : Reg → BitVec 32) : Ecam (Reg → BitVec 32) where
  read s r := s r
  write s r v := Function.update s r ((v &&& mask r) ||| (s r &&& ~~~mask r))
  writeWord s r v :=
    let q : Reg := ⟨r.f,r.offset &&& 0xFFC⟩
    let shift := 8 * (r.offset &&& 0x2)
    let written := mask q &&& (0xFFFF <<< shift)
    Function.update s q ((v.setWidth 32 <<< shift &&& written) ||| (s q &&& ~~~written))

theorem masked_maskedEcam (mask : Reg → BitVec 32) : Masked (maskedEcam mask) mask where
  bar _ _ _ _ := Function.update_self ..
  other _ _ _ _ _ hne := Function.update_of_ne hne ..

/-- A board with a host bridge, a device that has a 64-bit BAR, and a bridge with a device
behind it. -/
def board (r : Reg) : BitVec 32 :=
  if r.f = ⟨0,0,0⟩ then if r.offset = 0 then 0x00081B36 else 0
  else if r.f = ⟨0,1,0⟩ then
    if r.offset = 0 then 0x10411AF4 else if r.offset = 0x10 then 0xFE00000C else if r.offset = 0x14 then 1 else 0
  else if r.f = ⟨0,2,0⟩ then
    if r.offset = 0 then 0x000C1B36 else if r.offset = 0x0C then 0x00010000
    else if r.offset = 0x18 then 0x00010100 else 0
  else if r.f = ⟨1,0,0⟩ then if r.offset = 0 then 0x10001AF4 else if r.offset = 0x10 then 0xC001 else 0
  else 0xFFFFFFFF

def boardMask (r : Reg) : BitVec 32 :=
  if r.offset = 0x04 then 0xFFFF
  else if r.f = ⟨0,1,0⟩ then if r.offset = 0x10 then 0xFFFFC000 else if r.offset = 0x14 then 0xFFFFFFFF else 0
  else if r.f = ⟨1,0,0⟩ then if r.offset = 0x10 then 0xFFE0 else 0
  else 0

theorem pciScan_restores_board :
    (maskedEcam boardMask).read (pciScan (maskedEcam boardMask) 0 ⟨board,⟨false,[],[]⟩⟩).hw ⟨⟨0,1,0⟩,0x10⟩ =
        0xFE00000C :=
  (pciScan_restores (masked_maskedEcam boardMask) 0 ⟨board,⟨false,[],[]⟩⟩ ⟨⟨0,1,0⟩,0x10⟩).trans rfl

end EmbedTemplate.Pci
