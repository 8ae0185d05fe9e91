import EmbedTemplate.Pci.Config
import Mathlib.Tactic.IntervalCases

/-! # What the sizing loop does

The sizing loop as a relation over its passes, on the registers of the BARs: a pass stops at
a BAR that reads zero, skips one that has no memory window, or sizes a 64-bit or a 32-bit
window.
-/
namespace EmbedTemplate.Pci
variable {σ : Type*} {pci : Ecam σ}

/-- The header type of a function, without the multi-function bit. -/
def Ecam.headerType (pci : Ecam σ) (s : σ) (f : Func) : BitVec 8 :=
  headerOf (pci.read s ⟨f,pciConfigHeaderType⟩) &&& 0x7F

/-- The register of a BAR. -/
def barReg (f : Func) (i : ℕ) : Reg := ⟨f,pciConfigBar0 + i * 4⟩

/-- The BAR registers of the endpoint functions. -/
def Ecam.IsBar (pci : Ecam σ) (s : σ) (r : Reg) : Prop :=
  pci.headerType s r.f = headerTypeEndpoint ∧ ∃ i < maxBars, r = barReg r.f i

section Registers
variable {f : Func} {i j : ℕ} {s : σ}

theorem headerReg_ne (f f' : Func) (i : ℕ) : (⟨f,pciConfigHeaderType⟩ : Reg) ≠ barReg f' i := by
  intro h
  have hoffset : 12 = 16 + i * 4 := congrArg Reg.offset h
  omega

theorem barReg_ne (hij : i ≠ j) : barReg f i ≠ barReg f j := by
  intro h
  have hoffset : 16 + i * 4 = 16 + j * 4 := congrArg Reg.offset h
  omega

theorem isBar_barReg (hf : pci.headerType s f = headerTypeEndpoint) (hi : i < maxBars) : pci.IsBar s (barReg f i) :=
  ⟨hf,i,hi,rfl⟩

theorem barOffset_aligned (hi : i < maxBars) : (pciConfigBar0 + i * 4) &&& 0xFFC = pciConfigBar0 + i * 4 := by
  rw [maxBars] at hi
  interval_cases i <;> rfl

theorem readBar (s : σ) (hi : i < maxBars) : pci.readDword s f (pciConfigBar0 + i * 4) = pci.read s (barReg f i) := by
  rw [Ecam.readDword,barOffset_aligned hi]
  rfl

theorem writeBar (s : σ) (hi : i < maxBars) (v : BitVec 32) :
    pci.writeDword s f (pciConfigBar0 + i * 4) v = pci.write s (barReg f i) v := by
  rw [Ecam.writeDword,barOffset_aligned hi]
  rfl

end Registers

/-- A BAR without a memory window: nothing writable, everything writable, or I/O. -/
def skipped (readBack : BitVec 32) : Prop := readBack = 0 ∨ readBack = 0xFFFFFFFF ∨ readBack &&& 0x01 ≠ 0

section Passes
variable {f : Func} {n i : ℕ} {s : σ} (hi : i = maxBars - (n + 1))
include hi

theorem bar_lt : i < maxBars := hi ▸ Nat.sub_lt (by decide) (Nat.succ_pos n)

/-- The loop stops at a BAR that reads zero, -/
theorem sizeBars_empty (hzero : pci.read s (barReg f i) = 0) :
    sizeBars pci f (n + 1) s = (s,List.replicate (n + 1) ⟨0,0⟩) := by
  have hlt := bar_lt hi
  rw [sizeBars,← hi]
  simp only [readBar _ hlt]
  rw [if_pos hzero]

variable (hne : pci.read s (barReg f i) ≠ 0)
include hne

/-- skips one without a memory window, -/
theorem sizeBars_skip (hskip : skipped (pci.read (pci.write s (barReg f i) 0xFFFFFFFF) (barReg f i))) :
    sizeBars pci f (n + 1) s =
      ((sizeBars pci f n (pci.write (pci.write s (barReg f i) 0xFFFFFFFF) (barReg f i) (pci.read s (barReg f i)))).1,
        ⟨0,0⟩ :: (sizeBars pci f n (pci.write (pci.write s (barReg f i) 0xFFFFFFFF) (barReg f i)
          (pci.read s (barReg f i)))).2) := by
  have hlt := bar_lt hi
  rw [sizeBars,← hi]
  simp only [readBar _ hlt,writeBar _ hlt]
  rw [if_neg hne]
  exact if_pos hskip

variable (hwindow : ¬skipped (pci.read (pci.write s (barReg f i) 0xFFFFFFFF) (barReg f i)))
include hwindow

/-- and records the window of another, of one register -/
theorem sizeBars_narrow (htype : n ≠ 0 →
      pci.read (pci.write s (barReg f i) 0xFFFFFFFF) (barReg f i) &&& pciMemTypeMask ≠ pciMemType64) :
    sizeBars pci f (n + 1) s =
      ((sizeBars pci f n (pci.write (pci.write s (barReg f i) 0xFFFFFFFF) (barReg f i) (pci.read s (barReg f i)))).1,
        bar32 (pci.read s (barReg f i)) (pci.read (pci.write s (barReg f i) 0xFFFFFFFF) (barReg f i)) ::
          (sizeBars pci f n (pci.write (pci.write s (barReg f i) 0xFFFFFFFF) (barReg f i)
            (pci.read s (barReg f i)))).2) := by
  have hlt := bar_lt hi
  rw [sizeBars,← hi]
  simp only [readBar _ hlt,writeBar _ hlt]
  rw [if_neg hne]
  refine (if_neg hwindow).trans ?_
  cases n with
  | zero => rfl
  | succ n => rw [decide_eq_false (htype (Nat.succ_ne_zero n))]

omit hi in
/-- or of two. -/
theorem sizeBars_wide (hi : i = maxBars - (n + 2))
    (htype : pci.read (pci.write s (barReg f i) 0xFFFFFFFF) (barReg f i) &&& pciMemTypeMask = pciMemType64) (hlt : i + 1 < maxBars) :
    let s₁ := pci.write s (barReg f i) 0xFFFFFFFF
    let s₂ := pci.write s₁ (barReg f (i + 1)) 0xFFFFFFFF
    let r := sizeBars pci f n (pci.write (pci.write s₂ (barReg f i) (pci.read s (barReg f i))) (barReg f (i + 1))
      (pci.read s₁ (barReg f (i + 1))))
    sizeBars pci f (n + 2) s = (r.1,bar64 (pci.read s (barReg f i)) (pci.read s₁ (barReg f i))
      (pci.read s₁ (barReg f (i + 1))) (pci.read s₂ (barReg f (i + 1))) :: ⟨0,0⟩ :: r.2) := by
  have hupper : pciConfigBar0 + i * 4 + 4 = pciConfigBar0 + (i + 1) * 4 := by omega
  rw [sizeBars,← hi]
  simp only [hupper,readBar _ (Nat.lt_of_succ_lt hlt),writeBar _ (Nat.lt_of_succ_lt hlt),readBar _ hlt,writeBar _ hlt]
  rw [if_neg hne,decide_eq_true htype]
  exact if_neg hwindow

end Passes

/-- The passes over the last `n` BARs of a function, from one state of the hardware to another. -/
inductive Sized (pci : Ecam σ) (f : Func) : ℕ → σ → σ → List Bar → Prop where
  | done (s : σ) : Sized pci f 0 s s []
  | empty {n : ℕ} {s : σ} (hzero : pci.read s (barReg f (maxBars - (n + 1))) = 0) :
      Sized pci f (n + 1) s s (List.replicate (n + 1) ⟨0,0⟩)
  | skip {n i : ℕ} {s s₁ t : σ} {bars : List Bar} (hi : i = maxBars - (n + 1))
      (hs₁ : s₁ = pci.write s (barReg f i) 0xFFFFFFFF) (hskip : skipped (pci.read s₁ (barReg f i)))
      (hrest : Sized pci f n (pci.write s₁ (barReg f i) (pci.read s (barReg f i))) t bars) :
      Sized pci f (n + 1) s t (⟨0,0⟩ :: bars)
  | wide {n i : ℕ} {s s₁ s₂ t : σ} {bars : List Bar} (hi : i = maxBars - (n + 2))
      (hs₁ : s₁ = pci.write s (barReg f i) 0xFFFFFFFF) (hs₂ : s₂ = pci.write s₁ (barReg f (i + 1)) 0xFFFFFFFF)
      (hwindow : ¬skipped (pci.read s₁ (barReg f i)))
      (htype : pci.read s₁ (barReg f i) &&& pciMemTypeMask = pciMemType64)
      (hrest : Sized pci f n (pci.write (pci.write s₂ (barReg f i) (pci.read s (barReg f i))) (barReg f (i + 1))
        (pci.read s₁ (barReg f (i + 1)))) t bars) :
      Sized pci f (n + 2) s t (bar64 (pci.read s (barReg f i)) (pci.read s₁ (barReg f i))
        (pci.read s₁ (barReg f (i + 1))) (pci.read s₂ (barReg f (i + 1))) :: ⟨0,0⟩ :: bars)
  | narrow {n i : ℕ} {s s₁ t : σ} {bars : List Bar} (hi : i = maxBars - (n + 1))
      (hs₁ : s₁ = pci.write s (barReg f i) 0xFFFFFFFF) (hwindow : ¬skipped (pci.read s₁ (barReg f i)))
      (htype : n ≠ 0 → pci.read s₁ (barReg f i) &&& pciMemTypeMask ≠ pciMemType64)
      (hrest : Sized pci f n (pci.write s₁ (barReg f i) (pci.read s (barReg f i))) t bars) :
      Sized pci f (n + 1) s t (bar32 (pci.read s (barReg f i)) (pci.read s₁ (barReg f i)) :: bars)

theorem sizeBars_sized (f : Func) {n : ℕ} (hn : n ≤ maxBars) (s : σ) :
    Sized pci f n s (sizeBars pci f n s).1 (sizeBars pci f n s).2 := by
  induction n using Nat.strong_induction_on generalizing s with
  | _ n ih =>
    cases n with
    | zero => exact .done s
    | succ n =>
      by_cases hzero : pci.read s (barReg f (maxBars - (n + 1))) = 0
      · rw [sizeBars_empty rfl hzero]
        exact .empty hzero
      · by_cases hskip : skipped (pci.read (pci.write s (barReg f (maxBars - (n + 1))) 0xFFFFFFFF)
          (barReg f (maxBars - (n + 1))))
        · rw [sizeBars_skip rfl hzero hskip]
          exact .skip rfl rfl hskip (ih n (Nat.lt_succ_self n) (Nat.le_of_succ_le hn) _)
        · by_cases htype : n ≠ 0 → pci.read (pci.write s (barReg f (maxBars - (n + 1))) 0xFFFFFFFF)
            (barReg f (maxBars - (n + 1))) &&& pciMemTypeMask ≠ pciMemType64
          · rw [sizeBars_narrow rfl hzero hskip htype]
            exact .narrow rfl rfl hskip htype (ih n (Nat.lt_succ_self n) (Nat.le_of_succ_le hn) _)
          · rw [Classical.not_imp,not_not] at htype
            obtain ⟨m,rfl⟩ := Nat.exists_eq_succ_of_ne_zero htype.1
            rw [sizeBars_wide hzero hskip rfl htype.2 (by omega)]
            exact .wide rfl rfl rfl hskip htype.2 (ih m (by omega) (by omega) _)

/-- What holds over one register that is written and restored, and over two, holds over the loop. -/
theorem Sized.related {R : σ → σ → Prop} {f : Func} {n : ℕ} {s t : σ} {bars : List Bar} (hrefl : ∀ u, R u u)
    (htrans : ∀ {u v w}, R u v → R v w → R u w)
    (hheader : ∀ {u v}, R u v → pci.headerType v f = pci.headerType u f)
    (hone : ∀ {u i}, pci.IsBar u (barReg f i) →
      R u (pci.write (pci.write u (barReg f i) 0xFFFFFFFF) (barReg f i) (pci.read u (barReg f i))))
    (htwo : ∀ {u i}, pci.IsBar u (barReg f i) → pci.IsBar u (barReg f (i + 1)) →
      R u (pci.write (pci.write (pci.write (pci.write u (barReg f i) 0xFFFFFFFF) (barReg f (i + 1)) 0xFFFFFFFF)
        (barReg f i) (pci.read u (barReg f i))) (barReg f (i + 1))
          (pci.read (pci.write u (barReg f i) 0xFFFFFFFF) (barReg f (i + 1)))))
    (h : Sized pci f n s t bars) (hn : n ≤ maxBars) (hf : pci.headerType s f = headerTypeEndpoint) : R s t := by
  induction h with
  | done s => exact hrefl s
  | empty _ => exact hrefl _
  | @skip n i s s₁ t bars hi hs₁ _ _ ih =>
    subst hs₁
    have hrestored := hone (isBar_barReg hf (show i < maxBars by omega))
    exact htrans hrestored (ih (by omega) ((hheader hrestored).trans hf))
  | @narrow n i s s₁ t bars hi hs₁ _ _ _ ih =>
    subst hs₁
    have hrestored := hone (isBar_barReg hf (show i < maxBars by omega))
    exact htrans hrestored (ih (by omega) ((hheader hrestored).trans hf))
  | @wide n i s s₁ s₂ t bars hi hs₁ hs₂ _ _ _ ih =>
    have hlt : i + 1 < maxBars := by omega
    subst hs₁ hs₂
    have hrestored := htwo (isBar_barReg hf (Nat.lt_of_succ_lt hlt)) (isBar_barReg hf hlt)
    exact htrans hrestored (ih (by omega) ((hheader hrestored).trans hf))

end EmbedTemplate.Pci
