import EmbedTemplate.Pci.BarKinds
import EmbedTemplate.Pci.Msi
import Mathlib.Order.CompletePartialOrder
import Mathlib.Order.Interval.Set.Disjoint

/-! # The windows that are allocated

On hardware with the BARs of the specification the allocation is sound exactly when the
recorded sizes fit behind the base one after the other, the 64-bit BARs among them have
nothing in their upper dword, and none is recorded twice.
-/
namespace EmbedTemplate.Pci
open LastWrite VectorTable BumpAllocator
variable {σ τ : Type*} {pci : Ecam σ} {mask : Reg → BitVec 32} {kind : Func → ℕ → BarKind}

/-- The recorded address range. -/
def Window.range (w : Window) : Set ℕ := Set.Ico w.address.toNat (w.address.toNat + w.size.toNat)

/-- The type bits of a BAR that goes on in the next one. -/
def Ecam.Wide (pci : Ecam σ) (s : σ) (w : Window) : Prop :=
  pci.read s (barReg w.f w.index) &&& pciMemTypeMask = pciMemType64

instance (s : σ) (w : Window) : Decidable (pci.Wide s w) := inferInstanceAs (Decidable (_ = _))

/-- The address from which on the BAR of a window decodes. -/
def Ecam.decodes (pci : Ecam σ) (s : σ) (w : Window) : ℕ :=
  (pci.read s (barReg w.f w.index) &&& 0xFFFFFFF0).toNat +
    if pci.Wide s w then (pci.read s (barReg w.f (w.index + 1))).toNat * 2 ^ 32 else 0

/-- Windows that are aligned, inside the MMIO space, apart from each other and decoded. -/
structure Sound (pci : Ecam σ) (base : ℕ) (s : σ) (ws : List Window) : Prop where
  aligned : ∀ w ∈ ws, w.size.toNat ∣ w.address.toNat
  inside : ∀ w ∈ ws, w.range ⊆ Set.Ico base (2 ^ 32)
  disjoint : ws.Pairwise fun w v => Disjoint w.range v.range
  decoded : ∀ w ∈ ws, pci.decodes s w = w.address.toNat

/-- A device as the scan records it. -/
structure DeviceInfo.Sized (pci : Ecam σ) (kind : Func → ℕ → BarKind) (s : σ) (dev : DeviceInfo) : Prop where
  endpoint : EndpointIn pci s dev
  windows : ∀ w ∈ dev.windows, w.f = dev.f ∧ w.Sized kind

theorem Sized.length {f : Func} {n : ℕ} {s t : σ} {bars : List Bar} (h : Sized pci f n s t bars) : bars.length = n := by
  induction h with
  | done => rfl
  | empty => exact List.length_replicate
  | skip _ _ _ _ ih => rw [List.length_cons,ih]
  | wide _ _ _ _ _ _ ih => rw [List.length_cons,List.length_cons,ih]
  | narrow _ _ _ _ _ ih => rw [List.length_cons,ih]

/-- A scan leaves the registers as they were and records endpoints with the sizes of their
memory BARs. -/
theorem BarSpec.pciScan (hb : BarSpec pci mask kind) (bus : ℕ) (s : σ) :
    let x := pciScan pci bus ⟨s,false,[],[]⟩
    Same pci s x.hw ∧ ∀ dev ∈ x.db.devices, dev.Sized pci kind s := by
  refine doPciScan_invariant (I := fun x => Same pci s x.hw ∧ ∀ dev ∈ x.db.devices, dev.Sized pci kind s) ?_
    (fun _ _ hx => hx) 256 bus ⟨Same.refl pci s,fun _ hdev => (by cases hdev)⟩
  rintro x f idReg hf ⟨hsame,hdevs⟩
  have hsized : Pci.Sized pci f maxBars x.hw _ _ := sizeBars_sized f (Nat.le_refl maxBars) x.hw
  have hend : pci.headerType s f = headerTypeEndpoint := by
    rw [← hf,Ecam.headerType,Ecam.headerType,hsame]
  refine ⟨hsame.trans (hb.masked.sized hsized (Nat.le_refl _) hf),?_⟩
  intro dev hdev
  rcases List.mem_append.mp hdev with hdev | hdev
  · exact hdevs dev hdev
  · rw [List.mem_singleton.mp hdev]
    refine ⟨⟨hf,hend,hsized.length.le⟩,fun w hw => ?_⟩
    rw [DeviceInfo.windows] at hw
    split at hw
    · exact hb.sized hsized (Nat.le_refl _) hf (fun _ => hb.first f) w hw
    · cases hw

theorem Window.Sized.size {w : Window} (h : w.Sized kind) : Size w.size := by
  obtain ⟨_,k,_,hsize⟩ := h
  rw [hsize]
  exact recordedSize_size k

theorem Window.Sized.pos {w : Window} (h : w.Sized kind) : 0 < w.size.toNat := h.size.toNat_pos (by decide)

section Place
variable {ws : List Window} {base : ℕ} (hws : ∀ w ∈ ws, w.Sized kind)
include hws

theorem place_sized (free : BitVec 32) : ∀ w ∈ place free ws, w.Sized kind := by
  have hmap : (place free ws).map (fun w => (w.f,w.index,w.size)) = ws.map fun w => (w.f,w.index,w.size) :=
    place_map fun _ _ => rfl
  intro w hw
  have hmem : (w.f,w.index,w.size) ∈ ws.map fun w => (w.f,w.index,w.size) := by
    rw [← hmap]
    exact List.mem_map_of_mem hw
  obtain ⟨v,hv,heq⟩ := List.mem_map.mp hmem
  obtain ⟨hf,hi,hsize⟩ : v.f = w.f ∧ v.index = w.index ∧ v.size = w.size := by simpa using heq
  have hsized := hws v hv
  rwa [Window.Sized,hf,hi,hsize] at hsized

theorem sizes_size : ∀ n ∈ ws.map Window.size, Size n := by
  intro n hn
  obtain ⟨w,hw,rfl⟩ := List.mem_map.mp hn
  exact (hws w hw).size

/-- The placed windows lie inside the MMIO space if and only if the sizes fit behind the base. -/
theorem place_inside_iff (hbase : 1 < base) (hbase' : base ≤ 2 ^ 32) :
    (∀ w ∈ place (BitVec.ofNat 32 base) ws, w.range ⊆ Set.Ico base (2 ^ 32)) ↔
      finish base ((ws.map Window.size).map BitVec.toNat) ≤ 2 ^ 32 := by
  rw [← wordSpans_fit_iff (by decide) (sizes_size hws) hbase le_rfl hbase',← place_spans,List.forall_mem_map]
  refine forall₂_congr fun w hw => ?_
  have hpos := (place_sized hws _ w hw).pos
  exact Set.Ico_subset_Ico_iff (Nat.lt_add_of_pos_right hpos)

variable (hbase : 1 < base) (hend : finish base ((ws.map Window.size).map BitVec.toNat) ≤ 2 ^ 32)
include hbase hend

theorem place_toNat : (place (BitVec.ofNat 32 base) ws).map (fun w => (w.address.toNat,w.size.toNat)) =
    spans base ((ws.map Window.size).map BitVec.toNat) := by
  rw [← wordSpans_eq (by decide) (sizes_size hws) hbase hend,← place_spans,List.map_map]
  rfl

theorem place_aligned : ∀ w ∈ place (BitVec.ofNat 32 base) ws, w.size.toNat ∣ w.address.toNat := by
  intro w hw
  refine (mem_spans (Size.map_pos (by decide) (sizes_size hws)) (b := base) ?_).1
  rw [← place_toNat hws hbase hend]
  exact List.mem_map_of_mem (f := fun w : Window => (w.address.toNat,w.size.toNat)) hw

theorem place_disjoint : (place (BitVec.ofNat 32 base) ws).Pairwise fun w v => Disjoint w.range v.range := by
  have hordered := spans_ordered (Size.map_pos (by decide) (sizes_size hws)) base
  rw [← place_toNat hws hbase hend,List.pairwise_map] at hordered
  refine hordered.imp fun {w v} hle => ?_
  rw [Window.range,Window.range,Set.Ico_disjoint_Ico]
  exact (min_le_left _ _).trans (hle.trans (le_max_right _ _))

end Place

section Decode
variable {s t : σ} {ws : List Window}

theorem Wrote.wide_iff (hb : BarSpec pci mask kind) (h : Wrote pci mask s t ws) {w : Window} (hw : w.Sized kind)
    (hf : pci.headerType s w.f = headerTypeEndpoint) :
    (pci.Wide t w ↔ pci.Wide s w) ∧ (pci.Wide s w → ∃ k, kind w.f w.index = .mem64 k) := by
  obtain ⟨hi,k,hkind,_⟩ := hw
  have hbefore := hb.holds s w.f w.index hf hi
  have hafter := hb.holds t w.f w.index ((h.header w.f).trans hf) hi
  rcases hkind with hkind | hkind <;> rw [hkind] at hbefore hafter
  · exact ⟨iff_of_false hafter.2.2.2.2 hbefore.2.2.2.2,fun hwide => absurd hwide hbefore.2.2.2.2⟩
  · exact ⟨iff_of_true hafter.2.2.2.2 hbefore.2.2.2.2,fun _ => ⟨k,hkind⟩⟩

theorem Wrote.upper (hb : BarSpec pci mask kind) (h : Wrote pci mask s t ws) (hws : ∀ w ∈ ws, w.Sized kind) {w : Window}
    (hf : pci.headerType s w.f = headerTypeEndpoint) (hi : w.index < maxBars) {k : ℕ} (hkind : kind w.f w.index = .mem64 k) :
    pci.read t (barReg w.f (w.index + 1)) = pci.read s (barReg w.f (w.index + 1)) := by
  have hlt : w.index + 1 < maxBars := by
    by_contra hge
    refine hb.last w.f k ?_
    rw [← hkind]
    congr 1
    omega
  have hupper := (hb.paired w.f w.index k hlt).mp hkind
  have hnone : last (puts (barReg w.f (w.index + 1))) (ws.map Window.write) = none := by
    rw [← Option.not_isSome_iff_eq_none,last_isSome]
    rintro ⟨u,hu,hsome⟩
    obtain ⟨v,hv,rfl⟩ := List.mem_map.mp hu
    have hreg : barReg v.f v.index = barReg w.f (w.index + 1) := by
      by_contra hne
      rw [puts_eq_none.mpr hne] at hsome
      cases hsome
    have hvf : v.f = w.f := congrArg Reg.f hreg
    have hvi : 16 + v.index * 4 = 16 + (w.index + 1) * 4 := congrArg Reg.offset hreg
    obtain ⟨_,k',hk',_⟩ := hws v hv
    rw [hvf,show v.index = w.index + 1 by omega,hupper] at hk'
    rcases hk' with hk' | hk' <;> cases hk'
  rw [h.bar _ (isBar_barReg hf hlt),hnone]
  exact mask_self _ _

theorem lowMask_eq {k : ℕ} (hk : 4 ≤ k) (hk' : k < 32) : lowMask k = ~~~(BitVec.twoPow 32 k - 1) := by
  interval_cases k <;> rfl

theorem and_lowMask {k : ℕ} (hk : 4 ≤ k) (hk' : k < 32) {address : BitVec 32} (haligned : 2 ^ k ∣ address.toNat) :
    address &&& lowMask k = address := by
  apply BitVec.eq_of_toNat_eq
  rw [lowMask_eq hk hk',toNat_clear_low hk',Nat.div_mul_cancel haligned]

/-- A window that was written last to its BAR is decoded from its address on, above what the
upper dword says. -/
theorem Wrote.decodes (hb : BarSpec pci mask kind) (h : Wrote pci mask s t ws) {w : Window} (hw : w.Sized kind)
    (hf : pci.headerType s w.f = headerTypeEndpoint) (hk : w.size ≠ BitVec.allOnes 32)
    (haligned : w.size.toNat ∣ w.address.toNat)
    (hlast : last (puts (barReg w.f w.index)) (ws.map Window.write) = some w.address) :
    pci.decodes t w = w.address.toNat +
      if pci.Wide t w then (pci.read t (barReg w.f (w.index + 1))).toNat * 2 ^ 32 else 0 := by
  obtain ⟨hi,k,hkind,hsize⟩ := hw
  have hbefore := hb.holds s w.f w.index hf hi
  have hk' : k < 32 := by
    by_contra hge
    exact hk (hsize.trans (if_neg hge))
  obtain ⟨hfour,hmask,hfixed⟩ : 4 ≤ k ∧ mask (barReg w.f w.index) = lowMask k ∧
      pci.read s (barReg w.f w.index) &&& ~~~mask (barReg w.f w.index) &&& 0xFFFFFFF0 = 0 := by
    rcases hkind with hkind | hkind <;> rw [hkind] at hbefore
    · exact ⟨hbefore.1.1,hbefore.2.1,hbefore.2.2.1⟩
    · exact ⟨hbefore.1.1,hbefore.2.1,hbefore.2.2.1⟩
  rw [hsize,recordedSize,if_pos hk',BitVec.toNat_twoPow_of_lt hk'] at haligned
  have haddress : pci.read t (barReg w.f w.index) &&& 0xFFFFFFF0 = w.address := by
    rw [h.bar _ (isBar_barReg hf hi),hlast,Option.getD_some,
      readBack_address (hmask ▸ lowMask_address hfour (by omega)) hfixed,hmask,and_lowMask hfour hk' haligned]
  rw [Ecam.decodes,haddress]

end Decode

section Main
variable {s t : σ} {ws : List Window} {base : ℕ}

/-- Windows that are decoded and apart belong to different BARs. -/
theorem Sound.nodup (h : Sound pci base t ws) (hws : ∀ w ∈ ws, w.Sized kind) :
    (ws.map fun w => (w.f,w.index)).Nodup := by
  rw [List.Nodup,List.pairwise_map]
  refine h.disjoint.imp_of_mem fun {w v} hw hv hdisjoint heq => ?_
  obtain ⟨hf,hi⟩ := Prod.mk.inj heq
  have hsame : pci.decodes t w = pci.decodes t v := by
    obtain ⟨f,i,_,_⟩ := w
    subst hf hi
    rfl
  rw [h.decoded w hw,h.decoded v hv] at hsame
  refine Set.disjoint_left.mp hdisjoint ⟨le_rfl,Nat.lt_add_of_pos_right (hws w hw).pos⟩ ?_
  rw [hsame]
  exact ⟨le_rfl,Nat.lt_add_of_pos_right (hws v hv).pos⟩

theorem barReg_injective {f g : Func} {i j : ℕ} (h : barReg f i = barReg g j) : (f,i) = (g,j) := by
  have hf : f = g := congrArg Reg.f h
  have hi : 16 + i * 4 = 16 + j * 4 := congrArg Reg.offset h
  rw [hf,show i = j by omega]

/-- A window that is placed for a BAR of its own is the last one written there. -/
theorem last_write (hnodup : (ws.map fun w => (w.f,w.index)).Nodup) {w : Window} (hw : w ∈ ws) :
    last (puts (barReg w.f w.index)) (ws.map Window.write) = some w.address := by
  refine last_puts_of_nodup ?_ (List.mem_map_of_mem (f := Window.write) hw)
  rw [List.Nodup,List.pairwise_map] at hnodup
  rw [List.map_map,List.Nodup,List.pairwise_map]
  exact hnodup.imp fun hne heq => hne (barReg_injective heq)

/-- Placing windows behind a base is sound under these conditions on the state before, and no
others. -/
theorem sound_place_iff (hb : BarSpec pci mask kind) (hws : ∀ w ∈ ws, w.Sized kind)
    (hends : ∀ w ∈ ws, pci.headerType s w.f = headerTypeEndpoint) (hbase : 1 < base) (hbase' : base ≤ 2 ^ 32)
    (h : Wrote pci mask s t (place (BitVec.ofNat 32 base) ws)) :
    Sound pci base t (place (BitVec.ofNat 32 base) ws) ↔
      finish base ((ws.map Window.size).map BitVec.toNat) ≤ 2 ^ 32 ∧
        (∀ w ∈ ws, pci.Wide s w → pci.read s (barReg w.f (w.index + 1)) = 0) ∧
        (ws.map fun w => (w.f,w.index)).Nodup := by
  have hmap : (place (BitVec.ofNat 32 base) ws).map (fun w => (w.f,w.index)) = ws.map fun w => (w.f,w.index) :=
    place_map fun _ _ => rfl
  have hplaced := place_sized hws (BitVec.ofNat 32 base)
  -- a placed window stands for one of before, with the same registers
  have hsame : ∀ P : Func → ℕ → Prop, (∀ w ∈ place (BitVec.ofNat 32 base) ws, P w.f w.index) ↔
      ∀ w ∈ ws, P w.f w.index := by
    intro P
    have hforall := List.forall_mem_map (f := fun w : Window => (w.f,w.index)) (l := place (BitVec.ofNat 32 base) ws)
      (P := fun p => P p.1 p.2)
    rw [hmap,List.forall_mem_map] at hforall
    exact hforall.symm
  have hends' := (hsame fun f _ => pci.headerType s f = headerTypeEndpoint).mpr hends
  have hupper : ∀ w ∈ place (BitVec.ofNat 32 base) ws, pci.Wide s w →
      pci.read t (barReg w.f (w.index + 1)) = pci.read s (barReg w.f (w.index + 1)) := by
    intro w hw hwide
    obtain ⟨k,hkind⟩ := (h.wide_iff hb (hplaced w hw) (hends' w hw)).2 hwide
    exact h.upper hb hplaced (hends' w hw) (hplaced w hw).1 hkind
  constructor
  · intro hsound
    refine ⟨(place_inside_iff hws hbase hbase').mp hsound.inside,?_,hmap ▸ hsound.nodup hplaced⟩
    refine (hsame fun f i => pci.read s (barReg f i) &&& pciMemTypeMask = pciMemType64 →
      pci.read s (barReg f (i + 1)) = 0).mp fun w hw hwide => ?_
    have hdecoded := hsound.decoded w hw
    rw [Ecam.decodes,if_pos ((h.wide_iff hb (hplaced w hw) (hends' w hw)).1.mpr hwide),hupper w hw hwide] at hdecoded
    have hlt := w.address.isLt
    apply BitVec.eq_of_toNat_eq
    change _ = 0
    omega
  · rintro ⟨hend,hzero,hnodup⟩
    have haligned := place_aligned hws hbase hend
    have hinside := (place_inside_iff hws hbase hbase').mpr hend
    refine ⟨haligned,hinside,place_disjoint hws hbase hend,fun w hw => ?_⟩
    have hrange := hinside w hw
    rw [Window.range,Set.Ico_subset_Ico_iff (Nat.lt_add_of_pos_right (hplaced w hw).pos)] at hrange
    have hfits : w.size ≠ BitVec.allOnes 32 := by
      intro hall
      rw [hall,BitVec.toNat_allOnes] at hrange
      omega
    rw [h.decodes hb (hplaced w hw) (hends' w hw) hfits (haligned w hw) (last_write (hmap ▸ hnodup) hw)]
    by_cases hwide : pci.Wide s w
    · have hzero' := (hsame fun f i => pci.read s (barReg f i) &&& pciMemTypeMask = pciMemType64 →
        pci.read s (barReg f (i + 1)) = 0).mpr hzero w hw hwide
      rw [if_pos ((h.wide_iff hb (hplaced w hw) (hends' w hw)).1.mpr hwide),hupper w hw hwide,hzero']
      rfl
    · rw [if_neg fun hw' => hwide ((h.wide_iff hb (hplaced w hw) (hends' w hw)).1.mp hw')]
      rfl

end Main

theorem Arch.mmioBase_bounds (arch : Arch) : 1 < arch.mmioBase ∧ arch.mmioBase ≤ 2 ^ 32 := by
  cases arch <;> decide

/-- Behind a scan the allocation is sound if and only if the recorded sizes fit behind the base,
each aligned, the 64-bit BARs to allocate have nothing in their upper dword, and no BAR is
recorded twice. -/
theorem pciAlloc_sound_iff (hb : BarSpec pci mask kind) (ha : Apart pci) (arch : Arch)
    (registerMsiVector : τ → DeviceInfo → τ × Option ℕ) (msiBase : BitVec 32) (platform : τ) (bus : ℕ) (s : σ) :
    let x := pciScan pci bus ⟨s,false,[],[]⟩
    let y := pciAlloc pci registerMsiVector msiBase (BitVec.ofNat 32 arch.mmioBase) platform x
    Sound pci arch.mmioBase y.hw y.db.windows ↔
      finish arch.mmioBase ((x.db.windows.map Window.size).map BitVec.toNat) ≤ 2 ^ 32 ∧
        (∀ w ∈ x.db.windows, pci.Wide x.hw w → pci.read x.hw (barReg w.f (w.index + 1)) = 0) ∧
        (x.db.windows.map fun w => (w.f,w.index)).Nodup := by
  intro x y
  obtain ⟨hsame,hdevs⟩ := hb.pciScan bus s
  have hheader : ∀ f, pci.headerType x.hw f = pci.headerType s f := by
    intro f
    rw [Ecam.headerType,hsame]
    rfl
  have hws : ∀ w ∈ x.db.windows, w.Sized kind ∧ pci.headerType x.hw w.f = headerTypeEndpoint := by
    intro w hw
    obtain ⟨dev,hdev,hmem⟩ := List.mem_flatMap.mp hw
    obtain ⟨hf,hsized⟩ := (hdevs dev hdev).windows w hmem
    rw [hf,hheader]
    exact ⟨hsized,(hdevs dev hdev).endpoint.2.1⟩
  have hendpoints : ∀ dev ∈ x.db.devices, EndpointIn pci x.hw dev := by
    intro dev hdev
    obtain ⟨htype,hf,hlength⟩ := (hdevs dev hdev).endpoint
    exact ⟨htype,(hheader dev.f).trans hf,hlength⟩
  obtain ⟨hwrote,hwindows⟩ := allocDevices_spec registerMsiVector msiBase hb.masked ha
    (a := ⟨x.hw,BitVec.ofNat 32 arch.mmioBase,platform⟩) hendpoints
  have hplace : y.db.windows = place (BitVec.ofNat 32 arch.mmioBase) x.db.windows := hwindows
  rw [hplace]
  exact sound_place_iff hb (fun w hw => (hws w hw).1) (fun w hw => (hws w hw).2) arch.mmioBase_bounds.1
    arch.mmioBase_bounds.2 hwrote

/-- Registers whose bits outside a mask are wired. -/
def wiredEcam (mask wired : Reg → BitVec 32) : Ecam (Reg → BitVec 32) where
  read s r := (s r &&& mask r) ||| (wired r &&& ~~~mask r)
  write s r v := Function.update s r v
  writeWord s r v :=
    let q : Reg := ⟨r.f,r.offset / 4 * 4⟩
    let shift := 8 * (r.offset % 4)
    Function.update s q ((v.setWidth 32 <<< shift) ||| (s q &&& ~~~((0xFFFF : BitVec 32) <<< shift)))

section Wired
variable {mask wired : Reg → BitVec 32}

theorem masked_wiredEcam (mask wired : Reg → BitVec 32) : Masked (wiredEcam mask wired) mask where
  bar s r v _ := by
    simp only [wiredEcam,Function.update_self]
    ext i hi
    by_cases h : (mask r)[i] = true <;> simp [h]
  other s r v r' _ hne := by simp only [wiredEcam,Function.update_of_ne hne]

theorem wiredEcam_and (s : Reg → BitVec 32) {r : Reg} {bits : BitVec 32} (h : mask r &&& bits = 0) :
    (wiredEcam mask wired).read s r &&& bits = wired r &&& bits := by
  have hnot : ~~~mask r &&& bits = bits := by
    ext i hi
    have hbit : ((mask r)[i] && bits[i]) = false := by rw [← BitVec.getElem_and,h]; exact BitVec.getElem_zero hi
    rw [BitVec.getElem_and,BitVec.getElem_not]
    cases hm : (mask r)[i] <;> simp_all
  rw [wiredEcam,BitVec.and_or_distrib_right,BitVec.and_assoc,h,BitVec.and_assoc,hnot]
  simp

theorem wiredEcam_and_not (s : Reg → BitVec 32) (r : Reg) :
    (wiredEcam mask wired).read s r &&& ~~~mask r = wired r &&& ~~~mask r := wiredEcam_and s (BitVec.and_not_self _)

theorem apart_wiredEcam (hcap : ∀ s f capPtr, CapPtr (wiredEcam mask wired) s f capPtr → capPtr = 0 ∨ 0x40 ≤ capPtr) :
    Apart (wiredEcam mask wired) where
  dword s r v r' hr hr' := by
    have hne : r' ≠ r := fun heq => hr (heq ▸ hr')
    simp only [wiredEcam,Function.update_of_ne hne]
  word s r v r' hr hr' := by
    have hne : r' ≠ ⟨r.f,r.offset / 4 * 4⟩ := by
      rintro rfl
      have hlow : 0x0C ≤ r.offset / 4 * 4 := hr'.1
      have hhigh : r.offset / 4 * 4 < 0x28 := hr'.2
      exact hr ⟨by omega,by omega⟩
    simp only [wiredEcam,Function.update_of_ne hne]
  capability := hcap

end Wired

/-- A host bridge, a device with a 64-bit window of 16 KB and an MSI capability, and a device
with a 32-bit window of 4 KB. -/
def windowBoard (r : Reg) : BitVec 32 :=
  if r.f = ⟨0,0,0⟩ then if r.offset = 0 then 0x00081B36 else 0
  else if r.f = ⟨0,1,0⟩ then
    if r.offset = 0 then 0x0DC8494F else if r.offset = 0x04 then 0x00100000 else if r.offset = 0x10 then 0x0C
    else if r.offset = 0x34 then 0x40 else if r.offset = 0x40 then 0x05 else 0
  else if r.f = ⟨0,2,0⟩ then if r.offset = 0 then 0x10001AF4 else 0
  else 0xFFFFFFFF

def windowMasks (r : Reg) : BitVec 32 :=
  if r.f = ⟨0,1,0⟩ then
    if r.offset = 0x04 then 0xFFFF else if r.offset = 0x10 then 0xFFFFC000 else if r.offset = 0x14 then 0xFFFFFFFF
    else if r.offset = 0x40 then 0x00010000 else if 0x44 ≤ r.offset ∧ r.offset < 0x50 then 0xFFFFFFFF else 0
  else if r.f = ⟨0,2,0⟩ then if r.offset = 0x04 then 0xFFFF else if r.offset = 0x10 then 0xFFFFF000 else 0
  else 0

def windowKinds (f : Func) (i : ℕ) : BarKind :=
  if f = ⟨0,1,0⟩ then if i = 0 then .mem64 14 else if i = 1 then .upper 14 else .none
  else if f = ⟨0,2,0⟩ ∧ i = 0 then .mem32 12
  else .none

def windowEcam : Ecam (Reg → BitVec 32) := wiredEcam windowMasks windowBoard

/-- The registers before the scan, with this upper dword. -/
def windowState (upper : BitVec 32) (r : Reg) : BitVec 32 :=
  if r = barReg ⟨0,1,0⟩ 0 then 0xFE000000 else if r = barReg ⟨0,1,0⟩ 1 then upper
  else if r = barReg ⟨0,2,0⟩ 0 then 0xFD000000 else 0

theorem windowEcam_endpoint {s : Reg → BitVec 32} {f : Func} (h : windowEcam.headerType s f = headerTypeEndpoint) :
    f = ⟨0,0,0⟩ ∨ f = ⟨0,1,0⟩ ∨ f = ⟨0,2,0⟩ := by
  by_contra hno
  rw [not_or,not_or] at hno
  simp [Ecam.headerType,windowEcam,wiredEcam,windowMasks,windowBoard,hno,pciConfigHeaderType,headerTypeEndpoint,
    headerOf] at h

theorem barSpec_windowEcam : BarSpec windowEcam windowMasks windowKinds where
  masked := masked_wiredEcam windowMasks windowBoard
  holds s f i hf hi := by
    rw [maxBars] at hi
    have hand {r : Reg} {c : BitVec 32} (h : windowMasks r &&& c = 0) : windowEcam.read s r &&& c =
        windowBoard r &&& c :=
      wiredEcam_and s h
    have hnot (r : Reg) : windowEcam.read s r &&& ~~~windowMasks r = windowBoard r &&& ~~~windowMasks r :=
      wiredEcam_and_not s r
    have hnone {r : Reg} (hmask : windowMasks r = 0) (hboard : windowBoard r = 0) : windowEcam.read s r = 0 := by
      have hzero := hnot r
      rw [hmask,hboard] at hzero
      exact BitVec.and_allOnes.symm.trans hzero
    rcases windowEcam_endpoint hf with rfl | rfl | rfl
    · interval_cases i <;> exact hnone rfl rfl
    · interval_cases i
      · refine ⟨by decide,by decide,?_,(hand (by decide)).trans (by decide),(hand (by decide)).trans (by decide)⟩
        rw [hnot]
        decide
      · exact ⟨by decide,(hnot _).trans (by decide)⟩
      all_goals exact hnone rfl rfl
    · interval_cases i
      · refine ⟨by decide,by decide,?_,(hand (by decide)).trans (by decide),?_⟩
        · rw [hnot]
          decide
        · rw [hand (by decide)]
          decide
      all_goals exact hnone rfl rfl
  paired f i k hi := by
    simp only [windowKinds]
    split_ifs <;> simp_all
  first f k := by
    simp only [windowKinds]
    split_ifs <;> simp
  last f k := by
    simp only [windowKinds,maxBars]
    split_ifs <;> simp_all

theorem apart_windowEcam : Apart windowEcam := by
  refine apart_wiredEcam fun s f capPtr h => ?_
  have hand {r : Reg} {c : BitVec 32} (h : windowMasks r &&& c = 0) : windowEcam.read s r &&& c = windowBoard r &&& c :=
    wiredEcam_and s h
  have hfirst : windowEcam.read s ⟨f,0x34⟩ &&& 0xFF = windowBoard ⟨f,0x34⟩ &&& 0xFF := by
    refine hand ?_
    rw [windowMasks]
    split_ifs <;> simp_all
  have hmem : capPtr = 0 ∨ capPtr = 0x40 ∧ f = ⟨0,1,0⟩ ∨ capPtr = 0xFF := by
    induction h with
    | first =>
      rw [show firstCap (wiredEcam windowMasks windowBoard) s f = (windowBoard ⟨f,0x34⟩ &&& 0xFF).toNat from
        congrArg BitVec.toNat hfirst,windowBoard]
      split_ifs <;> simp_all
    | @next p _ hne ih =>
      rcases ih with hzero | ⟨rfl,rfl⟩ | rfl
      · exact absurd hzero hne
      · have hnext : windowEcam.read s ⟨⟨0,1,0⟩,0x40⟩ &&& 0xFF00 = 0 := (hand (by decide)).trans (by decide)
        have hhdr : (windowEcam.read s ⟨⟨0,1,0⟩,0x40⟩ >>> 0 >>> 8) &&& 0xFF = 0 := by
          rw [BitVec.ushiftRight_zero,show (0xFF : BitVec 32) = (0xFF00 : BitVec 32) >>> 8 from rfl,← BitVec.ushiftRight_and_distrib,hnext]
          rfl
        exact .inl (congrArg BitVec.toNat hhdr)
      · have hhdr : (windowEcam.read s ⟨f,0xFC⟩ >>> 24 >>> 8) &&& 0xFF = 0 := by
          rw [← BitVec.shiftRight_add,BitVec.ushiftRight_eq_zero (Nat.le_refl 32)]
          rfl
        exact .inl (congrArg BitVec.toNat hhdr)
  rcases hmem with hzero | ⟨hcap,_⟩ | hcap
  · exact .inl hzero
  · exact .inr hcap.ge
  · exact .inr (by omega)

def windowBuild : MsiBuild := ⟨4,by decide,true⟩

/-- The state behind the scan and the allocation on an ARM board. -/
def windowSystem (upper : BitVec 32) : System (Reg → BitVec 32) :=
  pciAlloc windowEcam ((cortexA9 false).pcieRegisterMsiVector windowBuild) 0x08020040 (BitVec.ofNat 32 Arch.arm.mmioBase)
    (msiBoot (cortexA9 false) windowBuild 0 none).msi (pciScan windowEcam 0 ⟨windowState upper,false,[],[]⟩)

/-- Both windows of the board are sound. -/
theorem pciAlloc_sound_iff_board : Sound windowEcam 0x14000000 (windowSystem 0).hw (windowSystem 0).db.windows := by
  refine (pciAlloc_sound_iff barSpec_windowEcam apart_windowEcam .arm _ _ _ 0 (windowState 0)).mpr ⟨?_,?_,?_⟩
  · decide +kernel
  · decide +kernel
  · decide +kernel

/-- With something in the upper dword the first window is decoded elsewhere. -/
theorem staleUpper_not_sound : BarSpec windowEcam windowMasks windowKinds ∧ Apart windowEcam ∧
    ¬Sound windowEcam 0x14000000 (windowSystem 1).hw (windowSystem 1).db.windows := by
  refine ⟨barSpec_windowEcam,apart_windowEcam,fun h => ?_⟩
  have hmem : (⟨⟨0,1,0⟩,0,0x4000,0x14000000⟩ : Window) ∈ (windowSystem 1).db.windows := by decide +kernel
  have hdecodes : windowEcam.decodes (windowSystem 1).hw ⟨⟨0,1,0⟩,0,0x4000,0x14000000⟩ = 0x114000000 := by
    decide +kernel
  have hdecoded := hdecodes.symm.trans (h.decoded _ hmem)
  exact absurd hdecoded (by decide)

end EmbedTemplate.Pci
