import EmbedTemplate.Pci.Msi

/-! # Delivery of MSI vectors

The trampoline of a vector runs when the interrupt controller delivers the vector's number,
provided that the common interrupt handler looks it up under the interrupt id that the
vector was registered with, and that nothing else has taken that interrupt id since.
-/
namespace EmbedTemplate.Pci
open Bytes Interrupt VectorTable Machine

/-- The interrupt that a device raises with the number in its MSI data register is counted
for the vector, once, and for no other. -/
def Served (p : Port) (b : MsiBuild) (s : Msi) (vectorId index : ℕ) : Prop :=
  ∀ raw, p.number raw = u16 vectorId →
    p.handle b.enableSafetyCheck s.controller raw = .ran (.pcieMsiTrampoline index) ∧
    index < s.count.length ∧
    ∃ t, p.interrupt b s raw = some t ∧ t.count = s.count.modify index fun n => u32 (n + 1)

/-- The vector numbers returned are distinct, and each serves its allocation. -/
def EndToEnd (p : Port) (b : MsiBuild) (r : MsiRun) : Prop :=
  r.returned.Nodup ∧ ∀ index vectorId, r.returned[index]? = some vectorId → Served p b r.msi vectorId index

/-- The requests for the vectors find room, and no later request that does takes the interrupt
id of a vector. -/
def Undisturbed (requests : List (ℕ × Handler)) : Prop :=
  ∀ (i irq k : ℕ), requests[i]? = some (irq,.pcieMsiTrampoline k) → i < maxIrqs ∧
    ∀ (j : ℕ) (q : ℕ × Handler), i < j → j < maxIrqs → requests[j]? = some q → q.1 ≠ irq

section Delivery
variable {p : Port} {b : MsiBuild} {r r' : MsiRun} {labels : List MsiLabel} {eventNotify : ℕ} {pciTask : Option ℕ}

theorem valid_cortexA9 (enableRtos : Bool) : (cortexA9 enableRtos).Valid := by
  intro k hk
  simp only [Port.irqId,cortexA9,gicMaxIrqId,maxMsiSequence] at *
  omega

theorem valid_x86 : x86.Valid := by
  intro k hk
  simp only [Port.irqId,x86,apicMaxIrqId,msiIrqVectorBase,x86IrqVectorBase,msiIrqOffset,maxMsiSequence] at *
  omega

theorem Counted.returned_eq_some (hr : Counted p b r) {index vectorId : ℕ} :
    r.returned[index]? = some vectorId ↔ index < r.msi.vectorCount ∧ vectorId = p.vectorBase + index := by
  rw [hr.returned,List.getElem?_map,Option.map_eq_some_iff]
  constructor
  · rintro ⟨k,hk,rfl⟩
    obtain ⟨hlt,rfl⟩ := List.getElem?_eq_some_iff.mp hk
    rw [List.length_range] at hlt
    exact ⟨hlt,by rw [List.getElem_range]⟩
  · rintro ⟨hlt,rfl⟩
    exact ⟨index,List.getElem?_range hlt,rfl⟩

theorem Counted.nodup (hr : Counted p b r) : r.returned.Nodup := by
  rw [hr.returned]
  exact List.nodup_range.map (add_right_injective p.vectorBase)

/-- The relation in which the requests for the vectors stand. -/
def Ordered (requests : List (ℕ × Handler)) : Prop :=
  requests.Pairwise fun q q' => ∀ k k', q.2 = .pcieMsiTrampoline k → q'.2 = .pcieMsiTrampoline k' → k < k'

theorem Ordered.unique {reqs : List (ℕ × Handler)} (h : Ordered reqs) {i j k : ℕ} {q q' : ℕ × Handler}
    (hi : reqs[i]? = some q) (hj : reqs[j]? = some q') (hq : q.2 = .pcieMsiTrampoline k)
    (hq' : q'.2 = .pcieMsiTrampoline k) : i = j := by
  obtain ⟨hlt,rfl⟩ := List.getElem?_eq_some_iff.mp hi
  obtain ⟨hlt',rfl⟩ := List.getElem?_eq_some_iff.mp hj
  rw [Ordered,List.pairwise_iff_getElem] at h
  rcases Nat.lt_trichotomy i j with hij | hij | hij
  · exact absurd (h i j hlt hlt' hij k k hq hq') (lt_irrefl k)
  · exact hij
  · exact absurd (h j i hlt' hlt hij k k hq' hq) (lt_irrefl k)

/-- The last accepted request of each vector's interrupt id is the vector's own. -/
theorem undisturbed_iff {reqs : List (ℕ × Handler)} {irqId : ℕ → ℕ} {n : ℕ} (hordered : Ordered reqs)
    (hmem : ∀ irq k, (irq,.pcieMsiTrampoline k) ∈ reqs ↔ irq = irqId k ∧ k < n) :
    (∀ k < n, LastWrite.last (puts (irqId k)) (reqs.take maxIrqs) = some (.pcieMsiTrampoline k)) ↔
        Undisturbed reqs := by
  have htake {j : ℕ} (hj : j < maxIrqs) : (reqs.take maxIrqs)[j]? = reqs[j]? := List.getElem?_take_of_lt hj
  have hroom {j : ℕ} {q : ℕ × Handler} (hj : (reqs.take maxIrqs)[j]? = some q) : j < maxIrqs := by
    have hlt := (List.getElem?_eq_some_iff.mp hj).1
    rw [List.length_take] at hlt
    omega
  constructor
  · intro hlast i irq k hi
    obtain ⟨rfl,hk⟩ := (hmem irq k).mp (List.mem_of_getElem? hi)
    obtain ⟨i',q,hi',hq,hafter⟩ := LastWrite.last_eq_some_iff.mp (hlast k hk)
    obtain rfl := puts_eq_some.mp hq
    have hlt := hroom hi'
    rw [htake hlt] at hi'
    obtain rfl : i = i' := hordered.unique hi hi' rfl rfl
    refine ⟨hlt,?_⟩
    intro j q hij hj hq
    exact puts_eq_none.mp (hafter j q hij ((htake hj).trans hq))
  · intro h k hk
    obtain ⟨i,hi⟩ := List.mem_iff_getElem?.mp ((hmem (irqId k) k).mpr ⟨rfl,hk⟩)
    obtain ⟨hlt,hafter⟩ := h i _ k hi
    refine LastWrite.last_eq_some_iff.mpr ⟨i,_,(htake hlt).trans hi,puts_eq_some.mpr rfl,?_⟩
    intro j q hij hq
    have hj := hroom hq
    rw [htake hj] at hq
    exact puts_eq_none.mpr (hafter j q hij hj hq)

theorem served_iff (hr : Counted p b r) {vectorId index : ℕ} (hindex : index < r.msi.vectorCount) :
    Served p b r.msi vectorId index ↔
      ∀ raw, p.number raw = u16 vectorId →
        p.handle b.enableSafetyCheck r.msi.controller raw = .ran (.pcieMsiTrampoline index) := by
  constructor
  · intro h raw hraw
    exact (h raw hraw).1
  · intro h raw hraw
    have hran := h raw hraw
    refine ⟨hran,?_,_,by rw [Port.interrupt,hran],pcieMsiVectorHandler_count index⟩
    rw [hr.length]
    exact hindex.trans_le hr.le

theorem endToEnd_iff (hr : Counted p b r) : EndToEnd p b r ↔ ∀ index < r.msi.vectorCount, ∀ raw,
    p.number raw = u16 (p.vectorBase + index) →
      p.handle b.enableSafetyCheck r.msi.controller raw = .ran (.pcieMsiTrampoline index) := by
  constructor
  · intro h index hindex
    exact (served_iff hr hindex).mp (h.2 index _ (hr.returned_eq_some.mpr ⟨hindex,rfl⟩))
  · intro h
    refine ⟨hr.nodup,?_⟩
    intro index vectorId hreturned
    obtain ⟨hindex,rfl⟩ := hr.returned_eq_some.mp hreturned
    exact (served_iff hr hindex).mpr (h index hindex)

/-- No vector is returned as long as no device passes the test. -/
theorem exec_vectorCount (h : exec (msiStep p b) r labels = some r') (hr : Counted p b r) :
    r'.msi.vectorCount = r.msi.vectorCount ↔
      r.msi.vectorCount = b.maxPciMsi ∨ ∀ dev, .registerMsi dev ∈ labels → ¬Vfio dev := by
  induction labels generalizing r with
  | nil =>
    cases h
    simp
  | cons label labels ih =>
    obtain ⟨u,hu,hrest⟩ := Option.bind_eq_some_iff.mp h
    have hle := exec_vectorCount_le hrest
    have key := ih hrest (hr.step hu)
    obtain ⟨dev,rfl,hdev,hroom,hmsi,_⟩ | ⟨dev,rfl,hno,rfl⟩ | ⟨irqId,handler,rfl,rfl⟩ | ⟨raw,s,rfl,_,hcount,_,rfl⟩ :=
      msiStep_cases hu
    · have hcount : u.msi.vectorCount = r.msi.vectorCount + 1 := by rw [hmsi]
      refine iff_of_false (by omega) ?_
      rintro (hmax | hall)
      · omega
      · exact hall dev (List.mem_cons_self ..) hdev
    · rw [key]
      constructor
      · rintro (hmax | hall)
        · exact .inl hmax
        · by_cases hmax : u.msi.vectorCount = b.maxPciMsi
          · exact .inl hmax
          · refine .inr fun dev' hmem hdev' => ?_
            rcases List.mem_cons.mp hmem with hhead | hmem
            · cases hhead
              exact hno ⟨hdev',lt_of_le_of_ne hr.le hmax⟩
            · exact hall dev' hmem hdev'
      · exact Or.imp_right fun hall dev' hmem => hall dev' (List.mem_cons_of_mem _ hmem)
    · simpa using key
    · rw [← hcount]
      simpa using key

/-- On the Cortex-A9 port the common interrupt handler looks a vector up under an interrupt id
that no request for a vector has. -/
theorem cortexA9_handle_ne {enableRtos : Bool} (h : exec (msiStep (cortexA9 enableRtos) b)
    (msiBoot (cortexA9 enableRtos) b eventNotify pciTask) labels = some r) {index : ℕ} :
    vApplicationIRQHandler b.enableSafetyCheck r.msi.controller gicv2mSpiBase ≠ .ran (.pcieMsiTrampoline index) := by
  intro hran
  have hid : gicv2mSpiBase &&& 0x3FF ≤ (cortexA9 enableRtos).maxIrqId := show 48 &&& 0x3FF ≤ 255 by decide
  rw [vApplicationIRQHandler,gicDispatchInterrupt,exec_handler h rfl _ hid,outcome_eq_ran,
    LastWrite.last_eq_some_iff] at hran
  obtain ⟨i,q,hi,hq,_⟩ := hran
  obtain rfl := puts_eq_some.mp hq
  have hmem := List.mem_of_mem_take (List.mem_of_getElem? hi)
  obtain ⟨hirq,_,hk⟩ := (mem_requests (valid_cortexA9 enableRtos) h).mp hmem
  have hle := ((Counted.boot eventNotify pciTask).exec h).le.trans b.maxPciMsi_le
  change 48 = 48 + index - 48 at hirq
  rw [maxMsiSequence] at hle
  omega

/-- On the x86 port the common interrupt handler takes off the base that the registration has
taken off. -/
theorem x86_handle {raw index : ℕ} (hraw : raw = u16 (x86.vectorBase + index)) (hindex : index < maxMsiSequence)
    (enableSafetyCheck : Bool) (c : Controller) :
    x86.handle enableSafetyCheck c raw = callHandler enableSafetyCheck c (x86.irqId index) := by
  rw [maxMsiSequence] at hindex
  have hvector : raw = 64 + index := hraw.trans (u16_of_lt (show 64 + index < 2 ^ 16 by omega))
  have hirq : raw - 48 = x86.irqId index := by
    rw [hvector]
    rfl
  change (if raw ≥ 48 then if raw - 48 ≤ 24 then callHandler enableSafetyCheck c (raw - 48) else .nothing else .nothing) = _
  rw [if_pos (by omega),if_pos (by omega),hirq]

theorem cortexA9_endToEnd_iff {enableRtos : Bool} (h : exec (msiStep (cortexA9 enableRtos) b)
    (msiBoot (cortexA9 enableRtos) b eventNotify pciTask) labels = some r) :
    EndToEnd (cortexA9 enableRtos) b r ↔ b.maxPciMsi = 0 ∨ ∀ dev, .registerMsi dev ∈ labels → ¬Vfio dev := by
  have hboot := Counted.boot (p := cortexA9 enableRtos) (b := b) eventNotify pciTask
  rw [endToEnd_iff (hboot.exec h)]
  refine Iff.trans ?_ ((exec_vectorCount h hboot).trans (or_congr eq_comm Iff.rfl))
  constructor
  · intro hall
    by_contra hne
    have hnumber : (cortexA9 enableRtos).number gicv2mSpiBase = u16 ((cortexA9 enableRtos).vectorBase + 0) :=
      show 48 &&& 0x3FF = (48 + 0) % 2 ^ 16 by decide
    exact cortexA9_handle_ne h (hall 0 (Nat.pos_of_ne_zero hne) gicv2mSpiBase hnumber)
  · intro hzero index hindex
    exact absurd (hindex.trans_eq hzero) (Nat.not_lt_zero index)

theorem x86_endToEnd_iff (h : exec (msiStep x86 b) (msiBoot x86 b eventNotify pciTask) labels = some r) :
    EndToEnd x86 b r ↔ Undisturbed (requests x86 b 0 labels) := by
  have hr := (Counted.boot (p := x86) (b := b) eventNotify pciTask).exec h
  rw [endToEnd_iff hr]
  refine Iff.trans ?_ (undisturbed_iff (n := r.msi.vectorCount) (requests_ordered valid_x86 h) fun irq k =>
    (mem_requests valid_x86 h).trans (and_congr_right fun _ => and_iff_right (Nat.zero_le k)))
  refine forall₂_congr fun index hindex => ?_
  have hlt : index < maxMsiSequence := (hindex.trans_le hr.le).trans_le b.maxPciMsi_le
  have hhandle (raw : ℕ) (hraw : raw = u16 (x86.vectorBase + index)) :
      x86.handle b.enableSafetyCheck r.msi.controller raw = .ran (.pcieMsiTrampoline index) ↔
        LastWrite.last (puts (x86.irqId index)) ((requests x86 b 0 labels).take maxIrqs) =
          some (.pcieMsiTrampoline index) := by
    rw [x86_handle hraw hlt,exec_handler h rfl _ (valid_x86 index hlt).2,outcome_eq_ran]
    rfl
  exact ⟨fun hall => (hhandle _ rfl).mp (hall _ rfl),fun hlast raw hraw => (hhandle raw hraw).mpr hlast⟩

/-- The driver registrations of a run. -/
def MsiLabel.isRegister : MsiLabel → Bool
  | .register .. => true
  | _ => false

theorem requests_length (n : ℕ) :
    (requests p b n labels).length ≤ labels.countP MsiLabel.isRegister + (b.maxPciMsi - n) := by
  have hrequest (q : Option (ℕ × Handler)) : q.toList.length ≤ 1 := by cases q <;> simp
  induction labels generalizing n with
  | nil => exact Nat.zero_le _
  | cons label labels ih =>
    cases label with
    | registerMsi dev =>
      rw [requests,List.countP_cons_of_neg (by simp [MsiLabel.isRegister])]
      split
      next hdev =>
        have hrest := ih (n + 1)
        have hone := hrequest (request p.maxIrqId (p.irqId n) (some (.pcieMsiTrampoline n)))
        rw [List.length_append]
        omega
      next => exact ih n
    | register irqId handler =>
      have hone := hrequest (request p.maxIrqId irqId (handler.map .driver))
      have hrest := ih n
      rw [requests,List.countP_cons_of_pos (by rfl),List.length_append]
      omega
    | interrupt raw =>
      rw [requests,List.countP_cons_of_neg (by simp [MsiLabel.isRegister])]
      exact ih n

theorem mem_requests_driver {n irq name : ℕ} (h : (irq,.driver name) ∈ requests p b n labels) :
    ∃ irqId handler, .register irqId handler ∈ labels ∧ u16 irqId = irq := by
  induction labels generalizing n with
  | nil => cases h
  | cons label labels ih =>
    have htail (n : ℕ) (h : (irq,.driver name) ∈ requests p b n labels) :
        ∃ irqId handler, .register irqId handler ∈ label :: labels ∧ u16 irqId = irq := by
      obtain ⟨irqId,handler,hmem,hirq⟩ := ih h
      exact ⟨irqId,handler,List.mem_cons_of_mem _ hmem,hirq⟩
    cases label with
    | registerMsi dev =>
      rw [requests] at h
      split at h
      · rcases List.mem_append.mp h with h | h
        · unfold request at h
          split at h <;> simp at h
        · exact htail _ h
      · exact htail _ h
    | register irqId handler =>
      rw [requests] at h
      rcases List.mem_append.mp h with h | h
      · refine ⟨irqId,handler,List.mem_cons_self ..,?_⟩
        unfold request at h
        split at h
        · cases handler with
          | none => simp at h
          | some x =>
            simp only [Option.map_some,Option.toList_some,List.mem_singleton,Prod.mk.injEq] at h
            exact h.1.symm
        · simp at h
      · exact htail _ h
    | interrupt raw => exact htail _ h

/-- Drivers that use the lines below the MSI range, and leave room for the vectors, do not
disturb them: the timer and the serial console of the x86 port are two such drivers. -/
theorem drivers_undisturbed (h : exec (msiStep x86 b) (msiBoot x86 b eventNotify pciTask) labels = some r)
    (hlines : ∀ irqId handler, .register irqId handler ∈ labels → u16 irqId < msiIrqOffset)
    (hroom : labels.countP MsiLabel.isRegister + maxMsiSequence ≤ maxIrqs) :
    Undisturbed (requests x86 b 0 labels) := by
  have hlength : (requests x86 b 0 labels).length ≤ maxIrqs := by
    have hle : (requests x86 b 0 labels).length ≤ labels.countP MsiLabel.isRegister + (b.maxPciMsi - 0) :=
      requests_length 0
    have hmax := b.maxPciMsi_le
    omega
  intro i irq k hi
  have hlt := (List.getElem?_eq_some_iff.mp hi).1
  refine ⟨hlt.trans_le hlength,?_⟩
  rintro j ⟨irq',handler⟩ hij _ hj rfl
  obtain ⟨hirq,_,_⟩ := (mem_requests valid_x86 h).mp (List.mem_of_getElem? hi)
  cases handler with
  | pcieMsiTrampoline k' =>
    obtain ⟨hirq',_,_⟩ := (mem_requests valid_x86 h).mp (List.mem_of_getElem? hj)
    change irq' = 64 + k - 48 at hirq
    change irq' = 64 + k' - 48 at hirq'
    obtain rfl : k = k' := by omega
    have hsame := Ordered.unique (requests_ordered valid_x86 h) hi hj rfl rfl
    omega
  | driver name =>
    obtain ⟨irqId,handler,hmem,rfl⟩ := mem_requests_driver (List.mem_of_getElem? hj)
    have hline := hlines irqId handler hmem
    change u16 irqId = 64 + k - 48 at hirq
    rw [msiIrqOffset] at hline
    omega

/-- Where the vectors end up at the handler of their allocation: on the x86 port as long as
nothing disturbs their registration, on the Cortex-A9 port never. -/
theorem msi_endToEnd_iff (b : MsiBuild) (eventNotify : ℕ) (pciTask : Option ℕ) (labels : List MsiLabel) :
    (∀ enableRtos r,
      exec (msiStep (cortexA9 enableRtos) b) (msiBoot (cortexA9 enableRtos) b eventNotify pciTask) labels = some r →
        (EndToEnd (cortexA9 enableRtos) b r ↔ b.maxPciMsi = 0 ∨ ∀ dev, .registerMsi dev ∈ labels → ¬Vfio dev)) ∧
    ∀ r, exec (msiStep x86 b) (msiBoot x86 b eventNotify pciTask) labels = some r →
      (EndToEnd x86 b r ↔ Undisturbed (requests x86 b 0 labels)) :=
  ⟨fun _ _ h => cortexA9_endToEnd_iff h,fun _ h => x86_endToEnd_iff h⟩

/-- A build with room for two vectors. -/
def twoVectors : MsiBuild := ⟨2,by decide,false⟩

def vfioDevice : DeviceInfo := ⟨⟨0,1,0⟩,headerTypeEndpoint,pciVendorIdVfio,pciDeviceIdVfio,[]⟩

/-- The timer, a device, the serial console and a second device. -/
def twoDevices : List MsiLabel :=
  [.register 15 (some 0),.registerMsi vfioDevice,.register 4 (some 1),.registerMsi vfioDevice]

theorem msi_endToEnd_iff_twoDevices : ∃ r, exec (msiStep x86 twoVectors) (msiBoot x86 twoVectors 0 none) twoDevices =
    some r ∧ r.returned = [64,65] ∧ EndToEnd x86 twoVectors r := by
  obtain ⟨r,hr,hreturned⟩ := Option.map_eq_some_iff.mp (show (exec (msiStep x86 twoVectors) (msiBoot x86 twoVectors 0 none)
    twoDevices).map MsiRun.returned = some [64,65] by decide)
  refine ⟨r,hr,hreturned,((msi_endToEnd_iff twoVectors 0 none twoDevices).2 r hr).mpr ?_⟩
  refine drivers_undisturbed hr ?_ (by decide)
  intro irqId handler hmem
  simp only [twoDevices,List.mem_cons,List.not_mem_nil,MsiLabel.register.injEq,reduceCtorEq,false_or,or_false] at hmem
  rcases hmem with ⟨rfl,_⟩ | ⟨rfl,_⟩ <;> decide

/-- The first vector of the Cortex-A9 port: the interrupt 48 has no slot in the tables. -/
theorem cortexA9_not_endToEnd : ∃ r, exec (msiStep (cortexA9 false) twoVectors)
    (msiBoot (cortexA9 false) twoVectors 0 none) [.registerMsi vfioDevice] = some r ∧ r.returned = [48] ∧
    (cortexA9 false).handle false r.msi.controller 48 = .undefined ∧ ¬EndToEnd (cortexA9 false) twoVectors r := by
  refine ⟨_,rfl,rfl,by decide,?_⟩
  intro h
  have hran := (h.2 0 48 rfl 48 (by decide)).1
  revert hran
  decide

end Delivery

end EmbedTemplate.Pci
