import EmbedTemplate.Interrupt.Controller
import EmbedTemplate.Library.Machine
import EmbedTemplate.Pci.Config

/-! # MSI vectors

`pci.c` of the two PCI ports: a vector is allocated, its trampoline registered with the
interrupt controller and its number handed to the device. The common interrupt handler
finds the trampoline by the number that the controller delivers.
-/
namespace EmbedTemplate.Pci
open Bytes Interrupt VectorTable Machine

def pciVendorIdVfio : BitVec 16 := 0x494f
def pciDeviceIdVfio : BitVec 16 := 0x0dc8
def gicv2mSpiBase : ℕ := 48
def maxMsiSequence : ℕ := 8

/-- The options of the build that the code depends on. -/
structure MsiBuild where
  maxPciMsi : ℕ
  maxPciMsi_le : maxPciMsi ≤ maxMsiSequence
  enableSafetyCheck : Bool

/-- The statics of `pci.c`, the MSI bits of `event_notify` and the notification value of the
task behind `xPciHandle`. -/
structure Msi where
  controller : Controller
  vectorCount : ℕ
  count : List ℕ
  eventNotify : ℕ
  pciTask : Option ℕ

/-- What the ports differ in: the base of the vector numbers, the base that is taken off for
the interrupt id, the largest interrupt id and the common interrupt handler, with the
interrupt number that its argument carries. -/
structure Port where
  enableRtos : Bool
  vectorBase : ℕ
  irqBase : ℕ
  maxIrqId : ℕ
  handle : Bool → Controller → ℕ → Dispatch
  number : ℕ → ℕ

/-- The interrupt id of a vector. -/
def Port.irqId (p : Port) (k : ℕ) : ℕ := p.vectorBase + k - p.irqBase

def cortexA9 (enableRtos : Bool) : Port where
  enableRtos := enableRtos
  vectorBase := gicv2mSpiBase
  irqBase := gicv2mSpiBase
  maxIrqId := gicMaxIrqId
  handle := vApplicationIRQHandler
  number icciar := icciar &&& 0x3FF

/-- The port without RTOS; with it the vectors do not go through `apic.c`. -/
def x86 : Port where
  enableRtos := false
  vectorBase := msiIrqVectorBase
  irqBase := x86IrqVectorBase
  maxIrqId := apicMaxIrqId
  handle := apicDispatchInterrupt
  number vectorId := vectorId

/-- The event bit of a vector, or the notification of the task that handles it. -/
def Port.pcieMsiVectorHandler (p : Port) (s : Msi) (index : ℕ) : Msi :=
  let s := { s with count := s.count.modify index fun n => u32 (n + 1) }
  if p.enableRtos then { s with pciTask := s.pciTask.map (· ||| 2 ^ index) }
  else { s with eventNotify := s.eventNotify ||| 2 ^ (2 + index) }

/-- The devices that the test at the head of `pcie_register_msi_vector` lets through. -/
def Vfio (dev : DeviceInfo) : Prop := ¬(dev.vendorId ≠ pciVendorIdVfio ∧ dev.deviceId ≠ pciDeviceIdVfio)

instance (dev : DeviceInfo) : Decidable (Vfio dev) := inferInstanceAs (Decidable (¬_))

/-- The vector number, `none` standing for the result -1. The results of the calls into the
interrupt controller are not looked at. -/
def Port.pcieRegisterMsiVector (p : Port) (b : MsiBuild) (s : Msi) (dev : DeviceInfo) : Msi × Option ℕ :=
  if ¬Vfio dev then (s,none)
  else if s.vectorCount ≥ b.maxPciMsi then (s,none)
  else
    let vectorId := p.vectorBase + s.vectorCount
    let irqId := vectorId - p.irqBase
    ({ s with
        controller := (registerInterrupt p.maxIrqId s.controller irqId (some (.pcieMsiTrampoline s.vectorCount))).getD
          s.controller
        vectorCount := s.vectorCount + 1 },some vectorId)

/-- A delivered interrupt; a driver's handler leaves the MSI data alone. -/
def Port.interrupt (p : Port) (b : MsiBuild) (s : Msi) (raw : ℕ) : Option Msi :=
  match p.handle b.enableSafetyCheck s.controller raw with
  | .ran (.pcieMsiTrampoline index) => some (p.pcieMsiVectorHandler s index)
  | .ran (.driver _) => some s
  | .nothing => some s
  | .undefined => none

/-- The calls that reach the interrupt controller, and the interrupts. -/
inductive MsiLabel where
  | registerMsi (dev : DeviceInfo)
  | register (irqId : ℕ) (handler : Option ℕ)
  | interrupt (raw : ℕ)

/-- The state and the vector numbers returned so far. -/
structure MsiRun where
  msi : Msi
  returned : List ℕ

def msiStep (p : Port) (b : MsiBuild) (r : MsiRun) : MsiLabel → Option MsiRun
  | .registerMsi dev =>
    let (s,vectorId) := p.pcieRegisterMsiVector b r.msi dev
    some ⟨s,r.returned ++ vectorId.toList⟩
  | .register irqId handler =>
    some { r with msi := { r.msi with
      controller := (registerInterrupt p.maxIrqId r.msi.controller irqId (handler.map .driver)).getD r.msi.controller } }
  | .interrupt raw => (p.interrupt b r.msi raw).map fun s => { r with msi := s }

/-- The start: an initialised interrupt controller and no vector allocated. -/
def msiBoot (p : Port) (b : MsiBuild) (eventNotify : ℕ) (pciTask : Option ℕ) : MsiRun where
  msi := ⟨initController p.maxIrqId,0,List.replicate b.maxPciMsi 0,eventNotify,pciTask⟩
  returned := []

/-- The valid requests that the calls make to the interrupt controller, in order. -/
def requests (p : Port) (b : MsiBuild) : ℕ → List MsiLabel → List (ℕ × Handler)
  | _, [] => []
  | n, .registerMsi dev :: labels =>
    if Vfio dev ∧ n < b.maxPciMsi then
      (request p.maxIrqId (p.irqId n) (some (.pcieMsiTrampoline n))).toList ++
        requests p b (n + 1) labels
    else requests p b n labels
  | n, .register irqId handler :: labels =>
    (request p.maxIrqId irqId (handler.map .driver)).toList ++ requests p b n labels
  | n, .interrupt _ :: labels => requests p b n labels

section Run
variable {p : Port} {b : MsiBuild} {r r' : MsiRun} {s : Msi} {labels : List MsiLabel}

@[simp] theorem pcieMsiVectorHandler_controller (index : ℕ) :
    (p.pcieMsiVectorHandler s index).controller = s.controller := by
  unfold Port.pcieMsiVectorHandler
  split <;> rfl

@[simp] theorem pcieMsiVectorHandler_vectorCount (index : ℕ) :
    (p.pcieMsiVectorHandler s index).vectorCount = s.vectorCount := by
  unfold Port.pcieMsiVectorHandler
  split <;> rfl

@[simp] theorem pcieMsiVectorHandler_count (index : ℕ) :
    (p.pcieMsiVectorHandler s index).count = s.count.modify index fun n => u32 (n + 1) := by
  unfold Port.pcieMsiVectorHandler
  split <;> rfl

/-- An interrupt changes nothing but the counts and the notifications. -/
theorem interrupt_frame {t : Msi} {raw : ℕ} (h : p.interrupt b s raw = some t) :
    t.controller = s.controller ∧ t.vectorCount = s.vectorCount ∧ t.count.length = s.count.length := by
  unfold Port.interrupt at h
  split at h <;> cases h
  · simp
  · exact ⟨rfl,rfl,rfl⟩
  · exact ⟨rfl,rfl,rfl⟩

theorem after_append {reqs : List (ℕ × Handler)} (q : Option (ℕ × Handler)) :
    (q.map ((Table.after maxIrqs reqs).register maxIrqs)).getD (Table.after maxIrqs reqs) =
      Table.after maxIrqs (reqs ++ q.toList) := by
  cases q with
  | none => simp
  | some q => exact (Table.after_snoc q).symm

theorem msiStep_cases {label : MsiLabel} {u : MsiRun} (h : msiStep p b r label = some u) :
    (∃ dev, label = .registerMsi dev ∧ Vfio dev ∧ r.msi.vectorCount < b.maxPciMsi ∧
      u.msi = { r.msi with
        controller := (registerInterrupt p.maxIrqId r.msi.controller (p.irqId r.msi.vectorCount)
          (some (.pcieMsiTrampoline r.msi.vectorCount))).getD r.msi.controller
        vectorCount := r.msi.vectorCount + 1 } ∧
      u.returned = r.returned ++ [p.vectorBase + r.msi.vectorCount]) ∨
    (∃ dev, label = .registerMsi dev ∧ ¬(Vfio dev ∧ r.msi.vectorCount < b.maxPciMsi) ∧ u = r) ∨
    (∃ irqId handler, label = .register irqId handler ∧ u = { r with msi := { r.msi with
      controller := (registerInterrupt p.maxIrqId r.msi.controller irqId (handler.map .driver)).getD r.msi.controller } }) ∨
    ∃ raw s, label = .interrupt raw ∧ s.controller = r.msi.controller ∧ s.vectorCount = r.msi.vectorCount ∧
      s.count.length = r.msi.count.length ∧ u = { r with msi := s } := by
  cases label with
  | registerMsi dev =>
    simp only [msiStep,Port.pcieRegisterMsiVector] at h
    by_cases hdev : Vfio dev
    · by_cases hroom : r.msi.vectorCount < b.maxPciMsi
      · rw [if_neg (not_not_intro hdev),if_neg (Nat.not_le_of_lt hroom)] at h
        cases h
        exact .inl ⟨dev,rfl,hdev,hroom,rfl,rfl⟩
      · rw [if_neg (not_not_intro hdev),if_pos (Nat.le_of_not_lt hroom)] at h
        cases h
        exact .inr (.inl ⟨dev,rfl,fun hc => hroom hc.2,by simp⟩)
    · rw [if_pos hdev] at h
      cases h
      exact .inr (.inl ⟨dev,rfl,fun hc => hdev hc.1,by simp⟩)
  | register irqId handler =>
    cases h
    exact .inr (.inr (.inl ⟨irqId,handler,rfl,rfl⟩))
  | interrupt raw =>
    obtain ⟨s,hs,rfl⟩ := Option.map_eq_some_iff.mp h
    obtain ⟨hcontroller,hcount,hlength⟩ := interrupt_frame hs
    exact .inr (.inr (.inr ⟨raw,s,rfl,hcontroller,hcount,hlength,rfl⟩))

theorem exec_stores (h : exec (msiStep p b) r labels = some r') {reqs : List (ℕ × Handler)}
    (hs : Stores p.maxIrqId r.msi.controller (Table.after maxIrqs reqs)) :
    Stores p.maxIrqId r'.msi.controller (Table.after maxIrqs (reqs ++ requests p b r.msi.vectorCount labels)) := by
  induction labels generalizing r reqs with
  | nil =>
    cases h
    simpa [requests] using hs
  | cons label labels ih =>
    obtain ⟨u,hu,hr⟩ := Option.bind_eq_some_iff.mp h
    obtain ⟨dev,rfl,hdev,hroom,hmsi,_⟩ | ⟨dev,rfl,hno,rfl⟩ | ⟨irqId,handler,rfl,rfl⟩ | ⟨raw,s,rfl,hcontroller,hcount,_,rfl⟩ :=
      msiStep_cases hu
    · have hcount : u.msi.vectorCount = r.msi.vectorCount + 1 := by rw [hmsi]
      rw [requests,if_pos ⟨hdev,hroom⟩,← List.append_assoc,← hcount]
      refine ih hr ?_
      rw [← after_append,hmsi]
      exact hs.register _ _
    · rw [requests,if_neg hno]
      exact ih hr hs
    · rw [requests,← List.append_assoc]
      refine ih hr ?_
      rw [← after_append]
      exact hs.register _ _
    · rw [requests,← hcount]
      refine ih hr ?_
      rw [hcontroller]
      exact hs

/-- The vectors are counted, and their numbers are those returned. -/
structure Counted (p : Port) (b : MsiBuild) (r : MsiRun) : Prop where
  le : r.msi.vectorCount ≤ b.maxPciMsi
  length : r.msi.count.length = b.maxPciMsi
  returned : r.returned = (List.range r.msi.vectorCount).map (p.vectorBase + ·)

theorem Counted.boot (eventNotify : ℕ) (pciTask : Option ℕ) : Counted p b (msiBoot p b eventNotify pciTask) where
  le := Nat.zero_le _
  length := List.length_replicate
  returned := rfl

theorem Counted.step {label : MsiLabel} {u : MsiRun} (hr : Counted p b r) (h : msiStep p b r label = some u) :
    Counted p b u := by
  obtain ⟨dev,_,_,hroom,hmsi,hreturned⟩ | ⟨dev,_,_,rfl⟩ | ⟨irqId,handler,_,rfl⟩ | ⟨raw,s,_,_,hcount,hlength,rfl⟩ :=
    msiStep_cases h
  · refine ⟨by rw [hmsi]; exact hroom,by rw [hmsi]; exact hr.length,?_⟩
    rw [hreturned,hmsi,hr.returned,List.range_succ,List.map_append]
    rfl
  · exact hr
  · exact ⟨hr.le,hr.length,hr.returned⟩
  · refine ⟨hcount ▸ hr.le,hlength.trans hr.length,?_⟩
    rw [hr.returned]
    exact congrArg _ (congrArg _ hcount.symm)

theorem Counted.exec (hr : Counted p b r) (h : Machine.exec (msiStep p b) r labels = some r') : Counted p b r' :=
  reachable (I := Counted p b) _ (fun _ _ _ => Counted.step) hr h

theorem exec_vectorCount_le (h : exec (msiStep p b) r labels = some r') : r.msi.vectorCount ≤ r'.msi.vectorCount := by
  refine reachable (I := fun u => r.msi.vectorCount ≤ u.msi.vectorCount) _ ?_ le_rfl h
  intro u label v hle hv
  obtain ⟨dev,_,_,_,hmsi,_⟩ | ⟨dev,_,_,rfl⟩ | ⟨irqId,handler,_,rfl⟩ | ⟨raw,s,_,_,hcount,_,rfl⟩ := msiStep_cases hv
  · rw [hmsi]
    exact Nat.le_succ_of_le hle
  · exact hle
  · exact hle
  · exact hle.trans_eq hcount.symm

end Run

section Requests
variable {p : Port} {b : MsiBuild} {r r' : MsiRun} {labels : List MsiLabel} {irq k : ℕ}

theorem request_driver {irqId : ℕ} {handler : Option ℕ} :
    (irq,.pcieMsiTrampoline k) ∉ (request p.maxIrqId irqId (handler.map .driver)).toList := by
  unfold request
  split
  · cases handler <;> simp
  · simp

/-- The interrupt ids of the vectors are valid ones. -/
def Port.Valid (p : Port) : Prop := ∀ k < maxMsiSequence, p.irqId k < 2 ^ 16 ∧ p.irqId k ≤ p.maxIrqId

theorem Port.Valid.request (hp : p.Valid) (hk : k < b.maxPciMsi) (h : Handler) :
    Interrupt.request p.maxIrqId (p.irqId k) (some h) = some (p.irqId k,h) := by
  obtain ⟨hbound,hle⟩ := hp k (hk.trans_le b.maxPciMsi_le)
  rw [Interrupt.request,u16_of_lt hbound,if_pos hle]
  rfl

/-- A trampoline is requested for each vector that is allocated, under its interrupt id. -/
theorem mem_requests (hp : p.Valid) (h : exec (msiStep p b) r labels = some r') :
    (irq,.pcieMsiTrampoline k) ∈ requests p b r.msi.vectorCount labels ↔
      irq = p.irqId k ∧ r.msi.vectorCount ≤ k ∧ k < r'.msi.vectorCount := by
  induction labels generalizing r with
  | nil =>
    cases h
    simp only [requests,List.not_mem_nil,false_iff,not_and,not_lt]
    exact fun _ hk => hk
  | cons label labels ih =>
    obtain ⟨u,hu,hr⟩ := Option.bind_eq_some_iff.mp h
    obtain ⟨dev,rfl,hdev,hroom,hmsi,_⟩ | ⟨dev,rfl,hno,rfl⟩ | ⟨irqId,handler,rfl,rfl⟩ | ⟨raw,s,rfl,_,hcount,_,rfl⟩ :=
      msiStep_cases hu
    · have hcount : u.msi.vectorCount = r.msi.vectorCount + 1 := by rw [hmsi]
      have hlt : r.msi.vectorCount < r'.msi.vectorCount := by
        rw [← Nat.succ_le_iff,Nat.succ_eq_add_one,← hcount]
        exact exec_vectorCount_le hr
      rw [requests,if_pos ⟨hdev,hroom⟩,hp.request hroom,List.mem_append,← hcount,ih hr,hcount]
      simp only [Option.mem_toList,Option.some.injEq,Prod.mk.injEq,Handler.pcieMsiTrampoline.injEq]
      constructor
      · rintro (⟨rfl,rfl⟩ | ⟨hirq,hk,hk'⟩)
        · exact ⟨rfl,le_rfl,hlt⟩
        · exact ⟨hirq,by omega,hk'⟩
      · rintro ⟨rfl,hk,hk'⟩
        rcases hk.eq_or_lt with rfl | hk
        · exact .inl ⟨rfl,rfl⟩
        · exact .inr ⟨rfl,hk,hk'⟩
    · rw [requests,if_neg hno,ih hr]
    · rw [requests,List.mem_append,or_iff_right request_driver]
      have hrest := ih hr
      exact hrest
    · rw [requests,← hcount]
      have hrest := ih hr
      exact hrest

/-- The trampolines are requested in the order of the vectors. -/
theorem requests_ordered (hp : p.Valid) (h : exec (msiStep p b) r labels = some r') :
    (requests p b r.msi.vectorCount labels).Pairwise fun q q' =>
      ∀ k k', q.2 = .pcieMsiTrampoline k → q'.2 = .pcieMsiTrampoline k' → k < k' := by
  induction labels generalizing r with
  | nil => exact List.Pairwise.nil
  | cons label labels ih =>
    obtain ⟨u,hu,hr⟩ := Option.bind_eq_some_iff.mp h
    obtain ⟨dev,rfl,hdev,hroom,hmsi,_⟩ | ⟨dev,rfl,hno,rfl⟩ | ⟨irqId,handler,rfl,rfl⟩ | ⟨raw,s,rfl,_,hcount,_,rfl⟩ :=
      msiStep_cases hu
    · have hcount : u.msi.vectorCount = r.msi.vectorCount + 1 := by rw [hmsi]
      rw [requests,if_pos ⟨hdev,hroom⟩,hp.request hroom,← hcount]
      refine List.pairwise_cons.mpr ⟨?_,ih hr⟩
      rintro ⟨irq,h⟩ hq k k' hk rfl
      cases hk
      obtain ⟨_,hle,_⟩ := (mem_requests hp hr).mp hq
      omega
    · rw [requests,if_neg hno]
      exact ih hr
    · rw [requests]
      have hrest := ih hr
      refine List.pairwise_append.mpr ⟨?_,hrest,?_⟩
      · cases request p.maxIrqId irqId (handler.map .driver) <;> simp
      · rintro ⟨irq,h⟩ hq q' _ k k' rfl _
        exact absurd hq request_driver
    · rw [requests,← hcount]
      have hrest := ih hr
      exact hrest

/-- The last accepted request of an interrupt id, among the requests that find room. -/
theorem exec_handler (h : exec (msiStep p b) r labels = some r') (hr : r.msi.controller = initController p.maxIrqId)
    (enableSafetyCheck : Bool) (hirq : irq ≤ p.maxIrqId) :
    callHandler enableSafetyCheck r'.msi.controller irq =
      outcome enableSafetyCheck (LastWrite.last (puts irq) ((requests p b r.msi.vectorCount labels).take maxIrqs)) := by
  have hinit : Stores p.maxIrqId r.msi.controller (Table.after maxIrqs []) := hr ▸ Stores.init
  have hstores := exec_stores h hinit
  rw [hstores.callHandler_eq enableSafetyCheck hirq,List.nil_append,Table.handler_after]

end Requests

end EmbedTemplate.Pci
