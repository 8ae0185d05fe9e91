import EmbedTemplate.Gpio.Driver
import Mathlib.Data.List.Infix

/-! # The simulated GPIO block against the hardware registers

The register description gives `set` and `clr` write-one semantics on the outputs and
makes the interrupt status write-one-to-clear. The memory-backed block agrees with it
call by call as long as no other interrupt is pending when one is acknowledged: the raw
status store wipes the other pending bits.
-/
namespace EmbedTemplate.Gpio

/-- The output and the interrupt status register, as the register description has them. -/
structure HwRegs where
  pinOut : BitVec 8
  status : BitVec 16
  deriving DecidableEq

def HwRegs.writeSet (h : HwRegs) (bits : BitVec 8) : HwRegs := { h with pinOut := h.pinOut ||| bits }
def HwRegs.writeClr (h : HwRegs) (bits : BitVec 8) : HwRegs := { h with pinOut := h.pinOut &&& ~~~bits }
def HwRegs.writeIntSts (h : HwRegs) (bits : BitVec 16) : HwRegs := { h with status := h.status &&& ~~~bits }

/-- The driver calls that write registers. -/
inductive GpioOp where
  | initPin (pin : Fin 16) (isOutput : Bool)
  | initPinMask (mask : BitVec 16) (isOutput : Bool)
  | setOutPin (pin : Fin 8)
  | clearOutPin (pin : Fin 8)
  | enableInterrupt (pin : Fin 16) (edge : Bool)
  | getAndClearIrqStatus
  | setInterruptPolarity (pin : Fin 16) (activeLow : Bool)
  | clearInterrupt (pin : Fin 16)
  | clearInterruptsMask (mask : BitVec 16)
  | initController
  | configureInterrupt (pin : Fin 16) (activeLow : Bool)
  | wdtSetup (timeoutMs : BitVec 32)
  | wdtKick
  deriving DecidableEq

/-- A call in the simulation. -/
def call (r : GpioCtrl) : GpioOp → GpioCtrl
  | .initPin pin isOutput => gpioInitPin r pin isOutput
  | .initPinMask mask isOutput => gpioInitPinMask r mask isOutput
  | .setOutPin pin => gpioSetOutPin r pin
  | .clearOutPin pin => gpioClearOutPin r pin
  | .enableInterrupt pin edge => gpioEnableInterrupt r pin edge
  | .getAndClearIrqStatus => (gpioGetAndClearIrqStatus r).1
  | .setInterruptPolarity pin activeLow => gpioSetInterruptPolarity r pin activeLow
  | .clearInterrupt pin => gpioClearInterrupt r pin
  | .clearInterruptsMask mask => gpioClearInterruptsMask r mask
  | .initController => gpioInitController r
  | .configureInterrupt pin activeLow => gpioConfigureInterrupt r pin activeLow
  | .wdtSetup timeoutMs => gpioWdtSetup r timeoutMs
  | .wdtKick => gpioWdtKick r

/-- The same call on the hardware: what its stores to `set`, `clr` and `int_sts` do. -/
def hwCall (h : HwRegs) : GpioOp → HwRegs
  | .setOutPin pin => h.writeSet (BitVec.twoPow 8 pin)
  | .clearOutPin pin => h.writeClr (BitVec.twoPow 8 pin)
  | .getAndClearIrqStatus => h.writeIntSts h.status
  | .clearInterrupt pin => h.writeIntSts (BitVec.twoPow 16 pin)
  | .clearInterruptsMask mask => h.writeIntSts mask
  | .initController => h.writeIntSts 0xFFFF
  | _ => h

/-- What the simulated block holds in the two registers. -/
def GpioCtrl.view (r : GpioCtrl) : HwRegs := ⟨r.out.setWidth 8,r.intSts.setWidth 16⟩

/-- No interrupt outside the mask of an acknowledgement is pending. -/
def Alone (r : GpioCtrl) : GpioOp → Prop
  | .clearInterrupt pin => r.view.status &&& ~~~BitVec.twoPow 16 pin = 0
  | .clearInterruptsMask mask => r.view.status &&& ~~~mask = 0
  | _ => True

instance (r : GpioCtrl) (op : GpioOp) : Decidable (Alone r op) := by
  cases op <;> unfold Alone <;> infer_instance

variable (r : GpioCtrl) (mask : BitVec 32) (pin : ℕ)

/-- The raw store and the repair behind it leave no status bit set at all. -/
theorem status_clearStatus : (clearStatus r mask).view.status = 0 := by
  ext i hi
  have h32 : i < 32 := by omega
  simp only [clearStatus,GpioCtrl.view]
  split
  · simp [hi,h32]
  · rename_i hclear
    have hbit := congrArg (fun v => v[i]) (not_not.mp hclear)
    simpa [hi,h32] using hbit

theorem out_clearStatus : (clearStatus r mask).view.pinOut = r.view.pinOut := by
  simp only [clearStatus,GpioCtrl.view]
  split <;> rfl

theorem view_clearStatus : (clearStatus r mask).view = ⟨r.view.pinOut,0⟩ := by
  rw [← out_clearStatus r mask,← status_clearStatus r mask]

theorem getElem_view (i : ℕ) (hi : i < 8) : r.view.pinOut[i] = r.pinOut i := by
  have h32 : i < 32 := by omega
  simp [GpioCtrl.view,GpioCtrl.pinOut,hi,h32]

theorem view_gpioSetOutPin : (gpioSetOutPin r pin).view = r.view.writeSet (BitVec.twoPow 8 pin) := by
  have hout : (gpioSetOutPin r pin).view.pinOut = r.view.pinOut ||| BitVec.twoPow 8 pin := by
    ext i hi
    rw [getElem_view,pinOut_gpioSetOutPin r hi,BitVec.getElem_or,getElem_view,BitVec.getElem_twoPow]
  have hsts : (gpioSetOutPin r pin).view.status = r.view.status := by
    simp only [gpioSetOutPin,GpioCtrl.view]
    split <;> rfl
  rw [HwRegs.writeSet,← hout,← hsts]

theorem view_gpioClearOutPin : (gpioClearOutPin r pin).view = r.view.writeClr (BitVec.twoPow 8 pin) := by
  have hout : (gpioClearOutPin r pin).view.pinOut = r.view.pinOut &&& ~~~BitVec.twoPow 8 pin := by
    ext i hi
    rw [getElem_view,pinOut_gpioClearOutPin r hi,BitVec.getElem_and,getElem_view,BitVec.getElem_not,
      BitVec.getElem_twoPow]
  have hsts : (gpioClearOutPin r pin).view.status = r.view.status := by
    simp only [gpioClearOutPin,GpioCtrl.view]
    split <;> rfl
  rw [HwRegs.writeClr,← hout,← hsts]

theorem view_gpioInitController : (gpioInitController r).view = r.view.writeIntSts 0xFFFF := by
  have hzero : r.view.status &&& ~~~0xFFFF = 0 := by simp
  have htest : load 16 0xFFFF ≠ 0 := by decide
  rw [HwRegs.writeIntSts,hzero]
  simp only [gpioInitController,if_pos htest]
  rfl

theorem view_gpioWdtKick : (gpioWdtKick r).view = r.view := by
  rw [gpioWdtKick]
  split <;> rfl

/-- An acknowledgement agrees with the hardware exactly if nothing else is pending. -/
theorem view_clearStatus_iff {bits : BitVec 16} :
    (clearStatus r mask).view = r.view.writeIntSts bits ↔ r.view.status &&& ~~~bits = 0 := by
  rw [view_clearStatus,HwRegs.writeIntSts]
  constructor
  · intro h
    exact (congrArg HwRegs.status h).symm
  · intro h
    rw [h]

theorem view_call_iff (op : GpioOp) : (call r op).view = hwCall r.view op ↔ Alone r op := by
  cases op with
  | clearInterrupt pin => exact view_clearStatus_iff r _
  | clearInterruptsMask mask => exact view_clearStatus_iff r _
  | getAndClearIrqStatus => exact (view_clearStatus_iff r _).trans (iff_true_intro (by simp))
  | setOutPin pin => exact iff_true_intro (view_gpioSetOutPin r pin)
  | clearOutPin pin => exact iff_true_intro (view_gpioClearOutPin r pin)
  | initController => exact iff_true_intro (view_gpioInitController r)
  | wdtKick => exact iff_true_intro (view_gpioWdtKick r)
  | initPin | initPinMask | enableInterrupt | setInterruptPolarity | configureInterrupt | wdtSetup =>
    exact iff_true_intro rfl

/-- Simulation and hardware agree behind every call of the sequence. -/
def Agrees (r : GpioCtrl) (ops : List GpioOp) : Prop :=
  ∀ pre, pre <+: ops → (pre.foldl call r).view = pre.foldl hwCall r.view

/-- Every acknowledgement of the sequence finds no other interrupt pending. -/
def AllAlone : GpioCtrl → List GpioOp → Prop
  | _, [] => True
  | r, op :: ops => Alone r op ∧ AllAlone (call r op) ops

instance : (r : GpioCtrl) → (ops : List GpioOp) → Decidable (AllAlone r ops)
  | _, [] => inferInstanceAs (Decidable True)
  | r, op :: ops =>
    haveI := instDecidableAllAlone (call r op) ops
    inferInstanceAs (Decidable (_ ∧ _))

theorem agrees_cons {op : GpioOp} {ops : List GpioOp} :
    Agrees r (op :: ops) ↔ (call r op).view = hwCall r.view op ∧ Agrees (call r op) ops := by
  constructor
  · intro h
    have hone : (call r op).view = hwCall r.view op := h [op] ⟨ops,rfl⟩
    refine ⟨hone,fun pre hpre => ?_⟩
    rw [hone]
    exact h (op :: pre) (List.prefix_cons_inj op |>.mpr hpre)
  · rintro ⟨hone,hrest⟩ pre hpre
    rcases List.prefix_cons_iff.mp hpre with rfl | ⟨pre',rfl,hpre'⟩
    · rfl
    · rw [List.foldl_cons,List.foldl_cons,← hone]
      exact hrest pre' hpre'

/-- The simulated block shows what the hardware would, behind every call of a sequence,
exactly if no acknowledgement finds another interrupt pending. -/
theorem agrees_iff (r : GpioCtrl) (ops : List GpioOp) : Agrees r ops ↔ AllAlone r ops := by
  induction ops generalizing r with
  | nil =>
    refine iff_of_true (fun pre hpre => ?_) trivial
    rw [List.prefix_nil.mp hpre]
    rfl
  | cons op ops ih => rw [agrees_cons,view_call_iff,ih,AllAlone]

/-- A block whose interrupts 3 and 8 are pending. -/
def twoPending : GpioCtrl := ⟨0,0,0,0,0,0x108,0x108,0,0,0,0,0⟩

theorem twoPending_not_agrees : ¬Agrees twoPending [.clearInterrupt 8] := by
  intro h
  have hview := h [.clearInterrupt 8] (List.prefix_refl _)
  revert hview
  decide

end EmbedTemplate.Gpio
