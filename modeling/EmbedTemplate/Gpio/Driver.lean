import Mathlib.Data.BitVec
import Mathlib.Tactic.Common

/-! # The GPIO register block and its driver

`gpio_demo_regs.h` and `gpio.c` in the build without `USE_HW`, where the block is plain
memory: a store to a write-one-to-set or write-one-to-clear register has no effect of
its own, and the driver emulates it behind the store.
-/
namespace EmbedTemplate.Gpio

/-- `gpio_ctrl_t`. -/
structure GpioCtrl where
  dir : BitVec 32
  out : BitVec 32
  inp : BitVec 32
  set : BitVec 32
  clr : BitVec 32
  intEn : BitVec 32
  intSts : BitVec 32
  intType : BitVec 32
  intPol : BitVec 32
  wdtCfg : BitVec 32
  wdtVal : BitVec 32
  wdtReload : BitVec 32
  deriving DecidableEq

/-- Mask of the bit-field of `width` bits from bit 0 on. -/
def bm (width : ℕ) : BitVec 32 := BitVec.ofNat 32 (2 ^ width - 1)

/-- Load of the bit-field of `width` bits from bit 0 on. -/
def load (width : ℕ) (reg : BitVec 32) : BitVec 32 := reg &&& bm width

/-- Store to the bit-field of `width` bits from bit 0 on. -/
def store (width : ℕ) (reg v : BitVec 32) : BitVec 32 := (reg &&& ~~~bm width) ||| (v &&& bm width)

/-- `1 << pin`. -/
def bit (pin : ℕ) : BitVec 32 := BitVec.twoPow 32 pin

def storeBit (pin : ℕ) (reg : BitVec 32) (on : Bool) : BitVec 32 :=
  if on then reg ||| bit pin else reg &&& ~~~bit pin

/-- The read-modify-write of a field that sets or clears the bits of a mask. -/
def assign (width : ℕ) (reg mask : BitVec 32) (on : Bool) : BitVec 32 :=
  store width reg (if on then load width reg ||| mask else load width reg &&& ~~~mask)

/-- `out.f.pin_out & (1 << pin)`. -/
def GpioCtrl.pinOut (r : GpioCtrl) (pin : ℕ) : Bool := (load 8 r.out).getLsbD pin

/-- Bit position of the alarm in `in` and of its interrupt in `int_sts`. -/
def alarmBp : ℕ := 8

def gpioInitPin (r : GpioCtrl) (pin : ℕ) (isOutput : Bool) : GpioCtrl :=
  { r with dir := assign 8 r.dir (bit pin) isOutput }

def gpioInitPinMask (r : GpioCtrl) (pendingMask : BitVec 16) (isOutput : Bool) : GpioCtrl :=
  { r with dir := assign 8 r.dir (pendingMask.setWidth 32) isOutput }

def gpioSetOutPin (r : GpioCtrl) (pin : ℕ) : GpioCtrl :=
  let r := { r with set := store 8 r.set (bit pin) }
  if load 8 r.out &&& bit pin = 0 then { r with out := store 8 r.out (load 8 r.out ||| bit pin) } else r

def gpioClearOutPin (r : GpioCtrl) (pin : ℕ) : GpioCtrl :=
  let r := { r with clr := store 8 r.clr (bit pin) }
  if load 8 r.out &&& bit pin ≠ 0 then { r with out := store 8 r.out (load 8 r.out &&& ~~~bit pin) } else r

def gpioGetAllInPins (r : GpioCtrl) : ℕ := (load 8 r.inp).toNat

def gpioIsAlarm (r : GpioCtrl) : Bool := r.inp.getLsbD alarmBp || (load 16 r.intSts &&& bit alarmBp ≠ 0)

def gpioEnableInterrupt (r : GpioCtrl) (pin : ℕ) (edge : Bool) : GpioCtrl :=
  { r with
    intType := assign 16 r.intType (bit pin) edge
    intEn := assign 16 r.intEn (bit pin) true }

/-- A status store, read back and cleared by hand where the bits are still there. -/
def clearStatus (r : GpioCtrl) (mask : BitVec 32) : GpioCtrl :=
  let r := { r with intSts := store 16 r.intSts mask }
  if load 16 r.intSts &&& mask ≠ 0 then { r with intSts := r.intSts &&& ~~~mask } else r

/-- The returned mask is cut to eight bits. -/
def gpioGetAndClearIrqStatus (r : GpioCtrl) : GpioCtrl × BitVec 8 :=
  let status := load 16 r.intSts
  (clearStatus r status,status.setWidth 8)

def gpioSetInterruptPolarity (r : GpioCtrl) (pin : ℕ) (activeLow : Bool) : GpioCtrl :=
  { r with intPol := assign 16 r.intPol (bit pin) activeLow }

def gpioClearInterrupt (r : GpioCtrl) (pin : ℕ) : GpioCtrl := clearStatus r (bit pin)

def gpioClearInterruptsMask (r : GpioCtrl) (pendingMask : BitVec 16) : GpioCtrl :=
  clearStatus r (pendingMask.setWidth 32)

def gpioInitController (r : GpioCtrl) : GpioCtrl :=
  let r := { r with
    dir := store 8 r.dir 0
    intEn := store 16 r.intEn 0
    intSts := 0xFFFF }
  let r := if load 16 r.intSts ≠ 0 then { r with intSts := r.intSts &&& ~~~0xFFFF } else r
  { r with
    intPol := store 16 r.intPol 0
    intType := store 16 r.intType 0
    wdtCfg := storeBit 8 (store 2 r.wdtCfg 0) false
    wdtVal := store 8 r.wdtVal 0
    wdtReload := store 8 r.wdtReload 0 }

def gpioConfigureInterrupt (r : GpioCtrl) (pin : ℕ) (activeLow : Bool) : GpioCtrl :=
  { r with
    intPol := assign 16 r.intPol (bit pin) activeLow
    intEn := assign 16 r.intEn (bit pin) true }

/-- `wdt_cfg.f.en`. -/
def wdtEn (r : GpioCtrl) : Bool := r.wdtCfg.getLsbD 8

def gpioWdtSetup (r : GpioCtrl) (timeoutMs : BitVec 32) : GpioCtrl :=
  let (prescale,reload) : BitVec 32 × BitVec 32 :=
    if timeoutMs.toNat < 255 then (0,timeoutMs) else (1,BitVec.ofNat 32 (timeoutMs.toNat / 10))
  let wdtReload := store 8 r.wdtReload reload
  { r with
    wdtReload := wdtReload
    wdtVal := store 8 r.wdtVal (load 8 wdtReload)
    wdtCfg := storeBit 8 (store 2 r.wdtCfg prescale) true }

def gpioWdtKick (r : GpioCtrl) : GpioCtrl :=
  if wdtEn r then { r with wdtVal := store 8 r.wdtVal (load 8 r.wdtReload) } else r

section Bits
variable {width : ℕ} {reg v : BitVec 32} {pin i : ℕ}

@[simp] theorem getElem_bm (hi : i < 32) : (bm width)[i] = decide (i < width) := by
  rw [← BitVec.getLsbD_eq_getElem,bm,BitVec.getLsbD_ofNat,Nat.testBit_two_pow_sub_one,decide_eq_true hi,Bool.true_and]

@[simp] theorem getElem_load (hi : i < 32) : (load width reg)[i] = (reg[i] && decide (i < width)) := by
  simp [load]

@[simp] theorem getElem_store (hi : i < 32) : (store width reg v)[i] = if i < width then v[i] else reg[i] := by
  by_cases h : i < width <;> simp [store,h]

@[simp] theorem getElem_bit (hi : i < 32) : (bit pin)[i] = decide (i = pin) := by
  simp [bit]

theorem load_store (reg v : BitVec 32) : load width (store width reg v) = load width v := by
  ext i hi
  by_cases h : i < width <;> simp [h]

theorem load_storeBit (reg : BitVec 32) (on : Bool) (h : width ≤ pin) : load width (storeBit pin reg on) =
    load width reg := by
  ext i hi
  unfold storeBit
  by_cases hlow : i < width
  · have hne : i ≠ pin := by omega
    cases on <;> simp [hlow,hne]
  · simp [hlow]

theorem load_and_bit : load width reg &&& bit pin = 0 ↔ (reg.getLsbD pin && decide (pin < width)) = false := by
  constructor
  · intro h
    by_cases hpin : pin < 32
    · have hbit := congrArg (fun v => v.getLsbD pin) h
      simpa [hpin] using hbit
    · rw [BitVec.getLsbD_of_ge _ _ (by omega)]
      rfl
  · intro h
    ext i hi
    by_cases hpin : i = pin
    · subst hpin
      simpa [hi] using h
    · simp [hpin]

end Bits

section Outputs
variable (r : GpioCtrl) (mask : BitVec 32) {pin i : ℕ}

theorem pinOut_gpioSetOutPin (hi : i < 8) : (gpioSetOutPin r pin).pinOut i = (r.pinOut i || decide (i = pin)) := by
  have h32 : i < 32 := by omega
  simp only [gpioSetOutPin,GpioCtrl.pinOut]
  split
  · simp [hi,h32]
  · rename_i hset
    rw [load_and_bit,Bool.not_eq_false] at hset
    by_cases hpin : i = pin
    · subst hpin
      simpa [hi,h32] using hset
    · simp [hpin]

theorem pinOut_gpioClearOutPin (hi : i < 8) : (gpioClearOutPin r pin).pinOut i = (r.pinOut i && !decide (i = pin)) := by
  have h32 : i < 32 := by omega
  simp only [gpioClearOutPin,GpioCtrl.pinOut]
  split
  · simp [hi,h32]
  · rename_i hclear
    rw [Ne,not_not,load_and_bit] at hclear
    by_cases hpin : i = pin
    · subst hpin
      simpa [hi,h32] using hclear
    · simp [hpin]

@[simp] theorem pinOut_clearStatus : (clearStatus r mask).pinOut i = r.pinOut i := by
  simp only [clearStatus,GpioCtrl.pinOut]
  split <;> rfl

@[simp] theorem pinOut_gpioWdtKick : (gpioWdtKick r).pinOut i = r.pinOut i := by
  rw [gpioWdtKick]
  split <;> rfl

end Outputs

end EmbedTemplate.Gpio
