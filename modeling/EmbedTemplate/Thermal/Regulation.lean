import EmbedTemplate.Gpio.Driver
import EmbedTemplate.Library.Machine
import EmbedTemplate.Thermal.Config

/-! # The simulated plant and its temperature regulation

One tick of the hardware task, one call of `run_temperature_regulation` and the control
operations around them, as steps on the register block and the simulator globals.
-/
namespace EmbedTemplate.Thermal
open Bytes Gpio

/-- The assignment of a wider value to an `int16_t`. -/
def i16 (x : ℤ) : ℤ := (BitVec.ofInt 16 x).toInt

section Wrap
variable {x y : ℤ}

theorem i16_of_fits (hlow : -32768 ≤ x) (hhigh : x ≤ 32767) : i16 x = x := by
  rw [i16,BitVec.toInt_ofInt]
  exact Int.bmod_eq_of_le (by omega) (by omega)

theorem i16_of_above (hlow : 32767 < x) (hhigh : x < 98304) : i16 x = x - 65536 := by
  rw [i16,BitVec.toInt_ofInt,Int.bmod_def]
  omega

theorem i16_of_below (hlow : -98304 ≤ x) (hhigh : x < -32768) : i16 x = x + 65536 := by
  rw [i16,BitVec.toInt_ofInt,Int.bmod_def]
  omega

theorem i16_add_i16 : i16 (i16 x + y) = i16 (x + y) := by
  simp only [i16,BitVec.toInt_ofInt]
  exact Int.bmod_add_bmod

theorem i16_sub_i16 : i16 (x - i16 y) = i16 (x - y) := by
  simp only [i16,BitVec.toInt_ofInt]
  exact Int.sub_bmod_bmod

end Wrap

/-- The register block, the globals, the suspension flag and the tick counter of the hardware
task. -/
structure Plant where
  gpio : GpioCtrl
  sim : Sim
  suspended : Bool
  msCounter : ℕ

/-- `gpio->out.f.pin_out & (1 << pin)`. -/
def Plant.pinOut (p : Plant) (pin : ℕ) : Bool := p.gpio.pinOut pin

/-- Fan 1 fails or recovers when the tick counter meets the latency in a full window. -/
def toggleFan1 (p : Plant) : UnitStatus :=
  let c := p.sim.ctx
  if p.msCounter = c.phy.sensorLatencyMs ∧ c.reg.timeWindow ≠ 0 ∧ c.reg.timeWindow &&& (1024 - 1) = 0 then
    { c.status with isFan1Failed := !c.status.isFan1Failed }
  else c.status

/-- The energy balance of a tick, in 16-bit arithmetic. -/
def energyState (gpio : GpioCtrl) (phy : PhyState) (status : UnitStatus) (tempMC : ℤ) : SimState :=
  let runaway := status.isFan1Failed
  let net := if (gpio.pinOut 0 || runaway) && !status.isHeaterFailed then i16 phy.heaterPower else 0
  let cooling := if gpio.pinOut 1 && !status.isFan1Failed then i16 (phy.heaterPower * 3 / 2) else 0
  let cooling := if gpio.pinOut 2 && !status.isFan2Failed then i16 (cooling + phy.heaterPower * 4) else cooling
  let cooling := i16 (cooling + (tempMC - phy.ambientTempMC).tdiv phy.boardConduct)
  ⟨i16 (net - cooling),net,cooling⟩

/-- The new temperature, inside the physical limits of the sensor. -/
def newTemp (state : SimState) (phy : PhyState) (tempMC : ℤ) : ℤ :=
  let temp := tempMC + state.energyBalance.tdiv phy.thermalMass
  let temp := if temp > 215000 then 215000 else temp
  if temp < phy.ambientTempMC then phy.ambientTempMC else temp

/-- The sensor reading of a temperature. -/
def sensorRaw (tempMC : ℤ) : ℤ :=
  let temp := tempMC.tdiv 1000 + sensorOffset
  let temp := if temp > 255 then 255 else temp
  if temp < 0 then 0 else temp

/-- The physics of a tick: unit failures, energy balance, temperature, sensor register. -/
def physics (p : Plant) : Plant :=
  let p := { p with msCounter := u32 (p.msCounter + 1) }
  let c := p.sim.ctx
  let status := toggleFan1 p
  let state := energyState p.gpio c.phy status c.tempMC
  let temp := newTemp state c.phy c.tempMC
  { p with
    gpio := { p.gpio with inp := store 8 p.gpio.inp (BitVec.ofInt 32 (sensorRaw temp)) }
    sim := { p.sim with ctx := { c with state := state, status := status, tempMC := temp } } }

/-- The over-temperature alarm; the result says whether it was signalled in this tick. -/
def alarm (p : Plant) : Plant × Bool :=
  let ctrl := p.sim.cfg.ctrl
  if p.sim.ctx.tempMC ≥ 1000 * (ctrl.tempTarget + ctrl.tempHysteresis + 10) then
    let enabled := load 16 p.gpio.intEn &&& Gpio.bit alarmBp ≠ 0
    let pending := load 16 p.gpio.intSts &&& Gpio.bit alarmBp ≠ 0
    if enabled ∧ ¬pending then
      ({ p with
        gpio := { p.gpio with
          inp := storeBit alarmBp p.gpio.inp true
          intSts := assign 16 p.gpio.intSts (Gpio.bit alarmBp) true }
        msCounter := if p.msCounter > p.sim.ctx.phy.sensorLatencyMs / 2 then 0 else p.msCounter },true)
    else (p,false)
  else ({ p with gpio := { p.gpio with inp := storeBit alarmBp p.gpio.inp false } },false)

/-- The periodic sensor signal restarts the tick counter. -/
def sensor (p : Plant) (done : Bool) : Plant :=
  if p.msCounter ≥ p.sim.ctx.phy.sensorLatencyMs ∧ done = false then { p with msCounter := 0 } else p

/-- The watchdog forces the outputs to fan 1 only once its timer has run out. -/
def watchdog (p : Plant) : Plant :=
  if wdtEn p.gpio then
    if load 8 p.gpio.wdtVal ≠ 0 then
      { p with gpio := { p.gpio with wdtVal := store 8 p.gpio.wdtVal (load 8 p.gpio.wdtVal - 1) } }
    else { p with gpio := { p.gpio with out := store 8 p.gpio.out 0x02 } }
  else p

/-- One round of `vHardwareSimTask`. -/
def tick (p : Plant) : Plant :=
  let (p,done) := alarm (physics p)
  watchdog (sensor p done)

/-- The temperature that a regulation call reads. -/
def Plant.temp (p : Plant) : ℤ := gpioGetAllInPins p.gpio - sensorOffset

def Plant.setStatus (p : Plant) (status : CtrlStatus) : Plant :=
  { p with sim := { p.sim with ctx := { p.sim.ctx with reg := { p.sim.ctx.reg with status := status } } } }

def Plant.status (p : Plant) : CtrlStatus := p.sim.ctx.reg.status
def Plant.ctrl (p : Plant) : TempCtrlCfg := p.sim.cfg.ctrl

/-- The book-keeping of a regulation call: the maximum and the time window. -/
def observe (p : Plant) (temp : ℤ) : Plant :=
  let reg := p.sim.ctx.reg
  { p with sim := { p.sim with ctx := { p.sim.ctx with reg := { reg with
      maxTemp := if temp > reg.maxTemp then temp else reg.maxTemp
      timeWindow := u32 (reg.timeWindow + 1) } } } }

/-- Entering the critical state: fan 2 on, heater off. Nothing happens inside of it. -/
def enterCritical (p : Plant) : Plant :=
  if p.status.isCritical then p
  else
    let p := p.setStatus { p.status with isCritical := true }
    { p with gpio := gpioClearOutPin (gpioSetOutPin p.gpio 2) 0 }

def leaveCritical (p : Plant) : Plant :=
  let p := p.setStatus { p.status with isCritical := false }
  { p with gpio := gpioClearOutPin p.gpio 2 }

/-- The critical branch; the result says whether the call goes on. -/
def critical (p : Plant) (temp : ℤ) : Plant × Bool :=
  if temp > p.ctrl.tempCritical ∨ p.status.isCritical = true then
    let p := enterCritical p
    if temp < p.ctrl.tempCooldown then (leaveCritical p,true) else (p,false)
  else (p,true)

def enterCooldown (p : Plant) : Plant :=
  if gpioIsAlarm p.gpio && !p.status.isCooldown then p.setStatus { p.status with isCooldown := true } else p

/-- The end of the cooldown acknowledges the alarm and starts the maximum anew. -/
def leaveCooldown (p : Plant) (temp : ℤ) : Plant :=
  let p := p.setStatus { p.status with isCooldown := false }
  let p := { p with gpio := gpioClearInterrupt p.gpio alarmBp }
  let p := if temp < p.ctrl.tempTarget - p.ctrl.tempHysteresis then
      let p := p.setStatus { p.status with isHeating := true }
      { p with gpio := gpioClearOutPin p.gpio 1 }
    else p
  { p with sim := { p.sim with ctx := { p.sim.ctx with reg := { p.sim.ctx.reg with maxTemp := temp } } } }

/-- The outputs while cooling down: fan 1 on unless it has failed, heater off. -/
def coolOutputs (p : Plant) : Plant :=
  let gpio := if p.sim.ctx.status.isFan1Failed then p.gpio else gpioSetOutPin p.gpio 1
  { p with gpio := gpioClearOutPin gpio 0 }

/-- The safety cooling behind an alarm; the result says whether the call goes on. -/
def cooldown (p : Plant) (temp : ℤ) : Plant × Bool :=
  let p := enterCooldown p
  if p.status.isCooldown then
    if temp < p.ctrl.tempCooldown then (leaveCooldown p temp,true) else (coolOutputs p,false)
  else (p,true)

/-- The hysteresis around the target. -/
def updateHeating (p : Plant) (temp : ℤ) : Plant :=
  if temp < p.ctrl.tempTarget - p.ctrl.tempHysteresis then p.setStatus { p.status with isHeating := true }
  else if temp ≥ p.ctrl.tempTarget then p.setStatus { p.status with isHeating := false }
  else p

/-- The outputs of the normal operation. -/
def driveOutputs (p : Plant) (temp : ℤ) : Plant :=
  if p.status.isHeating && !p.sim.ctx.status.isHeaterFailed then
    { p with gpio := gpioClearOutPin (gpioSetOutPin p.gpio 0) 1 }
  else
    let gpio := gpioClearOutPin p.gpio 0
    if temp > p.ctrl.tempTarget + 3 ∧ p.sim.ctx.status.isFan1Failed = false then
      { p with gpio := gpioSetOutPin gpio 1 }
    else { p with gpio := gpioClearOutPin gpio 1 }

def runTemperatureRegulation (p : Plant) : Plant :=
  let temp := p.temp
  let (p,goesOn) := critical (observe p temp) temp
  if goesOn then
    let (p,goesOn) := cooldown p temp
    if goesOn then driveOutputs (updateHeating p temp) temp else p
  else p

def simSuspend (p : Plant) : Plant :=
  if p.suspended then p else { p with sim := resetSimState p.sim false, suspended := true }

def simStart (p : Plant) : Plant := if p.suspended then { p with suspended := false } else p

/-- What `vGPIOControlTask` does to the registers before its loop. -/
def initRegs : GpioCtrl :=
  let r := gpioInitController ⟨0,0,0,0,0,0,0,0,0,0,0,0⟩
  let r := gpioInitPin r 0 true
  let r := gpioInitPin r 1 true
  let r := gpioInitPin r 2 true
  let r := gpioInitPin r 8 false
  let r := gpioInitPinMask r 0xFF false
  let r := gpioConfigureInterrupt r 8 false
  let r := gpioClearInterrupt r 8
  gpioWdtSetup r 150

/-- The initialised controller, on a simulator that has started up. -/
def Plant.init (sim : Sim) : Plant := ⟨initRegs,sim,false,0⟩

/-- A tick, a regulation call, the watchdog kick that the control task makes behind it, a
configuration call, or a suspension followed by a start. -/
inductive PlantLabel where
  | tick
  | regulate
  | kick
  | setCfg (call : SimCall)
  | restart

def plantStep (p : Plant) : PlantLabel → Option Plant
  | .tick => some (tick p)
  | .regulate => some (runTemperatureRegulation p)
  | .kick => some { p with gpio := gpioWdtKick p.gpio }
  | .setCfg call => some { p with sim := (setSimCfg p.sim call).1 }
  | .restart => some (simStart (simSuspend p))

end EmbedTemplate.Thermal
