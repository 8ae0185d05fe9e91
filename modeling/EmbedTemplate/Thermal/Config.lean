import EmbedTemplate.Library.Bytes

/-! # The configuration of the thermal simulator

The data of `freertos_sim.c` and the functions that configure it: `set_sim_cfg` takes
one or two packets whose header bits announce the fields present, and every accepted
field leaves a presence bit in one of two masks.
-/
namespace EmbedTemplate.Thermal
open Bytes

/-- `stream_t`: 64 bits seen as bytes or half words, least significant first. -/
structure StreamT where
  all : BitVec 64

def StreamT.u8 (p : StreamT) (i : ℕ) : ℕ := p.all.toNat / 2 ^ (8 * i) % 2 ^ 8
def StreamT.u16 (p : StreamT) (i : ℕ) : ℕ := p.all.toNat / 2 ^ (16 * i) % 2 ^ 16

/-- `(int16_t)` of an unsigned value. -/
def s16 (x : ℕ) : ℤ := (BitVec.ofNat 16 x).toInt

def sensorOffset : ℤ := 40
def tempTarget : ℕ := 125
def tempCritical : ℕ := 180
def tempCooldown : ℕ := 50
def tempHysteresis : ℕ := 10
def rampTimeDefault : ℕ := 10
def sensorLatencyDefault : ℕ := 20
def ambientTempMC : ℤ := 25000
def chipThermalMass : ℕ := 400
def boardConductance : ℕ := 8192
def heaterUnitPower : ℕ := 4000
def minTempTarget : ℕ := 50
def maxTempTarget : ℕ := 150
def minTempCrit : ℕ := 160
def maxTempCrit : ℕ := 250
def minTempCool : ℕ := 30
def maxTempCool : ℕ := 100
def minTempHyst : ℕ := 2
def maxTempHyst : ℕ := 10
def minRamp : ℕ := 2
def maxRamp : ℕ := 20
def minMass : ℕ := 200
def maxMass : ℕ := 1000
def minCond : ℕ := 5000
def maxCond : ℕ := 15000
def minPwr : ℕ := 1000
def maxPwr : ℕ := 8000
def minLat : ℕ := 5
def maxLat : ℕ := 50
def minAmb : ℤ := -10000
def maxAmb : ℤ := 40000

/-- `phy_state_t`. -/
structure PhyState where
  rampTimeS : ℕ
  thermalMass : ℕ
  boardConduct : ℕ
  heaterPower : ℕ
  sensorLatencyMs : ℕ
  ambientTempMC : ℤ

/-- `sim_state_t`. -/
structure SimState where
  energyBalance : ℤ
  netHeatPower : ℤ
  coolingPower : ℤ

/-- `ctrl_status_t`. -/
structure CtrlStatus where
  alarmTriggered : Bool
  isHeating : Bool
  isCooldown : Bool
  isCritical : Bool

/-- `temp_ctrl_t`. -/
structure TempCtrl where
  status : CtrlStatus
  timeWindow : ℕ
  maxTemp : ℤ

/-- `unit_status_t`. -/
structure UnitStatus where
  isHeaterFailed : Bool
  isFan1Failed : Bool
  isFan2Failed : Bool

/-- `sim_ctx_t`. -/
structure SimCtx where
  phy : PhyState
  reg : TempCtrl
  state : SimState
  status : UnitStatus
  tempMC : ℤ
  mask : BitVec 16

/-- `temp_ctrl_cfg_t`. -/
structure TempCtrlCfg where
  tempTarget : ℕ
  tempCritical : ℕ
  tempCooldown : ℕ
  tempHysteresis : ℕ

/-- `temp_reg_cfg_t`. -/
structure TempRegCfg where
  ctrl : TempCtrlCfg
  mask : BitVec 16

/-- The globals `sim_ctx` and `sim_cfg`. -/
structure Sim where
  ctx : SimCtx
  cfg : TempRegCfg

/-- `BIT(n)` in a presence mask; `BIT2(n)` is `BIT(n + 8)`. -/
def bit (n : ℕ) : BitVec 16 := BitVec.twoPow 16 n

/-- Zero-initialised data. -/
def Sim.zero : Sim :=
  ⟨⟨⟨0,0,0,0,0,0⟩,⟨⟨false,false,false,false⟩,0,0⟩,⟨0,0,0⟩,⟨false,false,false⟩,0,0⟩,⟨⟨0,0,0,0⟩,0⟩⟩

/-- The thermal mass that goes with a heater power and a ramp time. -/
def derivedMass (heaterPower rampTimeS : ℕ) : ℕ :=
  let mass := u16 (heaterPower * rampTimeS / 100)
  if mass < minMass then minMass else if mass > maxMass then maxMass else mass

/-- The board conductance that goes with a thermal mass. -/
def derivedCond (thermalMass : ℕ) : ℕ :=
  let cond := u16 (heaterUnitPower + thermalMass * 20)
  if cond < minCond then minCond else if cond > maxCond then maxCond else cond

def tempCtrlCfgInit (s : Sim) : Sim :=
  { s with cfg := {
      ctrl := {
        tempTarget := if s.cfg.mask.getLsbD 10 then s.cfg.ctrl.tempTarget else tempTarget
        tempCritical := if s.cfg.mask.getLsbD 11 then s.cfg.ctrl.tempCritical else tempCritical
        tempHysteresis := if s.cfg.mask.getLsbD 12 then s.cfg.ctrl.tempHysteresis else tempHysteresis
        tempCooldown := if s.cfg.mask.getLsbD 13 then s.cfg.ctrl.tempCooldown else tempCooldown }
      mask := s.cfg.mask ||| bit 0 } }

def recalculateThermalMatrix (c : SimCtx) : SimCtx :=
  let c := if c.mask.getLsbD 2 then c
    else { c with phy := { c.phy with thermalMass := derivedMass c.phy.heaterPower c.phy.rampTimeS } }
  if c.mask.getLsbD 3 then c
  else { c with phy := { c.phy with boardConduct := derivedCond c.phy.thermalMass } }

def resetSimState (s : Sim) (phy : Bool) : Sim :=
  let c := { s.ctx with tempMC := s.ctx.phy.ambientTempMC }
  let c :=
    if phy then
      let c := recalculateThermalMatrix { c with phy := {
        rampTimeS := if c.mask.getLsbD 1 then c.phy.rampTimeS else rampTimeDefault
        thermalMass := if c.mask.getLsbD 2 then c.phy.thermalMass else chipThermalMass
        boardConduct := if c.mask.getLsbD 3 then c.phy.boardConduct else boardConductance
        heaterPower := if c.mask.getLsbD 4 then c.phy.heaterPower else heaterUnitPower
        sensorLatencyMs := if c.mask.getLsbD 9 then c.phy.sensorLatencyMs else sensorLatencyDefault
        ambientTempMC := if c.mask.getLsbD 14 then c.phy.ambientTempMC else ambientTempMC } }
      { c with mask := c.mask ||| bit 0 }
    else c
  { s with ctx := { c with
      status := ⟨false,false,false⟩
      reg := ⟨⟨false,false,false,false⟩,0,-sensorOffset⟩ } }

/-- What `set_sim_cfg` works on: the globals, the header of the current packet and the
fields out of range so far. -/
structure Progress where
  sim : Sim
  hdr : BitVec 8
  oor : BitVec 16

/-- One field of the first packet: stored and marked present when in range, reported and
taken off the header otherwise. -/
def Progress.takePhy (p : Progress) (n val lo hi : ℕ) (phy : PhyState) : Progress :=
  if p.hdr.getLsbD n then
    if lo ≤ val ∧ val ≤ hi then
      { p with sim := { p.sim with ctx := { p.sim.ctx with phy := phy, mask := p.sim.ctx.mask ||| bit n } } }
    else { p with hdr := p.hdr &&& ~~~BitVec.twoPow 8 n, oor := p.oor ||| bit n }
  else p

/-- One temperature of the second packet. -/
def Progress.takeTemp (p : Progress) (n val lo hi : ℕ) (ctrl : TempCtrlCfg) : Progress :=
  if p.hdr.getLsbD n then
    if lo ≤ val ∧ val ≤ hi then { p with sim := { p.sim with cfg := ⟨ctrl,p.sim.cfg.mask ||| bit (n + 8)⟩ } }
    else { p with oor := p.oor ||| bit (n + 8) }
  else p

/-- One simulator field of the second packet. -/
def Progress.takeCtx (p : Progress) (n : ℕ) (val lo hi : ℤ) (phy : PhyState) : Progress :=
  if p.hdr.getLsbD n then
    if lo ≤ val ∧ val ≤ hi then
      { p with sim := { p.sim with ctx := { p.sim.ctx with phy := phy, mask := p.sim.ctx.mask ||| bit (n + 8) } } }
    else { p with oor := p.oor ||| bit (n + 8) }
  else p

def Progress.phy (p : Progress) : PhyState := p.sim.ctx.phy
def Progress.ctrl (p : Progress) : TempCtrlCfg := p.sim.cfg.ctrl

/-- What follows from a new ramp or power, unless the header has mass or conductance. -/
def derivePhy (hdr : BitVec 8) (phy : PhyState) : PhyState :=
  let phy := if !hdr.getLsbD 2 && (hdr.getLsbD 1 || hdr.getLsbD 4) then
      { phy with thermalMass := derivedMass phy.heaterPower phy.rampTimeS }
    else phy
  if !hdr.getLsbD 3 && (hdr.getLsbD 1 || hdr.getLsbD 4) then
    { phy with boardConduct := derivedCond phy.thermalMass }
  else phy

/-- The first packet: ramp, mass, conductance and power. -/
def firstPacket (s : Sim) (pkt : StreamT) : Progress :=
  let p : Progress := ⟨s,BitVec.ofNat 8 (pkt.u8 0),0⟩
  let p := p.takePhy 1 (pkt.u8 1) minRamp maxRamp { p.phy with rampTimeS := pkt.u8 1 }
  let p := p.takePhy 2 (pkt.u16 1) minMass maxMass { p.phy with thermalMass := pkt.u16 1 }
  let p := p.takePhy 3 (pkt.u16 2) minCond maxCond { p.phy with boardConduct := pkt.u16 2 }
  let p := p.takePhy 4 (pkt.u16 3) minPwr maxPwr { p.phy with heaterPower := pkt.u16 3 }
  { p with sim := { p.sim with ctx := { p.sim.ctx with phy := derivePhy p.hdr p.phy } } }

/-- The adjustments of a simulator that is in use. -/
def adjustInUse (c : SimCtx) : SimCtx :=
  let c := if c.mask.getLsbD 0 && (c.phy.rampTimeS < 4 && c.phy.sensorLatencyMs > 10 : Bool) then
      { c with phy := { c.phy with sensorLatencyMs := 10 } }
    else c
  if c.mask.getLsbD 0 then recalculateThermalMatrix c else c

/-- The second packet: latency, the four temperatures and the ambient temperature. -/
def secondPacket (s : Sim) (oor : BitVec 16) (pkt : StreamT) : Progress :=
  let p : Progress := ⟨s,BitVec.ofNat 8 (pkt.u8 0),oor⟩
  let p := p.takeCtx 1 (pkt.u8 1) minLat maxLat { p.phy with sensorLatencyMs := pkt.u8 1 }
  let p := p.takeTemp 2 (pkt.u8 2) minTempTarget maxTempTarget { p.ctrl with tempTarget := pkt.u8 2 }
  let p := p.takeTemp 3 (pkt.u8 3) minTempCrit maxTempCrit { p.ctrl with tempCritical := pkt.u8 3 }
  let p := p.takeTemp 4 (pkt.u8 4) minTempCool maxTempCool { p.ctrl with tempCooldown := pkt.u8 4 }
  let p := p.takeTemp 5 (pkt.u8 5) minTempHyst maxTempHyst { p.ctrl with tempHysteresis := pkt.u8 5 }
  let p := p.takeCtx 6 (s16 (pkt.u16 3) * 1000) minAmb maxAmb { p.phy with ambientTempMC := s16 (pkt.u16 3) * 1000 }
  { p with sim := { p.sim with ctx := adjustInUse p.sim.ctx } }

section Frame
variable (p : Progress) (n : ℕ) (phy : PhyState) (ctrl : TempCtrlCfg)

theorem takePhy_reg (val lo hi : ℕ) : (p.takePhy n val lo hi phy).sim.ctx.reg = p.sim.ctx.reg := by
  rw [Progress.takePhy]
  split
  · split <;> rfl
  · rfl

theorem takeTemp_reg (val lo hi : ℕ) : (p.takeTemp n val lo hi ctrl).sim.ctx.reg = p.sim.ctx.reg := by
  rw [Progress.takeTemp]
  split
  · split <;> rfl
  · rfl

theorem takeCtx_reg (val lo hi : ℤ) : (p.takeCtx n val lo hi phy).sim.ctx.reg = p.sim.ctx.reg := by
  rw [Progress.takeCtx]
  split
  · split <;> rfl
  · rfl

theorem firstPacket_reg (s : Sim) (pkt : StreamT) : (firstPacket s pkt).sim.ctx.reg = s.ctx.reg := by
  simp only [firstPacket,takePhy_reg]

theorem adjustInUse_reg (c : SimCtx) : (adjustInUse c).reg = c.reg := by
  have hrecalc : ∀ c : SimCtx, (recalculateThermalMatrix c).reg = c.reg := by
    intro c
    simp only [recalculateThermalMatrix]
    split <;> split <;> rfl
  simp only [adjustInUse]
  split <;> split <;> simp only [hrecalc]

theorem secondPacket_reg (s : Sim) (oor : BitVec 16) (pkt : StreamT) :
    (secondPacket s oor pkt).sim.ctx.reg = s.ctx.reg := by
  simp only [secondPacket,adjustInUse_reg,takeTemp_reg,takeCtx_reg]

end Frame

/-- The packets of a `set_sim_cfg` call: the count and the two that it may read. -/
structure SimCall where
  len : ℕ
  first : StreamT
  second : StreamT

def setSimCfg (s : Sim) (call : SimCall) : Sim × ℤ :=
  if call.len < 1 then (s,-1)
  else if call.first.u8 0 = 1 ∧ call.len = 2 then
    let p := secondPacket s 0 call.second
    (p.sim,p.oor.toNat)
  else
    let p := firstPacket s call.first
    if call.len = 1 then (p.sim,p.oor.toNat)
    else
      let p := secondPacket p.sim p.oor call.second
      (p.sim,p.oor.toNat)

/-- A configuration call leaves the state of the regulation alone. -/
theorem setSimCfg_reg (s : Sim) (call : SimCall) : (setSimCfg s call).1.ctx.reg = s.ctx.reg := by
  rw [setSimCfg]
  split
  · rfl
  · split
    · exact secondPacket_reg _ _ _
    · simp only
      split
      · exact firstPacket_reg _ _
      · exact (secondPacket_reg _ _ _).trans (firstPacket_reg _ _)

end EmbedTemplate.Thermal
