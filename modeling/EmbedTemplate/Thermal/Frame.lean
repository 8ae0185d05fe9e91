import EmbedTemplate.Thermal.Safety

/-! # What the steps keep

A regulation call keeps the configuration, the plant, the sensor register and the watchdog.
A tick leaves the temperature of the board in the sensor register and counts the watchdog
down.
-/
namespace EmbedTemplate.Thermal
open Gpio Machine Bytes

section Frame
variable (p : Plant)

/-- What a regulation call does not write: the configuration, the plant, the sensor register
and the watchdog. -/
def Plant.frame : TempRegCfg × PhyState × UnitStatus × ℤ × ℕ × BitVec 32 × BitVec 32 × BitVec 32 :=
  (p.sim.cfg,p.sim.ctx.phy,p.sim.ctx.status,p.sim.ctx.tempMC,p.msCounter,p.gpio.inp,p.gpio.wdtCfg,p.gpio.wdtVal)

def Plant.window : ℕ := p.sim.ctx.reg.timeWindow

/-- What a step that keeps the frame keeps. -/
structure Kept (p q : Plant) : Prop where
  cfg : q.sim.cfg = p.sim.cfg
  phy : q.sim.ctx.phy = p.sim.ctx.phy
  units : q.sim.ctx.status = p.sim.ctx.status
  tempMC : q.sim.ctx.tempMC = p.sim.ctx.tempMC
  count : q.msCounter = p.msCounter
  inp : q.gpio.inp = p.gpio.inp
  wdtCfg : q.gpio.wdtCfg = p.gpio.wdtCfg
  wdtVal : q.gpio.wdtVal = p.gpio.wdtVal

theorem kept_of_frame {p q : Plant} (h : q.frame = p.frame) : Kept p q := by
  simp only [Plant.frame,Prod.mk.injEq] at h
  obtain ⟨hcfg,hphy,hunits,htemp,hcount,hinp,hwdtCfg,hwdtVal⟩ := h
  exact ⟨hcfg,hphy,hunits,htemp,hcount,hinp,hwdtCfg,hwdtVal⟩

theorem Kept.ctrl {p q : Plant} (h : Kept p q) : q.ctrl = p.ctrl := congrArg TempRegCfg.ctrl h.cfg

theorem Kept.temp {p q : Plant} (h : Kept p q) : q.temp = p.temp := by rw [Plant.temp,gpioGetAllInPins,h.inp]; rfl

theorem Kept.enabled {p q : Plant} (h : Kept p q) : wdtEn q.gpio = wdtEn p.gpio := by rw [wdtEn,h.wdtCfg]; rfl

theorem gpioSetOutPin_frame (r : GpioCtrl) (pin : ℕ) : (gpioSetOutPin r pin).inp = r.inp ∧
    (gpioSetOutPin r pin).wdtCfg = r.wdtCfg ∧ (gpioSetOutPin r pin).wdtVal = r.wdtVal := by
  rw [gpioSetOutPin]
  simp only
  split <;> exact ⟨rfl,rfl,rfl⟩

theorem gpioClearOutPin_frame (r : GpioCtrl) (pin : ℕ) : (gpioClearOutPin r pin).inp = r.inp ∧
    (gpioClearOutPin r pin).wdtCfg = r.wdtCfg ∧ (gpioClearOutPin r pin).wdtVal = r.wdtVal := by
  rw [gpioClearOutPin]
  simp only
  split <;> exact ⟨rfl,rfl,rfl⟩

theorem clearStatus_frame (r : GpioCtrl) (mask : BitVec 32) : (clearStatus r mask).inp = r.inp ∧
    (clearStatus r mask).wdtCfg = r.wdtCfg ∧ (clearStatus r mask).wdtVal = r.wdtVal := by
  rw [clearStatus]
  simp only
  split <;> exact ⟨rfl,rfl,rfl⟩

theorem critical_frame (temp : ℤ) : (critical p temp).1.frame = p.frame ∧ (critical p temp).1.window = p.window := by
  have henter : (enterCritical p).frame = p.frame ∧ (enterCritical p).window = p.window := by
    rw [enterCritical]
    split
    · exact ⟨rfl,rfl⟩
    · simp [Plant.frame,Plant.window,Plant.setStatus,gpioSetOutPin_frame,gpioClearOutPin_frame]
  have hleave : ∀ p : Plant, (leaveCritical p).frame = p.frame ∧ (leaveCritical p).window = p.window := by
    intro p
    simp [leaveCritical,Plant.frame,Plant.window,Plant.setStatus,gpioClearOutPin_frame]
  rw [critical]
  split
  · simp only
    split
    · exact ⟨(hleave _).1.trans henter.1,(hleave _).2.trans henter.2⟩
    · exact henter
  · exact ⟨rfl,rfl⟩

theorem cooldown_frame (temp : ℤ) : (cooldown p temp).1.frame = p.frame ∧ (cooldown p temp).1.window = p.window := by
  have henter : (enterCooldown p).frame = p.frame ∧ (enterCooldown p).window = p.window := by
    rw [enterCooldown]
    split <;> exact ⟨rfl,rfl⟩
  have hleave : ∀ p : Plant, (leaveCooldown p temp).frame = p.frame ∧ (leaveCooldown p temp).window = p.window := by
    intro p
    rw [leaveCooldown]
    simp only
    split <;> simp [Plant.frame,Plant.window,Plant.setStatus,gpioClearInterrupt,gpioClearOutPin_frame,clearStatus_frame]
  have hcool : ∀ p : Plant, (coolOutputs p).frame = p.frame ∧ (coolOutputs p).window = p.window := by
    intro p
    rw [coolOutputs]
    split <;> simp [Plant.frame,Plant.window,gpioSetOutPin_frame,gpioClearOutPin_frame]
  rw [cooldown]
  split
  · split
    · exact ⟨(hleave _).1.trans henter.1,(hleave _).2.trans henter.2⟩
    · exact ⟨(hcool _).1.trans henter.1,(hcool _).2.trans henter.2⟩
  · exact henter

theorem driveOutputs_frame (temp : ℤ) : (driveOutputs (updateHeating p temp) temp).frame = p.frame ∧
    (driveOutputs (updateHeating p temp) temp).window = p.window := by
  have hheat : (updateHeating p temp).frame = p.frame ∧ (updateHeating p temp).window = p.window := by
    rw [updateHeating]
    split
    · exact ⟨rfl,rfl⟩
    · split <;> exact ⟨rfl,rfl⟩
  have hdrive : ∀ p : Plant, (driveOutputs p temp).frame = p.frame ∧ (driveOutputs p temp).window = p.window := by
    intro p
    rw [driveOutputs]
    split
    · simp [Plant.frame,Plant.window,gpioSetOutPin_frame,gpioClearOutPin_frame]
    · simp only
      split <;> simp [Plant.frame,Plant.window,gpioSetOutPin_frame,gpioClearOutPin_frame]
  exact ⟨(hdrive _).1.trans hheat.1,(hdrive _).2.trans hheat.2⟩

theorem regulation_frame : (runTemperatureRegulation p).frame = p.frame ∧
    (runTemperatureRegulation p).window = u32 (p.window + 1) := by
  obtain ⟨hframe,hwindow⟩ := critical_frame (observe p p.temp) p.temp
  have hobserve : (observe p p.temp).frame = p.frame ∧ (observe p p.temp).window = u32 (p.window + 1) := ⟨rfl,rfl⟩
  rw [runTemperatureRegulation]
  simp only
  split
  · obtain ⟨hframe',hwindow'⟩ := cooldown_frame (critical (observe p p.temp) p.temp).1 p.temp
    split
    · obtain ⟨hframe'',hwindow''⟩ := driveOutputs_frame (cooldown (critical (observe p p.temp) p.temp).1 p.temp).1 p.temp
      constructor
      · rw [hframe'',hframe',hframe,hobserve.1]
      · rw [hwindow'',hwindow',hwindow,hobserve.2]
    · constructor
      · rw [hframe',hframe,hobserve.1]
      · rw [hwindow',hwindow,hobserve.2]
  · exact ⟨hframe.trans hobserve.1,hwindow.trans hobserve.2⟩

end Frame

section Tick
variable {p : Plant}

/-- The sensor register shows the temperature of the board. -/
def Shown (p : Plant) : Prop := p.temp = sensorRaw p.sim.ctx.tempMC - sensorOffset

theorem toNat_load (v : BitVec 32) : (load 8 v).toNat = v.toNat % 2 ^ 8 := by
  rw [load,BitVec.toNat_and,show (bm 8).toNat = 2 ^ 8 - 1 from rfl,Nat.and_two_pow_sub_one_eq_mod]

theorem load_store_sensor (reg : BitVec 32) {v : ℤ} (hlow : 0 ≤ v) (hhigh : v ≤ 255) :
    ((load 8 (store 8 reg (BitVec.ofInt 32 v))).toNat : ℤ) = v := by
  obtain ⟨n,rfl⟩ := Int.eq_ofNat_of_zero_le hlow
  rw [load_store,toNat_load,BitVec.ofInt_natCast,BitVec.toNat_ofNat]
  omega

theorem tick_inp : load 8 (tick p).gpio.inp = load 8 (physics p).gpio.inp := by
  have hwatch : ∀ p : Plant, (watchdog p).gpio.inp = p.gpio.inp := by
    intro p
    rw [watchdog]
    split
    · split <;> rfl
    · rfl
  rw [tick_eq,hwatch,(sensor_kept _ _).2,alarm]
  simp only
  split
  · split
    · exact load_storeBit _ _ (Nat.le_refl 8)
    · rfl
  · exact load_storeBit _ _ (Nat.le_refl 8)

theorem tick_shown : Shown (tick p) := by
  have hraw : ∀ temp, 0 ≤ sensorRaw temp ∧ sensorRaw temp ≤ 255 := by
    intro temp
    rw [sensorRaw]
    split <;> split <;> omega
  rw [Shown,Plant.temp,gpioGetAllInPins,tick_inp,tick_sim]
  rw [show (physics p).gpio.inp = store 8 p.gpio.inp (BitVec.ofInt 32 (sensorRaw (physics p).sim.ctx.tempMC)) from rfl]
  rw [load_store_sensor _ (hraw _).1 (hraw _).2]

theorem load_store_pred {v : BitVec 32} (hv : load 8 v ≠ 0) :
    (load 8 (store 8 v (load 8 v - 1))).toNat = (load 8 v).toNat - 1 := by
  have hle : (load 8 v).toNat < 2 ^ 8 := by
    rw [toNat_load]
    exact Nat.mod_lt _ (by decide)
  have hpos : (load 8 v).toNat ≠ 0 := fun h => hv (BitVec.eq_of_toNat_eq h)
  rw [load_store,toNat_load,BitVec.toNat_sub,show (1 : BitVec 32).toNat = 1 from rfl]
  omega

theorem watchdog_wdt : (watchdog p).gpio.wdtCfg = p.gpio.wdtCfg ∧
    (wdtEn p.gpio = true → (load 8 (watchdog p).gpio.wdtVal).toNat = (load 8 p.gpio.wdtVal).toNat - 1) := by
  rw [watchdog]
  split
  · split
    · exact ⟨rfl,fun _ => load_store_pred ‹_›⟩
    · rename_i hval
      refine ⟨rfl,fun _ => ?_⟩
      rw [not_not] at hval
      change (load 8 p.gpio.wdtVal).toNat = _
      rw [hval]
      rfl
  · exact ⟨rfl,fun hen => absurd hen ‹_›⟩

theorem tick_wdt : wdtEn (tick p).gpio = wdtEn p.gpio ∧
    (wdtEn p.gpio = true → (load 8 (tick p).gpio.wdtVal).toNat = (load 8 p.gpio.wdtVal).toNat - 1) := by
  obtain ⟨_,hcfg,hval⟩ := alarm_gpio (physics p)
  have hgpio := (sensor_kept (alarm (physics p)).1 (alarm (physics p)).2).2
  obtain ⟨hcfg',hval'⟩ := @watchdog_wdt (sensor (alarm (physics p)).1 (alarm (physics p)).2)
  rw [hgpio,hcfg] at hcfg'
  rw [hgpio,wdtEn,hcfg,hval] at hval'
  exact ⟨congrArg (fun v : BitVec 32 => v.getLsbD 8) hcfg',hval'⟩

end Tick

section Calm
variable {p : Plant}

/-- A calm regulation call changes neither fan 2 nor the critical state. -/
theorem regulation_calm (hcalm : p.status.isCritical = false) (hfan : p.pinOut 2 = false)
    (htemp : p.temp ≤ p.ctrl.tempCritical) :
    (runTemperatureRegulation p).status.isCritical = false ∧ (runTemperatureRegulation p).pinOut 2 = false := by
  obtain ⟨hal,_⟩ | ⟨hcrit,hfan',_⟩ := regulation_cases p
  · rw [alarmed_iff] at hal
    obtain hal | hal := hal
    · omega
    · rw [hcalm] at hal
      cases hal
  · rw [hfan,Bool.false_and] at hfan'
    exact ⟨hcrit,hfan'⟩

theorem calm_regulations (hcalm : p.status.isCritical = false) (hfan : p.pinOut 2 = false)
    (htemp : p.temp ≤ p.ctrl.tempCritical) (n : ℕ) (hn : p.window + n < 2 ^ 32) :
    ∃ q, exec plantStep p (List.replicate n .regulate) = some q ∧ q.frame = p.frame ∧ q.window = p.window + n ∧
      q.status.isCritical = false ∧ q.pinOut 2 = false := by
  induction n generalizing p with
  | zero => exact ⟨p,rfl,rfl,rfl,hcalm,hfan⟩
  | succ n ih =>
    obtain ⟨hframe,hwindow⟩ := regulation_frame p
    obtain ⟨hcalm',hfan'⟩ := regulation_calm hcalm hfan htemp
    have htemp' : (runTemperatureRegulation p).temp ≤ (runTemperatureRegulation p).ctrl.tempCritical := by
      rw [(kept_of_frame hframe).temp,(kept_of_frame hframe).ctrl]
      exact htemp
    rw [u32,Nat.mod_eq_of_lt (by omega)] at hwindow
    obtain ⟨q,hq,hqframe,hqwindow,hq'⟩ := ih hcalm' hfan' htemp' (by omega)
    exact ⟨q,hq,hqframe.trans hframe,by rw [hqwindow,hwindow]; omega,hq'⟩

end Calm

end EmbedTemplate.Thermal
