import EmbedTemplate.Thermal.Regulation
import EmbedTemplate.Thermal.Startup
import Mathlib.Tactic.IntervalCases

/-! # Safety of the temperature regulation

What a tick and a regulation call do to the flags and the outputs, and from it what holds
in every reachable state: the heater is off while the controller is critical or cools
down.
-/
namespace EmbedTemplate.Thermal
open Gpio Machine

attribute [local simp] pinOut_gpioSetOutPin pinOut_gpioClearOutPin

section Tick
variable (p : Plant)

/-- The watchdog forces the outputs in this tick. -/
def Plant.fires (p : Plant) : Bool := wdtEn p.gpio && (load 8 p.gpio.wdtVal = 0 : Bool)

theorem alarm_sim : (alarm p).1.sim = p.sim := by
  simp only [alarm]
  split
  · split <;> rfl
  · rfl

theorem alarm_gpio : (alarm p).1.gpio.out = p.gpio.out ∧ (alarm p).1.gpio.wdtCfg = p.gpio.wdtCfg ∧
    (alarm p).1.gpio.wdtVal = p.gpio.wdtVal := by
  simp only [alarm]
  split
  · split <;> exact ⟨rfl,rfl,rfl⟩
  · exact ⟨rfl,rfl,rfl⟩

theorem sensor_kept (done : Bool) : (sensor p done).sim = p.sim ∧ (sensor p done).gpio = p.gpio := by
  rw [sensor]
  split <;> exact ⟨rfl,rfl⟩

theorem watchdog_sim : (watchdog p).sim = p.sim := by
  rw [watchdog]
  split
  · split <;> rfl
  · rfl

theorem watchdog_out : (watchdog p).gpio.out = if p.fires then store 8 p.gpio.out 0x02 else p.gpio.out := by
  rw [watchdog]
  by_cases hen : wdtEn p.gpio = true
  · rw [if_pos hen]
    by_cases hval : load 8 p.gpio.wdtVal = 0
    · rw [if_neg (not_not.mpr hval),if_pos (show p.fires = true by simp [Plant.fires,hen,hval])]
    · rw [if_pos hval,if_neg fun hf => hval (by simpa [Plant.fires,hen] using hf)]
  · rw [if_neg hen,if_neg (by simp [Plant.fires,hen])]

theorem tick_eq : tick p = watchdog (sensor (alarm (physics p)).1 (alarm (physics p)).2) := rfl

theorem tick_sim : (tick p).sim = (physics p).sim := by
  rw [tick_eq,watchdog_sim,(sensor_kept _ _).1,alarm_sim]

theorem tick_status : (tick p).status = p.status := by
  rw [Plant.status,tick_sim]
  rfl

theorem tick_out : (tick p).gpio.out = if p.fires then store 8 p.gpio.out 0x02 else p.gpio.out := by
  obtain ⟨hout,hcfg,hval⟩ := alarm_gpio (physics p)
  have hgpio := (sensor_kept (alarm (physics p)).1 (alarm (physics p)).2).2
  have hfires : (sensor (alarm (physics p)).1 (alarm (physics p)).2).fires = p.fires := by
    rw [Plant.fires,hgpio,wdtEn,hcfg,hval]
    rfl
  rw [tick_eq,watchdog_out,hfires,hgpio,hout]
  rfl

theorem tick_pinOut {pin : ℕ} (hpin : pin < 8) :
    (tick p).pinOut pin = if p.fires then decide (pin = 1) else p.pinOut pin := by
  rw [Plant.pinOut,GpioCtrl.pinOut,tick_out]
  split
  · interval_cases pin <;> simp
  · rfl

end Tick

section Regulation
variable (p : Plant) (temp : ℤ)

@[simp] theorem setStatus_status (status : CtrlStatus) : (p.setStatus status).status = status := rfl
@[simp] theorem setStatus_pinOut (status : CtrlStatus) (pin : ℕ) : (p.setStatus status).pinOut pin = p.pinOut pin := rfl
@[simp] theorem setStatus_ctrl (status : CtrlStatus) : (p.setStatus status).ctrl = p.ctrl := rfl
@[simp] theorem observe_status : (observe p temp).status = p.status := rfl
@[simp] theorem observe_pinOut (pin : ℕ) : (observe p temp).pinOut pin = p.pinOut pin := rfl
@[simp] theorem observe_ctrl : (observe p temp).ctrl = p.ctrl := rfl

/-- The critical state is entered or on. -/
def Plant.alarmed (p : Plant) (temp : ℤ) : Bool := temp > p.ctrl.tempCritical || p.status.isCritical

theorem alarmed_iff : p.alarmed temp = true ↔ temp > p.ctrl.tempCritical ∨ p.status.isCritical = true := by
  simp [Plant.alarmed]

theorem enterCritical_spec : (enterCritical p).status = { p.status with isCritical := true } ∧
    (enterCritical p).ctrl = p.ctrl ∧ (enterCritical p).pinOut 0 = (p.pinOut 0 && p.status.isCritical) ∧
    (enterCritical p).pinOut 2 = (p.pinOut 2 || !p.status.isCritical) := by
  rw [enterCritical]
  split
  · rename_i hcrit
    refine ⟨?_,rfl,by simp [hcrit],by simp [hcrit]⟩
    rw [← hcrit]
  · rename_i hcrit
    exact ⟨rfl,rfl,by simp [hcrit,Plant.pinOut],by simp [hcrit,Plant.pinOut]⟩

/-- The critical branch ends the call, with the heater off and fan 2 on from the entry on, or
it leaves the controller uncritical, with fan 2 off if it was critical before. -/
theorem critical_cases :
    ((critical p temp).2 = false ∧ p.alarmed temp = true ∧ p.ctrl.tempCooldown ≤ temp ∧
      (critical p temp).1.status = { p.status with isCritical := true } ∧
      (critical p temp).1.pinOut 0 = (p.pinOut 0 && p.status.isCritical) ∧
      (critical p temp).1.pinOut 2 = (p.pinOut 2 || !p.status.isCritical)) ∨
    ((critical p temp).2 = true ∧ (critical p temp).1.status = { p.status with isCritical := false } ∧
      (critical p temp).1.ctrl = p.ctrl ∧
      (critical p temp).1.pinOut 2 = (p.pinOut 2 && !p.alarmed temp) ∧
      (p.alarmed temp = true → temp < p.ctrl.tempCooldown)) := by
  obtain ⟨hstatus,hctrl,hheat,hfan⟩ := enterCritical_spec p
  rw [critical]
  by_cases hent : temp > p.ctrl.tempCritical ∨ p.status.isCritical = true
  · rw [if_pos hent]
    have hal := (alarmed_iff p temp).mpr hent
    by_cases hcool : temp < (enterCritical p).ctrl.tempCooldown
    · right
      rw [if_pos hcool]
      refine ⟨rfl,?_,hctrl,?_,fun _ => ?_⟩
      · change { (enterCritical p).status with isCritical := false } = _
        rw [hstatus]
      · simp [hal,leaveCritical,Plant.pinOut]
      · rw [hctrl] at hcool
        exact hcool
    · left
      rw [if_neg hcool]
      rw [hctrl] at hcool
      exact ⟨rfl,hal,by omega,hstatus,hheat,hfan⟩
  · right
    rw [if_neg hent]
    have hal : p.alarmed temp = false := Bool.eq_false_of_not_eq_true fun h => hent ((alarmed_iff p temp).mp h)
    have hcrit : p.status.isCritical = false := Bool.eq_false_of_not_eq_true fun h => hent (.inr h)
    refine ⟨rfl,?_,rfl,by simp [hal],fun h => ?_⟩
    · rw [← hcrit]
    · rw [hal] at h
      cases h

theorem enterCooldown_spec : (enterCooldown p).status.isCritical = p.status.isCritical ∧
    (enterCooldown p).ctrl = p.ctrl ∧ (enterCooldown p).gpio = p.gpio := by
  rw [enterCooldown]
  split <;> exact ⟨rfl,rfl,rfl⟩

theorem leaveCooldown_spec : (leaveCooldown p temp).status.isCritical = p.status.isCritical ∧
    (leaveCooldown p temp).status.isCooldown = false ∧ (leaveCooldown p temp).ctrl = p.ctrl ∧
    (leaveCooldown p temp).pinOut 2 = p.pinOut 2 := by
  rw [leaveCooldown]
  simp only
  split <;> exact ⟨rfl,rfl,rfl,by simp [Plant.pinOut,gpioClearInterrupt,Plant.setStatus]⟩

theorem coolOutputs_spec : (coolOutputs p).status = p.status ∧ (coolOutputs p).pinOut 0 = false ∧
    (coolOutputs p).pinOut 2 = p.pinOut 2 := by
  rw [coolOutputs]
  refine ⟨rfl,by simp [Plant.pinOut],?_⟩
  simp only [Plant.pinOut]
  split <;> simp

/-- The cooldown ends the call with the heater off, or it is not on. -/
theorem cooldown_cases :
    ((cooldown p temp).2 = false ∧ (cooldown p temp).1.status.isCooldown = true ∧
      (cooldown p temp).1.status.isCritical = p.status.isCritical ∧ (cooldown p temp).1.pinOut 0 = false ∧
      (cooldown p temp).1.pinOut 2 = p.pinOut 2) ∨
    ((cooldown p temp).2 = true ∧ (cooldown p temp).1.status.isCooldown = false ∧
      (cooldown p temp).1.status.isCritical = p.status.isCritical ∧ (cooldown p temp).1.ctrl = p.ctrl ∧
      (cooldown p temp).1.pinOut 2 = p.pinOut 2) := by
  obtain ⟨hcrit,hctrl,hgpio⟩ := enterCooldown_spec p
  have hpin : ∀ pin, (enterCooldown p).pinOut pin = p.pinOut pin := fun pin => by
    rw [Plant.pinOut,hgpio]
    rfl
  rw [cooldown]
  by_cases hcool : (enterCooldown p).status.isCooldown = true
  · rw [if_pos hcool]
    by_cases ht : temp < (enterCooldown p).ctrl.tempCooldown
    · right
      rw [if_pos ht]
      obtain ⟨hcrit',hoff,hctrl',hfan⟩ := leaveCooldown_spec (enterCooldown p) temp
      exact ⟨rfl,hoff,hcrit'.trans hcrit,hctrl'.trans hctrl,hfan.trans (hpin 2)⟩
    · left
      rw [if_neg ht]
      obtain ⟨hstatus,hheat,hfan⟩ := coolOutputs_spec (enterCooldown p)
      exact ⟨rfl,by rw [hstatus]; exact hcool,by rw [hstatus]; exact hcrit,hheat,hfan.trans (hpin 2)⟩
  · right
    rw [if_neg hcool]
    exact ⟨rfl,Bool.eq_false_of_not_eq_true hcool,hcrit,hctrl,hpin 2⟩

theorem updateHeating_spec : (updateHeating p temp).status.isCritical = p.status.isCritical ∧
    (updateHeating p temp).status.isCooldown = p.status.isCooldown ∧ (updateHeating p temp).gpio = p.gpio ∧
    ((updateHeating p temp).status.isHeating = true → temp < p.ctrl.tempTarget) := by
  rw [updateHeating]
  split
  · exact ⟨rfl,rfl,rfl,fun _ => by omega⟩
  · split
    · exact ⟨rfl,rfl,rfl,fun h => by cases h⟩
    · exact ⟨rfl,rfl,rfl,fun _ => by omega⟩

theorem driveOutputs_spec : (driveOutputs p temp).status = p.status ∧ (driveOutputs p temp).pinOut 2 = p.pinOut 2 ∧
    ((driveOutputs p temp).pinOut 0 = true → (driveOutputs p temp).pinOut 1 = false ∧ p.status.isHeating = true) := by
  rw [driveOutputs]
  split
  · rename_i hheat
    rw [Bool.and_eq_true] at hheat
    exact ⟨rfl,by simp [Plant.pinOut],fun _ => ⟨by simp [Plant.pinOut],hheat.1⟩⟩
  · simp only
    split <;> refine ⟨rfl,by simp [Plant.pinOut],fun h => ?_⟩ <;> simp [Plant.pinOut] at h

/-- What a regulation call can do: it ends critical, with the heater off; it ends cooling
down, with the heater off; or it ends in normal operation, where the heater is on below
the target only, with fan 1 off. -/
theorem regulation_cases :
    let q := runTemperatureRegulation p
    (p.alarmed p.temp = true ∧ p.ctrl.tempCooldown ≤ p.temp ∧ q.status.isCritical = true ∧
      q.pinOut 0 = (p.pinOut 0 && p.status.isCritical) ∧ q.pinOut 2 = (p.pinOut 2 || !p.status.isCritical)) ∨
    (q.status.isCritical = false ∧ q.pinOut 2 = (p.pinOut 2 && !p.alarmed p.temp) ∧
      (p.alarmed p.temp = true → p.temp < p.ctrl.tempCooldown) ∧
      (q.status.isCooldown = true ∧ q.pinOut 0 = false ∨
        q.status.isCooldown = false ∧ (q.pinOut 0 = true → q.pinOut 1 = false ∧ p.temp < p.ctrl.tempTarget))) := by
  intro q
  obtain ⟨hend,hal,hcool,hstatus,hheat,hfan⟩ | ⟨hon,hstatus,hctrl,hfan,hlow⟩ := critical_cases (observe p p.temp) p.temp
  · have hq : q = (critical (observe p p.temp) p.temp).1 := by simp [q,runTemperatureRegulation,hend]
    rw [hq]
    exact .inl ⟨hal,hcool,by rw [hstatus],hheat,hfan⟩
  · right
    have hcrit : (critical (observe p p.temp) p.temp).1.status.isCritical = false := by rw [hstatus]
    obtain ⟨hend,hoff,hcrit',hheat,hfan'⟩ | ⟨hon',hoff,hcrit',hctrl',hfan'⟩ :=
      cooldown_cases (critical (observe p p.temp) p.temp).1 p.temp
    · have hq : q = (cooldown (critical (observe p p.temp) p.temp).1 p.temp).1 := by
        simp [q,runTemperatureRegulation,hon,hend]
      rw [hq]
      exact ⟨hcrit'.trans hcrit,hfan'.trans hfan,hlow,.inl ⟨hoff,hheat⟩⟩
    · have hq : q = driveOutputs (updateHeating (cooldown (critical (observe p p.temp) p.temp).1 p.temp).1 p.temp)
          p.temp := by simp [q,runTemperatureRegulation,hon,hon']
      obtain ⟨hstatus'',hfan'',hheat''⟩ := driveOutputs_spec
        (updateHeating (cooldown (critical (observe p p.temp) p.temp).1 p.temp).1 p.temp) p.temp
      obtain ⟨hcrit'',hcool'',hgpio,hheated⟩ :=
        updateHeating_spec (cooldown (critical (observe p p.temp) p.temp).1 p.temp).1 p.temp
      rw [hq,hstatus'']
      refine ⟨hcrit''.trans (hcrit'.trans hcrit),?_,hlow,.inr ⟨hcool''.trans hoff,fun h => ?_⟩⟩
      · rw [hfan'',Plant.pinOut,hgpio]
        exact hfan'.trans hfan
      · obtain ⟨hfan1,hheating⟩ := hheat'' h
        have hlt := hheated hheating
        rw [hctrl',hctrl] at hlt
        exact ⟨hfan1,hlt⟩

end Regulation

/-- While the controller is critical or cools down the heater is off. -/
def Guarded (p : Plant) : Prop := p.status.isCritical = true ∨ p.status.isCooldown = true → p.pinOut 0 = false

theorem Guarded.regulation {p : Plant} (h : Guarded p) : Guarded (runTemperatureRegulation p) := by
  obtain ⟨_,_,_,hheat,_⟩ | ⟨hcrit,_,_,⟨_,hheat⟩ | ⟨hcool,_⟩⟩ := regulation_cases p
  · intro _
    rw [hheat]
    cases hcrit : p.status.isCritical
    · exact Bool.and_false _
    · rw [h (.inl hcrit)]
      rfl
  · exact fun _ => hheat
  · rintro (hc | hc)
    · rw [hcrit] at hc
      cases hc
    · rw [hcool] at hc
      cases hc

theorem Guarded.tick {p : Plant} (h : Guarded p) : Guarded (tick p) := by
  intro hon
  rw [tick_status] at hon
  rw [tick_pinOut p (by decide),h hon]
  split <;> rfl

theorem Guarded.step {p q : Plant} {label : PlantLabel} (h : Guarded p) (hs : plantStep p label = some q) :
    Guarded q := by
  cases label <;> cases hs
  case tick => exact h.tick
  case regulate => exact h.regulation
  case kick =>
    intro hon
    rw [Plant.pinOut,pinOut_gpioWdtKick]
    exact h hon
  case setCfg call =>
    intro hon
    rw [Plant.status,setSimCfg_reg] at hon
    exact h hon
  case restart =>
    rw [simSuspend]
    split
    · rw [simStart]
      split <;> exact h
    · rintro (hon | hon) <;> cases hon

theorem guarded_init (sim : Sim) : Guarded (Plant.init sim) := by
  intro _
  show initRegs.pinOut 0 = false
  decide

/-- The heater is off in every reachable critical or cooling state. -/
theorem reachable_guarded (sim : Sim) {labels : List PlantLabel} {p : Plant}
    (hp : exec plantStep (Plant.init sim) labels = some p) : Guarded p :=
  Machine.reachable plantStep (fun _ _ _ h hs => Guarded.step h hs) (guarded_init sim) hp

/-- Right behind a regulation call the heater is on only in normal operation, below the
target and with fan 1 off, and it is off while the controller is critical or cools down. -/
theorem regulation_safe (calls : List SimCall) {labels : List PlantLabel} {p q : Plant}
    (hp : exec plantStep (Plant.init (startUp calls)) labels = some p) (hq : plantStep p .regulate = some q) :
    (q.pinOut 0 = true → q.status.isCritical = false ∧ q.status.isCooldown = false ∧ q.pinOut 1 = false ∧
      p.temp < p.ctrl.tempTarget) ∧
    (q.status.isCritical = true ∨ q.status.isCooldown = true → q.pinOut 0 = false) := by
  have hguard : Guarded q := (reachable_guarded _ hp).step hq
  refine ⟨fun hon => ?_,hguard⟩
  cases hq
  obtain ⟨_,_,hcrit,_⟩ | ⟨hcrit,_,_,⟨_,hheat⟩ | ⟨hcool,hlow⟩⟩ := regulation_cases p
  · rw [hguard (.inl hcrit)] at hon
    cases hon
  · rw [hheat] at hon
    cases hon
  · exact ⟨hcrit,hcool,hlow hon⟩

theorem regulation_safe_once : ∃ p q, exec plantStep (Plant.init (startUp [])) [.tick] = some p ∧
    plantStep p .regulate = some q ∧ q.pinOut 0 = true ∧ (p.temp < p.ctrl.tempTarget) := by
  have hon : (runTemperatureRegulation (tick (Plant.init (startUp [])))).pinOut 0 = true := by decide +kernel
  exact ⟨_,_,rfl,rfl,hon,((@regulation_safe [] [.tick] _ _ rfl rfl).1 hon).2.2.2⟩

end EmbedTemplate.Thermal
