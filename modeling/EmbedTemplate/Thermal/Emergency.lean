import EmbedTemplate.Thermal.Frame

/-! # The emergency fan

Fan 2 is written on the edges of the critical state only, so it follows that state as long
as neither the watchdog nor a suspension intervenes in it.
-/
namespace EmbedTemplate.Thermal
open Gpio Machine Bytes

section Runaway
variable {p : Plant}

/-- A fast heater on a light board in a hot room, with the default target and low limits. -/
def hotCall : SimCall where
  len := 2
  first := ⟨0x1F40_3A98_00C8_021F⟩
  second := ⟨0x0028_021E_A000_057A⟩

def hotPhy : PhyState := ⟨2,200,15000,8000,5,40000⟩

/-- Fan 1 has failed: the heater runs away and only fan 2 could cool. -/
def fan1Lost : UnitStatus := ⟨false,true,false⟩

theorem energyState_fan1Lost {gpio : GpioCtrl} (hfan : gpio.pinOut 2 = false) {temp : ℤ} (hlow : 40000 ≤ temp)
    (hhigh : temp ≤ 215000) :
    (energyState gpio hotPhy fan1Lost temp).energyBalance = 8000 - (temp - 40000) / 15000 := by
  have hdiv : (temp - 40000).tdiv 15000 = (temp - 40000) / 15000 := Int.tdiv_eq_ediv_of_nonneg (by omega)
  have hcool : i16 ((temp - 40000) / 15000) = (temp - 40000) / 15000 := i16_of_fits (by omega) (by omega)
  have hheat : i16 8000 = 8000 := i16_of_fits (by decide) (by decide)
  simp only [energyState,hotPhy,fan1Lost,hfan,Bool.or_true,Bool.not_false,Bool.and_self,if_true,Bool.not_true,
    Bool.and_false,Bool.false_and,Bool.false_eq_true,if_false,Nat.cast_ofNat,zero_add,hdiv,hcool]
  rw [hheat,i16_of_fits (by omega) (by omega)]

/-- A tick with fan 1 lost warms the board by 39 or 40 mC, up to the limit of the sensor. -/
theorem tick_warms (hphy : p.sim.ctx.phy = hotPhy)
    (hunits : toggleFan1 { p with msCounter := u32 (p.msCounter + 1) } = fan1Lost) (hfan : p.pinOut 2 = false)
    (hlow : 40000 ≤ p.sim.ctx.tempMC) (hhigh : p.sim.ctx.tempMC ≤ 215000) :
    min (p.sim.ctx.tempMC + 39) 215000 ≤ (tick p).sim.ctx.tempMC ∧ (tick p).sim.ctx.tempMC ≤ p.sim.ctx.tempMC + 40 ∧
      (tick p).sim.ctx.tempMC ≤ 215000 := by
  have henergy := energyState_fan1Lost hfan hlow hhigh
  have htick : (tick p).sim.ctx.tempMC =
      newTemp (energyState p.gpio hotPhy fan1Lost p.sim.ctx.tempMC) hotPhy p.sim.ctx.tempMC := by
    rw [tick_sim,← hunits,← hphy]
    rfl
  have hdiv : (8000 - (p.sim.ctx.tempMC - 40000) / 15000).tdiv 200 =
      (8000 - (p.sim.ctx.tempMC - 40000) / 15000) / 200 := Int.tdiv_eq_ediv_of_nonneg (by omega)
  rw [htick,newTemp,henergy]
  simp only [hotPhy,Nat.cast_ofNat,hdiv]
  split <;> split <;> omega

/-- However hard it cools, a tick takes at most 164 mC off the board. -/
theorem tick_cools_little (hphy : p.sim.ctx.phy = hotPhy) (hhigh : p.sim.ctx.tempMC ≤ 215000) :
    p.sim.ctx.tempMC - 164 ≤ (tick p).sim.ctx.tempMC := by
  have hloss : ∀ x : ℤ, -32768 ≤ x → -164 ≤ x.tdiv 200 := by
    intro x hx
    have hrem := Int.tmod_lt_of_pos x (show (0 : ℤ) < 200 by decide)
    have hdiv := Int.mul_tdiv_add_tmod x 200
    omega
  obtain ⟨state,hstate,htick⟩ : ∃ state : SimState, -32768 ≤ state.energyBalance ∧
      (tick p).sim.ctx.tempMC = newTemp state hotPhy p.sim.ctx.tempMC := by
    refine ⟨energyState p.gpio p.sim.ctx.phy (toggleFan1 { p with msCounter := u32 (p.msCounter + 1) })
      p.sim.ctx.tempMC,BitVec.le_toInt _,?_⟩
    rw [tick_sim,← hphy]
    rfl
  have hbalance := hloss _ hstate
  rw [htick,newTemp]
  simp only [hotPhy,Nat.cast_ofNat]
  split_ifs <;> omega

/-- The board heats up unattended, with fan 1 lost and the watchdog running out. -/
structure Runaway (p : Plant) (low : ℤ) (timer : ℕ) : Prop where
  phy : p.sim.ctx.phy = hotPhy
  units : p.sim.ctx.status = fan1Lost
  window : p.window = 1025
  ctrl : p.ctrl = ⟨125,160,30,2⟩
  calm : p.status.isCritical = false
  fan : p.pinOut 2 = false
  enabled : wdtEn p.gpio = true
  timer : (load 8 p.gpio.wdtVal).toNat ≤ timer
  low : low ≤ p.sim.ctx.tempMC
  high : p.sim.ctx.tempMC ≤ 215000
  shown : Shown p

theorem Runaway.warms {low : ℤ} {timer : ℕ} (h : Runaway p low timer) (hlow : 40000 ≤ low) (hhigh : low + 39 ≤ 215000) :
    Runaway (tick p) (low + 39) (timer - 1) := by
  have hunits : toggleFan1 { p with msCounter := u32 (p.msCounter + 1) } = fan1Lost := by
    have hwindow : p.sim.ctx.reg.timeWindow = 1025 := h.window
    simp [toggleFan1,hwindow,h.units]
  obtain ⟨hwarm,_,hlimit⟩ := tick_warms h.phy hunits h.fan (hlow.trans h.low) h.high
  have hkept := h.low
  have htimer := h.timer
  constructor
  case phy => rw [tick_sim,← h.phy]; rfl
  case units => rw [tick_sim,← hunits]; rfl
  case window => rw [Plant.window,tick_sim]; exact h.window
  case ctrl => rw [Plant.ctrl,tick_sim]; exact h.ctrl
  case calm => rw [tick_status]; exact h.calm
  case fan =>
    rw [tick_pinOut p (by decide),h.fan]
    split <;> rfl
  case enabled => rw [tick_wdt.1]; exact h.enabled
  case timer => rw [tick_wdt.2 h.enabled]; omega
  case low => omega
  case high => exact hlimit
  case shown => exact tick_shown

theorem Runaway.ticks {low : ℤ} {timer : ℕ} (h : Runaway p low timer) (hlow : 40000 ≤ low) (n : ℕ)
    (hhigh : low + 39 * n ≤ 215000) :
    ∃ q, exec plantStep p (List.replicate n .tick) = some q ∧ Runaway q (low + 39 * n) (timer - n) := by
  induction n generalizing p low timer with
  | zero => exact ⟨p,rfl,by simpa using h⟩
  | succ n ih =>
    obtain ⟨q,hq,hrun⟩ := ih (h.warms hlow (by omega)) (by omega) (by omega)
    refine ⟨q,hq,?_⟩
    convert hrun using 1
    · push_cast
      ring
    · omega

/-- The board heats up through a failure of fan 1 in the full window, the controller gets
critical, and the watchdog that has run out in between turns fan 2 off. -/
def hotLabels : List PlantLabel :=
  List.replicate 4 .tick ++ (List.replicate 1024 .regulate ++ (.tick :: .regulate ::
    (List.replicate 3110 .tick ++ [.regulate,.tick])))

/-- The heating up alone. -/
def heatingLabels : List PlantLabel :=
  List.replicate 4 .tick ++ (List.replicate 1024 .regulate ++ [.tick,.regulate]) ++ List.replicate 3110 .tick

deriving instance DecidableEq for PhyState, UnitStatus, TempCtrlCfg

/-- What the failure of fan 1 in the full window and the regulation call behind it lead to. -/
theorem runaway_of_failure {q : Plant} (hphy : q.sim.ctx.phy = hotPhy) (hunits : q.sim.ctx.status = ⟨false,false,false⟩)
    (htemp : q.sim.ctx.tempMC = 40000) (hctrl : q.ctrl = ⟨125,160,30,2⟩) (hcount : q.msCounter = 4)
    (hen : wdtEn q.gpio = true) (hwindow : q.window = 1024) (hcalm : q.status.isCritical = false)
    (hfan : q.pinOut 2 = false) : Runaway (runTemperatureRegulation (tick q)) 40039 255 := by
  have hfails : toggleFan1 { q with msCounter := u32 (q.msCounter + 1) } = fan1Lost := by
    have hw : q.sim.ctx.reg.timeWindow = 1024 := hwindow
    simp [toggleFan1,hw,hcount,hphy,hunits,hotPhy,fan1Lost,u32]
  obtain ⟨hlow,hhigh,hlimit⟩ := tick_warms hphy hfails hfan (by omega) (by omega)
  have hcalm' : (tick q).status.isCritical = false := by rw [tick_status]; exact hcalm
  have hfan' : (tick q).pinOut 2 = false := by
    rw [tick_pinOut q (by decide),hfan]
    split <;> rfl
  have hctrl' : (tick q).ctrl = ⟨125,160,30,2⟩ := by rw [Plant.ctrl,tick_sim]; exact hctrl
  have hshown : (tick q).temp ≤ (tick q).ctrl.tempCritical := by
    rw [(tick_shown : Shown (tick q)),hctrl',sensorRaw,sensorOffset,Int.tdiv_eq_ediv_of_nonneg (by omega)]
    change _ ≤ (160 : ℤ)
    split <;> split <;> omega
  obtain ⟨hframe,hcounted⟩ := regulation_frame (tick q)
  obtain ⟨hcalm'',hfan''⟩ := regulation_calm hcalm' hfan' hshown
  have hkept := kept_of_frame hframe
  constructor
  case phy => rw [hkept.phy,tick_sim,← hphy]; rfl
  case units => rw [hkept.units,tick_sim,← hfails]; rfl
  case window =>
    have hw : (physics q).sim.ctx.reg.timeWindow = 1024 := hwindow
    rw [hcounted,Plant.window,tick_sim,hw]
    rfl
  case ctrl => exact hkept.ctrl.trans hctrl'
  case calm => exact hcalm''
  case fan => exact hfan''
  case enabled => exact hkept.enabled.trans (tick_wdt.1.trans hen)
  case timer =>
    rw [toNat_load]
    omega
  case low => rw [hkept.tempMC]; omega
  case high => rw [hkept.tempMC]; exact hlimit
  case shown =>
    rw [Shown,hkept.temp,hkept.tempMC]
    exact tick_shown

/-- The plant in which fan 1 is about to fail, but for the window. -/
theorem failure_ahead : ∃ p, exec plantStep (Plant.init (startUp [hotCall])) (List.replicate 4 .tick) = some p ∧
    p.sim.ctx.phy = hotPhy ∧ p.sim.ctx.status = ⟨false,false,false⟩ ∧ p.sim.ctx.tempMC = 40000 ∧
    p.ctrl = ⟨125,160,30,2⟩ ∧ p.msCounter = 4 ∧ wdtEn p.gpio = true ∧ p.window = 0 ∧
    p.status.isCritical = false ∧ p.pinOut 2 = false ∧ p.temp = 40 :=
  ⟨_,rfl,by decide +kernel⟩

/-- Behind the failure of fan 1 and the regulation call that follows it the board runs away. -/
theorem runaway_starts : ∃ p q, exec plantStep (Plant.init (startUp [hotCall])) (List.replicate 4 .tick) = some p ∧
    exec plantStep p (List.replicate 1024 .regulate) = some q ∧ q.status.isCritical = false ∧
    Runaway (runTemperatureRegulation (tick q)) 40039 255 := by
  obtain ⟨p,hp,hphy,hunits,htempMC,hctrl,hcount,hen,hwindow,hcalm,hfan,htemp⟩ := failure_ahead
  obtain ⟨q,hq,hframe,hwindow',hcalm',hfan'⟩ := calm_regulations hcalm hfan (by rw [htemp,hctrl]; decide) 1024
    (by omega)
  have hkept := kept_of_frame hframe
  exact ⟨p,q,hp,hq,hcalm',runaway_of_failure (hkept.phy.trans hphy) (hkept.units.trans hunits)
    (hkept.tempMC.trans htempMC) (hkept.ctrl.trans hctrl) (hkept.count.trans hcount) (hkept.enabled.trans hen)
    (by omega) hcalm' hfan'⟩

/-- A hot board is critical behind the next regulation call. -/
theorem Runaway.critical {low : ℤ} {timer : ℕ} (h : Runaway p low timer) (hlow : 161000 ≤ low) :
    (runTemperatureRegulation p).status.isCritical = true := by
  have hhot : 161000 ≤ p.sim.ctx.tempMC := hlow.trans h.low
  have htemp : 160 < p.temp := by
    rw [h.shown,sensorRaw,sensorOffset,Int.tdiv_eq_ediv_of_nonneg (by omega)]
    split <;> split <;> omega
  obtain ⟨_,_,hcrit,_⟩ | ⟨_,_,hcool,_⟩ := regulation_cases p
  · exact hcrit
  · have hal : p.temp < p.ctrl.tempCooldown := hcool ((alarmed_iff p _).mpr (.inl (by rw [h.ctrl]; exact htemp)))
    rw [h.ctrl] at hal
    change p.temp < (30 : ℤ) at hal
    omega

/-- A hot board that the watchdog has given up: the next regulation call turns fan 2 on, and
the next tick turns it off again. -/
theorem Runaway.unfollowed {low : ℤ} (h : Runaway p low 0) (hlow : 161000 ≤ low) :
    (runTemperatureRegulation (tick (runTemperatureRegulation p))).pinOut 2 = false ∧
      (runTemperatureRegulation (tick (runTemperatureRegulation p))).status.isCritical = true := by
  have hhot : 161000 ≤ p.sim.ctx.tempMC := hlow.trans h.low
  obtain ⟨hframe,_⟩ := regulation_frame p
  have hkept := kept_of_frame hframe
  have hcrit := h.critical hlow
  have hfires : (runTemperatureRegulation p).fires = true := by
    have hzero : load 8 p.gpio.wdtVal = 0 := BitVec.eq_of_toNat_eq (Nat.le_zero.mp h.timer)
    rw [Plant.fires,hkept.enabled,h.enabled,hkept.wdtVal,hzero]
    rfl
  have hcrit' : (tick (runTemperatureRegulation p)).status.isCritical = true := by rw [tick_status]; exact hcrit
  have hfan : (tick (runTemperatureRegulation p)).pinOut 2 = false := by
    rw [tick_pinOut _ (by decide),hfires]
    rfl
  have hstill : (30 : ℤ) ≤ (tick (runTemperatureRegulation p)).temp := by
    have hwarm := @tick_cools_little (runTemperatureRegulation p) (hkept.phy.trans h.phy) (by rw [hkept.tempMC]; exact h.high)
    rw [hkept.tempMC] at hwarm
    rw [(tick_shown : Shown (tick (runTemperatureRegulation p))),sensorRaw,sensorOffset,
      Int.tdiv_eq_ediv_of_nonneg (by omega)]
    split <;> split <;> omega
  have hctrl : (tick (runTemperatureRegulation p)).ctrl = ⟨125,160,30,2⟩ := by
    rw [Plant.ctrl,tick_sim]
    exact hkept.ctrl.trans h.ctrl
  -- the second one finds the critical state and writes no output
  obtain ⟨_,_,hcrit'',_,hfan'⟩ | ⟨_,_,hcool,_⟩ := regulation_cases (tick (runTemperatureRegulation p))
  · rw [hfan,hcrit'] at hfan'
    exact ⟨hfan',hcrit''⟩
  · have hal := hcool ((alarmed_iff _ _).mpr (.inr hcrit'))
    rw [hctrl] at hal
    change _ < (30 : ℤ) at hal
    omega

end Runaway

/-- Neither a watchdog trip nor a suspension meets a critical controller. -/
def Unforced (p : Plant) : PlantLabel → Prop
  | .tick => p.fires = true → p.status.isCritical = false
  | .restart => p.status.isCritical = false
  | _ => True

instance (p : Plant) (label : PlantLabel) : Decidable (Unforced p label) := by
  cases label <;> unfold Unforced <;> infer_instance

theorem unforced_ticks {p : Plant} (h : p.status.isCritical = false) (n : ℕ) :
    Meets plantStep Unforced p (List.replicate n .tick) := by
  induction n generalizing p with
  | zero => trivial
  | succ n ih =>
    refine ⟨fun _ => h,fun q hq => ?_⟩
    cases hq
    exact ih (by rw [tick_status]; exact h)

theorem unforced_regulations (p : Plant) (n : ℕ) : Meets plantStep Unforced p (List.replicate n .regulate) := by
  induction n generalizing p with
  | zero => trivial
  | succ n ih => exact ⟨trivial,fun q _ => ih q⟩

/-- The board heats up, and nothing forces the fan on the way. -/
theorem heating_runs : ∃ p, exec plantStep (Plant.init (startUp [hotCall])) heatingLabels = some p ∧
    Runaway p 161329 0 ∧ Meets plantStep Unforced (Plant.init (startUp [hotCall])) heatingLabels := by
  obtain ⟨p,q,hp,hq,hcalm,hrun⟩ := runaway_starts
  obtain ⟨r,hr,hhot⟩ := hrun.ticks (by decide) 3110 (by decide)
  have hstart : exec plantStep (Plant.init (startUp [hotCall]))
      (List.replicate 4 .tick ++ (List.replicate 1024 .regulate ++ [.tick,.regulate])) =
      some (runTemperatureRegulation (tick q)) := by
    rw [exec_append,hp,Option.bind_some,exec_append,hq]
    rfl
  refine ⟨r,?_,hhot,?_⟩
  · rw [heatingLabels,exec_append,hstart,Option.bind_some,hr]
  · rw [heatingLabels,meets_append,meets_append]
    refine ⟨⟨unforced_ticks rfl 4,fun u hu => ?_⟩,fun u hu => ?_⟩
    · obtain rfl := Option.some.inj (hp.symm.trans hu)
      refine (meets_append plantStep).mpr ⟨unforced_regulations p 1024,fun v hv => ?_⟩
      obtain rfl := Option.some.inj (hq.symm.trans hv)
      exact ⟨fun _ => hcalm,fun w _ => ⟨trivial,fun _ _ => trivial⟩⟩
    · obtain rfl := Option.some.inj (hstart.symm.trans hu)
      exact unforced_ticks hrun.calm 3110

/-- Fan 2 runs exactly in the critical state. -/
def FanFollows (p : Plant) : Prop := p.pinOut 2 = p.status.isCritical

theorem FanFollows.regulation {p : Plant} (h : FanFollows p) : FanFollows (runTemperatureRegulation p) := by
  obtain ⟨_,_,hcrit,_,hfan⟩ | ⟨hcrit,hfan,_⟩ := regulation_cases p
  · rw [FanFollows,hcrit,hfan,h]
    exact Bool.or_not_self _
  · rw [FanFollows,hcrit,hfan,h,Plant.alarmed]
    cases p.status.isCritical
    · rfl
    · rw [Bool.or_true]
      rfl

theorem FanFollows.step {p q : Plant} {label : PlantLabel} (h : FanFollows p) (hG : Unforced p label)
    (hs : plantStep p label = some q) : FanFollows q := by
  cases label <;> cases hs
  case tick =>
    rw [FanFollows,tick_status,tick_pinOut p (by decide)]
    split
    · rename_i hfires
      rw [hG hfires]
      rfl
    · exact h
  case regulate => exact h.regulation
  case kick => exact (pinOut_gpioWdtKick _).trans h
  case setCfg call =>
    rw [FanFollows,Plant.status,setSimCfg_reg]
    exact h
  case restart =>
    have hcrit : p.status.isCritical = false := hG
    rw [FanFollows,hcrit] at h
    rw [simSuspend]
    split
    · rw [simStart]
      split <;> exact h.trans hcrit.symm
    · exact h

/-- As long as no watchdog trip and no suspension meets a critical controller, fan 2 runs
exactly in the critical state behind every regulation call. -/
theorem unforced_fanFollows (calls : List SimCall) {labels : List PlantLabel} {p q : Plant}
    (hG : Meets plantStep Unforced (Plant.init (startUp calls)) labels)
    (hp : exec plantStep (Plant.init (startUp calls)) labels = some p) (hq : plantStep p .regulate = some q) :
    q.pinOut 2 = true ↔ q.status.isCritical = true := by
  have hinit : FanFollows (Plant.init (startUp calls)) := by
    change initRegs.pinOut 2 = false
    decide
  have hfollows : FanFollows p := Machine.invariant plantStep (fun _ _ _ h hG hs => FanFollows.step h hG hs) hinit hG hp
  rw [FanFollows.step hfollows (show Unforced p .regulate from trivial) hq]

/-- Behind the heating up the next regulation call turns fan 2 on. -/
theorem unforced_fanFollows_hot : ∃ p q, exec plantStep (Plant.init (startUp [hotCall])) heatingLabels = some p ∧
    plantStep p .regulate = some q ∧ q.status.isCritical = true ∧ q.pinOut 2 = true := by
  obtain ⟨p,hp,hhot,hG⟩ := heating_runs
  have hcrit : (runTemperatureRegulation p).status.isCritical = true := hhot.critical (by decide)
  exact ⟨p,runTemperatureRegulation p,hp,rfl,hcrit,(unforced_fanFollows [hotCall] hG hp rfl).mpr hcrit⟩

/-- The watchdog turns fan 2 off in the critical state, and regulation does not turn it on again. -/
theorem watchdog_not_fanFollows : ∃ p q, exec plantStep (Plant.init (startUp [hotCall])) hotLabels = some p ∧
    plantStep p .regulate = some q ∧ ¬(q.pinOut 2 = true ↔ q.status.isCritical = true) := by
  obtain ⟨p,hp,hhot,-⟩ := heating_runs
  obtain ⟨hfan,hcrit⟩ := hhot.unfollowed (by decide)
  refine ⟨tick (runTemperatureRegulation p),_,?_,rfl,by rw [hfan,hcrit]; decide⟩
  have hsplit : hotLabels = heatingLabels ++ [.regulate,.tick] := by
    simp only [hotLabels,heatingLabels,List.append_assoc,List.cons_append,List.nil_append]
  rw [hsplit,exec_append,hp]
  rfl

end EmbedTemplate.Thermal
