import EmbedTemplate.Thermal.Ranges

/-! # The exactness of the physics

The powers of a tick are kept in 16 bits. With both fans at work on a strong heater the cooling
exceeds them, and what should cool the board then heats it.
-/
namespace EmbedTemplate.Thermal
open Bytes Gpio Machine

section Formula
variable (p : Plant)

/-- The unit failures that a tick goes by. -/
def Plant.units : UnitStatus := toggleFan1 { p with msCounter := u32 (p.msCounter + 1) }

/-- The power of the heater, which runs on its own when fan 1 has failed. -/
def Plant.netHeat : ℤ :=
  if (p.pinOut 0 || p.units.isFan1Failed) && !p.units.isHeaterFailed then p.sim.ctx.phy.heaterPower else 0

/-- The heat that the board loses to its surroundings. -/
def Plant.passive : ℤ := (p.sim.ctx.tempMC - p.sim.ctx.phy.ambientTempMC).tdiv p.sim.ctx.phy.boardConduct

/-- The power of a fan at work, 1.5 or 4 times the heater. -/
def Plant.fan1Power : ℤ := p.sim.ctx.phy.heaterPower * 3 / 2
def Plant.fan2Power : ℤ := p.sim.ctx.phy.heaterPower * 4

def Plant.cooling : ℤ :=
  (if p.pinOut 1 && !p.units.isFan1Failed then p.fan1Power else 0) +
    (if p.pinOut 2 && !p.units.isFan2Failed then p.fan2Power else 0) + p.passive

def Plant.turnOn (pin : ℕ) : Plant := { p with gpio := gpioSetOutPin p.gpio pin }
def Plant.turnOff (pin : ℕ) : Plant := { p with gpio := gpioClearOutPin p.gpio pin }

/-- The fields of a tick are the values of the formula, and no fan that works heats. -/
structure Exact : Prop where
  net : (tick p).sim.ctx.state.netHeatPower = p.netHeat
  cooling : (tick p).sim.ctx.state.coolingPower = p.cooling
  balance : (tick p).sim.ctx.state.energyBalance = p.netHeat - p.cooling
  fan1 : p.units.isFan1Failed = false → (tick (p.turnOn 1)).sim.ctx.tempMC ≤ (tick (p.turnOff 1)).sim.ctx.tempMC
  fan2 : p.units.isFan2Failed = false → (tick (p.turnOn 2)).sim.ctx.tempMC ≤ (tick (p.turnOff 2)).sim.ctx.tempMC

/-- Where both fans work, they cool no more together than 16 bits hold: without the heater if both of them are on, and
on balance if one of them is. -/
def Mild : Prop := p.units.isFan1Failed = false → p.units.isFan2Failed = false →
  (p.pinOut 1 = true ∧ p.pinOut 2 = true → p.fan1Power + p.fan2Power + p.passive ≤ 32767) ∧
    (p.pinOut 1 = true ∨ p.pinOut 2 = true → p.fan1Power + p.fan2Power + p.passive ≤ p.netHeat + 32768)

end Formula

section Settle
variable {phy : PhyState} {temp : ℤ} {state state' : SimState}

theorem newTemp_mono (hphy : phy.InRange) (h : state.energyBalance ≤ state'.energyBalance) :
    newTemp state phy temp ≤ newTemp state' phy temp := by
  have hmass : 0 < phy.thermalMass := Nat.lt_of_lt_of_le (by decide) hphy.mass.1
  have hdiv := Int.tdiv_le_tdiv (Int.natCast_pos.mpr hmass) h
  unfold newTemp
  dsimp only
  split_ifs <;> omega

theorem tdiv_le_neg_one {a : ℤ} {m : ℕ} (hm : 1 ≤ m) (hmass : m ≤ maxMass) (ha : a ≤ -1000) : a.tdiv m ≤ -1 := by
  unfold maxMass at hmass
  have hpos : 1 ≤ (-a) / m := by
    rw [Int.le_ediv_iff_mul_le (by omega)]
    omega
  rw [← Int.neg_neg a,Int.neg_tdiv,Int.tdiv_eq_ediv_of_nonneg (by omega)]
  omega

theorem one_le_tdiv {a : ℤ} {m : ℕ} (hm : 1 ≤ m) (hmass : m ≤ maxMass) (ha : 1000 ≤ a) : 1 ≤ a.tdiv m := by
  unfold maxMass at hmass
  rw [Int.tdiv_eq_ediv_of_nonneg (by omega),Int.le_ediv_iff_mul_le (by omega)]
  omega

/-- A loss and a gain that the thermal mass can feel tell each other apart. -/
theorem newTemp_lt (hphy : phy.InRange) (hlow : phy.ambientTempMC ≤ temp) (hhigh : temp ≤ 215000)
    (hloss : state.energyBalance ≤ -1000) (hgain : 1000 ≤ state'.energyBalance) :
    newTemp state phy temp < newTemp state' phy temp := by
  have hmass : 1 ≤ phy.thermalMass := Nat.le_trans (by decide) hphy.mass.1
  have hdown := tdiv_le_neg_one hmass hphy.mass.2 hloss
  have hup := one_le_tdiv hmass hphy.mass.2 hgain
  have hamb := hphy.ambient.2
  unfold maxAmb at hamb
  unfold newTemp
  dsimp only
  split_ifs <;> omega

end Settle

section Tick
variable {p : Plant}

theorem tick_tempMC (p : Plant) :
    (tick p).sim.ctx.tempMC = newTemp (tick p).sim.ctx.state p.sim.ctx.phy p.sim.ctx.tempMC := by
  rw [tick_sim]
  rfl

/-- The fields of a tick are the values of the formula modulo 16 bits. -/
theorem tick_state (hphy : p.sim.ctx.phy.InRange) :
    (tick p).sim.ctx.state = ⟨i16 (p.netHeat - p.cooling),p.netHeat,i16 p.cooling⟩ := by
  have hpower := hphy.power.2
  unfold maxPwr at hpower
  have hzero : i16 0 = 0 := by decide
  have hnet : (if (p.pinOut 0 || p.units.isFan1Failed) && !p.units.isHeaterFailed then
      i16 p.sim.ctx.phy.heaterPower else 0) = p.netHeat := by
    unfold Plant.netHeat
    split
    · exact i16_of_fits (by omega) (by omega)
    · rfl
  have hfan1 : (if p.pinOut 1 && !p.units.isFan1Failed then i16 p.fan1Power else 0) =
      i16 (if p.pinOut 1 && !p.units.isFan1Failed then p.fan1Power else 0) := by
    rw [apply_ite i16,hzero]
  have hfan2 : ∀ x, (if p.pinOut 2 && !p.units.isFan2Failed then i16 (i16 x + p.fan2Power) else i16 x) =
      i16 (x + if p.pinOut 2 && !p.units.isFan2Failed then p.fan2Power else 0) := by
    intro x
    split
    · exact i16_add_i16
    · rw [add_zero]
  have hcool : (tick p).sim.ctx.state.coolingPower = i16 p.cooling := by
    rw [tick_sim,Plant.cooling,← i16_add_i16,← hfan2,← hfan1]
    rfl
  have hheat : (tick p).sim.ctx.state.netHeatPower = p.netHeat := by
    rw [tick_sim,← hnet]
    rfl
  have hbalance : (tick p).sim.ctx.state.energyBalance =
      i16 ((tick p).sim.ctx.state.netHeatPower - (tick p).sim.ctx.state.coolingPower) := by
    rw [tick_sim]
    rfl
  rw [hheat,hcool,i16_sub_i16] at hbalance
  rw [← hbalance,← hheat,← hcool]

theorem netHeat_cases (p : Plant) : p.netHeat = 0 ∨ p.netHeat = p.sim.ctx.phy.heaterPower := by
  unfold Plant.netHeat
  split
  · exact .inr rfl
  · exact .inl rfl

theorem passive_bounds (hphy : p.sim.ctx.phy.InRange) (hlow : p.sim.ctx.phy.ambientTempMC ≤ p.sim.ctx.tempMC)
    (hhigh : p.sim.ctx.tempMC ≤ 215000) : 0 ≤ p.passive ∧ p.passive ≤ 45 := by
  have hcond := hphy.cond.1
  have hamb := hphy.ambient.1
  unfold minCond at hcond
  unfold minAmb at hamb
  unfold Plant.passive
  rw [Int.tdiv_eq_ediv_of_nonneg (by omega)]
  refine ⟨Int.ediv_nonneg (by omega) (by omega),?_⟩
  apply Int.le_of_lt_add_one
  rw [Int.ediv_lt_iff_lt_mul (by omega)]
  omega

/-- Two plants that differ in a fan: the one with the fan on ends up no warmer exactly if its balance does not wrap. -/
theorem turned_iff (on off : Plant) (hphy : on.sim.ctx.phy.InRange) (hsim : off.sim = on.sim)
    (hunits : off.netHeat = on.netHeat) (hlow : on.sim.ctx.phy.ambientTempMC ≤ on.sim.ctx.tempMC) (hhigh : on.sim.ctx.tempMC ≤ 215000)
    (hmore : off.cooling ≤ on.cooling) (hzero : 0 ≤ off.cooling) (hoff : off.cooling ≤ 32767) (hon : on.cooling ≤ 44045)
    (hheat : on.netHeat ≤ 8000) (hcold : 0 ≤ on.netHeat)
    (hloss : on.netHeat + 32768 < on.cooling → on.netHeat - off.cooling ≤ -1000) :
    (tick on).sim.ctx.tempMC ≤ (tick off).sim.ctx.tempMC ↔ on.cooling ≤ on.netHeat + 32768 := by
  have hexact : i16 (on.netHeat - off.cooling) = on.netHeat - off.cooling := i16_of_fits (by omega) (by omega)
  rw [tick_tempMC,tick_tempMC,tick_state hphy,tick_state (hsim ▸ hphy),hsim,hunits,hexact]
  constructor
  · intro h
    by_contra hwrap
    have hup : i16 (on.netHeat - on.cooling) = on.netHeat - on.cooling + 65536 := i16_of_below (by omega) (by omega)
    rw [hup] at h
    refine absurd h (Int.not_le.mpr (newTemp_lt hphy hlow hhigh (hloss (by omega)) ?_))
    show 1000 ≤ on.netHeat - on.cooling + 65536
    omega
  · intro h
    apply newTemp_mono hphy
    show i16 (on.netHeat - on.cooling) ≤ on.netHeat - off.cooling
    rw [i16_of_fits (by omega) (by omega)]
    omega

end Tick

section Turn
variable {p : Plant} {pin i : ℕ}

theorem turnOn_pinOut (hi : i < 8) : (p.turnOn pin).pinOut i = (p.pinOut i || decide (i = pin)) :=
  pinOut_gpioSetOutPin _ hi

theorem turnOff_pinOut (hi : i < 8) : (p.turnOff pin).pinOut i = (p.pinOut i && !decide (i = pin)) :=
  pinOut_gpioClearOutPin _ hi

theorem turnOn_netHeat (hpin : pin ≠ 0) : (p.turnOn pin).netHeat = p.netHeat := by
  unfold Plant.netHeat
  rw [turnOn_pinOut (by decide),decide_eq_false hpin.symm,Bool.or_false]
  rfl

theorem turnOff_netHeat (hpin : pin ≠ 0) : (p.turnOff pin).netHeat = p.netHeat := by
  unfold Plant.netHeat
  rw [turnOff_pinOut (by decide),decide_eq_false hpin.symm,Bool.not_false,Bool.and_true]
  rfl

theorem turnOn1_cooling (h : p.units.isFan1Failed = false) : (p.turnOn 1).cooling =
    p.fan1Power + (if p.pinOut 2 && !p.units.isFan2Failed then p.fan2Power else 0) + p.passive := by
  have hpin1 : (p.turnOn 1).pinOut 1 = true := by simp [turnOn_pinOut]
  have hpin2 : (p.turnOn 1).pinOut 2 = p.pinOut 2 := by simp [turnOn_pinOut]
  have hon : (true && !(p.turnOn 1).units.isFan1Failed) = true := congrArg (!·) h
  unfold Plant.cooling
  rw [hpin1,hpin2,hon,if_pos rfl]
  rfl

theorem turnOff1_cooling (p : Plant) : (p.turnOff 1).cooling =
    (if p.pinOut 2 && !p.units.isFan2Failed then p.fan2Power else 0) + p.passive := by
  have hpin1 : (p.turnOff 1).pinOut 1 = false := by simp [turnOff_pinOut]
  have hpin2 : (p.turnOff 1).pinOut 2 = p.pinOut 2 := by simp [turnOff_pinOut]
  unfold Plant.cooling
  rw [hpin1,hpin2,Bool.false_and,if_neg Bool.false_ne_true,zero_add]
  rfl

theorem turnOn2_cooling (h : p.units.isFan2Failed = false) : (p.turnOn 2).cooling =
    (if p.pinOut 1 && !p.units.isFan1Failed then p.fan1Power else 0) + p.fan2Power + p.passive := by
  have hpin1 : (p.turnOn 2).pinOut 1 = p.pinOut 1 := by simp [turnOn_pinOut]
  have hpin2 : (p.turnOn 2).pinOut 2 = true := by simp [turnOn_pinOut]
  have hon : (true && !(p.turnOn 2).units.isFan2Failed) = true := congrArg (!·) h
  unfold Plant.cooling
  rw [hpin1,hpin2,hon,if_pos rfl]
  rfl

theorem turnOff2_cooling (p : Plant) : (p.turnOff 2).cooling =
    (if p.pinOut 1 && !p.units.isFan1Failed then p.fan1Power else 0) + p.passive := by
  have hpin1 : (p.turnOff 2).pinOut 1 = p.pinOut 1 := by simp [turnOff_pinOut]
  have hpin2 : (p.turnOff 2).pinOut 2 = false := by simp [turnOff_pinOut]
  unfold Plant.cooling
  rw [hpin1,hpin2,Bool.false_and,if_neg Bool.false_ne_true,add_zero]
  rfl

end Turn

section Exactness
variable {p : Plant} (hphy : p.sim.ctx.phy.InRange) (hlow : p.sim.ctx.phy.ambientTempMC ≤ p.sim.ctx.tempMC)
  (hhigh : p.sim.ctx.tempMC ≤ 215000)
include hphy hlow hhigh

theorem powers : (0 ≤ p.passive ∧ p.passive ≤ 45) ∧
    ((1000 : ℤ) ≤ p.sim.ctx.phy.heaterPower ∧ (p.sim.ctx.phy.heaterPower : ℤ) ≤ 8000) ∧
    (3 * p.sim.ctx.phy.heaterPower ≤ 2 * p.fan1Power + 1 ∧ 2 * p.fan1Power ≤ 3 * p.sim.ctx.phy.heaterPower) ∧
    p.fan2Power = p.sim.ctx.phy.heaterPower * 4 ∧ (p.netHeat = 0 ∨ p.netHeat = p.sim.ctx.phy.heaterPower) := by
  obtain ⟨hpower,hpower'⟩ := hphy.power
  unfold minPwr at hpower
  unfold maxPwr at hpower'
  refine ⟨passive_bounds hphy hlow hhigh,⟨by omega,by omega⟩,?_,rfl,netHeat_cases p⟩
  unfold Plant.fan1Power
  omega

theorem tick_exact_iff : ((tick p).sim.ctx.state.netHeatPower = p.netHeat ∧
    (tick p).sim.ctx.state.coolingPower = p.cooling ∧
    (tick p).sim.ctx.state.energyBalance = p.netHeat - p.cooling) ↔ p.cooling ≤ 32767 := by
  obtain ⟨hpass,hpower,hfan1,hfan2,hheat⟩ := powers hphy hlow hhigh
  have hcool : 0 ≤ p.cooling ∧ p.cooling ≤ 44045 := by
    unfold Plant.cooling
    split <;> split <;> omega
  rw [tick_state hphy]
  dsimp only
  constructor
  · rintro ⟨_,hexact,_⟩
    by_contra hwrap
    rw [i16_of_above (by omega) (by omega)] at hexact
    omega
  · intro hfits
    refine ⟨rfl,i16_of_fits (by omega) hfits,?_⟩
    exact i16_of_fits (by omega) (by omega)

/-- Turning a fan that cools by `power`, next to what the other one cools by. -/
theorem turn_iff {pin : ℕ} {power other : ℤ} (hpin : pin ≠ 0) (hon : (p.turnOn pin).cooling = power + other + p.passive)
    (hoff : (p.turnOff pin).cooling = other + p.passive)
    (hfans : power = p.fan1Power ∧ (other = p.fan2Power ∨ other = 0) ∨
      power = p.fan2Power ∧ (other = p.fan1Power ∨ other = 0)) :
    (tick (p.turnOn pin)).sim.ctx.tempMC ≤ (tick (p.turnOff pin)).sim.ctx.tempMC ↔
      (p.turnOn pin).cooling ≤ p.netHeat + 32768 := by
  obtain ⟨hpass,hpower,hfan1,hfan2,hheat⟩ := powers hphy hlow hhigh
  have hnet : (p.turnOn pin).netHeat = p.netHeat := turnOn_netHeat hpin
  have hnet' : (p.turnOff pin).netHeat = p.netHeat := turnOff_netHeat hpin
  have hturned := turned_iff (p.turnOn pin) (p.turnOff pin) hphy rfl (hnet'.trans hnet.symm) hlow hhigh
  rw [hnet,hon,hoff] at hturned
  rw [hon]
  exact hturned (by omega) (by omega) (by omega) (by omega) (by omega) (by omega) (by omega)

theorem turn1_iff (hworks : p.units.isFan1Failed = false) :
    (tick (p.turnOn 1)).sim.ctx.tempMC ≤ (tick (p.turnOff 1)).sim.ctx.tempMC ↔
      (p.turnOn 1).cooling ≤ p.netHeat + 32768 :=
  turn_iff hphy hlow hhigh (by decide) (turnOn1_cooling hworks) (turnOff1_cooling p)
    (.inl ⟨rfl,ite_eq_or_eq _ _ _⟩)

theorem turn2_iff (hworks : p.units.isFan2Failed = false) :
    (tick (p.turnOn 2)).sim.ctx.tempMC ≤ (tick (p.turnOff 2)).sim.ctx.tempMC ↔
      (p.turnOn 2).cooling ≤ p.netHeat + 32768 := by
  apply turn_iff hphy hlow hhigh (by decide) _ (turnOff2_cooling p) (.inr ⟨rfl,ite_eq_or_eq _ _ _⟩)
  rw [turnOn2_cooling hworks,Int.add_comm p.fan2Power]

theorem exact_iff_cooling : Exact p ↔ p.cooling ≤ 32767 ∧
    (p.units.isFan1Failed = false → (p.turnOn 1).cooling ≤ p.netHeat + 32768) ∧
    (p.units.isFan2Failed = false → (p.turnOn 2).cooling ≤ p.netHeat + 32768) := by
  have hfields := tick_exact_iff hphy hlow hhigh
  have hturn1 := turn1_iff hphy hlow hhigh
  have hturn2 := turn2_iff hphy hlow hhigh
  constructor
  · intro h
    exact ⟨hfields.mp ⟨h.net,h.cooling,h.balance⟩,fun hw => (hturn1 hw).mp (h.fan1 hw),fun hw => (hturn2 hw).mp (h.fan2 hw)⟩
  · rintro ⟨hfits,h1,h2⟩
    obtain ⟨hnet,hcool,hbalance⟩ := hfields.mpr hfits
    exact ⟨hnet,hcool,hbalance,fun hw => (hturn1 hw).mpr (h1 hw),fun hw => (hturn2 hw).mpr (h2 hw)⟩

end Exactness

/-- Each field of a tick is exact, and no fan that works heats, exactly if the fans cool no more than 16 bits hold. -/
theorem exact_iff {p : Plant} (hphy : p.sim.ctx.phy.InRange) (hlow : p.sim.ctx.phy.ambientTempMC ≤ p.sim.ctx.tempMC)
    (hhigh : p.sim.ctx.tempMC ≤ 215000) : Exact p ↔ Mild p := by
  obtain ⟨hpass,hpower,hfan1,hfan2,hheat⟩ := powers hphy hlow hhigh
  have hcool : p.cooling = (if p.pinOut 1 && !p.units.isFan1Failed then p.fan1Power else 0) +
      (if p.pinOut 2 && !p.units.isFan2Failed then p.fan2Power else 0) + p.passive := rfl
  have hon1 := turnOn1_cooling (p := p)
  have hon2 := turnOn2_cooling (p := p)
  rw [exact_iff_cooling hphy hlow hhigh,hcool]
  clear hcool
  unfold Mild
  cases h1 : p.units.isFan1Failed with
  | true =>
    simp only [h1,Bool.not_true,Bool.and_false,Bool.false_eq_true,if_false,Bool.true_eq_false,false_implies,true_and,
      iff_true] at hon2 ⊢
    refine ⟨?_,fun h2 => ?_⟩
    · split <;> omega
    · rw [hon2 h2]
      omega
  | false =>
    cases h2 : p.units.isFan2Failed with
    | true =>
      simp only [h1,h2,Bool.not_true,Bool.and_false,Bool.false_eq_true,if_false,Bool.true_eq_false,false_implies,and_true,
        implies_true,iff_true] at hon1 ⊢
      refine ⟨?_,fun _ => ?_⟩
      · split <;> omega
      · rw [hon1 trivial]
        omega
    | false =>
      rw [hon1 h1,hon2 h2,h1,h2]
      simp only [Bool.not_false,Bool.and_true,forall_const]
      cases p.pinOut 1 <;> cases p.pinOut 2 <;>
        simp only [Bool.false_eq_true,if_true,if_false,eq_self,and_self,and_false,or_self,or_true,true_or,false_implies,
          true_implies,and_true,true_and,iff_true] <;> omega

/-- The board with its default configuration, behind one tick, the heater and both fans switched on. -/
def heatedPlant : Plant := (((tick (Plant.init (startUp []))).turnOn 0).turnOn 1).turnOn 2

theorem exact_iff_heated : Exact heatedPlant := by
  have hrun : exec plantStep (Plant.init (startUp [])) [.tick] = some _ := rfl
  have hstart : (Plant.init (startUp [])).sim = startUp [] := rfl
  refine (@exact_iff heatedPlant (reachable_ranged hstart hrun).inRange (by decide) (by decide)).mpr ?_
  unfold Mild
  decide

/-- The strongest heater, set before the start. -/
def strongCall : SimCall := ⟨1,⟨0x1F40000000000010⟩,⟨0⟩⟩

/-- The board with the strongest heater, behind one tick, both fans switched on. -/
def strongPlant : Plant := ((tick (Plant.init (startUp [strongCall]))).turnOn 1).turnOn 2

theorem bothFans_not_exact : strongPlant.sim.ctx.phy.InRange ∧ strongPlant.sim.ctx.phy.ambientTempMC ≤ strongPlant.sim.ctx.tempMC ∧
    strongPlant.sim.ctx.tempMC ≤ 215000 ∧ ¬Exact strongPlant := by
  have hrun : exec plantStep (Plant.init (startUp [strongCall])) [.tick] = some _ := rfl
  have hstart : (Plant.init (startUp [strongCall])).sim = startUp [strongCall] := rfl
  refine ⟨(reachable_ranged hstart hrun).inRange,by decide,by decide,fun h => ?_⟩
  have hcool := h.cooling
  revert hcool
  decide

end EmbedTemplate.Thermal
