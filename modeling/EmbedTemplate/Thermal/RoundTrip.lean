import EmbedTemplate.Thermal.Reports

/-! # Reading the configuration and writing it back

`get_sim_cfg` packs the configuration into the two packets that `set_sim_cfg` takes. What it packs
is accepted again as long as it is in range, and changes nothing as long as the latency is not
lowered.
-/
namespace EmbedTemplate.Thermal
open Bytes LastWrite

/-- The `uint16_t` of a signed value. -/
def uint16 (x : ℤ) : ℕ := (BitVec.ofInt 16 x).toNat

/-- `get_sim_cfg_set`, which overwrites every byte of its temporary packets. -/
def getSimCfgSet (s : Sim) (cold : Bool) : StreamT × StreamT :=
  let phy := s.ctx.phy
  let ctrl := s.cfg.ctrl
  let fresh (inuse present : Bool) : Bool := cold || (!inuse && !present)
  let inuse := s.ctx.mask.getLsbD 0
  let first : StreamT := (⟨0⟩ : StreamT).setU8 0 0xFF
  let first := first.setU8 1 (if fresh inuse (s.ctx.mask.getLsbD 1) then rampTimeDefault else phy.rampTimeS)
  let first := first.setU16 1 (if fresh inuse (s.ctx.mask.getLsbD 2) then chipThermalMass else phy.thermalMass)
  let first := first.setU16 2 (if fresh inuse (s.ctx.mask.getLsbD 3) then boardConductance else phy.boardConduct)
  let first := first.setU16 3 (if fresh inuse (s.ctx.mask.getLsbD 4) then heaterUnitPower else phy.heaterPower)
  let inuse := s.cfg.mask.getLsbD 0
  let second : StreamT := (⟨0⟩ : StreamT).setU8 0 0x7E
  let second := second.setU8 1 (if fresh inuse (s.ctx.mask.getLsbD 9) then sensorLatencyDefault else phy.sensorLatencyMs)
  let second := second.setU8 2 (if fresh inuse (s.cfg.mask.getLsbD 10) then tempTarget else ctrl.tempTarget)
  let second := second.setU8 3 (if fresh inuse (s.cfg.mask.getLsbD 11) then tempCritical else ctrl.tempCritical)
  let second := second.setU8 4 (if fresh inuse (s.cfg.mask.getLsbD 12) then tempCooldown else ctrl.tempCooldown)
  let second := second.setU8 5 (if fresh inuse (s.cfg.mask.getLsbD 13) then tempHysteresis else ctrl.tempHysteresis)
  let second := second.setU16 3 (uint16
    (if fresh inuse (s.ctx.mask.getLsbD 14) then ambientTempMC.tdiv 1000 else phy.ambientTempMC.tdiv 1000))
  (first,second)

def getSimCfgRanges (max : Bool) : StreamT × StreamT :=
  let first : StreamT := (⟨0⟩ : StreamT).setU8 0 0xFF
  let first := first.setU8 1 (if max then maxRamp else minRamp)
  let first := first.setU16 1 (if max then maxMass else minMass)
  let first := first.setU16 2 (if max then maxCond else minCond)
  let first := first.setU16 3 (if max then maxPwr else minPwr)
  let second : StreamT := (⟨0⟩ : StreamT).setU8 0 0x7E
  let second := second.setU8 1 (if max then maxLat else minLat)
  let second := second.setU8 2 (if max then maxTempTarget else minTempTarget)
  let second := second.setU8 3 (if max then maxTempCrit else minTempCrit)
  let second := second.setU8 4 (if max then maxTempCool else minTempCool)
  let second := second.setU8 5 (if max then maxTempHyst else minTempHyst)
  let second := second.setU16 3 (uint16 (if max then maxAmb.tdiv 1000 else minAmb.tdiv 1000))
  (first,second)

/-- The packets of `get_sim_cfg`, `none` standing for the result -1. -/
def getSimCfg (s : Sim) (len : ℕ) (what : ℤ) : Option (StreamT × StreamT) :=
  if len < 2 then none
  else if what < 2 then some (getSimCfgSet s (what ≠ 0))
  else if what < 4 then some (getSimCfgRanges (what % 2 ≠ 0))
  else none

/-- The configuration is read and written back without a report and without a change. -/
def RoundTrips (s : Sim) : Prop :=
  ∃ cfg, getSimCfg s 2 0 = some cfg ∧ (setSimCfg s ⟨2,cfg.1,cfg.2⟩).2 = 0 ∧
    ∀ f, (setSimCfg s ⟨2,cfg.1,cfg.2⟩).1.value f = s.value f

/-- The state after calls before the start-up and behind it. -/
def running (before after : List SimCall) : Sim := after.foldl Sim.configured (startUp before)

/-- Each of cooldown and hysteresis is supplied if the other one was before the start-up, and a short ramp goes with a
short latency. -/
structure Steady (before after : List SimCall) : Prop where
  cooldown : (∃ call ∈ before, (call.accepted .hysteresis).isSome) →
    ∃ call ∈ before ++ after, (call.accepted .cooldown).isSome
  hysteresis : (∃ call ∈ before, (call.accepted .cooldown).isSome) →
    ∃ call ∈ before ++ after, (call.accepted .hysteresis).isSome
  latency : (running before after).value .ramp < 4 → (running before after).value .latency ≤ 10

/-- What holds of the globals of a simulator in service. -/
structure InService (s : Sim) : Prop where
  use : s.inUse = true
  regUse : s.cfg.mask.getLsbD 0 = true
  high : ∀ f, s.value f ≤ f.high
  ranged : Ranged s
  whole : (1000 : ℤ) ∣ s.value .ambient

section RegMask
variable (p : Progress) (n : ℕ) (phy : PhyState) (ctrl : TempCtrlCfg)

theorem takePhy_cfg (val lo hi : ℕ) : (p.takePhy n val lo hi phy).sim.cfg = p.sim.cfg := by
  unfold Progress.takePhy
  split
  · split <;> rfl
  · rfl

theorem takeCtx_cfg (val lo hi : ℤ) : (p.takeCtx n val lo hi phy).sim.cfg = p.sim.cfg := by
  unfold Progress.takeCtx
  split
  · split <;> rfl
  · rfl

theorem takeTemp_regMask (val lo hi : ℕ) :
    (p.takeTemp n val lo hi ctrl).sim.cfg.mask.getLsbD 0 = p.sim.cfg.mask.getLsbD 0 := by
  unfold Progress.takeTemp
  split
  · split
    · simp [bit]
    · rfl
  · rfl

theorem firstPacket_cfg (s : Sim) (pkt : StreamT) : (firstPacket s pkt).sim.cfg = s.cfg := by
  simp only [firstPacket,takePhy_cfg]

theorem secondPacket_regMask (s : Sim) (oor : BitVec 16) (pkt : StreamT) :
    (secondPacket s oor pkt).sim.cfg.mask.getLsbD 0 = s.cfg.mask.getLsbD 0 := by
  simp only [secondPacket,takeCtx_cfg,takeTemp_regMask]

theorem configured_regMask (s : Sim) (call : SimCall) :
    (s.configured call).cfg.mask.getLsbD 0 = s.cfg.mask.getLsbD 0 := by
  by_cases hlen : 2 ≤ call.len
  · obtain ⟨oor,h⟩ := configured_two s call hlen
    rw [h,secondPacket_regMask,firstPacket_cfg]
  · unfold Sim.configured setSimCfg
    split
    · rfl
    · rw [if_neg (by omega)]
      dsimp only
      rw [if_pos (by omega),firstPacket_cfg]

end RegMask

theorem inRange_value {announced : Bool} {val lo hi v : ℤ} (h : inRange announced val lo hi = some v) : v = val := by
  unfold inRange at h
  split at h
  · exact (Option.some.inj h).symm
  · cases h

theorem accepted_whole {call : SimCall} {v : ℤ} (h : call.accepted .ambient = some v) : (1000 : ℤ) ∣ v := by
  unfold SimCall.accepted at h
  rcases Option.or_eq_some_iff.mp h with h | ⟨_,h⟩
  · split at h
    · rw [inRange_value h]
      exact Dvd.intro_left _ rfl
    · cases h
  · split at h <;> cases h

section ReadBack
variable {s : Sim}

theorem getSimCfgSet_first (h : InService s) : (getSimCfgSet s false).1.u8 0 = 0xFF ∧
    (getSimCfgSet s false).1.u8 1 = s.ctx.phy.rampTimeS % 2 ^ 8 ∧
    (getSimCfgSet s false).1.u16 1 = s.ctx.phy.thermalMass % 2 ^ 16 ∧
    (getSimCfgSet s false).1.u16 2 = s.ctx.phy.boardConduct % 2 ^ 16 ∧
    (getSimCfgSet s false).1.u16 3 = s.ctx.phy.heaterPower % 2 ^ 16 := by
  have huse : s.ctx.mask.getLsbD 0 = true := h.use
  unfold getSimCfgSet
  simp (disch := omega) only [huse,Bool.not_true,Bool.false_and,Bool.false_or,Bool.false_eq_true,if_false,
    u8_setU16_apart,u8_setU8_apart,u8_setU8,u16_setU16_apart,u16_setU16,Nat.reducePow,Nat.reduceMod,and_self]

theorem getSimCfgSet_second (h : InService s) : (getSimCfgSet s false).2.u8 0 = 0x7E ∧
    (getSimCfgSet s false).2.u8 1 = s.ctx.phy.sensorLatencyMs % 2 ^ 8 ∧
    (getSimCfgSet s false).2.u8 2 = s.cfg.ctrl.tempTarget % 2 ^ 8 ∧
    (getSimCfgSet s false).2.u8 3 = s.cfg.ctrl.tempCritical % 2 ^ 8 ∧
    (getSimCfgSet s false).2.u8 4 = s.cfg.ctrl.tempCooldown % 2 ^ 8 ∧
    (getSimCfgSet s false).2.u8 5 = s.cfg.ctrl.tempHysteresis % 2 ^ 8 ∧
    (getSimCfgSet s false).2.u16 3 = uint16 (s.ctx.phy.ambientTempMC.tdiv 1000) % 2 ^ 16 := by
  unfold getSimCfgSet
  simp (disch := omega) only [h.regUse,Bool.not_true,Bool.false_and,Bool.false_or,Bool.false_eq_true,if_false,
    u8_setU16_apart,u8_setU8_apart,u8_setU8,u16_setU16,Nat.reducePow,Nat.reduceMod,and_self]

theorem s16_uint16 {v : ℤ} (hwhole : (1000 : ℤ) ∣ v) (hlow : minAmb ≤ v) (hhigh : v ≤ maxAmb) :
    s16 (uint16 (v.tdiv 1000) % 2 ^ 16) * 1000 = v := by
  obtain ⟨d,rfl⟩ := hwhole
  unfold minAmb at hlow
  unfold maxAmb at hhigh
  have hword : BitVec.ofNat 16 (uint16 d % 2 ^ 16) = BitVec.ofInt 16 d := by
    apply BitVec.eq_of_toNat_eq
    rw [BitVec.toNat_ofNat,Nat.mod_mod]
    exact Nat.mod_eq_of_lt (BitVec.isLt _)
  rw [Int.mul_tdiv_cancel_left d (by decide),s16,hword,BitVec.toInt_ofInt,Int.bmod_def]
  omega

theorem offers_readBack (h : InService s) (f : Field) :
    (⟨2,(getSimCfgSet s false).1,(getSimCfgSet s false).2⟩ : SimCall).offers f = some (s.value f) := by
  obtain ⟨hhdr,hramp,hmass,hcond,hpower⟩ := getSimCfgSet_first h
  obtain ⟨hhdr',hlat,htarget,hcrit,hcool,hhyst,hamb⟩ := getSimCfgSet_second h
  generalize (getSimCfgSet s false).1 = first at *
  generalize (getSimCfgSet s false).2 = second at *
  have hoffer : ∀ {pkt : StreamT} {n : ℕ} {v w : ℤ}, pkt.announces n = true → v = w → pkt.offer n v = some w := by
    rintro pkt n v w hann rfl
    exact if_pos hann
  have hfirst : ∀ n < 8, first.announces n = true := by
    unfold StreamT.announces
    rw [hhdr]
    decide
  have hsecond : ∀ n < 7, n ≠ 0 → second.announces n = true := by
    unfold StreamT.announces
    rw [hhdr']
    decide
  have hlow : ∀ {n bound w : ℕ}, n = w % bound → ((w : ℤ) ≤ (bound - 1 : ℕ)) → 0 < bound → (n : ℤ) = w := by
    intro n bound w hn hle hpos
    rw [hn,Nat.mod_eq_of_lt (by omega)]
  cases f
  case ramp => exact hoffer (hfirst 1 (by decide)) (hlow hramp ((h.high .ramp).trans (by decide)) (by decide))
  case mass => exact hoffer (hfirst 2 (by decide)) (hlow hmass ((h.high .mass).trans (by decide)) (by decide))
  case cond => exact hoffer (hfirst 3 (by decide)) (hlow hcond ((h.high .cond).trans (by decide)) (by decide))
  case power => exact hoffer (hfirst 4 (by decide)) (hlow hpower ((h.high .power).trans (by decide)) (by decide))
  case latency =>
    exact Option.or_none.trans (hoffer (hsecond 1 (by decide) (by decide))
      (hlow hlat ((h.high .latency).trans (by decide)) (by decide)))
  case target =>
    exact Option.or_none.trans (hoffer (hsecond 2 (by decide) (by decide))
      (hlow htarget ((h.high .target).trans (by decide)) (by decide)))
  case critical =>
    exact Option.or_none.trans (hoffer (hsecond 3 (by decide) (by decide))
      (hlow hcrit ((h.high .critical).trans (by decide)) (by decide)))
  case cooldown =>
    exact Option.or_none.trans (hoffer (hsecond 4 (by decide) (by decide))
      (hlow hcool ((h.high .cooldown).trans (by decide)) (by decide)))
  case hysteresis =>
    exact Option.or_none.trans (hoffer (hsecond 5 (by decide) (by decide))
      (hlow hhyst ((h.high .hysteresis).trans (by decide)) (by decide)))
  case ambient =>
    refine Option.or_none.trans (hoffer (hsecond 6 (by decide) (by decide)) ?_)
    rw [hamb]
    exact s16_uint16 h.whole (h.ranged .ambient (by decide) (by decide)).1 (h.high .ambient)

theorem roundTrips_iff_admits (h : InService s) :
    RoundTrips s ↔ (∀ f : Field, f.Admits (s.value f)) ∧ (s.value .ramp < 4 → s.value .latency ≤ 10) := by
  have hread : getSimCfg s 2 0 = some (getSimCfgSet s false) := rfl
  have hzero := setSimCfg_zero_iff s
    (show 1 ≤ (⟨2,(getSimCfgSet s false).1,(getSimCfgSet s false).2⟩ : SimCall).len from Nat.le_succ 1)
  have hoffers := offers_readBack h
  unfold RoundTrips
  rw [hread]
  generalize hcall : (⟨2,(getSimCfgSet s false).1,(getSimCfgSet s false).2⟩ : SimCall) = call at hzero hoffers
  have hlen : 2 ≤ call.len := by rw [← hcall]
  have hreport : (setSimCfg s call).2 = 0 ↔ ∀ f : Field, f.Admits (s.value f) := by
    rw [hzero]
    refine forall_congr' fun f => ?_
    rw [← not_iff_not,Bool.not_eq_false,refuses_of_offers (hoffers f)]
  have hvalue : (∀ f : Field, f.Admits (s.value f)) →
      ((∀ f, (s.configured call).value f = s.value f) ↔ (s.value .ramp < 4 → s.value .latency ≤ 10)) := by
    intro hin
    have hacc : ∀ f, call.accepted f = some (s.value f) := fun f => by
      rw [accepted_of_offers (hoffers f),if_pos (hin f)]
    have hplain : ∀ f, f ≠ .mass → f ≠ .cond → f ≠ .latency → (s.configured call).value f = s.value f := by
      intro f hm hc hl
      rw [configured_value s call hm hc hl,hacc]
      rfl
    have hsettled : ∀ {f new derived}, Settled (call.accepted f) (s.value f) new derived → new = s.value f := by
      rintro f new derived (⟨v,hv,rfl⟩ | ⟨hnone,_⟩)
      · exact (Option.some.inj ((hacc f).symm.trans hv)).symm
      · rw [hacc] at hnone
        cases hnone
    have hlat := configured_latency s call
    rw [hplain .ramp (by decide) (by decide) (by decide),hacc .latency] at hlat
    simp only [h.use,hlen,true_and,Option.getD_some] at hlat
    constructor
    · intro hall hramp
      by_contra hlong
      rw [hall .latency,if_pos ⟨hramp,by omega⟩] at hlat
      omega
    · intro hshort f
      cases f
      case mass => exact hsettled (settled_mass s call)
      case cond => exact hsettled (settled_cond s call)
      case latency =>
        rw [hlat,if_neg]
        rintro ⟨hramp,hlong⟩
        exact absurd (hshort hramp) (by omega)
      all_goals exact hplain _ (by decide) (by decide) (by decide)
  constructor
  · rintro ⟨_,hcfg,hret,hsame⟩
    obtain rfl := Option.some.inj hcfg
    rw [hcall] at hret hsame
    have hin := hreport.mp hret
    exact ⟨hin,(hvalue hin).mp hsame⟩
  · rintro ⟨hin,hshort⟩
    refine ⟨_,rfl,?_,?_⟩
    · rw [hcall]
      exact hreport.mpr hin
    · rw [hcall]
      exact (hvalue hin).mpr hshort

end ReadBack

section Running

theorem whole_configured {s : Sim} (h : (1000 : ℤ) ∣ s.value .ambient) (call : SimCall) :
    (1000 : ℤ) ∣ (s.configured call).value .ambient := by
  rw [configured_value s call (by decide) (by decide) (by decide)]
  cases hacc : call.accepted .ambient with
  | none => exact h
  | some v => exact accepted_whole hacc

theorem inService_startUp (before : List SimCall) : InService (startUp before) where
  use := started_inUse _
  regUse := by
    unfold startUp resetSimState tempCtrlCfgInit
    simp [bit]
  high f := by
    have hb := bounded_configure before
    cases f
    case mass => exact (ranged_startUp before .mass (by decide) (by decide)).2
    case cond => exact (ranged_startUp before .cond (by decide) (by decide)).2
    all_goals
      rw [startUp_value before (by decide) (by decide)]
      split
      · exact hb.high _
      · exact (default_admits _).2
  ranged := ranged_startUp before
  whole := by
    have hcalls : (1000 : ℤ) ∣ (configure before).value .ambient :=
      List.foldlRecOn before (motive := fun s : Sim => (1000 : ℤ) ∣ s.value .ambient) _ (Int.dvd_zero 1000)
        fun _ h call _ => whole_configured h call
    rw [startUp_value before (by decide) (by decide)]
    split
    · exact hcalls
    · decide

theorem InService.configured {s : Sim} (h : InService s) (call : SimCall) : InService (s.configured call) where
  use := (configured_inUse_eq s call).trans h.use
  regUse := (configured_regMask s call).trans h.regUse
  high f := by
    rcases configured_admits s call f with hin | ⟨_,hsame⟩
    · exact hin.2
    · rw [hsame]
      exact h.high f
  ranged := h.ranged.configured call
  whole := whole_configured h.whole call

theorem inService_running (before after : List SimCall) : InService (running before after) :=
  List.foldlRecOn after _ (inService_startUp before) fun _ h call _ => h.configured call

variable (before after : List SimCall) {f : Field}

theorem running_value (hm : f ≠ .mass) (hc : f ≠ .cond) (hl : f ≠ .latency) :
    (running before after).value f = (lastAccepted after f).getD ((startUp before).value f) :=
  foldl_last (I := fun _ => True) (f := fun s : Sim => s.value f) (fun _ _ _ => trivial)
    (fun s call _ => configured_value s call hm hc hl) trivial after

/-- A temperature that the start-up looks for under the bit of another one is in range unless that bit
alone is there. -/
theorem running_admits (hm : f ≠ .mass) (hc : f ≠ .cond) (hl : f ≠ .latency) (hzero : ¬f.Admits 0) :
    f.Admits ((running before after).value f) ↔ ((∃ call ∈ before, (call.accepted f.pickedUpBy).isSome) →
      ∃ call ∈ before ++ after, (call.accepted f).isSome) := by
  have hlast : ∀ {calls : List SimCall} {v}, lastAccepted calls f = some v → f.Admits v := by
    intro calls v h
    obtain ⟨_,call,_,hcall,_⟩ := last_eq_some_iff.mp h
    exact accepted_admits hcall
  have happ : lastAccepted (before ++ after) f = (lastAccepted after f).or (lastAccepted before f) := last_append _ _
  rw [running_value before after hm hc hl,startUp_value before hm hc,configure_present,configure_value before hm hc,
    accepted_some_iff,accepted_some_iff,happ]
  cases hafter : lastAccepted after f with
  | some v => exact iff_of_true (hlast hafter) fun _ => rfl
  | none =>
    rw [Option.none_or,Option.getD_none]
    cases hpicked : (lastAccepted before f.pickedUpBy).isSome with
    | false => exact iff_of_true (default_admits f) fun h => (Bool.false_ne_true h).elim
    | true =>
      cases hbefore : lastAccepted before f with
      | some v => exact iff_of_true (hlast hbefore) fun _ => rfl
      | none => exact iff_of_false hzero fun h => Bool.false_ne_true (h rfl)

/-- What is read can be written back exactly if cooldown and hysteresis are both there and the latency
suits the ramp. -/
theorem roundTrips_iff : RoundTrips (running before after) ↔ Steady before after := by
  have h := inService_running before after
  have hcool := running_admits before after (f := .cooldown) (by decide) (by decide) (by decide) (by decide)
  have hhyst := running_admits before after (f := .hysteresis) (by decide) (by decide) (by decide) (by decide)
  rw [roundTrips_iff_admits h]
  constructor
  · rintro ⟨hin,hshort⟩
    exact ⟨hcool.mp (hin _),hhyst.mp (hin _),hshort⟩
  · rintro ⟨hc,hh,hshort⟩
    refine ⟨fun f => ?_,hshort⟩
    by_cases hfc : f = .cooldown
    · rw [hfc]
      exact hcool.mpr hc
    · by_cases hfh : f = .hysteresis
      · rw [hfh]
        exact hhyst.mpr hh
      · exact h.ranged f hfc hfh

/-- A cooldown on its own before the start leaves a hysteresis of zero behind. -/
theorem cooldownOnly_not_roundTrips : ¬RoundTrips (running [cooldownOnly] []) := by
  rintro ⟨_,hread,hret,_⟩
  cases hread
  revert hret
  decide

end Running

end EmbedTemplate.Thermal
