import EmbedTemplate.Thermal.Explicit
import EmbedTemplate.Thermal.Frame

/-! # The ranges of the configuration

What a configuration call does to the fields, whether the simulator is in use or not, and from it
the ranges that the parameters of the physics never leave once the simulator has started.
-/
namespace EmbedTemplate.Thermal
open Bytes Machine

def Field.low : Field → ℤ
  | .ramp => minRamp
  | .mass => minMass
  | .cond => minCond
  | .power => minPwr
  | .latency => minLat
  | .target => minTempTarget
  | .critical => minTempCrit
  | .cooldown => minTempCool
  | .hysteresis => minTempHyst
  | .ambient => minAmb

def Field.high : Field → ℤ
  | .ramp => maxRamp
  | .mass => maxMass
  | .cond => maxCond
  | .power => maxPwr
  | .latency => maxLat
  | .target => maxTempTarget
  | .critical => maxTempCrit
  | .cooldown => maxTempCool
  | .hysteresis => maxTempHyst
  | .ambient => maxAmb

/-- The value lies in the range of the field. -/
def Field.Admits (f : Field) (v : ℤ) : Prop := f.low ≤ v ∧ v ≤ f.high

instance (f : Field) (v : ℤ) : Decidable (f.Admits v) := inferInstanceAs (Decidable (_ ∧ _))

section Accepted
variable {call : SimCall} {f : Field} {v : ℤ}

theorem inRange_bounds {announced : Bool} {val lo hi : ℤ} (h : inRange announced val lo hi = some v) :
    lo ≤ v ∧ v ≤ hi := by
  unfold inRange at h
  split at h
  case isTrue hin =>
    cases h
    exact hin.2
  case isFalse => cases h

theorem acceptedPhy_admits {pkt : StreamT} (h : pkt.acceptedPhy f = some v) : f.Admits v := by
  cases f <;> first | exact inRange_bounds h | cases h

theorem acceptedTemp_admits {pkt : StreamT} (h : pkt.acceptedTemp f = some v) : f.Admits v := by
  cases f <;> first | exact inRange_bounds h | cases h

theorem accepted_admits (h : call.accepted f = some v) : f.Admits v := by
  unfold SimCall.accepted at h
  rcases Option.or_eq_some_iff.mp h with h | ⟨_,h⟩
  · split at h
    · exact acceptedTemp_admits h
    · cases h
  · split at h
    · exact acceptedPhy_admits h
    · cases h

theorem accepted_zero (hlen : call.len < 1) : call.accepted f = none := by
  unfold SimCall.accepted
  rw [if_neg (by omega),if_neg (by omega)]
  rfl

theorem accepted_one (hlen : call.len = 1) : call.accepted f = call.first.acceptedPhy f := by
  unfold SimCall.accepted
  rw [if_neg (by omega),if_pos (by omega)]
  rfl

theorem accepted_two (hlen : 2 ≤ call.len) :
    call.accepted f = (call.second.acceptedTemp f).or (call.first.acceptedPhy f) := by
  unfold SimCall.accepted
  rw [if_pos hlen,if_pos (by omega)]

end Accepted

section Call
variable (s : Sim) (call : SimCall) {f : Field} {v : ℤ}

/-- A call stores what it accepts and keeps the rest, but for what is derived or lowered. -/
theorem configured_value (hm : f ≠ .mass) (hc : f ≠ .cond) (hl : f ≠ .latency) :
    (s.configured call).value f = (call.accepted f).getD (s.value f) := by
  cases hs : s.inUse with
  | false => exact (setSimCfg_configured hs call).value f hm hc
  | true =>
    have hfirst := (configured_firstPacket s call.first).value f hm hc
    rcases configured_cases hs call with ⟨hlen,h⟩ | ⟨hlen,h⟩ | ⟨hlen,h⟩
    · rw [h,accepted_zero hlen]
      rfl
    · rw [h,accepted_one hlen]
      exact hfirst
    · rw [h.value f hm hc hl,hfirst,accepted_two hlen]
      cases call.second.acceptedTemp f <;> rfl

theorem configured_present : (s.configured call).present f = (s.present f || (call.accepted f).isSome) := by
  cases hs : s.inUse with
  | false => exact (setSimCfg_configured hs call).present f
  | true =>
    have hfirst := (configured_firstPacket s call.first).present f
    rcases configured_cases hs call with ⟨hlen,h⟩ | ⟨hlen,h⟩ | ⟨hlen,h⟩
    · rw [h,accepted_zero hlen]
      simp
    · rw [h,accepted_one hlen]
      exact hfirst
    · rw [h.present,hfirst,accepted_two hlen]
      cases call.second.acceptedTemp f <;> cases call.first.acceptedPhy f <;> simp

/-- A value that is accepted, or else kept or derived. -/
def Settled (acc : Option ℤ) (old new derived : ℤ) : Prop :=
  (∃ v, acc = some v ∧ new = v) ∨ acc = none ∧ (new = old ∨ new = derived)

theorem Settled.of_getD {acc : Option ℤ} {old new derived : ℤ} {d : Bool}
    (h : new = acc.getD (if d then derived else old)) :
    Settled acc old new derived := by
  cases acc with
  | some v => exact .inl ⟨v,rfl,h⟩
  | none =>
    cases d
    · exact .inr ⟨rfl,.inl h⟩
    · exact .inr ⟨rfl,.inr h⟩

theorem adjusted_massInUse {pkt : StreamT} {t : Sim} (h : Adjusted pkt.acceptedTemp s t) :
    t.massInUse = s.massInUse := by
  have hpower := h.value .power (by decide) (by decide) (by decide)
  have hramp := h.value .ramp (by decide) (by decide) (by decide)
  unfold Sim.massInUse
  rw [hpower,hramp]
  rfl

theorem first_absent {pkt : StreamT} (h : (firstPacket s pkt).sim.present f = false) : pkt.acceptedPhy f = none := by
  rw [(configured_firstPacket s pkt).present,Bool.or_eq_false_iff] at h
  exact Option.not_isSome_iff_eq_none.mp (Bool.not_eq_true _ ▸ h.2)

/-- An accepted mass is stored; the mass is otherwise kept, or derived. -/
theorem settled_mass : Settled (call.accepted .mass) (s.value .mass) ((s.configured call).value .mass)
    (s.configured call).massInUse := by
  have hfirst := configured_firstPacket s call.first
  cases hs : s.inUse with
  | false => exact .of_getD (setSimCfg_configured hs call).mass
  | true =>
    rcases configured_cases hs call with ⟨hlen,h⟩ | ⟨hlen,h⟩ | ⟨hlen,h⟩
    · rw [h]
      exact .inr ⟨accepted_zero hlen,.inl rfl⟩
    · rw [h,accepted_one hlen]
      exact .of_getD hfirst.mass
    · have hmass := h.mass
      rw [accepted_first (by omega) rfl,adjusted_massInUse _ h]
      cases hkept : (firstPacket s call.first).sim.present .mass with
      | true =>
        rw [hkept,if_pos rfl] at hmass
        rw [hmass]
        exact .of_getD hfirst.mass
      | false =>
        rw [hkept,if_neg Bool.false_ne_true] at hmass
        exact .inr ⟨first_absent _ hkept,.inr hmass⟩

/-- Where the first packet derives, the second leaves the mass alone. -/
theorem mass_derived_once (hder : derives call.first.acceptedPhy = true)
    (h : Adjusted call.second.acceptedTemp (firstPacket s call.first).sim (s.configured call)) :
    (s.configured call).value .mass = (firstPacket s call.first).sim.value .mass := by
  have hmass := h.mass
  cases hkept : (firstPacket s call.first).sim.present .mass with
  | true =>
    rw [hkept] at hmass
    exact hmass
  | false =>
    have hfirst := (configured_firstPacket s call.first).mass
    rw [first_absent _ hkept,hder] at hfirst
    rw [hkept] at hmass
    exact hmass.trans hfirst.symm

/-- An accepted conductance is stored; the conductance is otherwise kept, or derived. -/
theorem settled_cond : Settled (call.accepted .cond) (s.value .cond) ((s.configured call).value .cond)
    (s.configured call).condInUse := by
  have hfirst := configured_firstPacket s call.first
  cases hs : s.inUse with
  | false => exact .of_getD (setSimCfg_configured hs call).cond
  | true =>
    rcases configured_cases hs call with ⟨hlen,h⟩ | ⟨hlen,h⟩ | ⟨hlen,h⟩
    · rw [h]
      exact .inr ⟨accepted_zero hlen,.inl rfl⟩
    · rw [h,accepted_one hlen]
      exact .of_getD hfirst.cond
    · have hcond := h.cond
      rw [accepted_first (by omega) rfl]
      cases hkept : (firstPacket s call.first).sim.present .cond with
      | false =>
        rw [hkept,if_neg Bool.false_ne_true] at hcond
        exact .inr ⟨first_absent _ hkept,.inr hcond⟩
      | true =>
        rw [hkept,if_pos rfl] at hcond
        rw [hcond]
        have hsettled := hfirst.cond
        cases hder : derives call.first.acceptedPhy with
        | false =>
          rw [hder] at hsettled
          exact .of_getD (d := false) hsettled
        | true =>
          rw [hder] at hsettled
          unfold Sim.condInUse
          rw [mass_derived_once s call hder h]
          exact .of_getD (d := true) hsettled

theorem adjustInUse_latency (ctx : SimCtx) : (adjustInUse ctx).phy.sensorLatencyMs =
    if ctx.mask.getLsbD 0 = true ∧ ctx.phy.rampTimeS < 4 ∧ 10 < ctx.phy.sensorLatencyMs then 10
    else ctx.phy.sensorLatencyMs := by
  unfold adjustInUse
  by_cases hlower : ctx.mask.getLsbD 0 = true ∧ ctx.phy.rampTimeS < 4 ∧ 10 < ctx.phy.sensorLatencyMs
  · rw [if_pos hlower]
    obtain ⟨huse,hramp,hlatency⟩ := hlower
    simp only [huse,hramp,hlatency,decide_true,Bool.and_self,if_true,(recalculate_kept _).2.2.1]
  · rw [if_neg hlower]
    have hkeep : (ctx.mask.getLsbD 0 && (ctx.phy.rampTimeS < 4 && ctx.phy.sensorLatencyMs > 10 : Bool)) = false := by
      rw [← Bool.not_eq_true,Bool.and_eq_true,Bool.and_eq_true,decide_eq_true_iff,decide_eq_true_iff]
      exact hlower
    rw [hkeep]
    simp only [Bool.false_eq_true,if_false]
    split
    · exact (recalculate_kept ctx).2.2.1
    · rfl

/-- Behind a second packet the first one has been processed, or was a mere continuation. -/
theorem configured_two (hlen : 2 ≤ call.len) :
    ∃ oor, s.configured call = (secondPacket (firstPacket s call.first).sim oor call.second).sim := by
  unfold Sim.configured setSimCfg
  rw [if_neg (by omega)]
  split
  case isTrue hskip =>
    rw [firstPacket_idle s call.first hskip.1]
    exact ⟨0,rfl⟩
  case isFalse =>
    dsimp only
    rw [if_neg (by omega)]
    exact ⟨_,rfl⟩

theorem secondPacket_latency (oor : BitVec 16) (pkt : StreamT) : (secondPacket s oor pkt).sim.value .latency =
    if s.inUse = true ∧ s.value .ramp < 4 ∧ 10 < (pkt.acceptedTemp .latency).getD (s.value .latency) then 10
    else (pkt.acceptedTemp .latency).getD (s.value .latency) := by
  obtain ⟨p,hsim,hval,_,huse⟩ := secondPacket_spec s pkt oor
  have hramp : p.sim.value .ramp = s.value .ramp := hval .ramp
  rw [hsim,← huse,← hramp,← hval .latency]
  simp only [Sim.value,adjustInUse_latency,Sim.inUse,Nat.cast_ite,Nat.cast_lt_ofNat,Nat.ofNat_lt_cast,Nat.cast_ofNat]

/-- The latency, which a second packet lowers where the ramp of a simulator in use is short. -/
theorem configured_latency : (s.configured call).value .latency =
    if s.inUse = true ∧ 2 ≤ call.len ∧ (s.configured call).value .ramp < 4 ∧
      10 < (call.accepted .latency).getD (s.value .latency) then 10
    else (call.accepted .latency).getD (s.value .latency) := by
  have hfirst := configured_firstPacket s call.first
  by_cases hlen : 2 ≤ call.len
  · obtain ⟨oor,h⟩ := configured_two s call hlen
    have hramp : (s.configured call).value .ramp = (firstPacket s call.first).sim.value .ramp := by
      rw [configured_value s call (by decide) (by decide) (by decide),accepted_first (by omega) rfl]
      exact (hfirst.value .ramp (by decide) (by decide)).symm
    have hlatency : (firstPacket s call.first).sim.value .latency = s.value .latency :=
      hfirst.value .latency (by decide) (by decide)
    have hacc : call.accepted .latency = call.second.acceptedTemp .latency := by
      rw [accepted_two hlen]
      exact Option.or_none
    rw [hramp,h,secondPacket_latency,hfirst.inUse,hlatency,hacc]
    simp only [hlen,true_and]
  · rw [if_neg fun hc => hlen hc.2.1]
    cases hs : s.inUse with
    | false => exact (setSimCfg_configured hs call).value .latency (by decide) (by decide)
    | true =>
      rcases configured_cases hs call with ⟨hzero,h⟩ | ⟨hone,h⟩ | ⟨htwo,_⟩
      · rw [h,accepted_zero hzero]
        rfl
      · rw [h,accepted_one hone]
        exact hfirst.value .latency (by decide) (by decide)
      · exact absurd htwo hlen

theorem configured_inUse_eq : (s.configured call).inUse = s.inUse := by
  cases hs : s.inUse with
  | false => exact (setSimCfg_configured hs call).inUse.trans hs
  | true => exact configured_started hs call

theorem clipped_bounds {lo hi : ℕ} (h : lo ≤ hi) (x : ℕ) :
    lo ≤ (if x < lo then lo else if x > hi then hi else x) ∧ (if x < lo then lo else if x > hi then hi else x) ≤ hi := by
  split
  · exact ⟨le_rfl,h⟩
  · split
    · exact ⟨h,le_rfl⟩
    · omega

theorem derivedMass_bounds (heaterPower rampTimeS : ℕ) :
    minMass ≤ derivedMass heaterPower rampTimeS ∧ derivedMass heaterPower rampTimeS ≤ maxMass :=
  clipped_bounds (by decide) _

theorem derivedCond_bounds (thermalMass : ℕ) :
    minCond ≤ derivedCond thermalMass ∧ derivedCond thermalMass ≤ maxCond :=
  clipped_bounds (by decide) _

/-- A call leaves a field with a value in its range, unless it leaves it alone. -/
theorem configured_admits (f : Field) : f.Admits ((s.configured call).value f) ∨
    call.accepted f = none ∧ (s.configured call).value f = s.value f := by
  have hgetD : ∀ {old : ℤ}, f.Admits ((call.accepted f).getD old) ∨ call.accepted f = none ∧
      (call.accepted f).getD old = old := by
    intro old
    cases hacc : call.accepted f with
    | some v => exact .inl (accepted_admits hacc)
    | none => exact .inr ⟨rfl,rfl⟩
  have hsettled : ∀ {old new derived : ℤ}, f.Admits derived → Settled (call.accepted f) old new derived →
      f.Admits new ∨ call.accepted f = none ∧ new = old := by
    rintro old new derived hder (⟨v,hacc,rfl⟩ | ⟨hnone,rfl | rfl⟩)
    · exact .inl (accepted_admits hacc)
    · exact .inr ⟨hnone,rfl⟩
    · exact .inl hder
  cases f
  case mass =>
    refine hsettled ?_ (settled_mass s call)
    have hbounds := derivedMass_bounds ((s.configured call).value .power).toNat ((s.configured call).value .ramp).toNat
    exact ⟨Int.ofNat_le.mpr hbounds.1,Int.ofNat_le.mpr hbounds.2⟩
  case cond =>
    refine hsettled ?_ (settled_cond s call)
    have hbounds := derivedCond_bounds ((s.configured call).value .mass).toNat
    exact ⟨Int.ofNat_le.mpr hbounds.1,Int.ofNat_le.mpr hbounds.2⟩
  case latency =>
    rw [configured_latency]
    split
    · exact .inl (by decide)
    · exact hgetD
  all_goals
    rw [configured_value s call (by decide) (by decide) (by decide)]
    exact hgetD

end Call

/-- No value exceeds its range, and one that has been supplied lies in it. -/
structure Bounded (s : Sim) : Prop where
  high : ∀ f, s.value f ≤ f.high
  low : ∀ f, s.present f = true → f.low ≤ s.value f

/-- The values lie in their ranges, but for the two temperatures that the start-up mixes up. -/
def Ranged (s : Sim) : Prop := ∀ f : Field, f ≠ .cooldown → f ≠ .hysteresis → f.Admits (s.value f)

theorem bounded_zero : Bounded Sim.zero where
  high f := by cases f <;> decide
  low f h := by
    cases f <;> cases h

theorem Bounded.configured {s : Sim} (h : Bounded s) (call : SimCall) : Bounded (s.configured call) where
  high f := by
    rcases configured_admits s call f with hin | ⟨_,hsame⟩
    · exact hin.2
    · rw [hsame]
      exact h.high f
  low f hpresent := by
    rcases configured_admits s call f with hin | ⟨hnone,hsame⟩
    · exact hin.1
    · rw [hsame]
      rw [configured_present,hnone,Option.isSome_none,Bool.or_false] at hpresent
      exact h.low f hpresent

theorem bounded_configure (calls : List SimCall) : Bounded (configure calls) :=
  List.foldlRecOn calls _ bounded_zero fun _ h call _ => h.configured call

theorem Ranged.configured {s : Sim} (h : Ranged s) (call : SimCall) : Ranged (s.configured call) := by
  intro f hc hh
  rcases configured_admits s call f with hin | ⟨_,hsame⟩
  · exact hin
  · rw [hsame]
    exact h f hc hh

theorem default_admits (f : Field) : f.Admits f.default := by
  cases f <;> decide

theorem ranged_startUp (calls : List SimCall) : Ranged (startUp calls) := by
  have hb := bounded_configure calls
  intro f hcool hhyst
  cases f
  case mass =>
    rw [startUp_mass]
    split
    · exact ⟨hb.low _ ‹_›,hb.high _⟩
    · have hbounds := derivedMass_bounds ((startUp calls).value .power).toNat ((startUp calls).value .ramp).toNat
      exact ⟨Int.ofNat_le.mpr hbounds.1,Int.ofNat_le.mpr hbounds.2⟩
  case cond =>
    rw [startUp_cond]
    split
    · exact ⟨hb.low _ ‹_›,hb.high _⟩
    · have hbounds := derivedCond_bounds ((startUp calls).value .mass).toNat
      exact ⟨Int.ofNat_le.mpr hbounds.1,Int.ofNat_le.mpr hbounds.2⟩
  case cooldown => exact absurd rfl hcool
  case hysteresis => exact absurd rfl hhyst
  all_goals
    rw [startUp_value calls (by decide) (by decide)]
    split
    · exact ⟨hb.low _ ‹_›,hb.high _⟩
    · exact default_admits _

/-- The ranges of `phy_state_t`. -/
structure PhyState.InRange (phy : PhyState) : Prop where
  ramp : minRamp ≤ phy.rampTimeS ∧ phy.rampTimeS ≤ maxRamp
  mass : minMass ≤ phy.thermalMass ∧ phy.thermalMass ≤ maxMass
  cond : minCond ≤ phy.boardConduct ∧ phy.boardConduct ≤ maxCond
  power : minPwr ≤ phy.heaterPower ∧ phy.heaterPower ≤ maxPwr
  latency : minLat ≤ phy.sensorLatencyMs ∧ phy.sensorLatencyMs ≤ maxLat
  ambient : minAmb ≤ phy.ambientTempMC ∧ phy.ambientTempMC ≤ maxAmb

theorem Ranged.inRange {s : Sim} (h : Ranged s) : s.ctx.phy.InRange := by
  have hnat : ∀ {lo v hi : ℕ}, (lo : ℤ) ≤ v ∧ (v : ℤ) ≤ hi → lo ≤ v ∧ v ≤ hi :=
    fun h => ⟨Int.ofNat_le.mp h.1,Int.ofNat_le.mp h.2⟩
  have hfield : ∀ f : Field, f ≠ .cooldown ∧ f ≠ .hysteresis → f.Admits (s.value f) := fun f hf => h f hf.1 hf.2
  exact ⟨hnat (hfield .ramp (by decide)),hnat (hfield .mass (by decide)),hnat (hfield .cond (by decide)),
    hnat (hfield .power (by decide)),hnat (hfield .latency (by decide)),hfield .ambient (by decide)⟩

/-- The products that the derivations and the physics compute fit their types: `int` before the
division, `uint16_t` behind it. -/
structure PhyState.Fits (phy : PhyState) : Prop where
  product : phy.heaterPower * phy.rampTimeS < 2 ^ 31
  mass : phy.heaterPower * phy.rampTimeS / 100 < 2 ^ 16
  cond : heaterUnitPower + phy.thermalMass * 20 < 2 ^ 16
  fans : phy.heaterPower * 3 < 2 ^ 31 ∧ phy.heaterPower * 4 < 2 ^ 31

theorem fits_of_le {phy : PhyState} (hramp : phy.rampTimeS ≤ maxRamp) (hmass : phy.thermalMass ≤ maxMass)
    (hpower : phy.heaterPower ≤ maxPwr) : phy.Fits := by
  have hproduct : phy.heaterPower * phy.rampTimeS ≤ maxPwr * maxRamp := Nat.mul_le_mul hpower hramp
  simp only [maxPwr,maxRamp,maxMass] at hproduct hmass hpower
  constructor
  case product => omega
  case mass => omega
  case cond =>
    unfold heaterUnitPower
    omega
  case fans => omega

theorem Bounded.fits {s : Sim} (h : Bounded s) : s.ctx.phy.Fits :=
  fits_of_le (Int.ofNat_le.mp (h.high .ramp)) (Int.ofNat_le.mp (h.high .mass)) (Int.ofNat_le.mp (h.high .power))

theorem plantStep_config {p q : Plant} {label : PlantLabel} (h : plantStep p label = some q) :
    (∃ call, q.sim = p.sim.configured call) ∨ q.sim.ctx.phy = p.sim.ctx.phy ∧ q.sim.cfg = p.sim.cfg := by
  cases label with
  | tick =>
    cases h
    rw [tick_sim]
    exact .inr ⟨rfl,rfl⟩
  | regulate =>
    cases h
    have hkept := kept_of_frame (regulation_frame p).1
    exact .inr ⟨hkept.phy,hkept.cfg⟩
  | kick =>
    cases h
    exact .inr ⟨rfl,rfl⟩
  | setCfg call =>
    cases h
    exact .inl ⟨call,rfl⟩
  | restart =>
    cases h
    right
    unfold simStart simSuspend
    by_cases hs : p.suspended = true
    · rw [if_pos hs,if_pos hs]
      exact ⟨rfl,rfl⟩
    · rw [if_neg hs]
      exact ⟨rfl,rfl⟩

theorem value_of_config {s t : Sim} (hphy : t.ctx.phy = s.ctx.phy) (hcfg : t.cfg = s.cfg) (f : Field) :
    t.value f = s.value f := by
  unfold Sim.value
  rw [hphy,hcfg]

theorem reachable_ranged {calls : List SimCall} {p₀ p : Plant} {labels : List PlantLabel} (h₀ : p₀.sim = startUp calls)
    (h : exec plantStep p₀ labels = some p) : Ranged p.sim := by
  refine reachable (I := fun p => Ranged p.sim) plantStep ?_ (h₀ ▸ ranged_startUp calls) h
  intro p label q hp hq
  rcases plantStep_config hq with ⟨call,hsim⟩ | ⟨hphy,hcfg⟩
  · rw [hsim]
    exact hp.configured call
  · intro f hc hh
    rw [value_of_config hphy hcfg]
    exact hp f hc hh

/-- Whatever was configured before the start, the parameters of the physics lie in their ranges in
every state of the started simulator. So its divisors are not zero, and neither its products nor
those of the derivations, made before the start too, overflow. -/
theorem physics_inRange {calls : List SimCall} {p₀ p : Plant} {labels : List PlantLabel} (h₀ : p₀.sim = startUp calls)
    (h : exec plantStep p₀ labels = some p) :
    p.sim.ctx.phy.InRange ∧ (p.sim.ctx.phy.thermalMass ≠ 0 ∧ p.sim.ctx.phy.boardConduct ≠ 0) ∧ p.sim.ctx.phy.Fits ∧
      (configure calls).ctx.phy.Fits := by
  have hin := (reachable_ranged h₀ h).inRange
  refine ⟨hin,⟨?_,?_⟩,fits_of_le hin.ramp.2 hin.mass.2 hin.power.2,(bounded_configure calls).fits⟩
  · exact Nat.ne_of_gt (Nat.lt_of_lt_of_le (by decide) hin.mass.1)
  · exact Nat.ne_of_gt (Nat.lt_of_lt_of_le (by decide) hin.cond.1)

/-- A ramp of 15 seconds is all that is set before the start, and a power of 8000 behind it. -/
def rampThenPower : List SimCall × List PlantLabel :=
  ([⟨1,⟨0x0F02⟩,⟨0⟩⟩],[.tick,.setCfg ⟨1,⟨0x1F40000000000010⟩,⟨0⟩⟩])

theorem physics_inRange_once : ∃ p, exec plantStep (Plant.init (startUp rampThenPower.1)) rampThenPower.2 = some p ∧
    p.sim.ctx.phy.thermalMass = 1000 ∧ p.sim.ctx.phy.InRange := by
  have hrun : exec plantStep (Plant.init (startUp rampThenPower.1)) rampThenPower.2 = some _ := rfl
  have hstart : (Plant.init (startUp rampThenPower.1)).sim = startUp rampThenPower.1 := rfl
  exact ⟨_,hrun,by decide,(physics_inRange hstart hrun).1⟩

end EmbedTemplate.Thermal
