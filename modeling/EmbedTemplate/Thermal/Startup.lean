import EmbedTemplate.Library.LastWrite
import EmbedTemplate.Thermal.Fields

/-! # The configuration across the start-up of the simulator

Calls made before the simulation task first runs leave their values and presence bits in
the globals, where the start-up picks them up. Cooldown and hysteresis are picked up by
each other's bit, and a ramp or power accepted later replaces an accepted mass or
conductance.
-/
namespace EmbedTemplate.Thermal
open Bytes LastWrite

/-- Ramp or power is supplied, from which mass and conductance are derived. -/
def derives (acc : Field → Option ℤ) : Bool := (acc .ramp).isSome || (acc .power).isSome

/-- What a call that supplies `acc` does to a simulator that is not in use. -/
structure Configured (acc : Field → Option ℤ) (s t : Sim) : Prop where
  value : ∀ f, f ≠ .mass → f ≠ .cond → t.value f = (acc f).getD (s.value f)
  mass : t.value .mass = (acc .mass).getD
    (if derives acc then (derivedMass (t.value .power).toNat (t.value .ramp).toNat : ℤ) else s.value .mass)
  cond : t.value .cond = (acc .cond).getD
    (if derives acc then (derivedCond (t.value .mass).toNat : ℤ) else s.value .cond)
  present : ∀ f, t.present f = (s.present f || (acc f).isSome)
  inUse : t.inUse = s.inUse

theorem Configured.refl (s : Sim) : Configured (fun _ => none) s s :=
  ⟨fun _ _ _ => rfl,rfl,rfl,fun f => by simp,rfl⟩

theorem configured_firstPacket (s : Sim) (pkt : StreamT) :
    Configured pkt.acceptedPhy s (firstPacket s pkt).sim := by
  obtain ⟨p,hsim,hval,hpres,huse,h1,h2,h3,h4⟩ := firstPacket_spec s pkt
  obtain ⟨hramp,hpower,hlat,hamb⟩ := derivePhy_kept p.hdr p.sim.ctx.phy
  have hkept : ∀ f, f ≠ .mass → f ≠ .cond → (firstPacket s pkt).sim.value f = p.sim.value f := by
    intro f hm hc
    rw [hsim]
    cases f <;> simp [Sim.value,hramp,hpower,hlat,hamb,Progress.phy] at hm hc ⊢
  have hd : (p.hdr.getLsbD 1 || p.hdr.getLsbD 4) = derives pkt.acceptedPhy := by rw [h1,h4,derives]
  refine ⟨fun f hm hc => by rw [hkept f hm hc,hval],?_,?_,fun f => ?_,?_⟩
  · have hmass : (firstPacket s pkt).sim.value .mass = ((derivePhy p.hdr p.phy).thermalMass : ℤ) := by rw [hsim]; rfl
    have hold : (p.phy.thermalMass : ℤ) = (pkt.acceptedPhy .mass).getD (s.value .mass) := hval .mass
    rw [hmass,derivePhy_mass,h2,hd,hkept .power (by decide) (by decide),hkept .ramp (by decide) (by decide)]
    cases hacc : pkt.acceptedPhy .mass with
    | some v =>
      rw [hacc] at hold
      simpa using hold
    | none =>
      rw [hacc] at hold
      cases derives pkt.acceptedPhy
      · simpa using hold
      · simp [Sim.value,Progress.phy]
  · have hcond : (firstPacket s pkt).sim.value .cond = ((derivePhy p.hdr p.phy).boardConduct : ℤ) := by rw [hsim]; rfl
    have hmass : (firstPacket s pkt).sim.value .mass = ((derivePhy p.hdr p.phy).thermalMass : ℤ) := by rw [hsim]; rfl
    have hold : (p.phy.boardConduct : ℤ) = (pkt.acceptedPhy .cond).getD (s.value .cond) := hval .cond
    rw [hcond,derivePhy_cond,h3,hd,hmass]
    cases hacc : pkt.acceptedPhy .cond with
    | some v =>
      rw [hacc] at hold
      simpa using hold
    | none =>
      rw [hacc] at hold
      cases derives pkt.acceptedPhy
      · simpa using hold
      · simp
  · rw [← hpres,hsim]
    cases f <;> rfl
  · rw [← huse,hsim]
    rfl

theorem configured_secondPacket {acc : Field → Option ℤ} {s t : Sim} (h : Configured acc s t) (ht : t.inUse = false)
    (oor : BitVec 16) (pkt : StreamT) :
    Configured (fun f => (pkt.acceptedTemp f).or (acc f)) s (secondPacket t oor pkt).sim := by
  obtain ⟨p,hsim,hval,hpres,huse⟩ := secondPacket_spec t pkt oor
  have hadj : adjustInUse p.sim.ctx = p.sim.ctx := by
    have hmask : p.sim.ctx.mask.getLsbD 0 = false := huse.trans ht
    simp [adjustInUse,-BitVec.getLsbD_eq_getElem,hmask]
  rw [hadj] at hsim
  rw [show (secondPacket t oor pkt).sim = p.sim from hsim]
  have hphy : ∀ f, pkt.acceptedTemp f = none → p.sim.value f = t.value f := by
    intro f hf
    rw [hval,hf]
    rfl
  refine ⟨fun f hm hc => ?_,?_,?_,fun f => ?_,huse.trans h.inUse⟩
  · rw [hval,h.value f hm hc]
    cases pkt.acceptedTemp f <;> rfl
  · rw [hphy .mass rfl,hphy .power rfl,hphy .ramp rfl]
    exact h.mass
  · rw [hphy .cond rfl,hphy .mass rfl]
    exact h.cond
  · rw [hpres,h.present]
    cases pkt.acceptedTemp f <;> cases acc f <;> simp

theorem setSimCfg_configured {s : Sim} (hs : s.inUse = false) (call : SimCall) :
    Configured call.accepted s (setSimCfg s call).1 := by
  have hfirst := configured_firstPacket s call.first
  have huse : (firstPacket s call.first).sim.inUse = false := hfirst.inUse.trans hs
  rw [setSimCfg]
  by_cases hzero : call.len < 1
  · rw [if_pos hzero]
    have hacc : call.accepted = fun _ => none := by
      funext f
      rw [SimCall.accepted,if_neg (by omega),if_neg (by omega)]
      rfl
    rw [hacc]
    exact Configured.refl s
  · rw [if_neg hzero]
    by_cases hone : call.len = 1
    · have hacc : call.accepted = call.first.acceptedPhy := by
        funext f
        rw [SimCall.accepted,if_neg (by omega),if_pos (by omega)]
        rfl
      rw [hacc,if_neg (by omega),if_pos hone]
      exact hfirst
    · have hacc : call.accepted = fun f => (call.second.acceptedTemp f).or (call.first.acceptedPhy f) := by
        funext f
        rw [SimCall.accepted,if_pos (by omega),if_pos (by omega)]
      rw [hacc]
      split
      · rename_i hcont
        have hidle := firstPacket_idle s call.first hcont.1
        rw [hidle] at hfirst huse
        exact configured_secondPacket hfirst huse _ _
      · exact configured_secondPacket hfirst huse _ _

/-- The globals after a call. -/
def Sim.configured (s : Sim) (call : SimCall) : Sim := (setSimCfg s call).1

/-- The globals after calls made before the start-up. -/
def configure (calls : List SimCall) : Sim := calls.foldl Sim.configured Sim.zero

/-- The globals once the simulation task has started up. -/
def startUp (calls : List SimCall) : Sim := resetSimState (tempCtrlCfgInit (configure calls)) true

/-- The last value that some call supplied for a field. -/
def lastAccepted (calls : List SimCall) (f : Field) : Option ℤ := last (fun call => call.accepted f) calls

/-- The value of a field that nothing was supplied for. -/
def Field.default : Field → ℤ
  | .ramp => rampTimeDefault
  | .mass => chipThermalMass
  | .cond => boardConductance
  | .power => heaterUnitPower
  | .latency => sensorLatencyDefault
  | .target => tempTarget
  | .critical => tempCritical
  | .cooldown => tempCooldown
  | .hysteresis => tempHysteresis
  | .ambient => ambientTempMC

theorem configured_inUse (s : Sim) (call : SimCall) (hs : s.inUse = false) : (s.configured call).inUse = false :=
  (setSimCfg_configured hs call).inUse.trans hs

theorem zero_inUse : Sim.zero.inUse = false := rfl

theorem configure_inUse (calls : List SimCall) : (configure calls).inUse = false :=
  foldl_invariant (I := fun s : Sim => s.inUse = false) configured_inUse zero_inUse calls

theorem configure_value (calls : List SimCall) {f : Field} (hm : f ≠ .mass) (hc : f ≠ .cond) :
    (configure calls).value f = (lastAccepted calls f).getD 0 := by
  have hzero : Sim.zero.value f = 0 := by cases f <;> rfl
  rw [← hzero]
  exact foldl_last (f := fun s : Sim => s.value f) configured_inUse
    (fun s call hs => (setSimCfg_configured hs call).value f hm hc) zero_inUse calls

theorem configure_present (calls : List SimCall) (f : Field) :
    (configure calls).present f = (lastAccepted calls f).isSome := by
  have hzero : Sim.zero.present f = false := by cases f <;> rfl
  have hrun : (configure calls).present f = (Sim.zero.present f || (lastAccepted calls f).isSome) :=
    foldl_present (p := fun s : Sim => s.present f) configured_inUse
      (fun s call hs => (setSimCfg_configured hs call).present f) zero_inUse calls
  rw [hrun,hzero,Bool.false_or]

/-- The field behind whose presence bit the start-up looks for a field: cooldown and
hysteresis are mixed up. -/
def Field.pickedUpBy : Field → Field
  | .cooldown => .hysteresis
  | .hysteresis => .cooldown
  | f => f

theorem recalculate_kept (c : SimCtx) : (recalculateThermalMatrix c).phy.rampTimeS = c.phy.rampTimeS ∧
    (recalculateThermalMatrix c).phy.heaterPower = c.phy.heaterPower ∧
    (recalculateThermalMatrix c).phy.sensorLatencyMs = c.phy.sensorLatencyMs ∧
    (recalculateThermalMatrix c).phy.ambientTempMC = c.phy.ambientTempMC := by
  simp only [recalculateThermalMatrix]
  split <;> split <;> exact ⟨rfl,rfl,rfl,rfl⟩

theorem recalculate_mass (c : SimCtx) : (recalculateThermalMatrix c).phy.thermalMass =
    if c.mask.getLsbD 2 then c.phy.thermalMass else derivedMass c.phy.heaterPower c.phy.rampTimeS := by
  simp only [recalculateThermalMatrix]
  split <;> split <;> rfl

theorem recalculate_cond (c : SimCtx) : (recalculateThermalMatrix c).phy.boardConduct =
    if c.mask.getLsbD 3 then c.phy.boardConduct else derivedCond (recalculateThermalMatrix c).phy.thermalMass := by
  simp only [recalculateThermalMatrix]
  split <;> split <;> simp_all

theorem startUp_value (calls : List SimCall) {f : Field} (hm : f ≠ .mass) (hc : f ≠ .cond) : (startUp calls).value f =
    if (configure calls).present f.pickedUpBy then (configure calls).value f else f.default := by
  rw [startUp,resetSimState]
  cases f <;> simp only [Sim.value,if_true,tempCtrlCfgInit,recalculate_kept,Sim.present,Field.pickedUpBy,
    Field.default] at hm hc ⊢
  case mass => exact absurd rfl hm
  case cond => exact absurd rfl hc
  case ambient => rfl
  all_goals exact Nat.cast_ite _ _ _

theorem startUp_mass (calls : List SimCall) : (startUp calls).value .mass =
    if (configure calls).present .mass then (configure calls).value .mass
    else (derivedMass ((startUp calls).value .power).toNat ((startUp calls).value .ramp).toNat : ℤ) := by
  simp only [startUp,resetSimState,Sim.value,if_true,recalculate_mass,recalculate_kept,Int.toNat_natCast]
  change ((if (configure calls).present .mass then _ else _ : ℕ) : ℤ) = _
  split <;> rename_i hmass
  · exact congrArg Nat.cast (if_pos hmass)
  · rfl

theorem startUp_cond (calls : List SimCall) : (startUp calls).value .cond =
    if (configure calls).present .cond then (configure calls).value .cond
    else (derivedCond ((startUp calls).value .mass).toNat : ℤ) := by
  simp only [startUp,resetSimState,Sim.value,if_true,recalculate_cond,Int.toNat_natCast]
  change ((if (configure calls).present .cond then _ else _ : ℕ) : ℤ) = _
  split <;> rename_i hcond
  · exact congrArg Nat.cast (if_pos hcond)
  · rfl

/-- The configuration in use after the start-up is what was asked for. -/
structure Survives (calls : List SimCall) : Prop where
  fields : ∀ f, f ≠ .mass → f ≠ .cond → (startUp calls).value f = (lastAccepted calls f).getD f.default
  mass : (startUp calls).value .mass = (lastAccepted calls .mass).getD
    (derivedMass ((startUp calls).value .power).toNat ((startUp calls).value .ramp).toNat : ℤ)
  cond : (startUp calls).value .cond = (lastAccepted calls .cond).getD
    (derivedCond ((startUp calls).value .mass).toNat : ℤ)

/-- Behind the calls `before`, a call that supplies ramp or power but not `f` is the last
one to touch `f`. -/
def Rederived (calls : List SimCall) (f : Field) (before : List SimCall) (call : SimCall) : Prop :=
  derives call.accepted = true ∧ call.accepted f = none ∧
    ∃ later, calls = before ++ call :: later ∧ ∀ d ∈ later, derives d.accepted = false ∧ d.accepted f = none

/-- What has been supplied for a field so far, zero if nothing has. -/
def supplied (calls : List SimCall) (f : Field) : ℤ := (lastAccepted calls f).getD 0

/-- The mass derived in a call. -/
def massFor (before : List SimCall) (call : SimCall) : ℤ :=
  derivedMass (supplied (before ++ [call]) .power).toNat (supplied (before ++ [call]) .ramp).toNat

/-- The conductance derived in a call. -/
def condFor (before : List SimCall) (call : SimCall) : ℤ :=
  derivedCond ((call.accepted .mass).getD (massFor before call)).toNat

/-- Cooldown and hysteresis come together, and no accepted mass or conductance is replaced by
a different one derived later. -/
structure Undisturbed (calls : List SimCall) : Prop where
  together : (∃ call ∈ calls, (call.accepted .cooldown).isSome) ↔ ∃ call ∈ calls, (call.accepted .hysteresis).isSome
  mass : ∀ before call v, Rederived calls .mass before call → lastAccepted before .mass = some v →
    massFor before call = v
  cond : ∀ before call v, Rederived calls .cond before call → lastAccepted before .cond = some v →
    condFor before call = v

/-- The call has a say in `f`. -/
def Touches (f : Field) (call : SimCall) : Prop := call.accepted f ≠ none ∨ derives call.accepted = true

theorem not_touches {f : Field} {call : SimCall} (h : ¬Touches f call) :
    call.accepted f = none ∧ derives call.accepted = false := by
  rw [Touches,not_or,not_not,Bool.not_eq_true] at h
  exact h

theorem configured_mass {s : Sim} (hs : s.inUse = false) {call : SimCall} (h : ¬Touches .mass call) :
    (s.configured call).value .mass = s.value .mass := by
  obtain ⟨hnone,hder⟩ := not_touches h
  have hrule := (setSimCfg_configured hs call).mass
  rw [hnone,hder] at hrule
  exact hrule

theorem configured_cond {s : Sim} (hs : s.inUse = false) {call : SimCall} (h : ¬Touches .cond call) :
    (s.configured call).value .cond = s.value .cond := by
  obtain ⟨hnone,hder⟩ := not_touches h
  have hrule := (setSimCfg_configured hs call).cond
  rw [hnone,hder] at hrule
  exact hrule

/-- An accepted value is still there exactly if no later derivation has replaced it. -/
theorem kept_iff {f : Field}
    (hkeep : ∀ (s : Sim) call, s.inUse = false → ¬Touches f call → (s.configured call).value f = s.value f)
    (hset : ∀ (s : Sim) (call : SimCall) v, s.inUse = false → call.accepted f = some v → (s.configured call).value f = v)
    {calls : List SimCall} {v : ℤ} (hlast : lastAccepted calls f = some v) : (configure calls).value f = v ↔
      ∀ before call w, Rederived calls f before call → lastAccepted before f = some w →
        ((configure before).configured call).value f = w := by
  constructor
  · rintro h before call w ⟨hder,hnone,later,rfl,hlater⟩ hw
    have hquiet : ∀ d ∈ later, ¬Touches f d := by
      rintro d hd (hsome | hder')
      · exact hsome (hlater d hd).2
      · rw [(hlater d hd).1] at hder'
        cases hder'
    have hvw : lastAccepted (before ++ call :: later) f = lastAccepted before f :=
      last_append_of_none fun d hd => by
        rcases List.mem_cons.mp hd with rfl | hd
        · exact hnone
        · exact (hlater d hd).2
    have hrun : (configure (before ++ call :: later)).value f = ((configure before).configured call).value f := by
      rw [configure,List.foldl_append,List.foldl_cons]
      rcases foldl_written (f := fun s : Sim => s.value f) configured_inUse hkeep
        (configured_inUse _ call (configure_inUse before)) later with ⟨_,hf⟩ | ⟨_,d,_,hsplit,hd,_⟩
      · exact hf
      · exact absurd hd (hquiet d (by rw [hsplit]; simp))
    rw [hvw,hw,Option.some_inj] at hlast
    rw [← hrun,h,hlast]
  · intro h
    rcases foldl_written (f := fun s : Sim => s.value f) configured_inUse hkeep zero_inUse calls with
      ⟨hnone,_⟩ | ⟨before,call,later,hsplit,htouch,hlater,hf⟩
    · have hnil : lastAccepted ([] ++ calls) f = lastAccepted [] f :=
        last_append_of_none fun d hd => (not_touches (hnone d hd)).1
      rw [List.nil_append,hlast] at hnil
      cases hnil
    have hlater' : ∀ d ∈ later, derives d.accepted = false ∧ d.accepted f = none := fun d hd =>
      (not_touches (hlater d hd)).symm
    have hend : lastAccepted calls f = (call.accepted f).or (lastAccepted before f) := by
      rw [hsplit,lastAccepted,List.append_cons,last_append_of_none fun d hd => (hlater' d hd).2,last_snoc]
      rfl
    rw [hlast] at hend
    refine Eq.trans hf ?_
    cases hacc : call.accepted f with
    | some w =>
      rw [hacc,Option.some_or,Option.some_inj] at hend
      rw [hend]
      exact hset _ call w (configure_inUse before) hacc
    | none =>
      rw [hacc,Option.none_or] at hend
      refine h before call v ⟨htouch.resolve_left fun hne => hne hacc,hacc,later,hsplit,hlater'⟩ hend.symm

theorem configure_snoc (before : List SimCall) (call : SimCall) :
    (configure before).configured call = configure (before ++ [call]) := by
  rw [configure,configure,List.foldl_append,List.foldl_cons,List.foldl_nil]

theorem derived_mass (before : List SimCall) (call : SimCall) : ((configure before).configured call).value .mass =
    (call.accepted .mass).getD (if derives call.accepted then massFor before call else (configure before).value .mass) := by
  have hrule : ((configure before).configured call).value .mass = _ :=
    (setSimCfg_configured (configure_inUse before) call).mass
  have hpower : ((configure before).configured call).value .power = supplied (before ++ [call]) .power := by
    rw [configure_snoc]
    exact configure_value _ (by decide) (by decide)
  have hramp : ((configure before).configured call).value .ramp = supplied (before ++ [call]) .ramp := by
    rw [configure_snoc]
    exact configure_value _ (by decide) (by decide)
  rw [massFor,← hpower,← hramp]
  exact hrule

theorem rederived_mass {calls before : List SimCall} {call : SimCall} (h : Rederived calls .mass before call) :
    ((configure before).configured call).value .mass = massFor before call := by
  rw [derived_mass,h.1,h.2.1]
  rfl

theorem rederived_cond {calls before : List SimCall} {call : SimCall} (h : Rederived calls .cond before call) :
    ((configure before).configured call).value .cond = condFor before call := by
  have hrule : ((configure before).configured call).value .cond = _ :=
    (setSimCfg_configured (configure_inUse before) call).cond
  have hmass := derived_mass before call
  rw [h.1,if_pos rfl] at hmass
  rw [h.1,h.2.1] at hrule
  rw [hrule,condFor,← hmass]
  rfl

theorem kept_mass {calls : List SimCall} {v : ℤ} (hlast : lastAccepted calls .mass = some v) :
    (configure calls).value .mass = v ↔
      ∀ before call w, Rederived calls .mass before call → lastAccepted before .mass = some w →
        massFor before call = w := by
  rw [kept_iff (fun s call hs => configured_mass hs) (fun s call w hs hw => ?_) hlast]
  · refine forall₄_congr fun before call w h => ?_
    rw [rederived_mass h]
  · have hrule := (setSimCfg_configured hs call).mass
    rw [hw] at hrule
    exact hrule

theorem kept_cond {calls : List SimCall} {v : ℤ} (hlast : lastAccepted calls .cond = some v) :
    (configure calls).value .cond = v ↔
      ∀ before call w, Rederived calls .cond before call → lastAccepted before .cond = some w →
        condFor before call = w := by
  rw [kept_iff (fun s call hs => configured_cond hs) (fun s call w hs hw => ?_) hlast]
  · refine forall₄_congr fun before call w h => ?_
    rw [rederived_cond h]
  · have hrule := (setSimCfg_configured hs call).cond
    rw [hw] at hrule
    exact hrule

theorem lastAccepted_before {calls before : List SimCall} {f : Field} {call : SimCall}
    (h : Rederived calls f before call) : lastAccepted calls f = lastAccepted before f := by
  obtain ⟨_,hnone,later,rfl,hlater⟩ := h
  refine last_append_of_none fun d hd => ?_
  rcases List.mem_cons.mp hd with rfl | hd
  · exact hnone
  · exact (hlater d hd).2

theorem accepted_some_iff (calls : List SimCall) (f : Field) :
    (∃ call ∈ calls, (call.accepted f).isSome) ↔ (lastAccepted calls f).isSome = true := last_isSome.symm

/-- The fields arrive exactly if cooldown and hysteresis come together. -/
theorem fields_iff (calls : List SimCall) :
    (∀ f, f ≠ .mass → f ≠ .cond → (startUp calls).value f = (lastAccepted calls f).getD f.default) ↔
      ((lastAccepted calls .cooldown).isSome = true ↔ (lastAccepted calls .hysteresis).isSome = true) := by
  have hvalue : ∀ f, f ≠ .mass → f ≠ .cond → (startUp calls).value f =
      if (lastAccepted calls f.pickedUpBy).isSome then (lastAccepted calls f).getD 0 else f.default := by
    intro f hm hc
    rw [startUp_value calls hm hc,configure_present,configure_value calls hm hc]
  constructor
  · intro h
    have hcool : (if (lastAccepted calls .hysteresis).isSome then (lastAccepted calls .cooldown).getD 0
        else (tempCooldown : ℤ)) = (lastAccepted calls .cooldown).getD tempCooldown :=
      (hvalue .cooldown (by decide) (by decide)).symm.trans (h .cooldown (by decide) (by decide))
    have hhyst : (if (lastAccepted calls .cooldown).isSome then (lastAccepted calls .hysteresis).getD 0
        else (tempHysteresis : ℤ)) = (lastAccepted calls .hysteresis).getD tempHysteresis :=
      (hvalue .hysteresis (by decide) (by decide)).symm.trans (h .hysteresis (by decide) (by decide))
    cases hc : lastAccepted calls .cooldown <;> cases hh : lastAccepted calls .hysteresis <;>
      simp [hc,hh,tempCooldown,tempHysteresis] at hcool hhyst ⊢
  · intro h f hm hc
    rw [hvalue f hm hc]
    have hpicked : (lastAccepted calls f.pickedUpBy).isSome = (lastAccepted calls f).isSome := by
      cases f <;> first | rfl | exact Bool.eq_iff_iff.mpr h | exact Bool.eq_iff_iff.mpr h.symm
    rw [hpicked]
    cases lastAccepted calls f <;> rfl

/-- No value of a field that was never accepted is derived again. -/
theorem forall_rederived_of_none {calls : List SimCall} {f : Field} (hlast : lastAccepted calls f = none)
    {P : List SimCall → SimCall → ℤ → Prop} : ∀ before call v, Rederived calls f before call →
      lastAccepted before f = some v → P before call v := by
  intro before call v h hv
  rw [← lastAccepted_before h,hlast] at hv
  cases hv

theorem survives_iff (calls : List SimCall) : Survives calls ↔ Undisturbed calls := by
  have hmass : (startUp calls).value .mass = (lastAccepted calls .mass).getD
        (derivedMass ((startUp calls).value .power).toNat ((startUp calls).value .ramp).toNat : ℤ) ↔
      ∀ before call v, Rederived calls .mass before call → lastAccepted before .mass = some v →
        massFor before call = v := by
    rw [startUp_mass,configure_present]
    cases hlast : lastAccepted calls .mass with
    | some v => exact kept_mass hlast
    | none => exact iff_of_true rfl (forall_rederived_of_none hlast)
  have hcond : (startUp calls).value .cond = (lastAccepted calls .cond).getD
        (derivedCond ((startUp calls).value .mass).toNat : ℤ) ↔
      ∀ before call v, Rederived calls .cond before call → lastAccepted before .cond = some v →
        condFor before call = v := by
    rw [startUp_cond,configure_present]
    cases hlast : lastAccepted calls .cond with
    | some v => exact kept_cond hlast
    | none => exact iff_of_true rfl (forall_rederived_of_none hlast)
  have hfields := fields_iff calls
  rw [← accepted_some_iff,← accepted_some_iff] at hfields
  constructor
  · intro h
    exact ⟨hfields.mp h.fields,hmass.mp h.mass,hcond.mp h.cond⟩
  · intro h
    exact ⟨hfields.mpr h.together,hmass.mpr h.mass,hcond.mpr h.cond⟩

/-- One call with a cooldown of 80 degrees in its second packet, behind a bare continuation
header. -/
def cooldownOnly : SimCall := ⟨2,⟨0x01⟩,⟨0x5000000010⟩⟩

theorem cooldownOnly_not_survives : ¬Survives [cooldownOnly] := by
  intro h
  have hcool := h.fields .cooldown (by decide) (by decide)
  revert hcool
  decide

end EmbedTemplate.Thermal
