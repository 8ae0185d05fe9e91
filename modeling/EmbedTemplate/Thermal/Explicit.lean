import EmbedTemplate.Library.Machine
import EmbedTemplate.Thermal.Startup

/-! # Explicit and derived settings of a started simulator

Mass and conductance are derived twice: in `set_sim_cfg` itself, by the header of the packet,
and in `recalculate_thermal_matrix`, by the mask of what was ever supplied. The first replaces
what the second would leave alone.
-/
namespace EmbedTemplate.Thermal
open Bytes Machine

/-- The globals of a simulator that has just started, whatever was configured before. -/
def started (s : Sim) : Sim := resetSimState (tempCtrlCfgInit s) true

/-- The calls to a started simulator. -/
def configuredStep (s : Sim) (call : SimCall) : Option Sim := some (s.configured call)

/-- The mass that goes with the power and the ramp. -/
def Sim.massInUse (s : Sim) : ℤ := derivedMass (s.value .power).toNat (s.value .ramp).toNat

/-- The conductance that goes with the mass. -/
def Sim.condInUse (s : Sim) : ℤ := derivedCond (s.value .mass).toNat

/-- Mass and conductance are the derived ones, unless they were supplied. -/
structure Sim.Derived (s : Sim) : Prop where
  mass : s.present .mass = false → s.value .mass = s.massInUse
  cond : s.present .cond = false → s.value .cond = s.condInUse

/-- What a PHY packet alone leaves. -/
def Sim.alone (s : Sim) (pkt : StreamT) : Sim := s.configured ⟨1,pkt,⟨0⟩⟩

/-- What a PHY packet leaves that is followed by an empty second one. -/
def Sim.followed (s : Sim) (pkt : StreamT) : Sim := s.configured ⟨2,pkt,⟨0⟩⟩

/-- A call respects what was supplied before it, and derives the rest. -/
structure Respects (s : Sim) (call : SimCall) : Prop where
  mass : s.present .mass = true → call.accepted .mass = none → (s.configured call).value .mass = s.value .mass
  cond : s.present .cond = true → call.accepted .cond = none → (s.configured call).value .cond = s.value .cond
  derived : (s.configured call).Derived
  alone : 1 ≤ call.len → ∀ f, f ≠ .latency → (s.alone call.first).value f = (s.followed call.first).value f

/-- The mass that a call derives from its power and ramp, or those in use. -/
def Sim.massFrom (s : Sim) (call : SimCall) : ℤ :=
  derivedMass ((call.accepted .power).getD (s.value .power)).toNat ((call.accepted .ramp).getD (s.value .ramp)).toNat

/-- The conductance that a call derives from its mass, or the derived one. -/
def Sim.condFrom (s : Sim) (call : SimCall) : ℤ := derivedCond ((call.accepted .mass).getD (s.massFrom call)).toNat

/-- A call with ramp or power finds the supplied mass and conductance as it would derive them, and one with a mass
alone does not change the conductance that goes with it. -/
structure Consistent (s : Sim) (call : SimCall) : Prop where
  mass : s.present .mass = true → call.accepted .mass = none → derives call.accepted = true →
    s.massFrom call = s.value .mass
  cond : s.present .cond = true → call.accepted .cond = none → derives call.accepted = true →
    s.condFrom call = s.value .cond
  alone : s.present .cond = false → call.accepted .cond = none → derives call.accepted = false →
    ∀ v, call.accepted .mass = some v → (derivedCond v.toNat : ℤ) = s.value .cond

/-- What the second packet does to a started simulator. -/
structure Adjusted (acc : Field → Option ℤ) (s t : Sim) : Prop where
  value : ∀ f, f ≠ .mass → f ≠ .cond → f ≠ .latency → t.value f = (acc f).getD (s.value f)
  mass : t.value .mass = if s.present .mass then s.value .mass else s.massInUse
  cond : t.value .cond = if s.present .cond then s.value .cond else t.condInUse
  present : ∀ f, t.present f = (s.present f || (acc f).isSome)
  inUse : t.inUse = true

/-- What the recalculation does to the fields. -/
structure Recalculated (s t : Sim) : Prop where
  value : ∀ f, f ≠ .mass → f ≠ .cond → t.value f = s.value f
  mass : t.value .mass = if s.present .mass then s.value .mass else s.massInUse
  cond : t.value .cond = if s.present .cond then s.value .cond else t.condInUse
  present : ∀ f, t.present f = s.present f
  inUse : t.inUse = s.inUse

theorem recalculate_mask (ctx : SimCtx) : (recalculateThermalMatrix ctx).mask = ctx.mask := by
  unfold recalculateThermalMatrix
  dsimp only
  split <;> split <;> rfl

theorem recalculated (s : Sim) : Recalculated s ⟨recalculateThermalMatrix s.ctx,s.cfg⟩ := by
  obtain ⟨hramp,hpower,hlatency,hambient⟩ := recalculate_kept s.ctx
  constructor
  case value =>
    intro f hm hc
    cases f <;> simp only [Sim.value,hramp,hpower,hlatency,hambient] at hm hc ⊢
    case mass => exact absurd rfl hm
    case cond => exact absurd rfl hc
  case mass =>
    simp only [Sim.value,recalculate_mass,Nat.cast_ite]
    rfl
  case cond =>
    simp only [Sim.value]
    rw [recalculate_cond,Nat.cast_ite]
    rfl
  case present =>
    intro f
    unfold Sim.present
    rw [recalculate_mask]
  case inUse =>
    unfold Sim.inUse
    rw [recalculate_mask]

/-- A started simulator recalculates, after it may have lowered the latency. -/
theorem adjustInUse_started {ctx : SimCtx} (h : ctx.mask.getLsbD 0 = true) : ∃ latency, adjustInUse ctx =
    recalculateThermalMatrix { ctx with phy := { ctx.phy with sensorLatencyMs := latency } } := by
  unfold adjustInUse
  rw [h]
  split
  case isTrue => exact ⟨10,if_pos h⟩
  case isFalse => exact ⟨ctx.phy.sensorLatencyMs,if_pos h⟩

theorem adjusted_secondPacket {s : Sim} (hs : s.inUse = true) (oor : BitVec 16) (pkt : StreamT) :
    Adjusted pkt.acceptedTemp s (secondPacket s oor pkt).sim := by
  obtain ⟨p,hsim,hval,hpres,huse⟩ := secondPacket_spec s pkt oor
  obtain ⟨latency,hadjust⟩ : ∃ latency, adjustInUse p.sim.ctx = _ := adjustInUse_started (huse.trans hs)
  have hrecalc := recalculated ⟨{ p.sim.ctx with phy := { p.sim.ctx.phy with sensorLatencyMs := latency } },p.sim.cfg⟩
  have hmass : p.sim.value .mass = s.value .mass := hval .mass
  have hcond : p.sim.value .cond = s.value .cond := hval .cond
  have hpower : p.sim.value .power = s.value .power := hval .power
  have hramp : p.sim.value .ramp = s.value .ramp := hval .ramp
  have hmassPresent : p.sim.present .mass = s.present .mass := (hpres .mass).trans (Bool.or_false _)
  have hcondPresent : p.sim.present .cond = s.present .cond := (hpres .cond).trans (Bool.or_false _)
  rw [hsim,hadjust]
  constructor
  case value =>
    intro f hm hc hl
    rw [hrecalc.value f hm hc,← hval f]
    cases f <;> first | rfl | exact absurd rfl hl
  case mass =>
    rw [hrecalc.mass]
    change (if p.sim.present .mass then p.sim.value .mass else p.sim.massInUse) = _
    rw [Sim.massInUse,hmassPresent,hmass,hpower,hramp]
    rfl
  case cond =>
    rw [hrecalc.cond]
    change (if p.sim.present .cond then p.sim.value .cond else _) = _
    rw [hcondPresent,hcond]
  case present =>
    intro f
    rw [hrecalc.present,← hpres f]
    rfl
  case inUse =>
    rw [hrecalc.inUse]
    exact huse.trans hs

theorem started_inUse (s : Sim) : (started s).inUse = true := by
  unfold started resetSimState Sim.inUse
  simp [-BitVec.getLsbD_eq_getElem,bit]

theorem present_marked (mask : BitVec 16) {n : ℕ} (hn : 0 < n) : (mask ||| bit 0).getLsbD n = mask.getLsbD n := by
  rw [BitVec.getLsbD_or,bit,BitVec.getLsbD_twoPow]
  simp [hn.ne]

theorem started_derived (s : Sim) : (started s).Derived := by
  unfold started resetSimState
  simp only [if_true]
  generalize hctx : ({ (tempCtrlCfgInit s).ctx with tempMC := _, phy := _ } : SimCtx) = ctx
  have hrecalc := recalculated ⟨ctx,s.cfg⟩
  constructor
  case mass =>
    intro h
    rw [Sim.present,present_marked _ (by decide),recalculate_mask] at h
    have habsent : (⟨ctx,s.cfg⟩ : Sim).present .mass = false := h
    have hmass := hrecalc.mass
    rw [habsent,if_neg Bool.false_ne_true] at hmass
    refine hmass.trans ?_
    rw [Sim.massInUse,← hrecalc.value .power (by decide) (by decide),← hrecalc.value .ramp (by decide) (by decide)]
    rfl
  case cond =>
    intro h
    rw [Sim.present,present_marked _ (by decide),recalculate_mask] at h
    have habsent : (⟨ctx,s.cfg⟩ : Sim).present .cond = false := h
    have hcond := hrecalc.cond
    rw [habsent,if_neg Bool.false_ne_true] at hcond
    exact hcond

section Step
variable {s : Sim} {call : SimCall}

/-- A call to a started simulator: nothing, a PHY packet alone, or one with a second packet behind it. -/
theorem configured_cases (hs : s.inUse = true) (call : SimCall) :
    (call.len < 1 ∧ s.configured call = s) ∨
    (call.len = 1 ∧ s.configured call = (firstPacket s call.first).sim) ∨
    (2 ≤ call.len ∧ Adjusted call.second.acceptedTemp (firstPacket s call.first).sim (s.configured call)) := by
  have huse : (firstPacket s call.first).sim.inUse = true := (configured_firstPacket s call.first).inUse.trans hs
  unfold Sim.configured setSimCfg
  by_cases hzero : call.len < 1
  · rw [if_pos hzero]
    exact .inl ⟨hzero,rfl⟩
  · rw [if_neg hzero]
    by_cases hone : call.len = 1
    · rw [if_neg (by omega),if_pos hone]
      exact .inr (.inl ⟨hone,rfl⟩)
    · refine .inr (.inr ⟨by omega,?_⟩)
      split
      case isTrue hskip =>
        have hidle : (firstPacket s call.first).sim = s := congrArg Progress.sim (firstPacket_idle s call.first hskip.1)
        rw [hidle]
        exact adjusted_secondPacket hs _ _
      case isFalse => exact adjusted_secondPacket huse _ _

theorem accepted_first (hlen : 1 ≤ call.len) {f : Field} (hf : call.second.acceptedTemp f = none) :
    call.accepted f = call.first.acceptedPhy f := by
  rw [SimCall.accepted,hf,ite_self,Option.none_or,if_pos hlen]

theorem derives_first (hlen : 1 ≤ call.len) : derives call.accepted = derives call.first.acceptedPhy := by
  rw [derives,derives,accepted_first hlen rfl,accepted_first hlen rfl]

/-- A packet leaves the same alone and followed by an empty one exactly if what was not supplied is derived. -/
theorem alone_iff (hs : s.inUse = true) (pkt : StreamT) :
    (∀ f, f ≠ .latency → (s.alone pkt).value f = (s.followed pkt).value f) ↔ (firstPacket s pkt).sim.Derived := by
  have halone : s.alone pkt = (firstPacket s pkt).sim := by
    rcases configured_cases hs ⟨1,pkt,⟨0⟩⟩ with ⟨hlen,_⟩ | ⟨_,h⟩ | ⟨hlen,_⟩
    · exact absurd hlen (by simp)
    · exact h
    · exact absurd hlen (by simp)
  have hfollowed : Adjusted (StreamT.acceptedTemp ⟨0⟩) (firstPacket s pkt).sim (s.followed pkt) := by
    rcases configured_cases hs ⟨2,pkt,⟨0⟩⟩ with ⟨hlen,_⟩ | ⟨hlen,_⟩ | ⟨_,h⟩
    · exact absurd hlen (by simp)
    · exact absurd hlen (by simp)
    · exact h
  rw [halone]
  generalize (firstPacket s pkt).sim = mid at hfollowed ⊢
  constructor
  · intro h
    have hmass := h .mass (by decide)
    have hcond := h .cond (by decide)
    rw [hfollowed.mass] at hmass
    rw [hfollowed.cond,Sim.condInUse,← h .mass (by decide)] at hcond
    constructor
    case mass =>
      intro habsent
      rwa [habsent] at hmass
    case cond =>
      intro habsent
      rwa [habsent] at hcond
  · intro h f hlatency
    have hmass : (s.followed pkt).value .mass = mid.value .mass := by
      rw [hfollowed.mass]
      split
      case isTrue => rfl
      case isFalse habsent => exact (h.mass (Bool.eq_false_of_not_eq_true habsent)).symm
    by_cases hm : f = .mass
    · rw [hm,hmass]
    by_cases hc : f = .cond
    · rw [hc,hfollowed.cond,Sim.condInUse,hmass]
      split
      case isTrue => rfl
      case isFalse habsent => exact h.cond (Bool.eq_false_of_not_eq_true habsent)
    · rw [hfollowed.value f hm hc hlatency]
      cases f <;> rfl

/-- What was not supplied stays derived behind the first packet, unless a mass comes alone. -/
theorem derived_iff (hd : s.Derived) (hlen : 1 ≤ call.len) : (firstPacket s call.first).sim.Derived ↔
    (s.present .cond = false → call.accepted .cond = none → derives call.accepted = false →
      ∀ v, call.accepted .mass = some v → (derivedCond v.toNat : ℤ) = s.value .cond) := by
  have hmid := configured_firstPacket s call.first
  rw [accepted_first hlen rfl,accepted_first hlen rfl,derives_first hlen]
  generalize (firstPacket s call.first).sim = mid at hmid ⊢
  have hpower := hmid.value .power (by decide) (by decide)
  have hramp := hmid.value .ramp (by decide) (by decide)
  have hmassPresent := hmid.present .mass
  have hcondPresent := hmid.present .cond
  have hmass := hmid.mass
  have hcond := hmid.cond
  constructor
  · intro h hs hnone hderives v hv
    rw [hv,Option.getD_some] at hmass
    rw [hnone,hderives] at hcond
    rw [hs,hnone] at hcondPresent
    have hkept : mid.value .cond = s.value .cond := hcond
    rw [← hkept,h.cond hcondPresent,Sim.condInUse,hmass]
  · intro h
    constructor
    case mass =>
      intro habsent
      rw [hmassPresent,Bool.or_eq_false_iff,Option.isSome_eq_false_iff,Option.isNone_iff_eq_none] at habsent
      rw [habsent.2] at hmass
      cases hderives : derives call.first.acceptedPhy with
      | true =>
        rw [hderives] at hmass
        exact hmass
      | false =>
        rw [hderives] at hmass
        obtain ⟨hrampNone,hpowerNone⟩ : call.first.acceptedPhy .ramp = none ∧ call.first.acceptedPhy .power = none := by
          simpa [derives] using hderives
        rw [hrampNone] at hramp
        rw [hpowerNone] at hpower
        have hkept : mid.value .mass = s.value .mass := hmass
        rw [hkept,hd.mass habsent.1,Sim.massInUse,Sim.massInUse,hpower,hramp]
        rfl
    case cond =>
      intro habsent
      rw [hcondPresent,Bool.or_eq_false_iff,Option.isSome_eq_false_iff,Option.isNone_iff_eq_none] at habsent
      rw [habsent.2] at hcond
      cases hderives : derives call.first.acceptedPhy with
      | true =>
        rw [hderives] at hcond
        exact hcond
      | false =>
        rw [hderives] at hcond hmass
        have hkept : mid.value .cond = s.value .cond := hcond
        cases hv : call.first.acceptedPhy .mass with
        | some v =>
          rw [hv,Option.getD_some] at hmass
          rw [hkept,Sim.condInUse,hmass]
          exact (h habsent.1 habsent.2 hderives v hv).symm
        | none =>
          rw [hv] at hmass
          have hkeptMass : mid.value .mass = s.value .mass := hmass
          rw [hkept,hd.cond habsent.1,Sim.condInUse,Sim.condInUse,hkeptMass]

/-- A supplied mass is still there behind the first packet exactly if that derives none, or the same one. -/
theorem mass_kept_iff (hlen : 1 ≤ call.len) (hnone : call.accepted .mass = none) :
    (firstPacket s call.first).sim.value .mass = s.value .mass ↔
      (derives call.accepted = true → s.massFrom call = s.value .mass) := by
  have hmid := configured_firstPacket s call.first
  have hmass := hmid.mass
  rw [← accepted_first hlen rfl,hnone,← derives_first hlen,hmid.value .power (by decide) (by decide),
    hmid.value .ramp (by decide) (by decide),← accepted_first hlen rfl,← accepted_first hlen rfl] at hmass
  rw [hmass]
  cases derives call.accepted
  · exact iff_of_true rfl fun h => absurd h Bool.false_ne_true
  · exact ⟨fun h _ => h,fun h => h rfl⟩

theorem cond_kept_iff (hlen : 1 ≤ call.len) (hnone : call.accepted .cond = none) :
    (firstPacket s call.first).sim.value .cond = s.value .cond ↔
      (derives call.accepted = true → s.condFrom call = s.value .cond) := by
  have hmid := configured_firstPacket s call.first
  have hmass := hmid.mass
  have hcond := hmid.cond
  rw [← accepted_first hlen rfl,← derives_first hlen,hmid.value .power (by decide) (by decide),
    hmid.value .ramp (by decide) (by decide),← accepted_first hlen rfl,← accepted_first hlen rfl] at hmass
  rw [← accepted_first hlen rfl,hnone,← derives_first hlen,hmass] at hcond
  rw [hcond]
  cases derives call.accepted
  · exact iff_of_true rfl fun h => absurd h Bool.false_ne_true
  · exact ⟨fun h _ => h,fun h => h rfl⟩

theorem second_keeps (hs : s.inUse = true) (hlen : 1 ≤ call.len) {f : Field} (hf : f = .mass ∨ f = .cond)
    (hpresent : s.present f = true) : (s.configured call).value f = (firstPacket s call.first).sim.value f := by
  have hmidPresent : (firstPacket s call.first).sim.present f = true := by
    rw [(configured_firstPacket s call.first).present,hpresent,Bool.true_or]
  rcases configured_cases hs call with ⟨hzero,_⟩ | ⟨_,h⟩ | ⟨_,h⟩
  · omega
  · rw [h]
  · rcases hf with rfl | rfl
    · rw [h.mass,if_pos hmidPresent]
    · rw [h.cond,if_pos hmidPresent]

theorem Adjusted.derived {acc : Field → Option ℤ} {t : Sim} (h : Adjusted acc s t)
    (hacc : ∀ f, f = .mass ∨ f = .cond ∨ f = .power ∨ f = .ramp → acc f = none) : t.Derived := by
  have hpower := h.value .power (by decide) (by decide) (by decide)
  have hramp := h.value .ramp (by decide) (by decide) (by decide)
  rw [hacc .power (by decide)] at hpower
  rw [hacc .ramp (by decide)] at hramp
  constructor
  case mass =>
    intro habsent
    rw [h.present,Bool.or_eq_false_iff] at habsent
    rw [h.mass,habsent.1,Sim.massInUse,Sim.massInUse,hpower,hramp]
    rfl
  case cond =>
    intro habsent
    rw [h.present,Bool.or_eq_false_iff] at habsent
    rw [h.cond,habsent.1]
    rfl

theorem respects_iff (hs : s.inUse = true) (hd : s.Derived) (call : SimCall) : Respects s call ↔ Consistent s call := by
  by_cases hlen : 1 ≤ call.len
  · constructor
    · intro h
      constructor
      case mass =>
        intro hpresent hnone
        refine (mass_kept_iff hlen hnone).mp ?_
        rw [← second_keeps hs hlen (.inl rfl) hpresent]
        exact h.mass hpresent hnone
      case cond =>
        intro hpresent hnone
        refine (cond_kept_iff hlen hnone).mp ?_
        rw [← second_keeps hs hlen (.inr rfl) hpresent]
        exact h.cond hpresent hnone
      case alone => exact (derived_iff hd hlen).mp ((alone_iff hs call.first).mp (h.alone hlen))
    · intro h
      have hmid : (firstPacket s call.first).sim.Derived := (derived_iff hd hlen).mpr h.alone
      constructor
      case mass =>
        intro hpresent hnone
        rw [second_keeps hs hlen (.inl rfl) hpresent]
        exact (mass_kept_iff hlen hnone).mpr (h.mass hpresent hnone)
      case cond =>
        intro hpresent hnone
        rw [second_keeps hs hlen (.inr rfl) hpresent]
        exact (cond_kept_iff hlen hnone).mpr (h.cond hpresent hnone)
      case derived =>
        rcases configured_cases hs call with ⟨hzero,_⟩ | ⟨_,heq⟩ | ⟨_,hadjusted⟩
        · omega
        · rw [heq]
          exact hmid
        · apply hadjusted.derived
          rintro f (rfl | rfl | rfl | rfl) <;> rfl
      case alone => exact fun _ => (alone_iff hs call.first).mpr hmid
  · have hsame : s.configured call = s := by
      rcases configured_cases hs call with ⟨_,h⟩ | ⟨hone,_⟩ | ⟨htwo,_⟩
      · exact h
      · omega
      · omega
    have hnone : call.accepted = fun _ => none := by
      funext f
      rw [SimCall.accepted,if_neg (by omega),if_neg hlen]
      rfl
    refine iff_of_true ⟨fun _ _ => by rw [hsame],fun _ _ => by rw [hsame],by rwa [hsame],fun h => absurd h hlen⟩ ?_
    constructor <;> rw [hnone]
    case mass => exact fun _ _ hderives => absurd hderives (by decide)
    case cond => exact fun _ _ hderives => absurd hderives (by decide)
    case alone =>
      intro _ _ _ v hv
      cases hv

theorem configured_started (hs : s.inUse = true) (call : SimCall) : (s.configured call).inUse = true := by
  rcases configured_cases hs call with ⟨_,h⟩ | ⟨_,h⟩ | ⟨_,h⟩
  · rw [h]
    exact hs
  · rw [h]
    exact (configured_firstPacket s call.first).inUse.trans hs
  · exact h.inUse

end Step

/-- Every call of a run respects what was supplied explicitly exactly if every call is consistent with it. -/
theorem explicit_iff (s : Sim) (calls : List SimCall) :
    Meets configuredStep Respects (started s) calls ↔ Meets configuredStep Consistent (started s) calls := by
  apply meets_congr_guarded configuredStep (I := fun s => s.inUse = true ∧ s.Derived)
  · rintro s call t ⟨hs,_⟩ hrespects ht
    obtain rfl := Option.some.inj ht
    exact ⟨configured_started hs call,hrespects.derived⟩
  · exact fun s call h => respects_iff h.1 h.2 call
  · exact ⟨started_inUse s,started_derived s⟩

/-- A mass of 500 is set, and later a ramp of 5 seconds. -/
def massThenRamp : List SimCall := [⟨1,⟨0x01F40004⟩,⟨0⟩⟩,⟨1,⟨0x0502⟩,⟨0⟩⟩]

theorem massThenRamp_not_explicit : ¬Meets configuredStep Respects (started Sim.zero) massThenRamp := by
  intro h
  have hmass := ((h.2 _ rfl).1).mass (by decide) (by decide)
  revert hmass
  decide

end EmbedTemplate.Thermal
