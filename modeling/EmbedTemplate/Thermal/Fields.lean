import EmbedTemplate.Thermal.Config
import Mathlib.Data.BitVec
import Mathlib.Tactic.Common

/-! # What a configuration call accepts

The ten configurable fields of the simulator with their places in the packets, their
ranges and their presence bits, and what one `set_sim_cfg` call does to each of them
before the simulator is in use.
-/
namespace EmbedTemplate.Thermal
open Bytes

inductive Field where
  | ramp
  | mass
  | cond
  | power
  | latency
  | target
  | critical
  | cooldown
  | hysteresis
  | ambient
  deriving DecidableEq

def Sim.value (s : Sim) : Field → ℤ
  | .ramp => s.ctx.phy.rampTimeS
  | .mass => s.ctx.phy.thermalMass
  | .cond => s.ctx.phy.boardConduct
  | .power => s.ctx.phy.heaterPower
  | .latency => s.ctx.phy.sensorLatencyMs
  | .target => s.cfg.ctrl.tempTarget
  | .critical => s.cfg.ctrl.tempCritical
  | .cooldown => s.cfg.ctrl.tempCooldown
  | .hysteresis => s.cfg.ctrl.tempHysteresis
  | .ambient => s.ctx.phy.ambientTempMC

/-- The presence bit that `set_sim_cfg` sets. -/
def Sim.present (s : Sim) : Field → Bool
  | .ramp => s.ctx.mask.getLsbD 1
  | .mass => s.ctx.mask.getLsbD 2
  | .cond => s.ctx.mask.getLsbD 3
  | .power => s.ctx.mask.getLsbD 4
  | .latency => s.ctx.mask.getLsbD 9
  | .target => s.cfg.mask.getLsbD 10
  | .critical => s.cfg.mask.getLsbD 11
  | .cooldown => s.cfg.mask.getLsbD 12
  | .hysteresis => s.cfg.mask.getLsbD 13
  | .ambient => s.ctx.mask.getLsbD 14

/-- The simulator is in use once its start-up has run. -/
def Sim.inUse (s : Sim) : Bool := s.ctx.mask.getLsbD 0

def StreamT.announces (pkt : StreamT) (n : ℕ) : Bool := (BitVec.ofNat 8 (pkt.u8 0)).getLsbD n

/-- An announced value is accepted when it is in range. -/
def inRange (announced : Bool) (val lo hi : ℤ) : Option ℤ :=
  if announced = true ∧ lo ≤ val ∧ val ≤ hi then some val else none

/-- What the first packet supplies. -/
def StreamT.acceptedPhy (pkt : StreamT) : Field → Option ℤ
  | .ramp => inRange (pkt.announces 1) (pkt.u8 1) minRamp maxRamp
  | .mass => inRange (pkt.announces 2) (pkt.u16 1) minMass maxMass
  | .cond => inRange (pkt.announces 3) (pkt.u16 2) minCond maxCond
  | .power => inRange (pkt.announces 4) (pkt.u16 3) minPwr maxPwr
  | _ => none

/-- What the second packet supplies. -/
def StreamT.acceptedTemp (pkt : StreamT) : Field → Option ℤ
  | .latency => inRange (pkt.announces 1) (pkt.u8 1) minLat maxLat
  | .target => inRange (pkt.announces 2) (pkt.u8 2) minTempTarget maxTempTarget
  | .critical => inRange (pkt.announces 3) (pkt.u8 3) minTempCrit maxTempCrit
  | .cooldown => inRange (pkt.announces 4) (pkt.u8 4) minTempCool maxTempCool
  | .hysteresis => inRange (pkt.announces 5) (pkt.u8 5) minTempHyst maxTempHyst
  | .ambient => inRange (pkt.announces 6) (s16 (pkt.u16 3) * 1000) minAmb maxAmb
  | _ => none

/-- What a call supplies. -/
def SimCall.accepted (call : SimCall) (f : Field) : Option ℤ :=
  (if 2 ≤ call.len then call.second.acceptedTemp f else none).or
    (if 1 ≤ call.len then call.first.acceptedPhy f else none)

/-- What storing one field does: `v` is the value accepted for `f`, announced by bit `n`. -/
structure Took (p q : Progress) (f : Field) (n : ℕ) (v : Option ℤ) : Prop where
  value : ∀ g, q.sim.value g = if g = f then v.getD (p.sim.value g) else p.sim.value g
  present : ∀ g, q.sim.present g = (p.sim.present g || (decide (g = f) && v.isSome))
  hdr : ∀ k, k ≠ n → q.hdr.getLsbD k = p.hdr.getLsbD k
  inUse : q.sim.inUse = p.sim.inUse

theorem getLsbD_clear {hdr : BitVec 8} {n k : ℕ} (hk : k ≠ n) :
    (hdr &&& ~~~BitVec.twoPow 8 n).getLsbD k = hdr.getLsbD k := by
  rw [BitVec.getLsbD_and,BitVec.getLsbD_not,BitVec.getLsbD_twoPow]
  by_cases h8 : k < 8
  · simp [h8,Ne.symm hk]
  · rw [BitVec.getLsbD_of_ge _ _ (by omega),Bool.false_and]

section Take
variable {p : Progress} {f : Field} {n : ℕ}

theorem Took.skipped {hdr : BitVec 8} (oor : BitVec 16) (hhdr : ∀ k, k ≠ n → hdr.getLsbD k = p.hdr.getLsbD k) :
    Took p ⟨p.sim,hdr,oor⟩ f n none :=
  ⟨fun g => by split <;> rfl,fun g => by simp,hhdr,rfl⟩

theorem Took.stored {sim : Sim} {val : ℤ} (hval : ∀ g, sim.value g = if g = f then val else p.sim.value g)
    (hbit : ∀ g, sim.present g = (p.sim.present g || decide (g = f))) (huse : sim.inUse = p.sim.inUse) :
    Took p ⟨sim,p.hdr,p.oor⟩ f n (some val) :=
  ⟨hval,fun g => by rw [hbit,Option.isSome_some,Bool.and_true],fun _ _ => rfl,huse⟩

/-- A field that is stored when it is announced and in range, and else skipped or left alone. -/
theorem Took.take {stored skipped : Progress} {val lo hi : ℤ} {inside : Prop} [Decidable inside]
    (hinside : inside ↔ lo ≤ val ∧ val ≤ hi) (hstored : Took p stored f n (some val))
    (hskipped : Took p skipped f n none) :
    Took p (if p.hdr.getLsbD n then if inside then stored else skipped else p) f n
      (inRange (p.hdr.getLsbD n) val lo hi) := by
  rw [inRange]
  split
  · rename_i hann
    split
    · rename_i hin
      rwa [if_pos ⟨hann,hinside.mp hin⟩]
    · rename_i hin
      rwa [if_neg fun h => hin (hinside.mpr h.2)]
  · rename_i hann
    rw [if_neg fun h => hann h.1]
    exact Took.skipped _ fun _ _ => rfl

variable {phy : PhyState}

theorem took_takePhy (f : Field) {val lo hi : ℕ} (hn : 0 < n)
    (hval : ∀ m g, Sim.value ⟨{ p.sim.ctx with phy := phy, mask := m },p.sim.cfg⟩ g =
      if g = f then (val : ℤ) else p.sim.value g)
    (hbit : ∀ g, Sim.present ⟨{ p.sim.ctx with phy := phy, mask := p.sim.ctx.mask ||| bit n },p.sim.cfg⟩ g =
      (p.sim.present g || decide (g = f))) :
    Took p (p.takePhy n val lo hi phy) f n (inRange (p.hdr.getLsbD n) val lo hi) :=
  Took.take (by norm_cast) (Took.stored (hval _) hbit (by simp [Sim.inUse,bit,hn.ne]))
    (Took.skipped _ fun _ hk => getLsbD_clear hk)

theorem took_takeTemp (f : Field) {val lo hi : ℕ} {ctrl : TempCtrlCfg}
    (hval : ∀ m g, Sim.value ⟨p.sim.ctx,⟨ctrl,m⟩⟩ g = if g = f then (val : ℤ) else p.sim.value g)
    (hbit : ∀ g, Sim.present ⟨p.sim.ctx,⟨ctrl,p.sim.cfg.mask ||| bit (n + 8)⟩⟩ g =
      (p.sim.present g || decide (g = f))) :
    Took p (p.takeTemp n val lo hi ctrl) f n (inRange (p.hdr.getLsbD n) val lo hi) :=
  Took.take (by norm_cast) (Took.stored (hval _) hbit rfl) (Took.skipped _ fun _ _ => rfl)

theorem took_takeCtx (f : Field) {val lo hi : ℤ}
    (hval : ∀ m g, Sim.value ⟨{ p.sim.ctx with phy := phy, mask := m },p.sim.cfg⟩ g =
      if g = f then val else p.sim.value g)
    (hbit : ∀ g, Sim.present ⟨{ p.sim.ctx with phy := phy, mask := p.sim.ctx.mask ||| bit (n + 8) },p.sim.cfg⟩ g =
      (p.sim.present g || decide (g = f))) :
    Took p (p.takeCtx n val lo hi phy) f n (inRange (p.hdr.getLsbD n) val lo hi) :=
  Took.take Iff.rfl (Took.stored (hval _) hbit (by simp [Sim.inUse,bit])) (Took.skipped _ fun _ _ => rfl)

theorem takePhy_hdr {val lo hi : ℕ} (hn : n < 8) :
    (p.takePhy n val lo hi phy).hdr.getLsbD n = (inRange (p.hdr.getLsbD n) val lo hi).isSome := by
  rw [Progress.takePhy,inRange]
  split
  · rename_i hann
    split
    · rename_i hin
      rw [if_pos ⟨hann,by exact_mod_cast hin⟩]
      exact hann
    · rename_i hin
      rw [if_neg fun h => hin (by exact_mod_cast h.2)]
      simp [-BitVec.getLsbD_eq_getElem,hn]
  · rename_i hann
    rw [if_neg fun h => hann h.1]
    exact Bool.eq_false_of_not_eq_true hann

end Take

section Packets
variable (s : Sim) (pkt : StreamT)

/-- The four fields of the first packet, before mass and conductance are derived. -/
theorem firstPacket_spec : ∃ p : Progress,
    (firstPacket s pkt).sim = ⟨{ p.sim.ctx with phy := derivePhy p.hdr p.phy },p.sim.cfg⟩ ∧
    (∀ f, p.sim.value f = (pkt.acceptedPhy f).getD (s.value f)) ∧
    (∀ f, p.sim.present f = (s.present f || (pkt.acceptedPhy f).isSome)) ∧ p.sim.inUse = s.inUse ∧
    p.hdr.getLsbD 1 = (pkt.acceptedPhy .ramp).isSome ∧ p.hdr.getLsbD 2 = (pkt.acceptedPhy .mass).isSome ∧
    p.hdr.getLsbD 3 = (pkt.acceptedPhy .cond).isSome ∧ p.hdr.getLsbD 4 = (pkt.acceptedPhy .power).isSome := by
  let p0 : Progress := ⟨s,BitVec.ofNat 8 (pkt.u8 0),0⟩
  let p1 := p0.takePhy 1 (pkt.u8 1) minRamp maxRamp { p0.phy with rampTimeS := pkt.u8 1 }
  let p2 := p1.takePhy 2 (pkt.u16 1) minMass maxMass { p1.phy with thermalMass := pkt.u16 1 }
  let p3 := p2.takePhy 3 (pkt.u16 2) minCond maxCond { p2.phy with boardConduct := pkt.u16 2 }
  let p4 := p3.takePhy 4 (pkt.u16 3) minPwr maxPwr { p3.phy with heaterPower := pkt.u16 3 }
  have h1 : Took p0 p1 .ramp 1 _ := took_takePhy .ramp (by decide) (fun _ g => by cases g <;> rfl)
    (fun g => by cases g <;> simp [Sim.present,bit])
  have h2 : Took p1 p2 .mass 2 _ := took_takePhy .mass (by decide) (fun _ g => by cases g <;> rfl)
    (fun g => by cases g <;> simp [Sim.present,bit])
  have h3 : Took p2 p3 .cond 3 _ := took_takePhy .cond (by decide) (fun _ g => by cases g <;> rfl)
    (fun g => by cases g <;> simp [Sim.present,bit])
  have h4 : Took p3 p4 .power 4 _ := took_takePhy .power (by decide) (fun _ g => by cases g <;> rfl)
    (fun g => by cases g <;> simp [Sim.present,bit])
  have hdr2 : p1.hdr.getLsbD 2 = pkt.announces 2 := h1.hdr 2 (by decide)
  have hdr3 : p2.hdr.getLsbD 3 = pkt.announces 3 := by
    rw [h2.hdr 3 (by decide),h1.hdr 3 (by decide)]
    rfl
  have hdr4 : p3.hdr.getLsbD 4 = pkt.announces 4 := by
    rw [h3.hdr 4 (by decide),h2.hdr 4 (by decide),h1.hdr 4 (by decide)]
    rfl
  rw [hdr2] at h2
  rw [hdr3] at h3
  rw [hdr4] at h4
  refine ⟨p4,rfl,fun f => ?_,fun f => ?_,?_,?_,?_,?_,?_⟩
  · rw [h4.value,h3.value,h2.value,h1.value]
    cases f <;> rfl
  · rw [h4.present,h3.present,h2.present,h1.present]
    cases f <;> simp [StreamT.acceptedPhy,p0]
    rfl
  · rw [h4.inUse,h3.inUse,h2.inUse,h1.inUse]
  · rw [h4.hdr 1 (by decide),h3.hdr 1 (by decide),h2.hdr 1 (by decide),takePhy_hdr (by decide)]
    rfl
  · rw [h4.hdr 2 (by decide),h3.hdr 2 (by decide),takePhy_hdr (by decide),hdr2]
    rfl
  · rw [h4.hdr 3 (by decide),takePhy_hdr (by decide),hdr3]
    rfl
  · rw [takePhy_hdr (by decide),hdr4]
    rfl

/-- The fields of the second packet, before a simulator in use adjusts itself. -/
theorem secondPacket_spec (oor : BitVec 16) : ∃ p : Progress,
    (secondPacket s oor pkt).sim = ⟨adjustInUse p.sim.ctx,p.sim.cfg⟩ ∧
    (∀ f, p.sim.value f = (pkt.acceptedTemp f).getD (s.value f)) ∧
    (∀ f, p.sim.present f = (s.present f || (pkt.acceptedTemp f).isSome)) ∧ p.sim.inUse = s.inUse := by
  let p0 : Progress := ⟨s,BitVec.ofNat 8 (pkt.u8 0),oor⟩
  let p1 := p0.takeCtx 1 (pkt.u8 1) minLat maxLat { p0.phy with sensorLatencyMs := pkt.u8 1 }
  let p2 := p1.takeTemp 2 (pkt.u8 2) minTempTarget maxTempTarget { p1.ctrl with tempTarget := pkt.u8 2 }
  let p3 := p2.takeTemp 3 (pkt.u8 3) minTempCrit maxTempCrit { p2.ctrl with tempCritical := pkt.u8 3 }
  let p4 := p3.takeTemp 4 (pkt.u8 4) minTempCool maxTempCool { p3.ctrl with tempCooldown := pkt.u8 4 }
  let p5 := p4.takeTemp 5 (pkt.u8 5) minTempHyst maxTempHyst { p4.ctrl with tempHysteresis := pkt.u8 5 }
  let p6 := p5.takeCtx 6 (s16 (pkt.u16 3) * 1000) minAmb maxAmb
    { p5.phy with ambientTempMC := s16 (pkt.u16 3) * 1000 }
  have h1 : Took p0 p1 .latency 1 _ := took_takeCtx .latency (fun _ g => by cases g <;> rfl)
    (fun g => by cases g <;> simp [Sim.present,bit])
  have h2 : Took p1 p2 .target 2 _ := took_takeTemp .target (fun _ g => by cases g <;> rfl)
    (fun g => by cases g <;> simp [Sim.present,bit])
  have h3 : Took p2 p3 .critical 3 _ := took_takeTemp .critical (fun _ g => by cases g <;> rfl)
    (fun g => by cases g <;> simp [Sim.present,bit])
  have h4 : Took p3 p4 .cooldown 4 _ := took_takeTemp .cooldown (fun _ g => by cases g <;> rfl)
    (fun g => by cases g <;> simp [Sim.present,bit])
  have h5 : Took p4 p5 .hysteresis 5 _ := took_takeTemp .hysteresis (fun _ g => by cases g <;> rfl)
    (fun g => by cases g <;> simp [Sim.present,bit])
  have h6 : Took p5 p6 .ambient 6 _ := took_takeCtx .ambient (fun _ g => by cases g <;> rfl)
    (fun g => by cases g <;> simp [Sim.present,bit])
  have hdr2 : p1.hdr.getLsbD 2 = pkt.announces 2 := h1.hdr 2 (by decide)
  have hdr3 : p2.hdr.getLsbD 3 = pkt.announces 3 := (h2.hdr 3 (by decide)).trans (h1.hdr 3 (by decide))
  have hdr4 : p3.hdr.getLsbD 4 = pkt.announces 4 :=
    (h3.hdr 4 (by decide)).trans ((h2.hdr 4 (by decide)).trans (h1.hdr 4 (by decide)))
  have hdr5 : p4.hdr.getLsbD 5 = pkt.announces 5 :=
    (h4.hdr 5 (by decide)).trans ((h3.hdr 5 (by decide)).trans
      ((h2.hdr 5 (by decide)).trans (h1.hdr 5 (by decide))))
  have hdr6 : p5.hdr.getLsbD 6 = pkt.announces 6 :=
    (h5.hdr 6 (by decide)).trans ((h4.hdr 6 (by decide)).trans ((h3.hdr 6 (by decide)).trans
      ((h2.hdr 6 (by decide)).trans (h1.hdr 6 (by decide)))))
  rw [hdr2] at h2
  rw [hdr3] at h3
  rw [hdr4] at h4
  rw [hdr5] at h5
  rw [hdr6] at h6
  refine ⟨p6,rfl,fun f => ?_,fun f => ?_,?_⟩
  · rw [h6.value,h5.value,h4.value,h3.value,h2.value,h1.value]
    cases f <;> rfl
  · rw [h6.present,h5.present,h4.present,h3.present,h2.present,h1.present]
    cases f <;> simp [StreamT.acceptedTemp,p0]
    rfl
  · rw [h6.inUse,h5.inUse,h4.inUse,h3.inUse,h2.inUse,h1.inUse]

theorem firstPacket_idle (h : pkt.u8 0 = 1) : firstPacket s pkt = ⟨s,1,0⟩ := by
  simp [firstPacket,h,Progress.takePhy,derivePhy,Progress.phy]

end Packets

section Derived
variable (hdr : BitVec 8) (phy : PhyState)

theorem derivePhy_kept : (derivePhy hdr phy).rampTimeS = phy.rampTimeS ∧
    (derivePhy hdr phy).heaterPower = phy.heaterPower ∧ (derivePhy hdr phy).sensorLatencyMs = phy.sensorLatencyMs ∧
    (derivePhy hdr phy).ambientTempMC = phy.ambientTempMC := by
  simp only [derivePhy]
  split <;> split <;> exact ⟨rfl,rfl,rfl,rfl⟩

theorem derivePhy_mass : (derivePhy hdr phy).thermalMass =
    if !hdr.getLsbD 2 && (hdr.getLsbD 1 || hdr.getLsbD 4) then derivedMass phy.heaterPower phy.rampTimeS
    else phy.thermalMass := by
  simp only [derivePhy]
  split <;> split <;> rfl

theorem derivePhy_cond : (derivePhy hdr phy).boardConduct =
    if !hdr.getLsbD 3 && (hdr.getLsbD 1 || hdr.getLsbD 4) then derivedCond (derivePhy hdr phy).thermalMass
    else phy.boardConduct := by
  simp only [derivePhy]
  split <;> split <;> rfl

end Derived

end EmbedTemplate.Thermal
