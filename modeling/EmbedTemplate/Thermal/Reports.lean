import EmbedTemplate.Library.Lanes
import EmbedTemplate.Thermal.Ranges

/-! # What a configuration call reports

`set_sim_cfg` returns a mask of the fields that were announced out of their range, each under a bit
of its own. The packets are words of lanes.
-/
namespace EmbedTemplate.Thermal
open Bytes Lanes

section Packets

def StreamT.setU8 (p : StreamT) (i v : ℕ) : StreamT := ⟨put p.all (8 * i) (BitVec.ofNat 8 v)⟩
def StreamT.setU16 (p : StreamT) (i v : ℕ) : StreamT := ⟨put p.all (16 * i) (BitVec.ofNat 16 v)⟩

variable (p : StreamT) {i j : ℕ} (v : ℕ)

theorem u8_eq_get (i : ℕ) : p.u8 i = (get p.all (8 * i) 8).toNat := (toNat_get _ _ _).symm
theorem u16_eq_get (i : ℕ) : p.u16 i = (get p.all (16 * i) 16).toNat := (toNat_get _ _ _).symm

theorem u8_setU8 (hi : i < 8) : (p.setU8 i v).u8 i = v % 2 ^ 8 := by
  rw [u8_eq_get,StreamT.setU8,get_put _ _ (by omega),BitVec.toNat_ofNat]

theorem u8_setU8_apart (h : j ≠ i) : (p.setU8 i v).u8 j = p.u8 j := by
  rw [u8_eq_get,u8_eq_get,StreamT.setU8,get_put_apart _ _ (by omega)]

theorem u8_setU16_apart (h : j < 2 * i ∨ 2 * i + 1 < j) : (p.setU16 i v).u8 j = p.u8 j := by
  rw [u8_eq_get,u8_eq_get,StreamT.setU16,get_put_apart _ _ (by omega)]

theorem u16_setU16 (hi : i < 4) : (p.setU16 i v).u16 i = v % 2 ^ 16 := by
  rw [u16_eq_get,StreamT.setU16,get_put _ _ (by omega),BitVec.toNat_ofNat]

theorem u16_setU16_apart (h : j ≠ i) : (p.setU16 i v).u16 j = p.u16 j := by
  rw [u16_eq_get,u16_eq_get,StreamT.setU16,get_put_apart _ _ (by omega)]

theorem u16_setU8_apart (h : i < 2 * j ∨ 2 * j + 1 < i) : (p.setU8 i v).u16 j = p.u16 j := by
  rw [u16_eq_get,u16_eq_get,StreamT.setU8,get_put_apart _ _ (by omega)]

end Packets

/-- The value of an announced field. -/
def StreamT.offer (pkt : StreamT) (n : ℕ) (v : ℤ) : Option ℤ := if pkt.announces n then some v else none

/-- The fields of the first packet, in range or not. -/
def StreamT.offersPhy (pkt : StreamT) : Field → Option ℤ
  | .ramp => pkt.offer 1 (pkt.u8 1)
  | .mass => pkt.offer 2 (pkt.u16 1)
  | .cond => pkt.offer 3 (pkt.u16 2)
  | .power => pkt.offer 4 (pkt.u16 3)
  | _ => none

/-- The fields of the second packet. -/
def StreamT.offersTemp (pkt : StreamT) : Field → Option ℤ
  | .latency => pkt.offer 1 (pkt.u8 1)
  | .target => pkt.offer 2 (pkt.u8 2)
  | .critical => pkt.offer 3 (pkt.u8 3)
  | .cooldown => pkt.offer 4 (pkt.u8 4)
  | .hysteresis => pkt.offer 5 (pkt.u8 5)
  | .ambient => pkt.offer 6 (s16 (pkt.u16 3) * 1000)
  | _ => none

/-- The fields of a call. -/
def SimCall.offers (call : SimCall) (f : Field) : Option ℤ :=
  (if 2 ≤ call.len then call.second.offersTemp f else none).or (if 1 ≤ call.len then call.first.offersPhy f else none)

/-- The bit under which a field is reported. -/
def Field.reportBit : Field → ℕ
  | .ramp => 1
  | .mass => 2
  | .cond => 3
  | .power => 4
  | .latency => 9
  | .target => 10
  | .critical => 11
  | .cooldown => 12
  | .hysteresis => 13
  | .ambient => 14

theorem reportBit_injective : Function.Injective Field.reportBit := by
  intro f g h
  cases f <;> cases g <;> first | rfl | cases h

/-- An announced value that is out of range. -/
def Field.refuses (f : Field) (offer : Option ℤ) : Bool := offer.any fun v => !decide (f.Admits v)

section Offers
variable {call : SimCall} {pkt : StreamT} {f : Field}

theorem inRange_eq_filter (f : Field) (pkt : StreamT) (n : ℕ) (v : ℤ) :
    inRange (pkt.announces n) v f.low f.high = (pkt.offer n v).filter fun v => decide (f.Admits v) := by
  unfold inRange StreamT.offer
  by_cases hann : pkt.announces n = true
  · by_cases hin : f.Admits v
    · rw [if_pos ⟨hann,hin⟩,if_pos hann,Option.filter_some,if_pos (decide_eq_true hin)]
    · rw [if_neg fun h => hin h.2,if_pos hann,Option.filter_some,if_neg (by rwa [decide_eq_true_iff])]
  · rw [if_neg fun h => hann h.1,if_neg hann]
    rfl

theorem acceptedPhy_eq (pkt : StreamT) (f : Field) :
    pkt.acceptedPhy f = (pkt.offersPhy f).filter fun v => decide (f.Admits v) := by
  cases f
  case ramp => exact inRange_eq_filter .ramp pkt 1 _
  case mass => exact inRange_eq_filter .mass pkt 2 _
  case cond => exact inRange_eq_filter .cond pkt 3 _
  case power => exact inRange_eq_filter .power pkt 4 _
  all_goals rfl

theorem acceptedTemp_eq (pkt : StreamT) (f : Field) :
    pkt.acceptedTemp f = (pkt.offersTemp f).filter fun v => decide (f.Admits v) := by
  cases f
  case latency => exact inRange_eq_filter .latency pkt 1 _
  case target => exact inRange_eq_filter .target pkt 2 _
  case critical => exact inRange_eq_filter .critical pkt 3 _
  case cooldown => exact inRange_eq_filter .cooldown pkt 4 _
  case hysteresis => exact inRange_eq_filter .hysteresis pkt 5 _
  case ambient => exact inRange_eq_filter .ambient pkt 6 _
  all_goals rfl

theorem offers_once (pkt pkt' : StreamT) (f : Field) : pkt.offersTemp f = none ∨ pkt'.offersPhy f = none := by
  cases f <;> first | exact .inl rfl | exact .inr rfl

theorem accepted_eq (call : SimCall) (f : Field) :
    call.accepted f = (call.offers f).filter fun v => decide (f.Admits v) := by
  unfold SimCall.accepted SimCall.offers
  rw [acceptedPhy_eq,acceptedTemp_eq]
  rcases offers_once call.second call.first f with hnone | hnone
  · rw [hnone,Option.filter_none,ite_self,Option.none_or,Option.none_or]
    split <;> rfl
  · rw [hnone,Option.filter_none,ite_self,Option.or_none,Option.or_none]
    split <;> rfl

theorem accepted_of_offers {v : ℤ} (h : call.offers f = some v) :
    call.accepted f = if f.Admits v then some v else none := by
  rw [accepted_eq,h,Option.filter_some]
  simp only [decide_eq_true_iff]

theorem refuses_of_offers {v : ℤ} (h : call.offers f = some v) : f.refuses (call.offers f) = true ↔ ¬f.Admits v := by
  rw [h]
  simp [Field.refuses]

end Offers

/-- The mask with one more bit, for a field that is refused. -/
def report (mask : BitVec 16) (k : ℕ) (refused : Bool) : BitVec 16 := if refused then mask ||| bit k else mask

theorem getLsbD_report (mask : BitVec 16) {k n : ℕ} (hn : n < 16) (refused : Bool) :
    (report mask k refused).getLsbD n = (mask.getLsbD n || (decide (k = n) && refused)) := by
  unfold report bit
  cases refused
  · simp
  · rw [if_pos rfl,BitVec.getLsbD_or,BitVec.getLsbD_twoPow,Bool.and_true]
    by_cases hk : k = n
    · simp [hk,hn]
    · simp [hk]

section Report
variable {f : Field} {v : ℤ} (mask : BitVec 16) (k : ℕ)

theorem report_nothing : report mask k (f.refuses none) = mask := rfl

theorem report_admitted (h : f.Admits v) : report mask k (f.refuses (some v)) = mask := by
  simp [Field.refuses,report,h]

theorem report_refused (h : ¬f.Admits v) : report mask k (f.refuses (some v)) = mask ||| bit k := by
  simp [Field.refuses,report,h]

end Report

section Masks
variable (p : Progress) (f : Field) {n k : ℕ} {phy : PhyState}

/-- A field is reported when it is announced and out of its range. -/
theorem take_oor {f : Field} {stored skipped : Progress} {announced inside : Prop} [Decidable announced] [Decidable inside] {v : ℤ}
    (hin : f.Admits v ↔ inside) (hstored : stored.oor = p.oor) (hskipped : skipped.oor = p.oor ||| bit k) :
    (if announced then if inside then stored else skipped else p).oor =
      report p.oor k (f.refuses (if announced then some v else none)) := by
  split
  · split
    · rw [report_admitted _ _ (hin.mpr ‹_›),hstored]
    · rw [report_refused _ _ (mt hin.mp ‹_›),hskipped]
  · rfl

theorem takePhy_hdr_apart (hk : k ≠ n) {val lo hi : ℕ} :
    (p.takePhy n val lo hi phy).hdr.getLsbD k = p.hdr.getLsbD k := by
  unfold Progress.takePhy
  split
  · split
    · rfl
    · exact getLsbD_clear hk
  · rfl

theorem takePhy_oor {val lo hi : ℕ} (hlow : f.low = lo) (hhigh : f.high = hi) :
    (p.takePhy n val lo hi phy).oor =
      report p.oor n (f.refuses (if p.hdr.getLsbD n then some (val : ℤ) else none)) := by
  have hin : f.Admits val ↔ lo ≤ val ∧ val ≤ hi := by
    unfold Field.Admits
    rw [hlow,hhigh,Nat.cast_le,Nat.cast_le]
  exact take_oor p hin rfl rfl

theorem takeTemp_hdr {ctrl : TempCtrlCfg} {val lo hi : ℕ} : (p.takeTemp n val lo hi ctrl).hdr = p.hdr := by
  unfold Progress.takeTemp
  split
  · split <;> rfl
  · rfl

theorem takeTemp_oor {ctrl : TempCtrlCfg} {val lo hi : ℕ} (hlow : f.low = lo) (hhigh : f.high = hi) :
    (p.takeTemp n val lo hi ctrl).oor =
      report p.oor (n + 8) (f.refuses (if p.hdr.getLsbD n then some (val : ℤ) else none)) := by
  have hin : f.Admits val ↔ lo ≤ val ∧ val ≤ hi := by
    unfold Field.Admits
    rw [hlow,hhigh,Nat.cast_le,Nat.cast_le]
  exact take_oor p hin rfl rfl

theorem takeCtx_hdr {val lo hi : ℤ} : (p.takeCtx n val lo hi phy).hdr = p.hdr := by
  unfold Progress.takeCtx
  split
  · split <;> rfl
  · rfl

theorem takeCtx_oor {val lo hi : ℤ} (hlow : f.low = lo) (hhigh : f.high = hi) :
    (p.takeCtx n val lo hi phy).oor =
      report p.oor (n + 8) (f.refuses (if p.hdr.getLsbD n then some val else none)) := by
  have hin : f.Admits val ↔ lo ≤ val ∧ val ≤ hi := by
    unfold Field.Admits
    rw [hlow,hhigh]
  exact take_oor p hin rfl rfl

theorem firstPacket_oor (s : Sim) (pkt : StreamT) : (firstPacket s pkt).oor =
    report (report (report (report 0#16 1 (Field.ramp.refuses (pkt.offersPhy .ramp)))
      2 (Field.mass.refuses (pkt.offersPhy .mass))) 3 (Field.cond.refuses (pkt.offersPhy .cond)))
      4 (Field.power.refuses (pkt.offersPhy .power)) := by
  simp only [firstPacket,takePhy_oor _ .power rfl rfl,takePhy_oor _ .cond rfl rfl,takePhy_oor _ .mass rfl rfl,
    takePhy_oor _ .ramp rfl rfl,takePhy_hdr_apart _ (show 4 ≠ 3 by decide),takePhy_hdr_apart _ (show 4 ≠ 2 by decide),
    takePhy_hdr_apart _ (show 4 ≠ 1 by decide),takePhy_hdr_apart _ (show 3 ≠ 2 by decide),
    takePhy_hdr_apart _ (show 3 ≠ 1 by decide),takePhy_hdr_apart _ (show 2 ≠ 1 by decide)]
  rfl

/-- The report of the second packet, behind that of the first. -/
theorem secondPacket_oor (s : Sim) (oor : BitVec 16) (pkt : StreamT) : (secondPacket s oor pkt).oor =
    report (report (report (report (report (report oor 9 (Field.latency.refuses (pkt.offersTemp .latency)))
      10 (Field.target.refuses (pkt.offersTemp .target))) 11 (Field.critical.refuses (pkt.offersTemp .critical)))
      12 (Field.cooldown.refuses (pkt.offersTemp .cooldown)))
      13 (Field.hysteresis.refuses (pkt.offersTemp .hysteresis))) 14 (Field.ambient.refuses (pkt.offersTemp .ambient)) := by
  have hlat : Field.low .latency = (minLat : ℤ) ∧ Field.high .latency = (maxLat : ℤ) := ⟨rfl,rfl⟩
  have hamb : Field.low .ambient = minAmb ∧ Field.high .ambient = maxAmb := ⟨rfl,rfl⟩
  simp only [secondPacket,takeCtx_oor _ .ambient hamb.1 hamb.2,takeTemp_oor _ .hysteresis rfl rfl,
    takeTemp_oor _ .cooldown rfl rfl,takeTemp_oor _ .critical rfl rfl,takeTemp_oor _ .target rfl rfl,
    takeCtx_oor _ .latency hlat.1 hlat.2,takeTemp_hdr,takeCtx_hdr]
  rfl

end Masks

/-- The fields, in the order of their bits. -/
def fields : List Field := [.ramp,.mass,.cond,.power,.latency,.target,.critical,.cooldown,.hysteresis,.ambient]

theorem mem_fields (f : Field) : f ∈ fields := by
  cases f <;> decide

/-- The mask of the offers that are refused. -/
def reports (offers : Field → Option ℤ) : BitVec 16 :=
  fields.foldl (fun mask f => report mask f.reportBit (f.refuses (offers f))) 0#16

theorem getLsbD_reports (offers : Field → Option ℤ) {n : ℕ} (hn : n < 16) :
    (reports offers).getLsbD n = true ↔ ∃ f : Field, f.reportBit = n ∧ f.refuses (offers f) = true := by
  have hfold : ∀ (l : List Field) (mask : BitVec 16),
      (l.foldl (fun mask f => report mask f.reportBit (f.refuses (offers f))) mask).getLsbD n = true ↔
        mask.getLsbD n = true ∨ ∃ f ∈ l, f.reportBit = n ∧ f.refuses (offers f) = true := by
    intro l
    induction l with
    | nil => simp
    | cons f l ih =>
      intro mask
      rw [List.foldl_cons,ih,getLsbD_report _ hn,Bool.or_eq_true,Bool.and_eq_true,decide_eq_true_iff,
        List.exists_mem_cons_iff,or_assoc]
  unfold reports
  rw [hfold]
  constructor
  · rintro (hzero | ⟨f,_,h⟩)
    · rw [BitVec.getLsbD_zero] at hzero
      cases hzero
    · exact ⟨f,h⟩
  · rintro ⟨f,h⟩
    exact .inr ⟨f,mem_fields f,h⟩

theorem reports_reportBit (offers : Field → Option ℤ) (f : Field) :
    (reports offers).getLsbD f.reportBit = f.refuses (offers f) := by
  have hbit : f.reportBit < 16 := by cases f <;> decide
  rw [Bool.eq_iff_iff,getLsbD_reports offers hbit]
  constructor
  · rintro ⟨g,hg,h⟩
    rw [← reportBit_injective hg]
    exact h
  · exact fun h => ⟨f,rfl,h⟩

theorem firstPacket_reports (s : Sim) (pkt : StreamT) : (firstPacket s pkt).oor = reports pkt.offersPhy := by
  rw [firstPacket_oor]
  simp only [reports,fields,List.foldl_cons,List.foldl_nil,StreamT.offersPhy,report_nothing,Field.reportBit]

/-- The second packet adds its reports to those of the first. -/
theorem secondPacket_reports (s : Sim) (pkt pkt' : StreamT) : (secondPacket s (reports pkt.offersPhy) pkt').oor =
    reports fun f => (pkt'.offersTemp f).or (pkt.offersPhy f) := by
  rw [secondPacket_oor]
  simp only [reports,fields,List.foldl_cons,List.foldl_nil,StreamT.offersPhy,StreamT.offersTemp,report_nothing,
    Field.reportBit,Option.or_none,Option.none_or]

theorem offersPhy_idle {pkt : StreamT} (h : pkt.u8 0 = 1) : pkt.offersPhy = fun _ => none := by
  funext f
  cases f <;> simp [StreamT.offersPhy,StreamT.offer,StreamT.announces,h]

/-- The result of a call is the mask of the fields that it refuses. -/
theorem setSimCfg_result (s : Sim) {call : SimCall} (hlen : 1 ≤ call.len) :
    (setSimCfg s call).2 = (reports call.offers).toNat := by
  unfold setSimCfg
  rw [if_neg (by omega)]
  by_cases hone : call.len = 1
  · have hoffers : call.offers = call.first.offersPhy := by
      funext f
      unfold SimCall.offers
      rw [if_neg (by omega),if_pos hlen]
      rfl
    rw [if_neg (by omega)]
    dsimp only
    rw [if_pos hone,firstPacket_reports,hoffers]
  · have hoffers : call.offers = fun f => (call.second.offersTemp f).or (call.first.offersPhy f) := by
      funext f
      unfold SimCall.offers
      rw [if_pos (by omega),if_pos hlen]
    rw [hoffers,← secondPacket_reports (firstPacket s call.first).sim]
    by_cases hskip : call.first.u8 0 = 1 ∧ call.len = 2
    · rw [if_pos hskip,offersPhy_idle hskip.1,firstPacket_idle s call.first hskip.1]
      rfl
    · rw [if_neg hskip]
      dsimp only
      rw [if_neg hone,firstPacket_reports]

/-- Nothing is reported exactly if everything that is offered is in range. -/
theorem setSimCfg_zero_iff (s : Sim) {call : SimCall} (hlen : 1 ≤ call.len) :
    (setSimCfg s call).2 = 0 ↔ ∀ f : Field, f.refuses (call.offers f) = false := by
  rw [setSimCfg_result s hlen,Int.natCast_eq_zero]
  constructor
  · intro h f
    rw [← reports_reportBit,BitVec.eq_of_toNat_eq (y := 0#16) h,BitVec.getLsbD_zero]
  · intro h
    have hzero : reports call.offers = 0#16 := by
      apply BitVec.eq_of_getLsbD_eq
      intro n hn
      rw [BitVec.getLsbD_zero,Bool.eq_false_iff,Ne,getLsbD_reports _ hn]
      rintro ⟨f,_,hf⟩
      rw [h f] at hf
      cases hf
    rw [hzero]
    rfl

end EmbedTemplate.Thermal
