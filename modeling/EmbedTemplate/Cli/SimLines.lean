import EmbedTemplate.Cli.Commands
import EmbedTemplate.Cli.SetSim
import EmbedTemplate.Thermal.Ranges

/-! # Command lines for set sim

A command line with its arguments, the field that the hint tables name for each of them, and what
`on_set_sim_command` hands to `set_sim_cfg` for it.
-/
namespace EmbedTemplate.Cli
open Bytes Thermal

inductive SimKind
  | phy
  | temp
  deriving DecidableEq

def SimKind.name : SimKind → List UInt8
  | .phy => ascii "phy"
  | .temp => ascii "temp"

def SimKind.hints : SimKind → List (List UInt8)
  | .phy => setCmdSimPhyArgs
  | .temp => setCmdSimTempArgs

/-- A command line that the dispatcher takes for one with arguments. -/
structure SimLine where
  kind : SimKind
  args : List Numeral
  nonempty : args ≠ []
  fits : args.length ≤ kind.hints.length

section Hints

def hintName : Field → List UInt8
  | .ramp => ascii "ramp"
  | .mass => ascii "mass"
  | .cond => ascii "cond"
  | .power => ascii "power"
  | .latency => ascii "latency"
  | .target => ascii "target"
  | .critical => ascii "critical"
  | .cooldown => ascii "cooldown"
  | .hysteresis => ascii "hyster"
  | .ambient => ascii "ambient"

/-- Ambient temperatures are typed in degrees and kept in millidegrees. -/
def fieldUnit (f : Field) : ℤ := if f = .ambient then 1000 else 1

variable (line : SimLine) (f : Field)

def SimLine.tokens : List Token :=
  ⟨ascii "sim",by decide⟩ :: ⟨line.kind.name,by cases line.kind <;> decide⟩ :: line.args.map Numeral.token

/-- The argument at the position of the field's name in the hint table. -/
def SimLine.argument : Option Numeral := (line.kind.hints.idxOf? (hintName f)).bind fun i => line.args[i]?

/-- The value that the line names for a field. -/
def SimLine.named : Option ℤ := (line.argument f).map fun n => n.value * fieldUnit f

/-- The message names the field. -/
def SimOutcome.Reports (out : SimOutcome) (f : Field) : Prop :=
  ∃ name ∈ out.skipped, simCfgNames[f.reportBit]? = some name

/-- What may become of a field that nothing is stored in: it is kept, or derived. -/
def derivedFor (t : Sim) (old : ℤ) : Field → ℤ
  | .mass => t.massInUse
  | .cond => t.condInUse
  | _ => old

/-- Each field gets the value that the line names for it if that value is in range, and is reported if it
is not. Nothing else is stored or reported. -/
structure Reaches (s : Sim) (line : SimLine) (out : SimOutcome) : Prop where
  value : ∀ f : Field, Settled ((line.named f).filter fun v => f.Admits v) (s.value f) (out.sim.value f)
    (derivedFor out.sim (s.value f) f)
  reported : ∀ f : Field, out.Reports f ↔ ∃ v, line.named f = some v ∧ ¬f.Admits v

/-- The command is carried out, inside of its packets, and its arguments reach their fields. -/
def Obeyed (s : Sim) (line : SimLine) : Prop := ∃ out, onSetSimCommand s line.tokens = some out ∧ Reaches s line out

end Hints

section Reading
variable (line : SimLine)

/-- The 16 bits of an argument. -/
def Numeral.received (n : Numeral) : ℕ := u16 n.read

/-- The 16 bits of the argument at a position. -/
def SimLine.val (i : ℕ) : ℕ := (line.args[i]?.map Numeral.received).getD 0

theorem received_lt (n : Numeral) : n.received < 2 ^ 16 := Nat.mod_lt _ (by decide)

theorem val_lt (i : ℕ) : line.val i < 2 ^ 16 := by
  unfold SimLine.val
  cases line.args[i]? with
  | none => decide
  | some n => exact received_lt n

theorem val_of_some {i : ℕ} {n : Numeral} (h : line.args[i]? = some n) : line.val i = n.received := by
  unfold SimLine.val
  rw [h]
  rfl

theorem tokenVal_line (i : ℕ) : tokenVal line.tokens (i + 3) =
    line.args[i]?.bind fun n => if n.Readable then some n.received else none := by
  have htoken : embeddedCliGetToken line.tokens (i + 3) = line.args[i]?.map Numeral.token := List.getElem?_map ..
  unfold tokenVal
  rw [htoken]
  cases line.args[i]? with
  | none => rfl
  | some n =>
    rw [Option.map_some,Option.bind_some]
    simp only [Option.bind_eq_bind,Option.bind_some,atoi_token]
    split <;> rfl

theorem tokens_length : line.tokens.length = line.args.length + 2 := by
  unfold SimLine.tokens
  simp

theorem args_length : 1 ≤ line.args.length ∧ line.args.length ≤ 5 := by
  refine ⟨List.length_pos_of_ne_nil line.nonempty,Nat.le_trans line.fits ?_⟩
  cases line.kind <;> decide

theorem tokenVal_readable (hread : ∀ n ∈ line.args, n.Readable) {i : ℕ} (hi : i < line.args.length) :
    tokenVal line.tokens (i + 3) = some (line.val i) := by
  obtain ⟨n,hn⟩ : ∃ n, line.args[i]? = some n := ⟨_,List.getElem?_eq_getElem hi⟩
  rw [tokenVal_line,hn,val_of_some line hn,Option.bind_some,if_pos (hread n (List.mem_of_getElem? hn))]

end Reading

section Reports
variable {f : Field} {mask : BitVec 16}

theorem simCfgNames_injective : ∀ i < 16, simCfgNames[i]? = simCfgNames[f.reportBit]? → i = f.reportBit := by
  cases f <;> decide

theorem mem_simCfgPrintOor : (∃ name ∈ simCfgPrintOor mask, simCfgNames[f.reportBit]? = some name) ↔
    mask.getLsbD f.reportBit = true := by
  unfold simCfgPrintOor
  simp only [List.mem_filterMap]
  constructor
  · rintro ⟨name,⟨i,hi,hname⟩,hfield⟩
    rw [List.mem_range'_1] at hi
    split at hname
    case h_1 name' hi' =>
      split at hname
      case isTrue hbit =>
        cases hname
        rw [← simCfgNames_injective i (by omega) (hi'.trans hfield.symm)]
        exact hbit.1
      case isFalse => cases hname
    case h_2 => cases hname
  · intro hbit
    obtain ⟨name,hname,hne⟩ : ∃ name, simCfgNames[f.reportBit]? = some name ∧ name ≠ [] := by
      cases f <;> exact ⟨_,rfl,by decide⟩
    refine ⟨name,⟨f.reportBit,?_,?_⟩,hname⟩
    · rw [List.mem_range'_1]
      cases f <;> decide
    · rw [hname]
      exact if_pos ⟨hbit,hne⟩

/-- What is printed at the end are the fields that `set_sim_cfg` or the command itself refuses. -/
theorem finish_reports (sim : Sim) (m o cfgMask : BitVec 16) :
    (finish sim (BitVec.ofInt 32 m.toNat ||| o.setWidth 32) cfgMask).Reports f ↔
      m.getLsbD f.reportBit = true ∨ o.getLsbD f.reportBit = true := by
  have hret : BitVec.ofInt 32 (m.toNat : ℤ) ||| o.setWidth 32 = (m ||| o).setWidth 32 := by
    rw [BitVec.ofInt_natCast,BitVec.ofNat_toNat,BitVec.setWidth_or]
  have hnat : ((m ||| o).setWidth 32).toNat = (m ||| o).toNat := BitVec.toNat_setWidth_of_le (by decide)
  have hint : ((m ||| o).setWidth 32).toInt = (m ||| o).toNat := by
    rw [BitVec.toInt_eq_toNat_of_lt,hnat]
    rw [hnat]
    have hlt := (m ||| o).isLt
    omega
  have hback : ((m ||| o).setWidth 32).setWidth 16 = m ||| o := by
    rw [BitVec.setWidth_setWidth_of_le _ (by decide),BitVec.setWidth_eq]
  rw [← Bool.or_eq_true,← BitVec.getLsbD_or,← mem_simCfgPrintOor]
  unfold SimOutcome.Reports finish
  rw [hret,hback,hint]
  by_cases hpos : 0 < (m ||| o).toNat
  · rw [if_pos (Int.natCast_pos.mpr hpos)]
  · have hzero : m ||| o = 0#16 := BitVec.eq_of_toNat_eq (Nat.eq_zero_of_not_pos hpos)
    rw [hzero]
    exact iff_of_eq rfl

theorem finish_reports_zero (sim : Sim) (m cfgMask : BitVec 16) :
    (finish sim (BitVec.ofInt 32 m.toNat) cfgMask).Reports f ↔ m.getLsbD f.reportBit = true := by
  have h := finish_reports (f := f) sim m 0#16 cfgMask
  rw [BitVec.setWidth_zero,BitVec.or_zero,BitVec.getLsbD_zero] at h
  simpa using h

end Reports

section Runs
variable {line : SimLine} {pkt : StreamT} {hdr : BitVec 8}

/-- The order of the fields in the packets. -/
def SimKind.order : SimKind → List Field
  | .phy => [.ramp,.mass,.cond,.power,.ambient]
  | .temp => [.latency,.target,.critical,.cooldown,.hysteresis]

/-- The argument at the position of the field in the packets. -/
def SimLine.slot (line : SimLine) (f : Field) : Option Numeral :=
  (line.kind.order.idxOf? f).bind fun i => line.args[i]?

theorem announces_hdr (h : pkt.u8 0 = hdr.toNat) (k : ℕ) : pkt.announces k = hdr.getLsbD k := by
  unfold StreamT.announces
  rw [h,BitVec.ofNat_toNat,BitVec.setWidth_eq]

/-- Two readings of an argument that is passed on if its value has a property. -/
theorem offer_bind {i k v : ℕ} {q : ℕ → Prop} [DecidablePred q]
    (hann : pkt.announces k = decide (i < line.args.length ∧ q (line.val i)))
    (hv : i < line.args.length → q (line.val i) → v = line.val i) :
    pkt.offer k v = line.args[i]?.bind fun n => if q n.received then some (n.received : ℤ) else none := by
  unfold StreamT.offer
  rw [hann]
  cases hn : line.args[i]? with
  | none =>
    rw [decide_eq_false fun h => Nat.not_le.mpr h.1 (List.getElem?_eq_none_iff.mp hn)]
    rfl
  | some n =>
    have hi : i < line.args.length := (List.getElem?_eq_some_iff.mp hn).1
    have hval := val_of_some line hn
    rw [hval] at hv ⊢
    rw [Option.bind_some]
    by_cases hq : q n.received
    · rw [decide_eq_true ⟨hi,hq⟩,if_pos rfl,if_pos hq,hv hi hq]
    · rw [decide_eq_false fun h => hq h.2,if_neg Bool.false_ne_true,if_neg hq]

theorem slot_of_idx {f : Field} {kind : SimKind} {o : Option ℕ} (hkind : line.kind = kind)
    (h : kind.order.idxOf? f = o) : line.slot f = o.bind fun i => line.args[i]? := by
  unfold SimLine.slot
  rw [hkind,h]

theorem bit_slot {k i : ℕ} {mask : BitVec 16} (hbit : mask.getLsbD k = decide (i < line.args.length ∧ 256 ≤ line.val i)) :
    mask.getLsbD k = true ↔ ∃ n, line.args[i]? = some n ∧ 256 ≤ n.received := by
  rw [hbit,decide_eq_true_iff]
  constructor
  · rintro ⟨hi,hval⟩
    have hn := List.getElem?_eq_getElem hi
    exact ⟨_,hn,val_of_some line hn ▸ hval⟩
  · rintro ⟨n,hn,hval⟩
    exact ⟨(List.getElem?_eq_some_iff.mp hn).1,(val_of_some line hn).symm ▸ hval⟩

theorem temp_run (s : Sim) (hkind : line.kind = .temp) (hread : ∀ n ∈ line.args, n.Readable) :
    ∃ call out, onSetSimCommand s line.tokens = some out ∧ out.sim = s.configured call ∧ call.len = 2 ∧
      (∀ f : Field, call.offers f = (line.slot f).bind fun n => if n.received < 256 then some (n.received : ℤ) else none) ∧
      ∀ f : Field, out.Reports f ↔ f.refuses (call.offers f) = true ∨ ∃ n, line.slot f = some n ∧ 256 ≤ n.received := by
  obtain ⟨hlen,hlen'⟩ := args_length line
  obtain ⟨p,hp,hloaded⟩ := tempLoaded_run hlen' fun i hi => tokenVal_readable line hread hi
  let second := p.pkt1.setU8 0 p.hdr.toNat
  let call : SimCall := ⟨2,(⟨0⟩ : StreamT).setU8 0 1,second⟩
  have hhdr : second.u8 0 = p.hdr.toNat := by
    rw [u8_setU8 _ _ (by decide)]
    exact Nat.mod_eq_of_lt p.hdr.isLt
  have hbyte : ∀ i < line.args.length, line.val i < 256 → second.u8 (i + 1) = line.val i := by
    intro i hi hval
    rw [u8_setU8_apart _ _ (by omega)]
    exact hloaded.byte i hi hval
  have hann : ∀ i < 5, second.announces (i + 1) = decide (i < line.args.length ∧ line.val i < 256) := by
    intro i hi
    rw [announces_hdr hhdr,hloaded.hdr _ (by omega),Nat.add_sub_cancel]
    apply decide_eq_decide.mpr
    omega
  have hoffer : ∀ i < 5, second.offer (i + 1) (second.u8 (i + 1)) =
      line.args[i]?.bind fun n => if n.received < 256 then some (n.received : ℤ) else none :=
    fun i hi => offer_bind (q := fun v => v < 256) (hann i hi) (hbyte i)
  have hrun : onSetSimCommand s line.tokens = some (finish (s.configured call)
      (BitVec.ofInt 32 (setSimCfg s call).2 ||| p.oorMask.setWidth 32) (p.hdr.setWidth 16 <<< 8)) := by
    have hmin : min 5 (line.tokens.length - 2) = line.args.length := by
      rw [tokens_length]
      omega
    have hname : embeddedCliGetToken line.tokens 2 = some ⟨ascii "temp",by decide⟩ := by
      unfold SimLine.tokens
      simp only [hkind]
      rfl
    unfold onSetSimCommand onSetSimTemp
    simp only [hname,hmin,hp,hloaded.first,storeU8_zero,Option.bind_eq_bind,Option.bind_some,if_true]
    rfl
  refine ⟨call,_,hrun,rfl,rfl,?_,?_⟩
  · have hcall : ∀ f : Field, call.offers f = second.offersTemp f := by
      intro f
      have hidle : call.first.offersPhy f = none :=
        congrFun (offersPhy_idle (show ((⟨0⟩ : StreamT).setU8 0 1).u8 0 = 1 from rfl)) f
      unfold SimCall.offers
      rw [hidle,ite_self,Option.or_none]
      exact if_pos (Nat.le_refl 2)
    have hsix : second.announces 6 = false := by
      rw [announces_hdr hhdr,hloaded.hdr 6 (by omega)]
      exact decide_eq_false (by omega)
    intro f
    rw [hcall]
    cases f
    case latency =>
      rw [slot_of_idx hkind (o := some 0) (by decide)]
      exact hoffer 0 (by omega)
    case target =>
      rw [slot_of_idx hkind (o := some 1) (by decide)]
      exact hoffer 1 (by omega)
    case critical =>
      rw [slot_of_idx hkind (o := some 2) (by decide)]
      exact hoffer 2 (by omega)
    case cooldown =>
      rw [slot_of_idx hkind (o := some 3) (by decide)]
      exact hoffer 3 (by omega)
    case hysteresis =>
      rw [slot_of_idx hkind (o := some 4) (by decide)]
      exact hoffer 4 (by omega)
    case ambient =>
      rw [slot_of_idx hkind (o := none) (by decide)]
      exact if_neg (by rw [hsix]; exact Bool.false_ne_true)
    all_goals
      rw [slot_of_idx hkind (o := none) (by decide)]
      rfl
  · intro f
    rw [setSimCfg_result s (show 1 ≤ call.len from Nat.le_succ 1),finish_reports,reports_reportBit]
    refine or_congr_right ?_
    have hoor : ∀ i < 5, p.oorMask.getLsbD (i + 9) = decide (i < line.args.length ∧ 256 ≤ line.val i) := by
      intro i hi
      rw [hloaded.oor _ (by omega),Nat.add_sub_cancel]
      apply decide_eq_decide.mpr
      omega
    have hnone : ∀ k < 16, k < 9 ∨ 13 < k → p.oorMask.getLsbD k = false := by
      intro k hk hout
      rw [hloaded.oor k hk]
      exact decide_eq_false (by omega)
    cases f
    case latency =>
      rw [slot_of_idx hkind (o := some 0) (by decide)]
      exact bit_slot (hoor 0 (by omega))
    case target =>
      rw [slot_of_idx hkind (o := some 1) (by decide)]
      exact bit_slot (hoor 1 (by omega))
    case critical =>
      rw [slot_of_idx hkind (o := some 2) (by decide)]
      exact bit_slot (hoor 2 (by omega))
    case cooldown =>
      rw [slot_of_idx hkind (o := some 3) (by decide)]
      exact bit_slot (hoor 3 (by omega))
    case hysteresis =>
      rw [slot_of_idx hkind (o := some 4) (by decide)]
      exact bit_slot (hoor 4 (by omega))
    all_goals
      rw [slot_of_idx hkind (o := none) (by decide),hnone _ (by decide) (by decide)]
      simp

/-- What a command for `phy` offers for a field, once the argument has been read. -/
def phyOffer (r : ℕ) : Field → Option ℤ
  | .ramp => if r < 256 then some r else none
  | .mass => if r ≠ 0 then some r else none
  | .cond => if r ≠ 0 then some r else none
  | .power => if r ≠ 0 then some r else none
  | .ambient => some (s16 r * 1000)
  | _ => none

theorem phy_offers {p : SimPackets} (hkind : line.kind = .phy) (hloaded : PhyLoaded line.val (line.args.length - 1) p)
    (hann : ∀ k < 8, k ≠ 0 → pkt.announces k = p.hdr.getLsbD k) (hbyte : ∀ j, j ≠ 0 → pkt.u8 j = p.pkt0.u8 j)
    (hword : ∀ j, j ≠ 0 → pkt.u16 j = p.pkt0.u16 j) :
    ∀ f : Field, f ≠ .ambient → pkt.offersPhy f = (line.slot f).bind fun n => phyOffer n.received f := by
  obtain ⟨hlen,hlen'⟩ := args_length line
  have hramp : pkt.offer 1 (pkt.u8 1) =
      line.args[0]?.bind fun n => if n.received < 256 then some (n.received : ℤ) else none := by
    refine offer_bind (q := fun v => v < 256) ?_ fun _ hval => ?_
    · rw [hann 1 (by omega) (by omega),hloaded.hdr 1 (by omega)]
      apply decide_eq_decide.mpr
      omega
    · rw [hbyte 1 (by omega)]
      exact hloaded.ramp hval
  have hwords : ∀ i, 1 ≤ i → i ≤ 3 → pkt.offer (i + 1) (pkt.u16 i) =
      line.args[i]?.bind fun n => if n.received ≠ 0 then some (n.received : ℤ) else none := by
    intro i hi hi'
    refine offer_bind (q := fun v => v ≠ 0) ?_ fun hlt hval => ?_
    · rw [hann _ (by omega) (by omega),hloaded.hdr _ (by omega),Nat.add_sub_cancel]
      apply decide_eq_decide.mpr
      omega
    · rw [hword i (by omega)]
      exact hloaded.word i hi (by omega) hval
  intro f hf
  cases f
  case ramp =>
    rw [slot_of_idx hkind (o := some 0) (by decide)]
    exact hramp
  case mass =>
    rw [slot_of_idx hkind (o := some 1) (by decide)]
    exact hwords 1 (by omega) (by omega)
  case cond =>
    rw [slot_of_idx hkind (o := some 2) (by decide)]
    exact hwords 2 (by omega) (by omega)
  case power =>
    rw [slot_of_idx hkind (o := some 3) (by decide)]
    exact hwords 3 (by omega) (by omega)
  case ambient => exact absurd rfl hf
  all_goals
    rw [slot_of_idx hkind (o := none) (by decide)]
    rfl

/-- The second packet for an ambient temperature of zero. -/
def zeroAmbient : StreamT := ((⟨0⟩ : StreamT).setU16 3 0).setU8 0 (bit8 6).toNat

theorem zeroAmbient_offers (f : Field) : zeroAmbient.offersTemp f = if f = .ambient then some 0 else none := by
  cases f <;> decide

/-- A command line for `phy` whose arguments can be read, and whose fifth argument, if there is one, reads as zero. -/
theorem phy_run (s : Sim) (hkind : line.kind = .phy) (hread : ∀ n ∈ line.args, n.Readable) (hfifth : line.val 4 = 0) :
    ∃ call out, onSetSimCommand s line.tokens = some out ∧ out.sim = s.configured call ∧
      call.len = (if line.args.length = 5 then 2 else 1) ∧
      (∀ f : Field, call.offers f = (line.slot f).bind fun n => phyOffer n.received f) ∧
      ∀ f : Field, out.Reports f ↔ f.refuses (call.offers f) = true := by
  obtain ⟨hlen,hlen'⟩ := args_length line
  obtain ⟨p₀,p,hp₀,hp,hloaded⟩ := phyLoaded_run (n := line.args.length - 1) (by omega) (val_lt line) (fun _ => hfifth)
    fun i hi => tokenVal_readable line hread (by omega)
  have hmin : min 4 (line.tokens.length - 3) = line.args.length - 1 := by
    rw [tokens_length]
    omega
  have hname : embeddedCliGetToken line.tokens 2 = some ⟨ascii "phy",by decide⟩ := by
    unfold SimLine.tokens
    simp only [hkind]
    rfl
  have hphy : (ascii "phy" = ascii "temp") = False := by decide
  have hcount : line.tokens.length = 7 ↔ line.args.length = 5 := by
    rw [tokens_length]
    omega
  have hheader : ∀ hdr : BitVec 8, ((p.pkt0.setU8 0 p.hdr.toNat).setU8 0 hdr.toNat).u8 0 = hdr.toNat := by
    intro hdr
    rw [u8_setU8 _ _ (by decide)]
    exact Nat.mod_eq_of_lt hdr.isLt
  by_cases hfive : line.args.length = 5
  · let hdr := p.hdr ||| bit8 0
    let first := (p.pkt0.setU8 0 p.hdr.toNat).setU8 0 hdr.toNat
    let call : SimCall := ⟨2,first,zeroAmbient⟩
    have hval : tokenVal line.tokens 7 = some 0 := by
      rw [← hfifth]
      exact tokenVal_readable line hread (i := 4) (by omega)
    have hword : storeU16 p.pkt1 3 0 = some ((⟨0⟩ : StreamT).setU16 3 0) := by
      rw [hloaded.second]
      rfl
    have hrun : onSetSimCommand s line.tokens = some (finish (s.configured call)
        (BitVec.ofInt 32 (setSimCfg s call).2) (p.hdr.setWidth 16 ||| bit 14)) := by
      unfold onSetSimCommand onSetSimPhy
      simp only [hname,hphy,hp₀,hmin,hp,storeU8_zero,Option.bind_eq_bind,Option.bind_some,if_false]
      rw [if_pos (hcount.mpr hfive),hval]
      simp only [hword,Option.bind_some]
      rfl
    refine ⟨call,_,hrun,rfl,(if_pos hfive).symm,?_,?_⟩
    · have hfirst : ∀ f : Field, f ≠ .ambient → first.offersPhy f = _ := phy_offers hkind hloaded
        (fun k hk hk0 => by rw [announces_hdr (hheader hdr),getLsbD_bit8 _ hk,decide_eq_false hk0.symm,Bool.or_false])
        (fun j hj => by rw [u8_setU8_apart _ _ hj,u8_setU8_apart _ _ hj])
        (fun j hj => by rw [u16_setU8_apart _ _ (by omega),u16_setU8_apart _ _ (by omega)])
      intro f
      have hboth : call.offers f = (if f = .ambient then some 0 else none : Option ℤ).or (first.offersPhy f) := by
        unfold SimCall.offers
        rw [← zeroAmbient_offers,if_pos (show 2 ≤ call.len from Nat.le_refl 2),if_pos (Nat.le_succ 1)]
      rw [hboth]
      by_cases hf : f = .ambient
      · obtain ⟨n,hn⟩ : ∃ n, line.args[4]? = some n := ⟨_,List.getElem?_eq_getElem (by omega)⟩
        rw [val_of_some line hn] at hfifth
        rw [if_pos hf,hf,slot_of_idx hkind (o := some 4) (by decide),Option.bind_some,hn,Option.bind_some,hfifth]
        rfl
      · rw [if_neg hf,Option.none_or]
        exact hfirst f hf
    · intro f
      rw [setSimCfg_result s (show 1 ≤ call.len from Nat.le_succ 1),finish_reports_zero,reports_reportBit]
  · let first := p.pkt0.setU8 0 p.hdr.toNat
    let call : SimCall := ⟨1,first,⟨0⟩⟩
    have hhdr : first.u8 0 = p.hdr.toNat := by
      rw [u8_setU8 _ _ (by decide)]
      exact Nat.mod_eq_of_lt p.hdr.isLt
    have hrun : onSetSimCommand s line.tokens = some (finish (s.configured call)
        (BitVec.ofInt 32 (setSimCfg s call).2) (p.hdr.setWidth 16)) := by
      unfold onSetSimCommand onSetSimPhy
      simp only [hname,hphy,hp₀,hmin,hp,storeU8_zero,hcount,hfive,Option.bind_eq_bind,Option.bind_some,if_false]
      rfl
    refine ⟨call,_,hrun,rfl,(if_neg hfive).symm,?_,?_⟩
    · have hfirst : ∀ f : Field, f ≠ .ambient → first.offersPhy f = _ := phy_offers hkind hloaded
        (fun k _ _ => announces_hdr hhdr k)
        (fun j hj => u8_setU8_apart _ _ hj) (fun j hj => u16_setU8_apart _ _ (by omega))
      intro f
      have hone : call.offers f = first.offersPhy f := by
        unfold SimCall.offers
        rw [if_neg (show ¬2 ≤ call.len from Nat.not_le.mpr (Nat.lt_succ_self 1)),if_pos (Nat.le_refl 1),Option.none_or]
      rw [hone]
      by_cases hf : f = .ambient
      · rw [hf,slot_of_idx hkind (o := some 4) (by decide),Option.bind_some,List.getElem?_eq_none (by omega)]
        rfl
      · exact hfirst f hf
    · intro f
      rw [setSimCfg_result s (show 1 ≤ call.len from Nat.le_refl 1),finish_reports_zero,reports_reportBit]

theorem readable_of_tokenVal {i v : ℕ} {n : Numeral} (hn : line.args[i]? = some n)
    (h : tokenVal line.tokens (i + 3) = some v) :
    n.Readable ∧ v = n.received := by
  rw [tokenVal_line,hn,Option.bind_some] at h
  split at h
  case isTrue hread => exact ⟨hread,(Option.some.inj h).symm⟩
  case isFalse => cases h

/-- A command that is carried out has read all of its arguments, and a fifth one for `phy` as zero. -/
theorem defined_reads {s : Sim} {out : SimOutcome} (h : onSetSimCommand s line.tokens = some out) :
    (∀ n ∈ line.args, n.Readable) ∧ (line.kind = .phy → line.val 4 = 0) := by
  obtain ⟨hlen,hlen'⟩ := args_length line
  have hlength := tokens_length line
  have hname : embeddedCliGetToken line.tokens 2 = some ⟨line.kind.name,by cases line.kind <;> decide⟩ := rfl
  unfold onSetSimCommand at h
  simp only [hname,Option.bind_eq_bind,Option.bind_some] at h
  have hread : ∀ {i : ℕ}, (∃ v, tokenVal line.tokens (i + 3) = some v) → ∀ n, line.args[i]? = some n → n.Readable :=
    fun ⟨_,hv⟩ n hn => (readable_of_tokenVal hn hv).1
  cases hkind : line.kind with
  | temp =>
    rw [hkind,if_pos (show SimKind.temp.name = ascii "temp" from rfl)] at h
    unfold onSetSimTemp at h
    rw [Option.bind_eq_bind,Option.bind_eq_some_iff] at h
    obtain ⟨p,hp,_⟩ := h
    refine ⟨?_,fun hcase => by cases hcase⟩
    intro n hn
    obtain ⟨i,hi⟩ := List.getElem?_of_mem hn
    have hlt : i < line.args.length := (List.getElem?_eq_some_iff.mp hi).1
    obtain ⟨_,_,hround⟩ := foldlM_defined hp i (List.mem_range.mpr (by omega))
    exact hread (setTempArg_defined hround) n hi
  | phy =>
    rw [hkind,if_neg (show SimKind.phy.name ≠ ascii "temp" by decide)] at h
    unfold onSetSimPhy at h
    rw [Option.bind_eq_bind,Option.bind_eq_some_iff] at h
    obtain ⟨p₀,hp₀,h⟩ := h
    rw [Option.bind_eq_bind,Option.bind_eq_some_iff] at h
    obtain ⟨p,hp,_⟩ := h
    have hround : ∀ i, 1 ≤ i → i < line.args.length → ∃ val, tokenVal line.tokens (i + 3) = some val ∧
        (i = 4 → val = 0) := by
      intro i hi hlt
      obtain ⟨_,_,hround⟩ := foldlM_defined hp i (List.mem_range'_1.mpr (by omega))
      exact setPhyArg_defined hround
    constructor
    · intro n hn
      obtain ⟨i,hi⟩ := List.getElem?_of_mem hn
      have hlt : i < line.args.length := (List.getElem?_eq_some_iff.mp hi).1
      by_cases hzero : i = 0
      · subst hzero
        unfold setRampArg at hp₀
        rw [Option.bind_eq_bind,Option.bind_eq_some_iff] at hp₀
        obtain ⟨val,hval,_⟩ := hp₀
        exact hread ⟨val,hval⟩ n hi
      · obtain ⟨val,hval,_⟩ := hround i (by omega) hlt
        exact hread ⟨val,hval⟩ n hi
    · intro _
      by_cases hfive : 4 < line.args.length
      · obtain ⟨val,hval,hzero⟩ := hround 4 (by omega) hfive
        have hn := List.getElem?_eq_getElem hfive
        rw [val_of_some line hn,← (readable_of_tokenVal hn hval).2]
        exact hzero rfl
      · unfold SimLine.val
        rw [List.getElem?_eq_none (by omega)]
        rfl

end Runs

end EmbedTemplate.Cli
