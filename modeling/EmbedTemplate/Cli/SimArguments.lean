import EmbedTemplate.Cli.SimLines

/-! # The arguments of set sim

Each argument of a command line against the field that the hint tables name for it: what comes
through, and what gets lost in the casts, in the places of the packets and on the way back.
-/
namespace EmbedTemplate.Cli
open Bytes Thermal

/-- Two values that make no difference to a field. -/
def Alike (f : Field) (x y : ℤ) : Prop := x = y ∨ ¬f.Admits x ∧ ¬f.Admits y

instance (f : Field) (x y : ℤ) : Decidable (Alike f x y) := inferInstanceAs (Decidable (_ ∨ _))

section Transmission
variable (line : SimLine)

/-- The arguments of `phy` are worth the same as 16 bits, those that are kept back without a report are
in range, and the ambient temperature is zero. -/
structure TransmitsPhy : Prop where
  ramp : ∀ n, line.args[0]? = some n → n.received < 256 ∧ Alike .ramp n.received n.value
  mass : ∀ n, line.args[1]? = some n → n.received ≠ 0 ∧ Alike .mass n.received n.value
  cond : ∀ n, line.args[2]? = some n → n.received ≠ 0 ∧ Alike .cond n.received n.value
  power : ∀ n, line.args[3]? = some n → n.received ≠ 0 ∧ Alike .power n.received n.value
  ambient : ∀ n, line.args[4]? = some n → n.value = 0

/-- The arguments of `temp` are worth the same as 16 bits, the last two of them each in the place of the other. -/
structure TransmitsTemp : Prop where
  latency : ∀ n, line.args[0]? = some n → Alike .latency n.received n.value
  target : ∀ n, line.args[1]? = some n → Alike .target n.received n.value
  critical : ∀ n, line.args[2]? = some n → Alike .critical n.received n.value
  swapped : ∀ n, line.args[3]? = some n → ∃ m, line.args[4]? = some m ∧ Alike .hysteresis m.received n.value ∧
    Alike .cooldown n.received m.value

end Transmission

/-- The value that a field should have behind the command. -/
def SimLine.wanted (line : SimLine) (s : Sim) (f : Field) : ℤ :=
  ((line.named f).filter fun v => f.Admits v).getD (s.value f)

/-- All arguments can be read and arrive as what they are, and no latency is lowered for a short ramp. -/
structure Conducive (s : Sim) (line : SimLine) : Prop where
  readable : ∀ n ∈ line.args, n.Readable
  phy : line.kind = .phy → TransmitsPhy line
  temp : line.kind = .temp → TransmitsTemp line
  latency : s.inUse = true → line.kind = .temp ∨ line.args.length = 5 → line.wanted s .ramp < 4 →
    line.wanted s .latency ≤ 10

/-- One field of a command that comes down to a call. -/
structure Served (s : Sim) (line : SimLine) (call : SimCall) (reported : Prop) (f : Field) : Prop where
  value : Settled ((line.named f).filter fun v => f.Admits v) (s.value f) ((s.configured call).value f)
    (derivedFor (s.configured call) (s.value f) f)
  reported : reported ↔ ∃ v, line.named f = some v ∧ ¬f.Admits v

section Field
variable {s : Sim} {line : SimLine} {call : SimCall} {reported : Prop} {f : Field} {n : Numeral} {v r : ℤ}

theorem settled_configured (s : Sim) (call : SimCall) (hl : f ≠ .latency) :
    Settled (call.accepted f) (s.value f) ((s.configured call).value f)
    (derivedFor (s.configured call) (s.value f) f) := by
  by_cases hm : f = .mass
  · subst hm
    exact settled_mass s call
  · by_cases hc : f = .cond
    · subst hc
      exact settled_cond s call
    · have hplain : derivedFor (s.configured call) (s.value f) f = s.value f := by
        cases f <;> first | rfl | exact absurd rfl hm | exact absurd rfl hc
      rw [hplain]
      exact .of_getD (d := false) (configured_value s call hm hc hl)

/-- An argument in the range of its field comes through the cast. -/
theorem received_of_admits (hf : f ≠ .ambient) (h : f.Admits n.value) : (n.received : ℤ) = n.value := by
  have hlow : 0 < f.low := by
    cases f <;> first | decide | exact absurd rfl hf
  have hhigh : f.high < 2 ^ 16 := by
    cases f <;> decide
  obtain ⟨hn,hn'⟩ := h
  unfold Numeral.value at hn hn' ⊢
  unfold Numeral.received Numeral.read u16
  cases hneg : n.negative with
  | true =>
    rw [hneg,if_pos rfl] at hn
    omega
  | false =>
    rw [hneg,if_neg Bool.false_ne_true] at hn'
    rw [if_neg Bool.false_ne_true,if_neg Bool.false_ne_true,Nat.mod_eq_of_lt (by omega)]

theorem alike_iff (hf : f ≠ .ambient) : Alike f n.received n.value ↔ (f.Admits n.received ↔ f.Admits n.value) := by
  constructor
  · rintro (h | ⟨h,h'⟩)
    · rw [h]
    · exact iff_of_false h h'
  · intro h
    by_cases hv : f.Admits n.value
    · exact .inl (received_of_admits hf hv)
    · exact .inr ⟨mt h.mp hv,hv⟩

theorem filter_refused (h : ¬f.Admits v) : ((some v).filter fun v => f.Admits v) = none := by
  rw [Option.filter_some,if_neg (by rwa [decide_eq_true_iff])]

theorem served_nothing (hl : f ≠ .latency) (hnamed : line.named f = none) (hoffer : call.offers f = none)
    (hrep : ¬reported) : Served s line call reported f := by
  have hsettled := settled_configured s call hl
  rw [accepted_eq,hoffer] at hsettled
  refine ⟨?_,iff_of_false hrep ?_⟩
  · rw [hnamed]
    exact hsettled
  · rintro ⟨v,hv,_⟩
    rw [hnamed] at hv
    cases hv

/-- A field that is offered something is served exactly if it is what the line names, or is refused as that is. -/
theorem served_offered (hl : f ≠ .latency) (hnamed : line.named f = some v) (hoffer : call.offers f = some r)
    (hrep : reported ↔ ¬f.Admits r) : Served s line call reported f ↔ Alike f r v := by
  have hsettled := settled_configured s call hl
  rw [accepted_of_offers hoffer] at hsettled
  have hreported : (∃ w, line.named f = some w ∧ ¬f.Admits w) ↔ ¬f.Admits v := by
    rw [hnamed]
    simp
  constructor
  · rintro ⟨hvalue,hreports⟩
    rw [hrep,hreported,not_iff_not] at hreports
    by_cases hr : f.Admits r
    · have hv := hreports.mp hr
      rw [hnamed,Option.filter_some,if_pos (decide_eq_true hv)] at hvalue
      rw [if_pos hr] at hsettled
      rcases hvalue with ⟨_,hw,hvalue⟩ | ⟨hnone,_⟩
      · rcases hsettled with ⟨_,hw',hsettled⟩ | ⟨hnone,_⟩
        · cases hw
          cases hw'
          exact .inl (hsettled.symm.trans hvalue)
        · cases hnone
      · cases hnone
    · exact .inr ⟨hr,mt hreports.mpr hr⟩
  · intro halike
    have hsame : ((line.named f).filter fun v => f.Admits v) = if f.Admits r then some r else none := by
      rw [hnamed]
      rcases halike with rfl | ⟨hr,hv⟩
      · simp only [Option.filter_some,decide_eq_true_iff]
      · rw [if_neg hr,filter_refused hv]
    refine ⟨hsame ▸ hsettled,?_⟩
    rw [hrep,hreported]
    rcases halike with rfl | ⟨hr,hv⟩
    · rfl
    · exact iff_of_true hr hv

/-- A field that is kept from an argument without a report asks for an argument in range. -/
theorem admits_of_withheld (hnamed : line.named f = some v) (hrep : ¬reported) (h : Served s line call reported f) :
    f.Admits v := by
  by_contra hv
  exact hrep (h.reported.mpr ⟨v,hnamed,hv⟩)

/-- A field that is kept from an argument with a report is served exactly if the argument is out of range. -/
theorem served_marked (hl : f ≠ .latency) (hnamed : line.named f = some v) (hoffer : call.offers f = none)
    (hrep : reported) : Served s line call reported f ↔ ¬f.Admits v := by
  have hsettled := settled_configured s call hl
  rw [accepted_eq,hoffer] at hsettled
  constructor
  · intro h
    obtain ⟨w,hw,hout⟩ := h.reported.mp hrep
    rw [hnamed] at hw
    cases hw
    exact hout
  · intro hv
    refine ⟨?_,iff_of_true hrep ⟨v,hnamed,hv⟩⟩
    rw [hnamed,filter_refused hv]
    exact hsettled

theorem reports_offered {r : ℤ} : f.refuses (some r) = true ↔ ¬f.Admits r := by
  simp [Field.refuses]

/-- A temperature is offered what fits a byte, and marked for what does not. -/
theorem served_byte (hl : f ≠ .latency) (hhigh : f.high < 256) (hnamed : line.named f = some v)
    (hoffer : call.offers f = if n.received < 256 then some (n.received : ℤ) else none)
    (hrep : reported ↔ f.refuses (call.offers f) = true ∨ 256 ≤ n.received) :
    Served s line call reported f ↔ Alike f n.received v := by
  by_cases hlow : n.received < 256
  · rw [if_pos hlow] at hoffer
    apply served_offered hl hnamed hoffer
    rw [hrep,hoffer,reports_offered,or_iff_left (Nat.not_le.mpr hlow)]
  · rw [if_neg hlow] at hoffer
    have hout : ¬f.Admits n.received := fun h => by
      have hle := h.2
      omega
    rw [served_marked hl hnamed hoffer (hrep.mpr (.inr (Nat.le_of_not_lt hlow)))]
    constructor
    · intro hv
      exact .inr ⟨hout,hv⟩
    · rintro (rfl | ⟨_,hv⟩)
      · exact hout
      · exact hv

/-- A field of `phy` is offered the values that pass a test, and not served by the others. -/
theorem served_tested {q : ℕ → Prop} [DecidablePred q] (hl : f ≠ .latency) (hf : f ≠ .ambient)
    (hq : ∀ r : ℕ, f.Admits r → q r) (hnamed : line.named f = some n.value)
    (hoffer : call.offers f = if q n.received then some (n.received : ℤ) else none)
    (hrep : reported ↔ f.refuses (call.offers f) = true) :
    Served s line call reported f ↔ q n.received ∧ Alike f n.received n.value := by
  by_cases hpass : q n.received
  · rw [if_pos hpass] at hoffer
    rw [and_iff_right hpass]
    apply served_offered hl hnamed hoffer
    rw [hrep,hoffer,reports_offered]
  · rw [if_neg hpass] at hoffer
    refine iff_of_false ?_ fun h => hpass h.1
    intro h
    rw [hoffer] at hrep
    have hv := admits_of_withheld hnamed (fun hr => Bool.false_ne_true (hrep.mp hr)) h
    have hr := received_of_admits hf hv
    exact hpass (hq _ (hr ▸ hv))

/-- The value behind a command that serves a field which is not derived. -/
theorem Served.wanted (h : Served s line call reported f) (hm : f ≠ .mass) (hc : f ≠ .cond) :
    (s.configured call).value f = line.wanted s f := by
  have hplain : derivedFor (s.configured call) (s.value f) f = s.value f := by
    cases f <;> first | rfl | exact absurd rfl hm | exact absurd rfl hc
  have hvalue := h.value
  rw [hplain] at hvalue
  unfold SimLine.wanted
  rcases hvalue with ⟨v,hv,hnew⟩ | ⟨hnone,hold | hold⟩
  · rw [hv,hnew]
    rfl
  · rw [hnone,hold]
    rfl
  · rw [hnone,hold]
    rfl

end Field

section Latency
variable {s : Sim} {line : SimLine} {call : SimCall} {reported : Prop} {n : Numeral}

/-- The latency is served exactly if its report is right and nothing lowers it. -/
theorem served_latency (hwanted : (call.accepted .latency).getD (s.value .latency) = line.wanted s .latency)
    (hramp : (s.configured call).value .ramp = line.wanted s .ramp)
    (hrep : reported ↔ ∃ v, line.named .latency = some v ∧ ¬Field.latency.Admits v) :
    Served s line call reported .latency ↔
      (s.inUse = true → 2 ≤ call.len → line.wanted s .ramp < 4 → line.wanted s .latency ≤ 10) := by
  have hlat := configured_latency s call
  rw [hwanted,hramp] at hlat
  constructor
  · intro h huse hlen hshort
    by_contra hlong
    have hnew := h.wanted (by decide) (by decide)
    rw [hlat,if_pos ⟨huse,hlen,hshort,by omega⟩] at hnew
    omega
  · intro hcond
    have hnew : (s.configured call).value .latency = line.wanted s .latency := by
      rw [hlat,if_neg]
      rintro ⟨huse,hlen,hshort,hlong⟩
      exact absurd (hcond huse hlen hshort) (by omega)
    refine ⟨?_,hrep⟩
    have hgetD : (s.configured call).value .latency =
        ((line.named .latency).filter fun v => Field.latency.Admits v).getD (s.value .latency) := hnew
    exact .of_getD (d := false) hgetD

/-- Without an offer nothing is reported, so that only a lowered latency is not served. -/
theorem served_latency_nothing (hnamed : line.named .latency = none) (hoffer : call.offers .latency = none)
    (hramp : (s.configured call).value .ramp = line.wanted s .ramp) (hrep : ¬reported) :
    Served s line call reported .latency ↔
      (s.inUse = true → 2 ≤ call.len → line.wanted s .ramp < 4 → line.wanted s .latency ≤ 10) := by
  apply served_latency _ hramp
  · rw [hnamed]
    exact iff_of_false hrep (by simp)
  · unfold SimLine.wanted
    rw [accepted_eq,hoffer,hnamed]

/-- The latency is offered what fits a byte, and marked for what does not. -/
theorem served_latency_byte (hnamed : line.named .latency = some n.value)
    (hoffer : call.offers .latency = if n.received < 256 then some (n.received : ℤ) else none)
    (hramp : (s.configured call).value .ramp = line.wanted s .ramp)
    (hrep : reported ↔ Field.latency.refuses (call.offers .latency) = true ∨ 256 ≤ n.received) :
    Served s line call reported .latency ↔ Alike .latency n.received n.value ∧
      (s.inUse = true → 2 ≤ call.len → line.wanted s .ramp < 4 → line.wanted s .latency ≤ 10) := by
  have hlow : Field.latency.Admits n.received → n.received < 256 :=
    fun h => Int.ofNat_lt.mp (Int.lt_of_le_of_lt h.2 (by decide))
  have hout : reported ↔ ¬Field.latency.Admits n.received := by
    rw [hrep,hoffer]
    by_cases hr : n.received < 256
    · rw [if_pos hr,reports_offered,or_iff_left (Nat.not_le.mpr hr)]
    · rw [if_neg hr]
      exact iff_of_true (.inr (Nat.le_of_not_lt hr)) (mt hlow hr)
  have hreported : (reported ↔ ∃ v, line.named .latency = some v ∧ ¬Field.latency.Admits v) ↔
      Alike .latency n.received n.value := by
    rw [hout,hnamed,alike_iff (by decide)]
    simp [not_iff_not]
  have haccepted : Alike .latency n.received n.value →
      call.accepted .latency = (line.named .latency).filter fun v => Field.latency.Admits v := by
    intro halike
    rw [accepted_eq,hoffer,hnamed]
    rcases halike with heq | ⟨hr,hv⟩
    · by_cases hr : n.received < 256
      · rw [if_pos hr,heq]
      · rw [if_neg hr,filter_refused (heq ▸ mt hlow hr)]
        rfl
    · rw [filter_refused hv]
      split
      · exact filter_refused hr
      · rfl
  have hserved := fun halike => served_latency (s := s) (congrArg (·.getD (s.value .latency)) (haccepted halike))
    hramp (hreported.mpr halike)
  constructor
  · intro h
    have halike := hreported.mp h.reported
    exact ⟨halike,(hserved halike).mp h⟩
  · rintro ⟨halike,hcond⟩
    exact (hserved halike).mpr hcond

end Latency

section Slots
variable {s : Sim} {line : SimLine} {call : SimCall} {reported : Prop} {f : Field} {i : ℕ}

theorem named_of_idx {kind : SimKind} {o : Option ℕ} (hkind : line.kind = kind) (hf : f ≠ .ambient)
    (h : kind.hints.idxOf? (hintName f) = o) : line.named f = (o.bind fun i => line.args[i]?).map Numeral.value := by
  have hunit : (fun n : Numeral => n.value * fieldUnit f) = Numeral.value := by
    funext n
    rw [fieldUnit,if_neg hf,mul_one]
  unfold SimLine.named SimLine.argument
  rw [hkind,h,hunit]

theorem named_none {kind : SimKind} (hkind : line.kind = kind) (h : kind.hints.idxOf? (hintName f) = none) :
    line.named f = none := by
  unfold SimLine.named SimLine.argument
  rw [hkind,h]
  rfl

theorem served_phy {q : ℕ → Prop} [DecidablePred q] (hl : f ≠ .latency) (hf : f ≠ .ambient)
    (hq : ∀ r : ℕ, f.Admits r → q r) (hnamed : line.named f = line.args[i]?.map Numeral.value)
    (hoffer : call.offers f = line.args[i]?.bind fun n => if q n.received then some (n.received : ℤ) else none)
    (hrep : reported ↔ f.refuses (call.offers f) = true) :
    Served s line call reported f ↔ ∀ n, line.args[i]? = some n → q n.received ∧ Alike f n.received n.value := by
  cases hn : line.args[i]? with
  | none =>
    rw [hn] at hnamed hoffer
    refine iff_of_true (served_nothing hl hnamed hoffer ?_) fun n hcase => by cases hcase
    rw [hrep,hoffer]
    exact Bool.false_ne_true
  | some n =>
    rw [hn] at hnamed hoffer
    rw [served_tested hl hf hq hnamed hoffer hrep]
    simp

theorem served_temp (hl : f ≠ .latency) (hhigh : f.high < 256) (hnamed : line.named f = line.args[i]?.map Numeral.value)
    (hoffer : call.offers f = line.args[i]?.bind fun n => if n.received < 256 then some (n.received : ℤ) else none)
    (hrep : reported ↔ f.refuses (call.offers f) = true ∨ ∃ n, line.args[i]? = some n ∧ 256 ≤ n.received) :
    Served s line call reported f ↔ ∀ n, line.args[i]? = some n → Alike f n.received n.value := by
  cases hn : line.args[i]? with
  | none =>
    rw [hn] at hnamed hoffer hrep
    refine iff_of_true (served_nothing hl hnamed hoffer ?_) fun n hcase => by cases hcase
    rw [hrep,hoffer]
    rintro (hcase | ⟨n,hcase,_⟩)
    · exact Bool.false_ne_true hcase
    · cases hcase
  | some n =>
    rw [hn] at hnamed hoffer hrep
    rw [served_byte hl hhigh hnamed hoffer (hrep.trans (by simp))]
    simp

theorem obeyed_iff_served {out : SimOutcome} (hrun : onSetSimCommand s line.tokens = some out)
    (hsim : out.sim = s.configured call) : Obeyed s line ↔ ∀ f, Served s line call (out.Reports f) f := by
  unfold Obeyed
  constructor
  · rintro ⟨out',hrun',h⟩ f
    rw [hrun] at hrun'
    cases hrun'
    exact ⟨hsim ▸ h.value f,h.reported f⟩
  · intro h
    refine ⟨out,hrun,fun f => ?_,fun f => (h f).reported⟩
    rw [hsim]
    exact (h f).value

end Slots

section Commands
variable {s : Sim} {line : SimLine}

theorem received_of_zero {n : Numeral} (h : n.value = 0) : n.received = 0 := by
  have hread : n.read = 0 := by
    unfold Numeral.value at h
    unfold Numeral.read
    split at h <;> split <;> omega
  unfold Numeral.received
  rw [hread]
  rfl

theorem val_fifth (h : ∀ n, line.args[4]? = some n → n.value = 0) : line.val 4 = 0 := by
  cases hn : line.args[4]? with
  | none =>
    unfold SimLine.val
    rw [hn]
    rfl
  | some n => rw [val_of_some line hn,received_of_zero (h n hn)]

theorem served_ambient {call : SimCall} {reported : Prop} (hkind : line.kind = .phy) (hfifth : line.val 4 = 0)
    (hoffer : call.offers .ambient = line.args[4]?.bind fun n => some (s16 n.received * 1000))
    (hrep : reported ↔ Field.ambient.refuses (call.offers .ambient) = true) :
    Served s line call reported .ambient ↔ ∀ n, line.args[4]? = some n → n.value = 0 := by
  have hnamed : line.named .ambient = line.args[4]?.map fun n => n.value * 1000 := by
    have hidx : SimKind.phy.hints.idxOf? (hintName .ambient) = some 4 := by decide
    unfold SimLine.named SimLine.argument
    rw [hkind,hidx]
    rfl
  cases hn : line.args[4]? with
  | none =>
    rw [hn] at hnamed hoffer
    refine iff_of_true (served_nothing (by decide) hnamed hoffer ?_) fun n hcase => by cases hcase
    rw [hrep,hoffer]
    exact Bool.false_ne_true
  | some n =>
    have hzero : s16 n.received * 1000 = 0 := by
      rw [← val_of_some line hn,hfifth]
      decide
    rw [hn] at hnamed hoffer
    rw [Option.bind_some,hzero] at hoffer
    have hdegrees : line.named .ambient = some (n.value * 1000) := hnamed
    have hin : Field.ambient.Admits 0 := by decide
    have hnot : reported ↔ ¬Field.ambient.Admits 0 := by rw [hrep,hoffer,reports_offered]
    rw [served_offered (by decide) hdegrees hoffer hnot]
    constructor
    · rintro (h | ⟨h,_⟩) m hm
      · cases hm
        omega
      · exact absurd hin h
    · intro h
      rw [h n rfl]
      exact .inl rfl

theorem phy_obeyed_iff (hkind : line.kind = .phy) (hread : ∀ n ∈ line.args, n.Readable) :
    Obeyed s line ↔ Conducive s line := by
  by_cases hfifth : line.val 4 = 0
  · obtain ⟨call,out,hrun,hsim,hlen,hoffers,hreports⟩ := phy_run s hkind hread hfifth
    have hoffer : ∀ {f : Field} {o : Option ℕ}, SimKind.phy.order.idxOf? f = o →
        call.offers f = (o.bind fun i => line.args[i]?).bind fun n => phyOffer n.received f := fun h => by
      rw [hoffers,slot_of_idx hkind h]
    have hramp := served_phy (s := s) (f := .ramp) (i := 0) (q := fun r => r < 256) (by decide) (by decide)
      (fun r h => Int.ofNat_lt.mp (Int.lt_of_le_of_lt h.2 (by decide))) (named_of_idx hkind (by decide) (o := some 0) (by decide))
      (hoffer (o := some 0) (by decide)) (hreports .ramp)
    have hword : ∀ {f : Field}, 0 < f.low → ∀ r : ℕ, f.Admits r → r ≠ 0 := by
      rintro f hlow r h rfl
      exact absurd h.1 (Int.not_le.mpr hlow)
    have hmass := served_phy (s := s) (f := .mass) (i := 1) (q := fun r => r ≠ 0) (by decide) (by decide)
      (hword (by decide)) (named_of_idx hkind (by decide) (o := some 1) (by decide))
      (hoffer (o := some 1) (by decide)) (hreports .mass)
    have hcond := served_phy (s := s) (f := .cond) (i := 2) (q := fun r => r ≠ 0) (by decide) (by decide)
      (hword (by decide)) (named_of_idx hkind (by decide) (o := some 2) (by decide))
      (hoffer (o := some 2) (by decide)) (hreports .cond)
    have hpower := served_phy (s := s) (f := .power) (i := 3) (q := fun r => r ≠ 0) (by decide) (by decide)
      (hword (by decide)) (named_of_idx hkind (by decide) (o := some 3) (by decide))
      (hoffer (o := some 3) (by decide)) (hreports .power)
    have hambient := served_ambient (s := s) hkind hfifth (hoffer (o := some 4) (by decide)) (hreports .ambient)
    have hnothing : ∀ f : Field, f ≠ .latency → line.named f = none → call.offers f = none →
        Served s line call (out.Reports f) f := by
      intro f hl hnamed hnone
      refine served_nothing hl hnamed hnone ?_
      rw [hreports,hnone]
      exact Bool.false_ne_true
    have hlatency : Served s line call (out.Reports .ramp) .ramp → (Served s line call (out.Reports .latency) .latency ↔
        (s.inUse = true → line.kind = .temp ∨ line.args.length = 5 → line.wanted s .ramp < 4 → line.wanted s .latency ≤ 10)) := by
      intro h
      have hpackets : 2 ≤ call.len ↔ line.kind = .temp ∨ line.args.length = 5 := by
        rw [hlen,hkind]
        split <;> simp_all
      have hnone : call.offers .latency = none := hoffer (o := none) (by decide)
      rw [← hpackets]
      apply served_latency_nothing (named_none hkind (by decide)) hnone (h.wanted (by decide) (by decide))
      rw [hreports,hnone]
      exact Bool.false_ne_true
    rw [obeyed_iff_served hrun hsim]
    constructor
    · intro h
      refine ⟨hread,fun _ => ?_,fun hcase => absurd (hkind.symm.trans hcase) (by decide),(hlatency (h _)).mp (h _)⟩
      exact ⟨hramp.mp (h _),hmass.mp (h _),hcond.mp (h _),hpower.mp (h _),hambient.mp (h _)⟩
    · intro h
      have ht := h.phy hkind
      intro f
      cases f
      case ramp => exact hramp.mpr ht.ramp
      case mass => exact hmass.mpr ht.mass
      case cond => exact hcond.mpr ht.cond
      case power => exact hpower.mpr ht.power
      case ambient => exact hambient.mpr ht.ambient
      case latency => exact (hlatency (hramp.mpr ht.ramp)).mpr h.latency
      all_goals exact hnothing _ (by decide) (named_none hkind (by decide)) (hoffer (o := none) (by decide))
  · refine iff_of_false ?_ ?_
    · rintro ⟨out,hrun,_⟩
      exact hfifth ((defined_reads hrun).2 hkind)
    · intro h
      exact hfifth (val_fifth (h.phy hkind).ambient)

/-- The last two arguments of `temp`, which arrive in the fields of each other. -/
theorem served_swapped {call : SimCall} {rep rep' : Prop} (hkind : line.kind = .temp)
    (hhyst : call.offers .hysteresis = line.args[4]?.bind fun n => if n.received < 256 then some (n.received : ℤ) else none)
    (hcool : call.offers .cooldown = line.args[3]?.bind fun n => if n.received < 256 then some (n.received : ℤ) else none)
    (hrep : rep ↔ Field.hysteresis.refuses (call.offers .hysteresis) = true ∨ ∃ n, line.args[4]? = some n ∧ 256 ≤ n.received)
    (hrep' : rep' ↔ Field.cooldown.refuses (call.offers .cooldown) = true ∨ ∃ n, line.args[3]? = some n ∧ 256 ≤ n.received) :
    Served s line call rep .hysteresis ∧ Served s line call rep' .cooldown ↔
      ∀ n, line.args[3]? = some n → ∃ m, line.args[4]? = some m ∧ Alike .hysteresis m.received n.value ∧
        Alike .cooldown n.received m.value := by
  have hnamed : line.named .hysteresis = line.args[3]?.map Numeral.value :=
    named_of_idx hkind (by decide) (o := some 3) (by decide)
  have hnamed' : line.named .cooldown = line.args[4]?.map Numeral.value :=
    named_of_idx hkind (by decide) (o := some 4) (by decide)
  cases hn : line.args[3]? with
  | none =>
    have hm : line.args[4]? = none := by
      rw [List.getElem?_eq_none_iff] at hn ⊢
      omega
    rw [hn] at hnamed hcool hrep'
    rw [hm] at hnamed' hhyst hrep
    refine iff_of_true ⟨served_nothing (by decide) hnamed hhyst ?_,served_nothing (by decide) hnamed' hcool ?_⟩ ?_
    · rw [hrep,hhyst]
      simp [Field.refuses]
    · rw [hrep',hcool]
      simp [Field.refuses]
    · intro n hcase
      cases hcase
  | some n =>
    rw [hn] at hnamed hcool hrep'
    cases hm : line.args[4]? with
    | none =>
      rw [hm] at hnamed' hhyst hrep
      refine iff_of_false ?_ fun h => by simpa using h n rfl
      rintro ⟨h,h'⟩
      have hin : Field.hysteresis.Admits n.value := by
        refine admits_of_withheld hnamed (fun hr => ?_) h
        rw [hrep,hhyst] at hr
        simp [Field.refuses] at hr
      have hr := received_of_admits (by decide) hin
      have hout : ¬Field.cooldown.Admits n.received := by
        rw [hr]
        exact fun hcool => absurd (hcool.1.trans hin.2) (by decide)
      have hrefused : rep' := by
        rw [hrep',hcool,Option.bind_some]
        split
        · exact .inl (reports_offered.mpr hout)
        · exact .inr ⟨n,rfl,by omega⟩
      obtain ⟨v,hv,_⟩ := h'.reported.mp hrefused
      rw [hnamed'] at hv
      cases hv
    | some m =>
      rw [hm] at hnamed' hhyst hrep
      rw [served_byte (by decide) (by decide) hnamed hhyst (hrep.trans (by simp)),
        served_byte (by decide) (by decide) hnamed' hcool (hrep'.trans (by simp))]
      simp

theorem temp_obeyed_iff (hkind : line.kind = .temp) (hread : ∀ n ∈ line.args, n.Readable) :
    Obeyed s line ↔ Conducive s line := by
  obtain ⟨call,out,hrun,hsim,hlen,hoffers,hreports⟩ := temp_run s hkind hread
  have hoffer : ∀ {f : Field} {o : Option ℕ}, SimKind.temp.order.idxOf? f = o → call.offers f =
      (o.bind fun i => line.args[i]?).bind fun n => if n.received < 256 then some (n.received : ℤ) else none :=
        fun h => by
    rw [hoffers,slot_of_idx hkind h]
  have hreport : ∀ {f : Field} {i : ℕ}, SimKind.temp.order.idxOf? f = some i → (out.Reports f ↔
      f.refuses (call.offers f) = true ∨ ∃ n, line.args[i]? = some n ∧ 256 ≤ n.received) := fun h => by
    rw [hreports,slot_of_idx hkind h]
    rfl
  have htarget := served_temp (s := s) (f := .target) (i := 1) (by decide) (by decide)
    (named_of_idx hkind (by decide) (o := some 1) (by decide)) (hoffer (o := some 1) (by decide)) (hreport (by decide))
  have hcritical := served_temp (s := s) (f := .critical) (i := 2) (by decide) (by decide)
    (named_of_idx hkind (by decide) (o := some 2) (by decide)) (hoffer (o := some 2) (by decide)) (hreport (by decide))
  have hswapped := served_swapped (s := s) hkind (hoffer (o := some 4) (by decide)) (hoffer (o := some 3) (by decide))
    (hreport (by decide)) (hreport (by decide))
  have hnothing : ∀ f : Field, f ≠ .latency → line.named f = none → call.offers f = none → line.slot f = none →
      Served s line call (out.Reports f) f := by
    intro f hl hnamed hnone hslot
    refine served_nothing hl hnamed hnone ?_
    rw [hreports,hnone,hslot]
    simp [Field.refuses]
  have hramp : Served s line call (out.Reports .ramp) .ramp :=
    hnothing _ (by decide) (named_none hkind (by decide)) (hoffer (o := none) (by decide))
      (slot_of_idx hkind (o := none) (by decide))
  have hlatency : Served s line call (out.Reports .latency) .latency ↔
      (∀ n, line.args[0]? = some n → Alike .latency n.received n.value) ∧ (s.inUse = true →
        line.kind = .temp ∨ line.args.length = 5 → line.wanted s .ramp < 4 → line.wanted s .latency ≤ 10) := by
    obtain ⟨n,hn⟩ : ∃ n, line.args[0]? = some n := ⟨_,List.getElem?_eq_getElem (args_length line).1⟩
    have hnamed : line.named .latency = some n.value := by
      rw [named_of_idx hkind (by decide) (o := some 0) (by decide),Option.bind_some,hn]
      rfl
    have hbyte : call.offers .latency = if n.received < 256 then some (n.received : ℤ) else none := by
      rw [hoffer (o := some 0) (by decide),Option.bind_some,hn]
      rfl
    have hpackets : 2 ≤ call.len ↔ line.kind = .temp ∨ line.args.length = 5 :=
      iff_of_true (Nat.le_of_eq hlen.symm) (.inl hkind)
    have hmarked : out.Reports .latency ↔ Field.latency.refuses (call.offers .latency) = true ∨ 256 ≤ n.received := by
      rw [hreport (i := 0) (by decide),hn]
      simp
    rw [hn,← hpackets,served_latency_byte hnamed hbyte (hramp.wanted (by decide) (by decide)) hmarked]
    simp
  rw [obeyed_iff_served hrun hsim]
  constructor
  · intro h
    have hlat := hlatency.mp (h _)
    refine ⟨hread,fun hcase => absurd (hkind.symm.trans hcase) (by decide),fun _ => ?_,hlat.2⟩
    exact ⟨hlat.1,htarget.mp (h _),hcritical.mp (h _),hswapped.mp ⟨h _,h _⟩⟩
  · intro h
    have ht := h.temp hkind
    have hlast := hswapped.mpr ht.swapped
    intro f
    cases f
    case latency => exact hlatency.mpr ⟨ht.latency,h.latency⟩
    case target => exact htarget.mpr ht.target
    case critical => exact hcritical.mpr ht.critical
    case hysteresis => exact hlast.1
    case cooldown => exact hlast.2
    case ramp => exact hramp
    all_goals
      exact hnothing _ (by decide) (named_none hkind (by decide)) (hoffer (o := none) (by decide))
        (slot_of_idx hkind (o := none) (by decide))

end Commands

/-- The arguments of a command reach the fields that the hint tables name, and nothing else happens,
exactly if they can be read, arrive as what they are, and no latency is lowered. -/
theorem obeyed_iff (s : Sim) (line : SimLine) : Obeyed s line ↔ Conducive s line := by
  by_cases hread : ∀ n ∈ line.args, n.Readable
  · cases hkind : line.kind with
    | phy => exact phy_obeyed_iff hkind hread
    | temp => exact temp_obeyed_iff hkind hread
  · refine iff_of_false ?_ fun h => hread h.readable
    rintro ⟨out,hrun,_⟩
    exact hread (defined_reads hrun).1

/-- `set sim temp 20 100 200 5 50` -/
def hysterFirst : SimLine where
  kind := .temp
  args := [⟨false,[2,0],by decide⟩,⟨false,[1,0,0],by decide⟩,⟨false,[2,0,0],by decide⟩,⟨false,[5],by decide⟩,
    ⟨false,[5,0],by decide⟩]
  nonempty := by decide
  fits := by decide

theorem hysterFirst_not_obeyed : ¬Obeyed Sim.zero hysterFirst := by
  rw [temp_obeyed_iff rfl (by decide)]
  intro h
  obtain ⟨m,hm,halike,_⟩ := (h.temp rfl).swapped _ rfl
  cases hm
  revert halike
  decide

end EmbedTemplate.Cli
