import EmbedTemplate.Cli.Numerals
import EmbedTemplate.Library.WordSet
import EmbedTemplate.Thermal.Reports

/-! # Setting the simulator

`on_set_sim_command` turns the arguments of `set sim phy` and `set sim temp` into the packets of
`set_sim_cfg`. A missing argument, an overflow of `atoi` and an index outside of a packet are
undefined.
-/
namespace EmbedTemplate.Cli
open Bytes Thermal

section Packets

/-- A byte of a packet, within its bounds. -/
def storeU8 (p : StreamT) (i val : ℕ) : Option StreamT := if i < 8 then some (p.setU8 i val) else none

/-- A half word of a packet, within its bounds. -/
def storeU16 (p : StreamT) (i val : ℕ) : Option StreamT := if i < 4 then some (p.setU16 i val) else none

def bit8 (i : ℕ) : BitVec 8 := BitVec.twoPow 8 i

/-- The locals of `on_set_sim_command`. -/
structure SimPackets where
  pkt0 : StreamT
  pkt1 : StreamT
  hdr : BitVec 8
  oorMask : BitVec 16

/-- `(uint16_t)atoi(embeddedCliGetToken(args, pos))` -/
def tokenVal (args : List Token) (pos : ℕ) : Option ℕ := do
  let arg ← embeddedCliGetToken args pos
  let val ← atoi arg.chars
  some (u16 val)

/-- A round of the loop for `temp`. -/
def setTempArg (args : List Token) (p : SimPackets) (i : ℕ) : Option SimPackets := do
  let val ← tokenVal args (i + 3)
  if val < 256 then
    let pkt1 ← storeU8 p.pkt1 (i + 1) val
    some { p with pkt1 := pkt1, hdr := p.hdr ||| bit8 (i + 1) }
  else some { p with oorMask := p.oorMask ||| bit (i + 1 + 8) }

/-- A round of the loop for `phy`. -/
def setPhyArg (args : List Token) (p : SimPackets) (i : ℕ) : Option SimPackets := do
  let val ← tokenVal args (i + 3)
  if val ≠ 0 then
    let pkt0 ← storeU16 p.pkt0 i val
    some { p with pkt0 := pkt0, hdr := p.hdr ||| bit8 (i + 1) }
  else some p

/-- What a command has done: the globals, the names that are printed as out of range, and whether it confirms. -/
structure SimOutcome where
  sim : Sim
  skipped : List (List UInt8)
  confirmed : Bool

def simCfgNames : List (List UInt8) :=
  [ascii "",ascii "Ramp Time",ascii "Thermal Mass",ascii "Conductance",ascii "Heater Power",ascii "",ascii "",ascii "",
    ascii "",ascii "Sensor latency",ascii "Target Temp",ascii "Critical Temp",ascii "Cooldown Temp",ascii "Hysteresis",
    ascii "Ambient Temp",ascii ""]

/-- The names that `sim_cfg_print_oor` puts into its message, which has room for all of them. -/
def simCfgPrintOor (oorMask : BitVec 16) : List (List UInt8) :=
  (List.range' 1 15).filterMap fun i =>
    match simCfgNames[i]? with
    | some name => if oorMask.getLsbD i ∧ name ≠ [] then some name else none
    | none => none

/-- The header of the message and all names with a comma and a blank behind each. -/
example : 21 + ((simCfgPrintOor (-1)).map fun name => name.length + 2).sum < 191 := by decide

/-- The end of the command: `ret` is printed where it is positive. -/
def finish (sim : Sim) (ret : BitVec 32) (cfgMask : BitVec 16) : SimOutcome :=
  ⟨sim,if 0 < ret.toInt then simCfgPrintOor (ret.setWidth 16) else [],cfgMask &&& ~~~ret.setWidth 16 ≠ 0⟩

def onSetSimTemp (s : Sim) (args : List Token) : Option SimOutcome := do
  let p ← (List.range (min 5 (args.length - 2))).foldlM (setTempArg args) ⟨⟨0⟩,⟨0⟩,0,0⟩
  let pkt0 ← storeU8 p.pkt0 0 1
  let pkt1 ← storeU8 p.pkt1 0 p.hdr.toNat
  let result := setSimCfg s ⟨2,pkt0,pkt1⟩
  some (finish result.1 (BitVec.ofInt 32 result.2 ||| p.oorMask.setWidth 32) (p.hdr.setWidth 16 <<< 8))

/-- The first argument of `phy`. Its mask is not reported. -/
def setRampArg (args : List Token) : Option SimPackets := do
  let val ← tokenVal args 3
  if val < 256 then
    let pkt0 ← storeU8 ⟨0⟩ 1 val
    some ⟨pkt0,⟨0⟩,bit8 1,0⟩
  else some ⟨⟨0⟩,⟨0⟩,0,bit 1⟩

def onSetSimPhy (s : Sim) (args : List Token) : Option SimOutcome := do
  let p ← setRampArg args
  let p ← (List.range' 1 (min 4 (args.length - 3))).foldlM (setPhyArg args) p
  let pkt0 ← storeU8 p.pkt0 0 p.hdr.toNat
  let cfgMask := p.hdr.setWidth 16
  if args.length = 7 then
    let val ← tokenVal args 7
    let pkt1 ← storeU16 p.pkt1 3 val
    let pkt0 ← storeU8 pkt0 0 (p.hdr ||| bit8 0).toNat
    let pkt1 ← storeU8 pkt1 0 (bit8 6).toNat
    let result := setSimCfg s ⟨2,pkt0,pkt1⟩
    some (finish result.1 (BitVec.ofInt 32 result.2) (cfgMask ||| bit 14))
  else
    let result := setSimCfg s ⟨1,pkt0,⟨0⟩⟩
    some (finish result.1 (BitVec.ofInt 32 result.2) cfgMask)

/-- `on_set_sim_command` -/
def onSetSimCommand (s : Sim) (args : List Token) : Option SimOutcome := do
  let arg ← embeddedCliGetToken args 2
  if arg.chars = ascii "temp" then onSetSimTemp s args else onSetSimPhy s args

end Packets

theorem storeU8_zero (p : StreamT) (val : ℕ) : storeU8 p 0 val = some (p.setU8 0 val) := if_pos (by decide)

section Loops
variable {args : List Token} {r : ℕ → ℕ} {n : ℕ} {p : SimPackets}

theorem getLsbD_bit8 (hdr : BitVec 8) {i k : ℕ} (hk : k < 8) :
    (hdr ||| bit8 i).getLsbD k = (hdr.getLsbD k || decide (i = k)) := by
  unfold bit8
  exact WordSet.getLsbD_or_twoPow i hdr hk

theorem getLsbD_bit (mask : BitVec 16) {i k : ℕ} (hk : k < 16) :
    (mask ||| bit i).getLsbD k = (mask.getLsbD k || decide (i = k)) := by
  unfold bit
  exact WordSet.getLsbD_or_twoPow i mask hk

/-- The packets behind `n` rounds of the loop for `temp`, which read the values `r`. -/
structure TempLoaded (r : ℕ → ℕ) (n : ℕ) (p : SimPackets) : Prop where
  first : p.pkt0 = ⟨0⟩
  byte : ∀ i < n, r i < 256 → p.pkt1.u8 (i + 1) = r i
  hdr : ∀ k < 8, p.hdr.getLsbD k = decide (1 ≤ k ∧ k ≤ n ∧ r (k - 1) < 256)
  oor : ∀ k < 16, p.oorMask.getLsbD k = decide (9 ≤ k ∧ k ≤ n + 8 ∧ 256 ≤ r (k - 9))

theorem tempLoaded_zero (r : ℕ → ℕ) : TempLoaded r 0 ⟨⟨0⟩,⟨0⟩,0,0⟩ where
  first := rfl
  byte i hi := absurd hi (by omega)
  hdr k hk := by
    rw [decide_eq_false (by omega)]
    exact BitVec.getLsbD_zero
  oor k hk := by
    rw [decide_eq_false (by omega)]
    exact BitVec.getLsbD_zero

theorem TempLoaded.step (h : TempLoaded r n p) (hn : n < 5) (hval : tokenVal args (n + 3) = some (r n)) :
    ∃ q, setTempArg args p n = some q ∧ TempLoaded r (n + 1) q := by
  have hround : setTempArg args p n = if r n < 256 then
      some { p with pkt1 := p.pkt1.setU8 (n + 1) (r n), hdr := p.hdr ||| bit8 (n + 1) }
      else some { p with oorMask := p.oorMask ||| bit (n + 1 + 8) } := by
    have hstore : storeU8 p.pkt1 (n + 1) (r n) = some (p.pkt1.setU8 (n + 1) (r n)) := if_pos (by omega)
    simp only [setTempArg,hval,hstore,Option.bind_eq_bind,Option.bind_some]
  rw [hround]
  split
  case isTrue hlow =>
    refine ⟨_,rfl,h.first,?_,?_,?_⟩
    · intro i hi hbyte
      by_cases hin : i = n
      · rw [hin,u8_setU8 _ _ (by omega)]
        exact Nat.mod_eq_of_lt hlow
      · rw [u8_setU8_apart _ _ (by omega)]
        exact h.byte i (by omega) hbyte
    · intro k hk
      rw [getLsbD_bit8 _ hk,h.hdr k hk,← Bool.decide_or]
      apply decide_eq_decide.mpr
      by_cases hkn : n + 1 = k
      · subst hkn
        simpa using hlow
      · simp only [hkn,or_false]
        refine and_congr_right fun _ => and_congr_left fun _ => ?_
        omega
    · intro k hk
      rw [h.oor k hk]
      apply decide_eq_decide.mpr
      by_cases hkn : n + 9 = k
      · subst hkn
        simp only [Nat.add_sub_cancel]
        omega
      · refine and_congr_right fun _ => and_congr_left fun _ => ?_
        omega
  case isFalse hhigh =>
    refine ⟨_,rfl,h.first,?_,?_,?_⟩
    · intro i hi hbyte
      exact h.byte i (Nat.lt_of_le_of_ne (Nat.le_of_lt_succ hi) fun hin => hhigh (hin ▸ hbyte)) hbyte
    · intro k hk
      rw [h.hdr k hk]
      apply decide_eq_decide.mpr
      by_cases hkn : n + 1 = k
      · subst hkn
        simp only [Nat.add_sub_cancel]
        omega
      · refine and_congr_right fun _ => and_congr_left fun _ => ?_
        omega
    · intro k hk
      rw [getLsbD_bit _ hk,h.oor k hk,← Bool.decide_or]
      apply decide_eq_decide.mpr
      by_cases hkn : n + 1 + 8 = k
      · subst hkn
        simpa using hhigh
      · simp only [hkn,or_false]
        refine and_congr_right fun _ => and_congr_left fun _ => ?_
        omega

theorem tempLoaded_run (hn : n ≤ 5) (hval : ∀ i < n, tokenVal args (i + 3) = some (r i)) :
    ∃ p, (List.range n).foldlM (setTempArg args) ⟨⟨0⟩,⟨0⟩,0,0⟩ = some p ∧ TempLoaded r n p := by
  induction n with
  | zero => exact ⟨_,rfl,tempLoaded_zero r⟩
  | succ n ih =>
    obtain ⟨p,hp,hloaded⟩ := ih (by omega) fun i hi => hval i (by omega)
    obtain ⟨q,hq,hnext⟩ := hloaded.step (by omega) (hval n (by omega))
    refine ⟨q,?_,hnext⟩
    rw [List.range_succ,List.foldlM_append,hp]
    simpa using hq

/-- The packets behind `n` rounds of the loop for `phy`, with the ramp in front of it. -/
structure PhyLoaded (r : ℕ → ℕ) (n : ℕ) (p : SimPackets) : Prop where
  second : p.pkt1 = ⟨0⟩
  ramp : r 0 < 256 → p.pkt0.u8 1 = r 0
  word : ∀ i, 1 ≤ i → i ≤ n → r i ≠ 0 → p.pkt0.u16 i = r i
  hdr : ∀ k < 8, p.hdr.getLsbD k = decide (k = 1 ∧ r 0 < 256 ∨ 2 ≤ k ∧ k ≤ n + 1 ∧ r (k - 1) ≠ 0)

theorem phyLoaded_ramp (hval : tokenVal args 3 = some (r 0)) : ∃ p, setRampArg args = some p ∧ PhyLoaded r 0 p := by
  have hround : setRampArg args = if r 0 < 256 then some ⟨(⟨0⟩ : StreamT).setU8 1 (r 0),⟨0⟩,bit8 1,0⟩
      else some ⟨⟨0⟩,⟨0⟩,0,bit 1⟩ := by
    have hstore : storeU8 ⟨0⟩ 1 (r 0) = some ((⟨0⟩ : StreamT).setU8 1 (r 0)) := if_pos (by omega)
    simp only [setRampArg,hval,hstore,Option.bind_eq_bind,Option.bind_some]
  rw [hround]
  split
  case isTrue hlow =>
    refine ⟨_,rfl,rfl,?_,fun i hi hi' => absurd hi (by omega),?_⟩
    · intro _
      rw [u8_setU8 _ _ (by omega)]
      exact Nat.mod_eq_of_lt hlow
    · intro k hk
      have hbit : (bit8 1).getLsbD k = decide (1 = k) := by
        rw [← Bool.false_or (decide _),← BitVec.getLsbD_zero (w := 8) (i := k),← getLsbD_bit8 _ hk]
        rfl
      rw [hbit]
      apply decide_eq_decide.mpr
      omega
  case isFalse hhigh =>
    refine ⟨_,rfl,rfl,fun hlow => absurd hlow hhigh,fun i hi hi' => absurd hi (by omega),?_⟩
    intro k hk
    rw [decide_eq_false (by omega)]
    exact BitVec.getLsbD_zero

theorem PhyLoaded.step (h : PhyLoaded r n p) (hn : n < 4) (hr : r (n + 1) < 2 ^ 16) (hfits : n = 3 → r 4 = 0)
    (hval : tokenVal args (1 + n + 3) = some (r (n + 1))) :
    ∃ q, setPhyArg args p (1 + n) = some q ∧ PhyLoaded r (n + 1) q := by
  by_cases hzero : r (n + 1) = 0
  · refine ⟨p,?_,h.second,h.ramp,?_,?_⟩
    · simp [setPhyArg,hval,hzero]
    · intro i hi hin hne
      refine h.word i hi (Nat.le_of_lt_succ (Nat.lt_of_le_of_ne hin ?_)) hne
      rintro rfl
      exact hne hzero
    · intro k hk
      rw [h.hdr k hk]
      apply decide_eq_decide.mpr
      by_cases hkn : n + 2 = k
      · subst hkn
        simp only [show n + 2 - 1 = n + 1 by omega,hzero]
        omega
      · refine or_congr_right (and_congr_right fun _ => and_congr_left fun _ => ?_)
        omega
  · have hn3 : n < 3 := Nat.lt_of_le_of_ne (by omega) fun hcase => hzero (hcase ▸ hfits hcase)
    have hstore : storeU16 p.pkt0 (1 + n) (r (n + 1)) = some (p.pkt0.setU16 (1 + n) (r (n + 1))) := if_pos (by omega)
    refine ⟨{ p with pkt0 := p.pkt0.setU16 (1 + n) (r (n + 1)), hdr := p.hdr ||| bit8 (1 + n + 1) },?_,h.second,?_,?_,?_⟩
    · simp only [setPhyArg,hval,hstore,Option.bind_eq_bind,Option.bind_some,if_pos (show r (n + 1) ≠ 0 from hzero)]
    · intro hlow
      rw [u8_setU16_apart _ _ (by omega)]
      exact h.ramp hlow
    · intro i hi hin hne
      by_cases heq : i = 1 + n
      · subst heq
        rw [u16_setU16 _ _ (by omega),Nat.add_comm 1 n]
        exact Nat.mod_eq_of_lt hr
      · rw [u16_setU16_apart _ _ heq]
        exact h.word i hi (by omega) hne
    · intro k hk
      rw [getLsbD_bit8 _ hk,h.hdr k hk,← Bool.decide_or]
      apply decide_eq_decide.mpr
      by_cases hkn : 1 + n + 1 = k
      · subst hkn
        simp only [show 1 + n + 1 - 1 = n + 1 by omega,or_true,true_iff]
        omega
      · simp only [hkn,or_false]
        refine or_congr_right (and_congr_right fun _ => and_congr_left fun _ => ?_)
        omega

theorem phyLoaded_run (hn : n ≤ 4) (hr : ∀ i, r i < 2 ^ 16) (hfits : n = 4 → r 4 = 0)
    (hval : ∀ i ≤ n, tokenVal args (i + 3) = some (r i)) :
    ∃ p q, setRampArg args = some p ∧ (List.range' 1 n).foldlM (setPhyArg args) p = some q ∧ PhyLoaded r n q := by
  induction n with
  | zero =>
    obtain ⟨p,hp,hloaded⟩ := phyLoaded_ramp (hval 0 (by omega))
    exact ⟨p,p,hp,rfl,hloaded⟩
  | succ n ih =>
    obtain ⟨p,q,hp,hq,hloaded⟩ := ih (by omega) (fun hcase => absurd hcase (by omega)) fun i hi => hval i (by omega)
    have hnext : tokenVal args (1 + n + 3) = some (r (n + 1)) := by
      rw [Nat.add_comm 1 n]
      exact hval (n + 1) (by omega)
    obtain ⟨q',hq',hloaded'⟩ := hloaded.step (by omega) (hr _) (fun hcase => hfits (by omega)) hnext
    refine ⟨p,q',hp,?_,hloaded'⟩
    rw [List.range'_1_concat,List.foldlM_append,hq]
    simpa using hq'

theorem foldlM_defined {α β : Type*} {f : β → α → Option β} {l : List α} {b c : β} (h : l.foldlM f b = some c) :
    ∀ a ∈ l, ∃ b' c', f b' a = some c' := by
  induction l generalizing b with
  | nil =>
    intro a ha
    cases ha
  | cons x l ih =>
    rw [List.foldlM_cons,Option.bind_eq_bind,Option.bind_eq_some_iff] at h
    obtain ⟨d,hd,hrest⟩ := h
    intro a ha
    rcases List.mem_cons.mp ha with rfl | ha
    · exact ⟨b,d,hd⟩
    · exact ih hrest a ha

theorem setTempArg_defined {p q : SimPackets} {i : ℕ} (h : setTempArg args p i = some q) :
    ∃ val, tokenVal args (i + 3) = some val := by
  unfold setTempArg at h
  rw [Option.bind_eq_bind,Option.bind_eq_some_iff] at h
  obtain ⟨val,hval,_⟩ := h
  exact ⟨val,hval⟩

theorem setPhyArg_defined {p q : SimPackets} {i : ℕ} (h : setPhyArg args p i = some q) :
    ∃ val, tokenVal args (i + 3) = some val ∧ (i = 4 → val = 0) := by
  unfold setPhyArg at h
  rw [Option.bind_eq_bind,Option.bind_eq_some_iff] at h
  obtain ⟨val,hval,hstore⟩ := h
  refine ⟨val,hval,?_⟩
  rintro rfl
  by_contra hne
  rw [if_pos hne] at hstore
  cases hstore

end Loops

end EmbedTemplate.Cli
