import Mathlib.Data.BitVec
import EmbedTemplate.Library.Machine

/-! # The machine timer of the RISC-V port

`mtime` and `mtimecmp` are 64-bit registers behind 32-bit accesses. `get_timestamp` reads the
high word on both sides of the low word until it has not changed; the comparator is written in
two halves, of which the interrupt logic sees each.
-/
namespace EmbedTemplate.Time

section Halves

def highWord (x : BitVec 64) : BitVec 32 := x.extractLsb' 32 32
def lowWord (x : BitVec 64) : BitVec 32 := x.extractLsb' 0 32

/-- `((uint64_t)hi << 32) | lo` -/
def ofWords (hi lo : BitVec 32) : BitVec 64 := hi ++ lo

theorem highWord_toNat (x : BitVec 64) : (highWord x).toNat = x.toNat / 2 ^ 32 := by
  have hlt := x.isLt
  unfold highWord
  rw [BitVec.extractLsb'_toNat,Nat.shiftRight_eq_div_pow]
  omega

theorem lowWord_toNat (x : BitVec 64) : (lowWord x).toNat = x.toNat % 2 ^ 32 := by
  unfold lowWord
  rw [BitVec.extractLsb'_toNat,Nat.shiftRight_zero]

theorem ofWords_toNat (hi lo : BitVec 32) : (ofWords hi lo).toNat = hi.toNat * 2 ^ 32 + lo.toNat := by
  have hlt := lo.isLt
  unfold ofWords
  rw [BitVec.toNat_append,← Nat.shiftLeft_add_eq_or_of_lt hlt,Nat.shiftLeft_eq]

theorem ofWords_words (x : BitVec 64) : ofWords (highWord x) (lowWord x) = x := by
  apply BitVec.eq_of_toNat_eq
  rw [ofWords_toNat,highWord_toNat,lowWord_toNat]
  omega

end Halves

section Read

/-- `get_timestamp`, for the values that `mtime` has at successive reads of its words: the result and the
number of reads so far, within some number of rounds. -/
def getTimestamp (mtime : ℕ → BitVec 64) : ℕ → ℕ → Option (BitVec 64 × ℕ)
  | 0, _ => none
  | rounds + 1, i =>
    let hi := highWord (mtime i)
    let lo := lowWord (mtime (i + 1))
    if hi ≠ highWord (mtime (i + 2)) then getTimestamp mtime rounds (i + 3) else some (ofWords hi lo,i + 3)

variable {mtime : ℕ → BitVec 64} (hmono : ∀ i j, i ≤ j → (mtime i).toNat ≤ (mtime j).toNat)
include hmono

/-- A value read with an unchanged high word is between the first and the last read. -/
theorem ofWords_between {i : ℕ} (h : highWord (mtime i) = highWord (mtime (i + 2))) :
    (mtime i).toNat ≤ (ofWords (highWord (mtime i)) (lowWord (mtime (i + 1)))).toNat ∧
      (ofWords (highWord (mtime i)) (lowWord (mtime (i + 1)))).toNat ≤ (mtime (i + 2)).toNat := by
  have hhigh := congrArg BitVec.toNat h
  have hfirst := hmono i (i + 1) (Nat.le_succ i)
  have hsecond := hmono (i + 1) (i + 2) (Nat.le_succ (i + 1))
  rw [highWord_toNat,highWord_toNat] at hhigh
  rw [ofWords_toNat,highWord_toNat,lowWord_toNat]
  omega

theorem getTimestamp_last {rounds i j : ℕ} {v : BitVec 64} (h : getTimestamp mtime rounds i = some (v,j)) :
    i + 3 ≤ j ∧ (mtime (j - 3)).toNat ≤ v.toNat ∧ v.toNat ≤ (mtime (j - 1)).toNat := by
  induction rounds generalizing i with
  | zero => cases h
  | succ rounds ih =>
    unfold getTimestamp at h
    dsimp only at h
    split at h
    · obtain ⟨hle,hbetween⟩ := ih h
      exact ⟨by omega,hbetween⟩
    · cases h
      exact ⟨Nat.le_refl _,ofWords_between hmono (not_not.mp ‹_›)⟩

/-- The high word grows with every round but the last, so the loop ends. -/
theorem getTimestamp_returns (i : ℕ) : ∃ r, getTimestamp mtime (2 ^ 32) i = some r := by
  have hgrows : ∀ rounds i, 2 ^ 32 ≤ rounds + (highWord (mtime i)).toNat → ∃ r, getTimestamp mtime rounds i = some r := by
    intro rounds
    induction rounds with
    | zero =>
      intro i hfuel
      have hlt := (highWord (mtime i)).isLt
      omega
    | succ rounds ih =>
      intro i hfuel
      unfold getTimestamp
      dsimp only
      split
      · apply ih
        have hne : (highWord (mtime i)).toNat ≠ (highWord (mtime (i + 2))).toNat :=
          fun heq => ‹highWord (mtime i) ≠ _› (BitVec.eq_of_toNat_eq heq)
        have hlater := hmono i (i + 2) (by omega)
        have hnext := hmono (i + 2) (i + 3) (by omega)
        rw [highWord_toNat] at hne hfuel ⊢
        rw [highWord_toNat] at hne
        omega
      · exact ⟨_,rfl⟩
  exact hgrows _ i (Nat.le_add_right _ _)

/-- Every value returned is between the first and the last read of the last round, and a call behind
another one does not return less. -/
theorem getTimestamp_between :
    (∀ rounds i v j, getTimestamp mtime rounds i = some (v,j) →
      (mtime (j - 3)).toNat ≤ v.toNat ∧ v.toNat ≤ (mtime (j - 1)).toNat) ∧
    ∀ rounds i v j rounds' i' v' j', getTimestamp mtime rounds i = some (v,j) → j ≤ i' →
      getTimestamp mtime rounds' i' = some (v',j') → v.toNat ≤ v'.toNat := by
  constructor
  · intro rounds i v j h
    exact (getTimestamp_last hmono h).2
  · intro rounds i v j rounds' i' v' j' h hlater h'
    obtain ⟨-,-,hhigh⟩ := getTimestamp_last hmono h
    obtain ⟨hafter,hlow,-⟩ := getTimestamp_last hmono h'
    calc v.toNat ≤ (mtime (j - 1)).toNat := hhigh
      _ ≤ (mtime (j' - 3)).toNat := hmono _ _ (by omega)
      _ ≤ v'.toNat := hlow

omit hmono in
/-- A clock about to carry into its high word. -/
def carrying (i : ℕ) : BitVec 64 := BitVec.ofNat 64 (min i 1000 + 0xFFFFFFFF)

omit hmono in
/-- Two calls around the carry, the first of which reads a second round. -/
theorem getTimestamp_between_carry : getTimestamp carrying 2 0 = some (0x100000003#64,6) ∧
    getTimestamp carrying 1 6 = some (0x100000006#64,9) ∧
    ((carrying 3).toNat ≤ (0x100000003#64).toNat ∧ (0x100000003#64).toNat ≤ (carrying 5).toNat) ∧
    (0x100000003#64).toNat ≤ (0x100000006#64).toNat := by
  have hmono : ∀ i j, i ≤ j → (carrying i).toNat ≤ (carrying j).toNat := by
    intro i j hij
    unfold carrying
    rw [BitVec.toNat_ofNat,BitVec.toNat_ofNat,Nat.mod_eq_of_lt (by omega),Nat.mod_eq_of_lt (by omega)]
    omega
  have hfirst : getTimestamp carrying 2 0 = some (0x100000003#64,6) := by decide
  have hsecond : getTimestamp carrying 1 6 = some (0x100000006#64,9) := by decide
  obtain ⟨hbetween,hordered⟩ := getTimestamp_between hmono
  exact ⟨hfirst,hsecond,hbetween 2 0 _ 6 hfirst,hordered 2 0 _ 6 1 6 _ 9 hfirst (Nat.le_refl 6) hsecond⟩

end Read

section Tick

/-- The builds of the port. -/
inductive Target where
  | hardware
  | virt
  | renode
  deriving DecidableEq

/-- `TICK_INTERVAL` -/
def Target.tickInterval : Target → ℕ
  | .hardware => 108000000 / 4000 / 1000
  | .virt => 10000
  | .renode => 10000

/-- `MTIMECMP_HI` and `MTIMECMP_LO` -/
structure Comparator where
  hi : BitVec 32
  lo : BitVec 32

/-- What the hardware compares with `mtime`. -/
def Comparator.value (c : Comparator) : BitVec 64 := ofWords c.hi c.lo

/-- A store to one of the two halves. -/
inductive HalfWrite where
  | hi (v : BitVec 32)
  | lo (v : BitVec 32)

def Comparator.write (c : Comparator) : HalfWrite → Comparator
  | .hi v => { c with hi := v }
  | .lo v => { c with lo := v }

def Comparator.writes (c : Comparator) (ws : List HalfWrite) : Comparator := ws.foldl Comparator.write c

/-- `get_timestamp48` at a value of `mtime` -/
def timestamp48 (bootTs now : BitVec 64) : BitVec 64 := (now - bootTs) &&& 0xFFFFFFFFFFFF#64

variable (target : Target)

/-- The stores of `init_systick` -/
def initSystick (bootTs now : BitVec 64) : List HalfWrite :=
  let next := timestamp48 bootTs now + BitVec.ofNat 64 target.tickInterval
  [.hi 0xFFFFFFFF#32,.lo (lowWord next),.hi (highWord next)]

/-- The stores of `SysTick_Handler` -/
def sysTickHandler (c : Comparator) : List HalfWrite :=
  let nextTick := c.value + BitVec.ofNat 64 target.tickInterval
  [.lo (lowWord nextTick),.hi (highWord nextTick)]

/-- The comparator after `init_systick` and some runs of the handler. -/
def comparatorAfter (c : Comparator) (bootTs t0 : BitVec 64) : ℕ → Comparator
  | 0 => c.writes (initSystick target bootTs t0)
  | n + 1 => (comparatorAfter c bootTs t0 n).writes (sysTickHandler target (comparatorAfter c bootTs t0 n))

/-- The deadlines are in the absolute time of `mtime`, and while one replaces another the comparator is
not below the old one. -/
structure Paced (c : Comparator) (bootTs t0 : BitVec 64) (n : ℕ) : Prop where
  deadline : ∀ k ≤ n, (comparatorAfter target c bootTs t0 k).value = t0 + BitVec.ofNat 64 ((k + 1) * target.tickInterval)
  between : ∀ k < n, ∀ i, 0 < i → i < (sysTickHandler target (comparatorAfter target c bootTs t0 k)).length →
    (comparatorAfter target c bootTs t0 k).value ≤ ((comparatorAfter target c bootTs t0 k).writes
      ((sysTickHandler target (comparatorAfter target c bootTs t0 k)).take i)).value

variable {target} {c : Comparator} {bootTs t0 : BitVec 64} {n : ℕ}

theorem comparatorAfter_value (n : ℕ) : (comparatorAfter target c bootTs t0 n).value =
    timestamp48 bootTs t0 + BitVec.ofNat 64 ((n + 1) * target.tickInterval) := by
  induction n with
  | zero =>
    rw [Nat.zero_add,Nat.one_mul]
    exact ofWords_words _
  | succ n ih =>
    have hstep : (comparatorAfter target c bootTs t0 (n + 1)).value =
        (comparatorAfter target c bootTs t0 n).value + BitVec.ofNat 64 target.tickInterval := ofWords_words _
    rw [hstep,ih,BitVec.add_assoc,← BitVec.ofNat_add,← Nat.succ_mul]

/-- Between the stores of the handler the comparator has the old high word and the new low word. -/
theorem between_iff (c : Comparator) : (∀ i, 0 < i → i < (sysTickHandler target c).length →
      c.value ≤ (c.writes ((sysTickHandler target c).take i)).value) ↔
    c.value.toNat % 2 ^ 32 + target.tickInterval < 2 ^ 32 := by
  have hsmall : target.tickInterval < 2 ^ 32 := by cases target <;> decide
  have hhalf : (c.writes ((sysTickHandler target c).take 1)).value.toNat =
      c.hi.toNat * 2 ^ 32 + (lowWord (c.value + BitVec.ofNat 64 target.tickInterval)).toNat := ofWords_toNat _ _
  have hlow : (lowWord (c.value + BitVec.ofNat 64 target.tickInterval)).toNat =
      (c.value.toNat % 2 ^ 32 + target.tickInterval) % 2 ^ 32 := by
    rw [lowWord_toNat,BitVec.toNat_add,BitVec.toNat_ofNat]
    omega
  have hvalue : c.value.toNat = c.hi.toNat * 2 ^ 32 + c.lo.toNat := ofWords_toNat c.hi c.lo
  have hlo := c.lo.isLt
  constructor
  · intro h
    have hone := h 1 Nat.one_pos (Nat.lt_succ_self 1)
    rw [BitVec.le_def,hhalf,hlow,hvalue] at hone
    rw [hvalue]
    omega
  · intro h i hpos hi
    obtain rfl : i = 1 := Nat.le_antisymm (Nat.le_of_lt_succ hi) hpos
    rw [BitVec.le_def,hhalf,hlow,hvalue]
    rw [hvalue] at h
    omega

theorem timestamp48_toNat (bootTs now : BitVec 64) (h : bootTs ≤ now) :
    (timestamp48 bootTs now).toNat = (now.toNat - bootTs.toNat) % 2 ^ 48 := by
  unfold timestamp48
  rw [BitVec.toNat_and,BitVec.toNat_sub_of_le h]
  exact Nat.and_two_pow_sub_one_eq_mod _ 48

/-- The ticks are paced in absolute time exactly if `mtime` is zero at the initialisation and in 48 bits
at the start of the ticks, and no deadline carries into the high word. -/
theorem paced_iff (target : Target) (c : Comparator) (hboot : bootTs ≤ t0) (n : ℕ) : Paced target c bootTs t0 n ↔
    bootTs.toNat = 0 ∧ t0.toNat < 2 ^ 48 ∧
      ∀ k < n, (t0.toNat + (k + 1) * target.tickInterval) % 2 ^ 32 + target.tickInterval < 2 ^ 32 := by
  have hle := BitVec.le_def.mp hboot
  have hsame : timestamp48 bootTs t0 = t0 ↔ bootTs.toNat = 0 ∧ t0.toNat < 2 ^ 48 := by
    rw [← BitVec.toNat_inj,timestamp48_toNat bootTs t0 hboot]
    omega
  have hlow : ∀ k, (t0 + BitVec.ofNat 64 ((k + 1) * target.tickInterval)).toNat % 2 ^ 32 =
      (t0.toNat + (k + 1) * target.tickInterval) % 2 ^ 32 := by
    intro k
    rw [BitVec.toNat_add,BitVec.toNat_ofNat]
    omega
  constructor
  · rintro ⟨hdeadline,hbetween⟩
    have hzero := hdeadline 0 (Nat.zero_le n)
    rw [comparatorAfter_value,BitVec.add_left_inj,hsame] at hzero
    refine ⟨hzero.1,hzero.2,fun k hk => ?_⟩
    have hcarry := (between_iff _).mp (hbetween k hk)
    rwa [hdeadline k (Nat.le_of_lt hk),hlow] at hcarry
  · rintro ⟨hstart,hfits,hcarry⟩
    have hdeadline : ∀ k, (comparatorAfter target c bootTs t0 k).value =
        t0 + BitVec.ofNat 64 ((k + 1) * target.tickInterval) := by
      intro k
      rw [comparatorAfter_value,hsame.mpr ⟨hstart,hfits⟩]
    refine ⟨fun k _ => hdeadline k,fun k hk => (between_iff _).mpr ?_⟩
    rw [hdeadline k,hlow]
    exact hcarry k hk

theorem paced_iff_reset : Paced .hardware ⟨0#32,0#32⟩ 0#64 1000#64 3 ↔ (0#64).toNat = 0 ∧ (1000#64).toNat < 2 ^ 48 ∧
    ∀ k < 3, ((1000#64).toNat + (k + 1) * Target.hardware.tickInterval) % 2 ^ 32 + Target.hardware.tickInterval < 2 ^ 32 :=
  paced_iff .hardware ⟨0#32,0#32⟩ (by decide) 3

/-- A start when `mtime` is not zero any more. -/
theorem late_not_paced : ¬∀ (target : Target) (c : Comparator) (bootTs t0 : BitVec 64) (n : ℕ), bootTs ≤ t0 →
    Paced target c bootTs t0 n := by
  intro h
  have hdeadline := (h .hardware ⟨0#32,0#32⟩ 1000#64 2000#64 0 (by decide)).deadline 0 (Nat.le_refl 0)
  revert hdeadline
  decide

end Tick

end EmbedTemplate.Time
