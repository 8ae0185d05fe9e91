import EmbedTemplate.Library.FixedPoint
import EmbedTemplate.Time.Timestamp

/-! # From ticks to microseconds

The `time.c` of the Cortex-M, the Cortex-A and the x86 ports convert a count of ticks to
microseconds with the same fixed-point product in 64 bits; they differ in the start time that
`init_timestamp` stores.
-/
namespace EmbedTemplate.Time
open Bytes FixedPoint

/-- What `init_timestamp` stores for the conversions. -/
structure Conversion where
  ticksToUs : ℕ
  bootTs : ℕ

/-- `ticks_to_us` for a timer frequency. -/
def ticksToUs (timerHz : ℕ) : ℕ := u64 (1000000 * 2 ^ 32 / timerHz)

/-- `(ticks * ticks_to_us) >> 32` -/
def toMicros (ticksToUs ticks : ℕ) : ℕ := u64 (ticks * ticksToUs) / 2 ^ 32

def Conversion.getTimestamp64 (t : Conversion) (ticks : ℕ) : ℕ := u64 (toMicros t.ticksToUs ticks + 2 ^ 64 - t.bootTs)

def Conversion.getTimestamp48 (t : Conversion) (ticks : ℕ) : ℕ := t.getTimestamp64 ticks &&& 0xFFFFFFFFFFFF

inductive Port where
  | cortexM
  | cortexA
  | x86
  deriving DecidableEq

/-- `init_timestamp` of a port, at a count of ticks. -/
def Port.initTimestamp (port : Port) (timerHz ticks : ℕ) : Conversion where
  ticksToUs := ticksToUs timerHz
  bootTs :=
    match port with
    | .cortexM => toMicros (ticksToUs timerHz) ticks
    | .cortexA => ticks / (timerHz / 1000000)
    | .x86 => toMicros (ticksToUs timerHz) ticks

/-- The timestamps of the Cortex-M timer are this conversion of the cycle total. -/
theorem timestamp_cortexM (timerHz cycles total : ℕ) :
    (initTimestamp timerHz cycles).timestamp total = (Port.cortexM.initTimestamp timerHz cycles).getTimestamp64 total := rfl

/-- The conversion of a count has only the rounding error of `ticks_to_us`. -/
def ConvertsTo (timerHz ticks micros : ℕ) : Prop := Rounded 32 1000000 timerHz ticks micros

/-- Both reads are converted with the rounding error only, and the later one is not below the earlier one. -/
structure Steady (port : Port) (timerHz boot ticks ticks' : ℕ) : Prop where
  first : ConvertsTo timerHz ticks (toMicros (port.initTimestamp timerHz boot).ticksToUs ticks)
  second : ConvertsTo timerHz ticks' (toMicros (port.initTimestamp timerHz boot).ticksToUs ticks')
  timestamp48 : (port.initTimestamp timerHz boot).getTimestamp48 ticks ≤
    (port.initTimestamp timerHz boot).getTimestamp48 ticks'
  timestamp64 : (port.initTimestamp timerHz boot).getTimestamp64 ticks ≤
    (port.initTimestamp timerHz boot).getTimestamp64 ticks'

/-- The start time of the Cortex-A port is in whole ticks for a microsecond: the two reads are not on
both sides of it. -/
def SameSide (port : Port) (timerHz boot ticks ticks' : ℕ) : Prop :=
  port = .cortexA → ¬(ticks * ticksToUs timerHz < boot / (timerHz / 1000000) * 2 ^ 32 ∧
    boot / (timerHz / 1000000) * 2 ^ 32 ≤ ticks' * ticksToUs timerHz)

section Conversion
variable {port : Port} {timerHz boot ticks ticks' : ℕ}

theorem ticksToUs_rate (timerHz : ℕ) : ticksToUs timerHz = rate 32 1000000 timerHz := by
  apply Nat.mod_eq_of_lt
  apply Nat.lt_of_le_of_lt (Nat.div_le_self ..)
  decide

/-- A timer below 4.3 GHz has a rate of at least one million. -/
theorem le_ticksToUs (hhz : 1000000 ≤ timerHz) (hhz32 : timerHz < 2 ^ 32) : 1000000 ≤ ticksToUs timerHz := by
  rw [ticksToUs_rate timerHz]
  unfold rate
  rw [Nat.le_div_iff_mul_le (by omega)]
  exact Nat.mul_le_mul_left _ hhz32.le

/-- The conversion of a count has only the rounding error exactly if the product fits. -/
theorem convertsTo_iff (hhz : 1000000 ≤ timerHz) (hhz32 : timerHz < 2 ^ 32) :
    ConvertsTo timerHz ticks (toMicros (ticksToUs timerHz) ticks) ↔ ticks * ticksToUs timerHz < 2 ^ 64 := by
  have hrate := le_ticksToUs hhz hhz32
  rw [ticksToUs_rate timerHz] at hrate ⊢
  constructor
  · intro h
    by_contra hwrap
    refine not_rounded_of_wrap ?_ h
    have hlost := Nat.lt_mul_div_succ (ticks * rate 32 1000000 timerHz) (Nat.two_pow_pos 64)
    have hone : 1 ≤ ticks * rate 32 1000000 timerHz / 2 ^ 64 :=
      (Nat.one_le_div_iff (by norm_num)).mpr (Nat.le_of_not_lt hwrap)
    have hmany : ticks * 1000000 ≤ ticks * rate 32 1000000 timerHz := Nat.mul_le_mul_left ticks hrate
    generalize ticks * rate 32 1000000 timerHz / 2 ^ 64 = lost at hlost hone ⊢
    omega
  · intro hfits
    have hexact : toMicros (rate 32 1000000 timerHz) ticks = scale 32 (rate 32 1000000 timerHz) ticks :=
      scaleWrapped_of_lt hfits
    rw [hexact]
    exact rounded_scale (by omega) ticks

theorem toMicros_of_fits {rate : ℕ} (h : ticks * rate < 2 ^ 64) : toMicros rate ticks = scale 32 rate ticks :=
  scaleWrapped_of_lt h

theorem toMicros_lt (rate ticks : ℕ) : toMicros rate ticks < 2 ^ 32 := by
  apply Nat.div_lt_of_lt_mul
  exact Nat.mod_lt _ (by norm_num)

theorem getTimestamp48_mod (t : Conversion) (ticks : ℕ) : t.getTimestamp48 ticks = t.getTimestamp64 ticks % 2 ^ 48 :=
  Nat.and_two_pow_sub_one_eq_mod _ 48

/-- The differences to a start time that is not after the reads. -/
theorem difference_le {first second start : ℕ} (hstart : start ≤ first) (hle : first ≤ second)
    (hsecond : second < 2 ^ 32) :
    u64 (first + 2 ^ 64 - start) % 2 ^ 48 ≤ u64 (second + 2 ^ 64 - start) % 2 ^ 48 ∧
      u64 (first + 2 ^ 64 - start) ≤ u64 (second + 2 ^ 64 - start) := by
  unfold u64
  omega

/-- The differences to any start time decrease exactly if it is after the first read only. -/
theorem difference_le_iff {first second start : ℕ} (hle : first ≤ second) (hsecond : second < 2 ^ 32)
    (hstart : start < 2 ^ 48) : (u64 (first + 2 ^ 64 - start) % 2 ^ 48 ≤ u64 (second + 2 ^ 64 - start) % 2 ^ 48 ∧
      u64 (first + 2 ^ 64 - start) ≤ u64 (second + 2 ^ 64 - start)) ↔ ¬(first < start ∧ start ≤ second) := by
  unfold u64
  omega

/-- The reads of a product that fits are in order exactly if the start time is not between them. -/
theorem ordered_iff (hhz : 1000000 ≤ timerHz) (hhz32 : timerHz < 2 ^ 32) (hboot : boot ≤ ticks) (hle : ticks ≤ ticks')
    (hfits : ticks' * ticksToUs timerHz < 2 ^ 64) :
    ((port.initTimestamp timerHz boot).getTimestamp48 ticks ≤ (port.initTimestamp timerHz boot).getTimestamp48 ticks' ∧
      (port.initTimestamp timerHz boot).getTimestamp64 ticks ≤
        (port.initTimestamp timerHz boot).getTimestamp64 ticks') ↔
      SameSide port timerHz boot ticks ticks' := by
  have hfitsFirst : ticks * ticksToUs timerHz < 2 ^ 64 := Nat.lt_of_le_of_lt (Nat.mul_le_mul_right _ hle) hfits
  have hfitsBoot : boot * ticksToUs timerHz < 2 ^ 64 := Nat.lt_of_le_of_lt (Nat.mul_le_mul_right _ hboot) hfitsFirst
  have hmono : toMicros (ticksToUs timerHz) ticks ≤ toMicros (ticksToUs timerHz) ticks' := by
    rw [toMicros_of_fits hfits,toMicros_of_fits hfitsFirst]
    exact scale_mono hle
  have hmonoBoot : toMicros (ticksToUs timerHz) boot ≤ toMicros (ticksToUs timerHz) ticks := by
    rw [toMicros_of_fits hfitsFirst,toMicros_of_fits hfitsBoot]
    exact scale_mono hboot
  have hlast := toMicros_lt (ticksToUs timerHz) ticks'
  rw [getTimestamp48_mod,getTimestamp48_mod]
  cases port with
  | cortexM => exact iff_of_true (difference_le hmonoBoot hmono hlast) fun h => by cases h
  | x86 => exact iff_of_true (difference_le hmonoBoot hmono hlast) fun h => by cases h
  | cortexA =>
    have hstart : boot / (timerHz / 1000000) < 2 ^ 48 := by
      have hrate := Nat.mul_le_mul_left boot (le_ticksToUs hhz hhz32)
      apply Nat.lt_of_le_of_lt (Nat.div_le_self ..)
      omega
    refine (difference_le_iff hmono hlast hstart).trans ?_
    unfold SameSide
    rw [toMicros_of_fits hfits,toMicros_of_fits hfitsFirst,scale_lt_iff,← Nat.not_lt (a := scale 32 _ ticks'),scale_lt_iff,
      Nat.not_lt]
    exact ⟨fun h _ => h,fun h => h rfl⟩

/-- Two reads are converted right and stay in order exactly if the product of the later one fits and, on the Cortex-A
port, the start time is not between them. -/
theorem steady_iff (port : Port) (timerHz : BitVec 32) (hhz : 1000000 ≤ timerHz.toNat) (hboot : boot ≤ ticks)
    (hle : ticks ≤ ticks') : Steady port timerHz.toNat boot ticks ticks' ↔
      ticks' * ticksToUs timerHz.toNat < 2 ^ 64 ∧ SameSide port timerHz.toNat boot ticks ticks' := by
  have hhz32 := timerHz.isLt
  constructor
  · rintro ⟨-,hsecond,h48,h64⟩
    have hfits := (convertsTo_iff hhz hhz32).mp hsecond
    exact ⟨hfits,(ordered_iff hhz hhz32 hboot hle hfits).mp ⟨h48,h64⟩⟩
  · rintro ⟨hfits,hside⟩
    have hfitsFirst : ticks * ticksToUs timerHz.toNat < 2 ^ 64 := Nat.lt_of_le_of_lt (Nat.mul_le_mul_right _ hle) hfits
    obtain ⟨h48,h64⟩ := (ordered_iff hhz hhz32 hboot hle hfits).mpr hside
    exact ⟨(convertsTo_iff hhz hhz32).mpr hfitsFirst,(convertsTo_iff hhz hhz32).mpr hfits,h48,h64⟩

/-- Reads at 25 MHz, one hour after the start. -/
theorem steady_iff_hour : Steady .cortexM (25000000#32).toNat 100 5000 90000000000 ↔
    90000000000 * ticksToUs (25000000#32).toNat < 2 ^ 64 ∧ SameSide .cortexM (25000000#32).toNat 100 5000 90000000000 :=
  steady_iff .cortexM 25000000#32 (by decide) (by decide) (by decide)

/-- Reads at 25 MHz, 71 and 72 minutes after the start. -/
theorem unsteady_72_minutes : 72 * 60 * 25000000 * 1000000 < 2 ^ 48 * 25000000 ∧
    ¬Steady .cortexM 25000000 0 (71 * 60 * 25000000) (72 * 60 * 25000000) := by
  refine ⟨by decide,fun h => ?_⟩
  have hlater := h.timestamp64
  revert hlater
  decide

end Conversion

end EmbedTemplate.Time
