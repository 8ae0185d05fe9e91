import EmbedTemplate.Time.Conversion

/-! # The boot offset of the Cortex-A port

`init_timestamp` divides the counter by the whole megahertz of the clock, `get_timestamp` converts
it with the fixed-point rate. The second is never above the first; where it has fallen behind, the
difference underflows until the clock has caught up.
-/
namespace EmbedTemplate.Time
open Bytes FixedPoint

variable {timerHz boot ticks : ℕ}

/-- The distance of a 64-bit difference from zero. -/
def fromZero (value : ℕ) : ℕ := min value (2 ^ 64 - value)

/-- The timestamps behind `init_timestamp` at a count: they do not underflow and do not decrease, and the one
at the count of the initialisation is next to zero. -/
structure Offset (timerHz boot : ℕ) (later : List ℕ) : Prop where
  nonnegative : ∀ ticks ∈ later, (Port.cortexA.initTimestamp timerHz boot).getTimestamp64 ticks < 2 ^ 63
  near : fromZero ((Port.cortexA.initTimestamp timerHz boot).getTimestamp64 boot) ≤ 1
  nondecreasing : (later.map (Port.cortexA.initTimestamp timerHz boot).getTimestamp64).Pairwise (· ≤ ·)

/-- The rate of a clock is not above that of its whole megahertz. -/
theorem scale_le_div (hhz : 1000000 ≤ timerHz) (ticks : ℕ) :
    scale 32 (rate 32 1000000 timerHz) ticks ≤ ticks / (timerHz / 1000000) := by
  have hmega : 0 < timerHz / 1000000 := Nat.div_pos hhz (by decide)
  rw [Nat.le_div_iff_mul_le hmega]
  apply Nat.le_of_mul_le_mul_right _ (Nat.two_pow_pos 32)
  apply Nat.le_of_mul_le_mul_right _ (show 0 < 1000000 by decide)
  have hrate := mul_rate_le 32 1000000 timerHz
  have hlow : scale 32 (rate 32 1000000 timerHz) ticks * 2 ^ 32 ≤ ticks * rate 32 1000000 timerHz :=
    Nat.div_mul_le_self _ _
  have hwhole : timerHz / 1000000 * 1000000 ≤ timerHz := Nat.div_mul_le_self _ _
  calc scale 32 (rate 32 1000000 timerHz) ticks * (timerHz / 1000000) * 2 ^ 32 * 1000000
      = scale 32 (rate 32 1000000 timerHz) ticks * 2 ^ 32 * (timerHz / 1000000 * 1000000) := by ring
    _ ≤ ticks * rate 32 1000000 timerHz * timerHz := Nat.mul_le_mul hlow hwhole
    _ = ticks * (rate 32 1000000 timerHz * timerHz) := Nat.mul_assoc ..
    _ ≤ ticks * (1000000 * 2 ^ 32) := Nat.mul_le_mul_left ticks hrate
    _ = ticks * 2 ^ 32 * 1000000 := by ring

section Offset
variable (hhz : 1000000 ≤ timerHz) (hhz32 : timerHz < 2 ^ 32)
include hhz hhz32

omit hhz hhz32 in
/-- Without a wrap of the product, a timestamp is the converted count less the start time. -/
theorem getTimestamp64_eq (hfits : ticks * ticksToUs timerHz < 2 ^ 64) :
    (Port.cortexA.initTimestamp timerHz boot).getTimestamp64 ticks =
      u64 (scale 32 (rate 32 1000000 timerHz) ticks + 2 ^ 64 - boot / (timerHz / 1000000)) := by
  have hmicros := toMicros_of_fits hfits
  rw [ticksToUs_rate timerHz] at hmicros
  unfold Conversion.getTimestamp64 Port.initTimestamp
  rw [ticksToUs_rate timerHz,hmicros]

/-- The bounds of the two conversions, where the product does not wrap. -/
theorem conversions_lt (hfits : ticks * ticksToUs timerHz < 2 ^ 64) :
    scale 32 (rate 32 1000000 timerHz) ticks < 2 ^ 32 ∧ ticks / (timerHz / 1000000) < 2 ^ 48 := by
  have hmicros := toMicros_lt (ticksToUs timerHz) ticks
  rw [toMicros_of_fits hfits,ticksToUs_rate timerHz] at hmicros
  refine ⟨hmicros,?_⟩
  have hmany := Nat.mul_le_mul_left ticks (le_ticksToUs hhz hhz32)
  apply Nat.lt_of_le_of_lt (Nat.div_le_self ..)
  omega

theorem offset_iff_of_lt {later : List ℕ} (hsorted : (boot :: later).Pairwise (· ≤ ·))
    (hfits : ∀ ticks ∈ boot :: later, ticks * ticksToUs timerHz < 2 ^ 64) :
    Offset timerHz boot later ↔
      (∀ ticks ∈ later, boot / (timerHz / 1000000) * 2 ^ 32 ≤ ticks * (1000000 * 2 ^ 32 / timerHz)) ∧
      boot / (timerHz / 1000000) * 2 ^ 32 ≤ boot * (1000000 * 2 ^ 32 / timerHz) + 2 ^ 32 := by
  have hfitsBoot := hfits boot (List.mem_cons_self ..)
  obtain ⟨hboot,hstart⟩ := conversions_lt hhz hhz32 hfitsBoot
  have hbelow := scale_le_div hhz boot
  have hcaught : ∀ ticks, boot / (timerHz / 1000000) * 2 ^ 32 ≤ ticks * (1000000 * 2 ^ 32 / timerHz) ↔
      boot / (timerHz / 1000000) ≤ scale 32 (rate 32 1000000 timerHz) ticks := by
    intro ticks
    rw [← Nat.not_lt,← Nat.not_lt (b := boot / _),scale_lt_iff]
    rfl
  have hnear : boot / (timerHz / 1000000) * 2 ^ 32 ≤ boot * (1000000 * 2 ^ 32 / timerHz) + 2 ^ 32 ↔
      boot / (timerHz / 1000000) ≤ scale 32 (rate 32 1000000 timerHz) boot + 1 := by
    unfold scale rate
    rw [← Nat.add_div_right _ (Nat.two_pow_pos 32),Nat.le_div_iff_mul_le (Nat.two_pow_pos 32)]
  have hvalue : ∀ ticks ∈ later, (Port.cortexA.initTimestamp timerHz boot).getTimestamp64 ticks < 2 ^ 63 ↔
      boot / (timerHz / 1000000) ≤ scale 32 (rate 32 1000000 timerHz) ticks := by
    intro ticks hticks
    have hfitsTicks := hfits ticks (List.mem_cons_of_mem boot hticks)
    have hmicros := (conversions_lt hhz hhz32 hfitsTicks).1
    rw [getTimestamp64_eq hfitsTicks]
    unfold u64
    omega
  have hfirst : fromZero ((Port.cortexA.initTimestamp timerHz boot).getTimestamp64 boot) ≤ 1 ↔
      boot / (timerHz / 1000000) ≤ scale 32 (rate 32 1000000 timerHz) boot + 1 := by
    rw [getTimestamp64_eq hfitsBoot]
    unfold fromZero u64
    omega
  rw [hnear]
  simp only [hcaught]
  constructor
  · rintro ⟨hnonneg,hclose,-⟩
    exact ⟨fun ticks hticks => (hvalue ticks hticks).mp (hnonneg ticks hticks),hfirst.mp hclose⟩
  · rintro ⟨hall,hclose⟩
    refine ⟨fun ticks hticks => (hvalue ticks hticks).mpr (hall ticks hticks),hfirst.mpr hclose,?_⟩
    rw [List.pairwise_map]
    refine (List.pairwise_cons.mp hsorted).2.imp_of_mem fun {a b} ha hb hab => ?_
    have hfitsA := hfits a (List.mem_cons_of_mem boot ha)
    have hfitsB := hfits b (List.mem_cons_of_mem boot hb)
    have hmono : scale 32 (rate 32 1000000 timerHz) a ≤ scale 32 (rate 32 1000000 timerHz) b := scale_mono hab
    have hlast := (conversions_lt hhz hhz32 hfitsB).1
    have hcaughtA := hall a ha
    rw [getTimestamp64_eq hfitsA,getTimestamp64_eq hfitsB]
    unfold u64
    omega

end Offset

/-- A clock of a power of two of megahertz has an exact rate, and nothing is lost. -/
theorem offset_of_two_pow {k : ℕ} (hk : k < 12) {later : List ℕ} (hsorted : (boot :: later).Pairwise (· ≤ ·))
    (hfits : ∀ ticks ∈ boot :: later, ticks * ticksToUs (2 ^ k * 1000000) < 2 ^ 64) :
    Offset (2 ^ k * 1000000) boot later := by
  have hpos : 0 < 2 ^ k := Nat.two_pow_pos k
  have hpow : 2 ^ k ≤ 2 ^ 11 := Nat.pow_le_pow_right (by decide) (by omega)
  rw [offset_iff_of_lt (by omega) (by omega) hsorted hfits,Nat.mul_div_cancel _ (by decide)]
  have hsplit : 2 ^ 32 = 2 ^ (32 - k) * 2 ^ k := by rw [← Nat.pow_add,Nat.sub_add_cancel (by omega)]
  have hrate : 1000000 * 2 ^ 32 / (2 ^ k * 1000000) = 2 ^ (32 - k) := by
    rw [hsplit,← Nat.mul_assoc,Nat.mul_comm 1000000,Nat.mul_assoc,Nat.mul_comm 1000000]
    exact Nat.mul_div_cancel _ (by omega)
  have hboot : boot / 2 ^ k * 2 ^ 32 ≤ boot * 2 ^ (32 - k) := by
    rw [hsplit,Nat.mul_comm (2 ^ (32 - k)),← Nat.mul_assoc]
    exact Nat.mul_le_mul_right _ (Nat.div_mul_le_self boot _)
  rw [hrate]
  refine ⟨fun ticks hticks => hboot.trans ?_,hboot.trans (Nat.le_add_right _ _)⟩
  exact Nat.mul_le_mul_right _ ((List.pairwise_cons.mp hsorted).1 ticks hticks)

/-- The timestamps behind the initialisation are right exactly if every count has caught up with the start
time in whole megahertz, and the count of the initialisation is less than two microseconds behind it. -/
theorem offset_iff (timerHz : BitVec 32) (hhz : 1000000 ≤ timerHz.toNat) {later : List ℕ}
    (hsorted : (boot :: later).Pairwise (· ≤ ·))
    (hfits : ∀ ticks ∈ boot :: later, ticks * ticksToUs timerHz.toNat < 2 ^ 64) :
    Offset timerHz.toNat boot later ↔
      (∀ ticks ∈ later, boot / (timerHz.toNat / 1000000) * 2 ^ 32 ≤ ticks * (1000000 * 2 ^ 32 / timerHz.toNat)) ∧
      boot / (timerHz.toNat / 1000000) * 2 ^ 32 ≤ boot * (1000000 * 2 ^ 32 / timerHz.toNat) + 2 ^ 32 :=
  offset_iff_of_lt hhz timerHz.isLt hsorted hfits

/-- Reads at 16 MHz. -/
theorem offset_iff_16 : Offset (16000000#32).toNat 16000000 [16000000,16000016] ↔
    (∀ ticks ∈ [16000000,16000016],
      16000000 / ((16000000#32).toNat / 1000000) * 2 ^ 32 ≤ ticks * (1000000 * 2 ^ 32 / (16000000#32).toNat)) ∧
    16000000 / ((16000000#32).toNat / 1000000) * 2 ^ 32 ≤ 16000000 * (1000000 * 2 ^ 32 / (16000000#32).toNat) + 2 ^ 32 :=
  offset_iff 16000000#32 (by decide) (by decide) (by decide)

/-- At the 24 MHz of the virtual board, a read at the count of the initialisation one second after reset. -/
theorem offset_24 : ¬∀ (timerHz : BitVec 32) (boot : ℕ) (later : List ℕ), 1000000 ≤ timerHz.toNat →
    (boot :: later).Pairwise (· ≤ ·) → (∀ ticks ∈ boot :: later, ticks * ticksToUs timerHz.toNat < 2 ^ 64) →
    Offset timerHz.toNat boot later := by
  intro h
  have hnonneg := (h 24000000#32 24000000 [24000000] (by decide) (by decide) (by decide)).nonnegative
  revert hnonneg
  decide

end EmbedTemplate.Time
