import Mathlib.Data.UInt
import Mathlib.Tactic.Ring

/-! # Little-endian byte strings and fixed-width counters

`u8`, `u16`, `u32` and `u64` reduce a natural number to a fixed width. `leBytes` and `leNat`
are the little-endian representation of a word and its reading.
-/
namespace EmbedTemplate.Bytes

def u8 (x : ℕ) : ℕ := x % 2 ^ 8
def u16 (x : ℕ) : ℕ := x % 2 ^ 16
def u32 (x : ℕ) : ℕ := x % 2 ^ 32
def u64 (x : ℕ) : ℕ := x % 2 ^ 64

theorem u32_of_lt {x : ℕ} (h : x < 2 ^ 32) : u32 x = x := Nat.mod_eq_of_lt h
theorem u8_of_lt {x : ℕ} (h : x < 2 ^ 8) : u8 x = x := Nat.mod_eq_of_lt h
theorem u16_of_lt {x : ℕ} (h : x < 2 ^ 16) : u16 x = x := Nat.mod_eq_of_lt h
theorem u32_lt (x : ℕ) : u32 x < 2 ^ 32 := Nat.mod_lt _ (by norm_num)

/-- The `k` low bytes of a word, least significant first. -/
def leBytes : ℕ → ℕ → List UInt8
  | 0, _ => []
  | k + 1, x => UInt8.ofNat x :: leBytes k (x / 256)

/-- The word that a little-endian byte string represents. -/
def leNat : List UInt8 → ℕ
  | [] => 0
  | b :: bs => b.toNat + 256 * leNat bs

@[simp] theorem leBytes_length (k x : ℕ) : (leBytes k x).length = k := by
  induction k generalizing x with
  | zero => rfl
  | succ k ih => simp [leBytes,ih]

theorem leNat_leBytes (k x : ℕ) : leNat (leBytes k x) = x % 256 ^ k := by
  induction k generalizing x with
  | zero => simp [leBytes,leNat,Nat.mod_one]
  | succ k ih =>
    rw [leBytes,leNat,ih,pow_succ,Nat.mul_comm (256 ^ k),Nat.mod_mul]
    simp

end EmbedTemplate.Bytes
