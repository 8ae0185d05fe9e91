import EmbedTemplate.Cli.Dispatch

/-! # Decimal arguments

`atoi` of the C library in `stdio.c`: it reads digits only, and the overflow of its `int` is
undefined.
-/
namespace EmbedTemplate.Cli
open Bytes

/-- The loop of `atoi` on the rest of a string, with no result where `num` overflows. -/
def atoiLoop (num : ℕ) : List UInt8 → Option ℕ
  | [] => some num
  | c :: s =>
    if 48 ≤ c ∧ c ≤ 57 then
      let num := num * 10 + (c - 48).toNat
      if num < 2 ^ 31 then atoiLoop num s else none
    else some num

def atoi (s : List UInt8) : Option ℕ := atoiLoop 0 s

/-- A decimal integer as it is typed. -/
structure Numeral where
  negative : Bool
  digits : List (Fin 10)
  nonempty : digits ≠ []

section Numeral
variable (n : Numeral)

def digitChar (d : Fin 10) : UInt8 := 48 + UInt8.ofNat d

/-- The value of a digit behind others. -/
def pushDigit (num : ℕ) (d : Fin 10) : ℕ := num * 10 + d

def Numeral.magnitude : ℕ := n.digits.foldl pushDigit 0

def Numeral.value : ℤ := if n.negative then -n.magnitude else n.magnitude

def Numeral.token : Token :=
  ⟨(if n.negative then ascii "-" else []) ++ n.digits.map digitChar,by simp [n.nonempty]⟩

/-- The reading of `atoi` is defined. -/
def Numeral.Readable : Prop := n.negative = false → n.magnitude < 2 ^ 31

/-- What `atoi` returns: a sign ends the reading. -/
def Numeral.read : ℕ := if n.negative then 0 else n.magnitude

instance : Decidable n.Readable := inferInstanceAs (Decidable (_ → _))

theorem digitChar_spec : ∀ d : Fin 10, (48 ≤ digitChar d ∧ digitChar d ≤ 57) ∧ (digitChar d - 48).toNat = d := by
  decide

theorem le_foldl_pushDigit (digits : List (Fin 10)) (num : ℕ) : num ≤ digits.foldl pushDigit num := by
  induction digits generalizing num with
  | nil => exact Nat.le_refl _
  | cons d digits ih =>
    refine Nat.le_trans ?_ (ih _)
    unfold pushDigit
    omega

theorem atoiLoop_digits (digits : List (Fin 10)) {num : ℕ} (hnum : num < 2 ^ 31) :
    atoiLoop num (digits.map digitChar) =
      if digits.foldl pushDigit num < 2 ^ 31 then some (digits.foldl pushDigit num) else none := by
  induction digits generalizing num with
  | nil => exact (if_pos hnum).symm
  | cons d digits ih =>
    obtain ⟨hdigit,hval⟩ := digitChar_spec d
    have hnext : num * 10 + (digitChar d - 48).toNat = pushDigit num d := by rw [hval,pushDigit]
    rw [List.map_cons,atoiLoop,if_pos hdigit,List.foldl_cons]
    dsimp only
    rw [hnext]
    split
    case isTrue h => exact ih h
    case isFalse h =>
      rw [if_neg]
      exact fun hlt => h (Nat.lt_of_le_of_lt (le_foldl_pushDigit digits _) hlt)

theorem atoi_token : atoi n.token.chars = if n.Readable then some n.read else none := by
  have hchars : n.token.chars = (if n.negative then ascii "-" else []) ++ n.digits.map digitChar := rfl
  rw [hchars]
  cases hsign : n.negative with
  | false =>
    have hreadable : n.Readable ↔ n.magnitude < 2 ^ 31 := by simp [Numeral.Readable,hsign]
    have hread : n.read = n.magnitude := if_neg (by rw [hsign]; exact Bool.false_ne_true)
    rw [if_congr hreadable rfl rfl,hread]
    exact atoiLoop_digits n.digits (by decide)
  | true =>
    have hreadable : n.Readable := fun h => absurd (hsign.symm.trans h) (by decide)
    have hread : n.read = 0 := if_pos hsign
    rw [if_pos hreadable,hread]
    rfl

end Numeral

end EmbedTemplate.Cli
