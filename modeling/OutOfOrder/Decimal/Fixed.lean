/-!
# Decimals with a fixed number of places

A double is a number `m * 2 ^ e` with a sign, or an infinity, or not a number.
Written with a fixed number of places it is that number rounded to the nearest
multiple of the last place, a half going to the even neighbour. The rounding
is done on natural numbers, so the text is that of the exact value and not of
an approximation to it.

The sign is the sign of the double, also where the rounded value is zero.
-/

namespace OutOfOrder.Decimal

/-- What the sixty-four bits of a double stand for. -/
inductive Binary64
  | nan
  | infinite (negative : Bool)
  /-- The number `significand * 2 ^ (exponent - 1074)`. -/
  | finite (negative : Bool) (significand exponent : Nat)
  deriving DecidableEq

/-- Reads a bit pattern: a sign, eleven bits of exponent, and fifty-two bits
of significand with a leading one that is implied unless the exponent is
zero. -/
def Binary64.ofBits (bits : UInt64) : Binary64 :=
  let n := bits.toNat
  let negative := n.testBit 63
  let biased := n / Nat.pow 2 52 % Nat.pow 2 11
  let fraction := n % Nat.pow 2 52
  if biased = 2047 then
    if fraction = 0 then .infinite negative else .nan
  else if biased = 0 then .finite negative fraction 0
  else .finite negative (Nat.pow 2 52 + fraction) (biased - 1)

/-- The natural number nearest to `num / den`; of two, the even one. -/
def roundDiv (num den : Nat) : Nat :=
  let q := num / den
  let r := num % den
  if 2 * r < den then q
  else if den < 2 * r then q + 1
  else if q % 2 = 0 then q else q + 1

/-- **Rounding is to the nearest, and half way to the even one.** The rounded quotient is
at most half a unit away, and where two numbers are as close it is the even one of them. -/
theorem roundDiv_nearest {num den : Nat} (hden : 0 < den) :
    2 * num ≤ 2 * (roundDiv num den * den) + den ∧
      2 * (roundDiv num den * den) ≤ 2 * num + den ∧
      (2 * (num % den) = den → roundDiv num den % 2 = 0) := by
  have hquotient := Nat.div_add_mod num den
  have hrest := Nat.mod_lt num hden
  rw [Nat.mul_comm] at hquotient
  unfold roundDiv
  dsimp only
  split
  · omega
  · split
    · rw [Nat.add_mul]
      omega
    · split
      · omega
      · rw [Nat.add_mul]
        omega

/-- How a decimal with fixed places is written. -/
structure Style where
  /-- Digits after the point. -/
  places : Nat
  nan : String := "NaN"
  infinity : String := "inf"

/-- A number of `10 ^ -places` units as digits around a point. -/
def unitsText (places units : Nat) : String :=
  let whole := toString (units / Nat.pow 10 places)
  let rest := Nat.toDigits 10 (units % Nat.pow 10 places)
  whole ++ "." ++ String.ofList (List.replicate (places - rest.length) '0' ++ rest)

/-- Writes a double in a style. -/
def Style.write (style : Style) (x : Float) : String :=
  let signed (negative : Bool) (text : String) := if negative then "-" ++ text else text
  match Binary64.ofBits x.toBits with
  | .nan => style.nan
  | .infinite negative => signed negative style.infinity
  | .finite negative significand exponent =>
    let units := roundDiv
      (significand * Nat.pow 10 style.places * Nat.pow 2 exponent) (Nat.pow 2 1074)
    signed negative (unitsText style.places units)

end OutOfOrder.Decimal
