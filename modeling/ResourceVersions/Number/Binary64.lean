/-!
# Binary floating point

A finite number is a sign and `mantissa * 2 ^ exponent`, the mantissa below `2 ^ 53` and the
exponent at least `-1074`. A decimal is rounded to the nearest such number, a tie to the even
mantissa. Nothing here goes through machine floats.
-/
namespace ResourceVersions

inductive Binary64 where
  | finite (negative : Bool) (mantissa : Nat) (exponent : Int)
  | infinite (negative : Bool)
  | nan
deriving DecidableEq, Inhabited

namespace Binary64

/-- Mantissas are below this limit. -/
abbrev mantissaLimit : Nat := Nat.pow 2 53

def zero (negative : Bool) : Binary64 := .finite negative 0 (-1074)

/-- The quotient rounded to the nearest natural number, a tie to the even one. -/
def roundDiv (num den : Nat) : Nat :=
  let q := num / den
  let r := num % den
  if 2 * r < den then q else if den < 2 * r then q + 1 else q + q % 2

/-- `num / den` divided by `2 ^ e`, as a numerator and a denominator. -/
def scale (num den : Nat) (e : Int) : Nat × Nat :=
  (num * Nat.pow 2 (-e).toNat, den * Nat.pow 2 e.toNat)

/-- The exponent at which the quotient has 53 binary digits before the point, or the least
exponent if that is greater. -/
def exponentOf (num den : Nat) : Int :=
  let e : Int := (num.log2 : Int) - den.log2 - 53
  let (n, d) := scale num den e
  max (if n / d < mantissaLimit then e else e + 1) (-1074)

/-- Carries a mantissa that rounding made one digit too long, and overflows above the range. -/
def normalize (negative : Bool) (mantissa : Nat) (exponent : Int) : Binary64 :=
  let (m, e) :=
    if mantissa = mantissaLimit then (mantissaLimit / 2, exponent + 1) else (mantissa, exponent)
  if e > 971 then .infinite negative else .finite negative m e

/-- The number nearest to a quotient of naturals. -/
def ofRatio (negative : Bool) (num den : Nat) : Binary64 :=
  if num = 0 then zero negative
  else
    let e := exponentOf num den
    let (n, d) := scale num den e
    normalize negative (roundDiv n d) e

/-- The number nearest to `digits * 10 ^ exponent`. A decimal beyond the range is decided by
its order of magnitude alone. -/
def ofDecimal (negative : Bool) (digits : Nat) (exponent : Int) : Binary64 :=
  if digits = 0 then zero negative
  else
    let magnitude : Int := (digits.log2 : Int) * 3 / 10 + exponent
    if magnitude > 400 then .infinite negative
    else if magnitude < -400 - (digits.log2 : Int) then zero negative
    else ofRatio negative (digits * Nat.pow 10 exponent.toNat) (Nat.pow 10 (-exponent).toNat)

end Binary64

end ResourceVersions
