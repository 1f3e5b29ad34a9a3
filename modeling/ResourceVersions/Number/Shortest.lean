import ResourceVersions.Number.Binary64

/-!
# Shortest decimals

A finite number is written with the fewest digits that read back to it and, of those, the
decimal nearest to it. It is positional while the exponent of the leading digit is at least -4
and below 16, and keeps a `.0` when it is integral; otherwise the exponent has a sign and at
least two digits.
-/
namespace ResourceVersions.Binary64

/-- `digits * 10 ^ exponent`. -/
structure Decimal where
  digits : Nat
  exponent : Int
deriving DecidableEq

/-- A positive number `m * 2 ^ e` as a quotient of naturals. -/
def ratio (m : Nat) (e : Int) : Nat × Nat := (m * Nat.pow 2 e.toNat, Nat.pow 2 (-e).toNat)

/-- Whether `num / den` is below `10 ^ k`. -/
def belowPower (num den : Nat) (k : Int) : Bool :=
  decide (num * Nat.pow 10 (-k).toNat < den * Nat.pow 10 k.toNat)

/-- The least `k` with `num / den < 10 ^ k`, searched upward from an estimate below it. -/
def decimalScale (num den : Nat) : Int :=
  let low : Int := ((num.log2 : Int) - den.log2 - 1) * 30103 / 100000 - 1
  ((List.range 5).map fun (i : Nat) => low + (i : Int)).find? (belowPower num den) |>.getD low

/-- Twice the value against the sum of the two neighbours on the grid: the nearer one, and the
even one on a tie. -/
def nearer (num den lo : Nat) : Nat :=
  if 2 * num < (2 * lo + 1) * den then lo
  else if (2 * lo + 1) * den < 2 * num then lo + 1
  else lo + lo % 2

/-- The neighbours of `m * 2 ^ e` on the grid `10 ^ g` that read back to it, the nearer one
if both do. -/
def onGrid (m : Nat) (e : Int) (g : Int) : Option Decimal :=
  let (num, den) := ratio m e
  let n := num * Nat.pow 10 (-g).toNat
  let d := den * Nat.pow 10 g.toNat
  let lo := n / d
  let reads := fun k => decide (ofDecimal false k g = .finite false m e)
  match reads lo, reads (lo + 1) with
  | true, true => some ⟨nearer n d lo, g⟩
  | true, false => some ⟨lo, g⟩
  | false, true => some ⟨lo + 1, g⟩
  | false, false => none

/-- Every digit of `m * 2 ^ e`. -/
def exactDecimal (m : Nat) (e : Int) : Decimal :=
  ⟨m * Nat.pow 2 e.toNat * Nat.pow 5 (-e).toNat, min e 0⟩

/-- The first grid with a hit, from one digit to seventeen. -/
def shortest (m : Nat) (e : Int) : Decimal :=
  let (num, den) := ratio m e
  let k := decimalScale num den
  let onGrids := (List.range 17).findSome? fun (i : Nat) => onGrid m e (k - 1 - (i : Int))
  onGrids.getD (exactDecimal m e)

/-- The digits of a decimal without the zeros at its end, and the exponent of the leading one. -/
def leading (d : Decimal) : List Char × Int :=
  let written := Nat.toDigits 10 d.digits
  let trimmed := (written.reverse.dropWhile (· == '0')).reverse
  (trimmed, d.exponent + written.length - 1)

/-- The exponent mark, the sign and at least two digits. -/
def exponentText (x : Int) : List Char :=
  let digits := Nat.toDigits 10 x.natAbs
  'e' :: (if x < 0 then '-' else '+') :: (if digits.length < 2 then '0' :: digits else digits)

/-- Digits with the leading one at the given power of ten. -/
def layout (digits : List Char) (x : Int) : List Char :=
  if -4 ≤ x ∧ x < 16 then
    if x < 0 then '0' :: '.' :: (List.replicate (-x - 1).toNat '0' ++ digits)
    else
      let whole := digits.take (x.toNat + 1)
      let rest := digits.drop (x.toNat + 1)
      whole ++ List.replicate (x.toNat + 1 - digits.length) '0' ++ '.' ::
        (if rest.isEmpty then ['0'] else rest)
  else
    match digits with
    | [] => exponentText x
    | [d] => d :: exponentText x
    | d :: rest => d :: '.' :: (rest ++ exponentText x)

def signed (negative : Bool) (s : List Char) : List Char := if negative then '-' :: s else s

/-- The text of a number; the spellings of what is not finite are given. -/
def textWith (infinity notANumber : String) : Binary64 → String
  | .nan => notANumber
  | .infinite negative => String.ofList (signed negative infinity.toList)
  | .finite negative 0 _ => String.ofList (signed negative ['0', '.', '0'])
  | .finite negative m e =>
    let (digits, x) := leading (shortest m e)
    String.ofList (signed negative (layout digits x))

def text : Binary64 → String := textWith "inf" "nan"

end ResourceVersions.Binary64
