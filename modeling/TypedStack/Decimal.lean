import TypedStack.Binary

/-! Decimal text of binary numbers: the fewest digits that read back to the same pattern,
written positionally. -/
namespace TypedStack

structure Decimal where
  digits : Nat
  exponent : Int
  deriving DecidableEq, Repr

namespace Decimal

/-- The reals that round to one pattern, as numerators over a common denominator; the ends
belong to it when `closed`. -/
structure Interval where
  low : Nat
  value : Nat
  high : Nat
  den : Nat
  closed : Bool
  deriving Repr

namespace Interval

/-- The interval of `m * 2 ^ q`: half a place to each side, but a quarter below the least
significand of a binade, where the places are half as wide. -/
def ofSignificand (f : Binary.Format) (m : Nat) (q : Int) : Interval :=
  let below := if m = 1 <<< f.fractionBits ∧ f.leastExponent < q then 1 else 2
  let scale := 1 <<< (q - 2).toNat
  { low := (4 * m - below) * scale
    value := 4 * m * scale
    high := (4 * m + 2) * scale
    den := 1 <<< (2 - q).toNat
    closed := m % 2 == 0 }

/-- Where `10 ^ g` is one unit: factors for a count of units and for a numerator. -/
def unit (i : Interval) (g : Int) : Nat × Nat := (Nat.pow 10 g.toNat * i.den, Nat.pow 10 (-g).toNat)

def mem (i : Interval) (c : Nat) (g : Int) : Bool :=
  let (a, b) := i.unit g
  if i.closed then i.low * b ≤ c * a && c * a ≤ i.high * b
  else i.low * b < c * a && c * a < i.high * b

/-- The nearer of the value's two neighbours among the multiples of `10 ^ g` that lie in the
interval; from the middle, the greater. -/
def nearest? (i : Interval) (g : Int) : Option Decimal :=
  let (a, b) := i.unit g
  let c := i.value * b / a
  match i.mem c g, i.mem (c + 1) g with
  | false, false => none
  | true, false => some ⟨c, g⟩
  | false, true => some ⟨c + 1, g⟩
  | true, true => some (if 2 * (i.value * b - c * a) < a then ⟨c, g⟩ else ⟨c + 1, g⟩)

def digitCount (n : Nat) : Nat := (Nat.toDigits 10 n).length

def zerosAfterPoint (den : Nat) : Nat → Nat → Nat
  | 0, _ => 0
  | fuel + 1, num => if den ≤ num then 0 else zerosAfterPoint den fuel (10 * num) + 1

def magnitude (i : Interval) : Int :=
  if i.den ≤ i.value then digitCount (i.value / i.den)
  else 1 - (zerosAfterPoint i.den (Nat.log2 i.den + 1) i.value : Int)

/-- Seventeen digits tell any two numbers of the wider format apart. -/
def shortest (i : Interval) : Decimal :=
  let k := i.magnitude
  ((List.range 17).findSome? fun (n : Nat) => i.nearest? (k - n - 1)).getD ⟨i.value / i.den, 0⟩

end Interval

def trim : Nat → Decimal → Decimal
  | 0, d => d
  | fuel + 1, d =>
    if d.digits ≠ 0 ∧ d.digits % 10 = 0 then trim fuel ⟨d.digits / 10, d.exponent + 1⟩ else d

def zeros (n : Nat) : String := String.ofList (List.replicate n '0')

def text (d : Decimal) : String :=
  let digits := toString d.digits
  if 0 ≤ d.exponent then digits ++ zeros d.exponent.toNat
  else
    let places := (-d.exponent).toNat
    let padded := zeros (places + 1 - digits.length) ++ digits
    let whole := padded.length - places
    String.ofList (padded.toList.take whole) ++ "." ++ String.ofList (padded.toList.drop whole)

end Decimal

namespace Binary

def signText (negative : Bool) : String := if negative then "-" else ""

/-- Text of a number of the format: shortest digits, never an exponent. -/
def text (f : Format) : Binary → String
  | nan => "NaN"
  | infinite negative => signText negative ++ "inf"
  | finite negative 0 _ => signText negative ++ "0"
  | finite negative m q =>
    signText negative ++ ((Decimal.Interval.ofSignificand f m q).shortest.trim 17).text

end Binary

end TypedStack
