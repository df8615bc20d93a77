/-! Binary floating point in exact integer arithmetic: reading a bit pattern as a number, and
rounding a number to the nearest pattern of a format. -/
namespace TypedStack

/-- The number a bit pattern stands for; a finite one is `± significand * 2 ^ exponent`. -/
inductive Binary where
  | nan
  | infinite (negative : Bool)
  | finite (negative : Bool) (significand : Nat) (exponent : Int)
  deriving DecidableEq, Repr

namespace Binary

def ofInt (v : Int) : Binary := finite (v < 0) v.natAbs 0

/-- The fields of an interchange format: one sign bit, then exponent, then fraction. -/
structure Format where
  exponentBits : Nat
  fractionBits : Nat
  deriving DecidableEq, Repr

namespace Format

def single : Format := ⟨8, 23⟩
def double : Format := ⟨11, 52⟩

def leastExponent (f : Format) : Int := 2 - (1 <<< (f.exponentBits - 1) : Nat) - f.fractionBits

def exponentMask (f : Format) : Nat := (1 <<< f.exponentBits) - 1
def signWeight (f : Format) : Nat := 1 <<< (f.exponentBits + f.fractionBits)
def infinity (f : Format) : Nat := f.exponentMask <<< f.fractionBits

def decode (f : Format) (bits : Nat) : Binary :=
  let negative := bits / f.signWeight % 2 == 1
  let biased := (bits >>> f.fractionBits) % (1 <<< f.exponentBits)
  let fraction := bits % (1 <<< f.fractionBits)
  if biased = f.exponentMask then
    if fraction = 0 then .infinite negative else .nan
  else if biased = 0 then .finite negative fraction f.leastExponent
  else .finite negative ((1 <<< f.fractionBits) + fraction) (f.leastExponent + biased - 1)

/-- The quotient by `2 ^ k` rounded to the nearest integer, a half to the even one. -/
def shiftNearest (m k : Nat) : Nat :=
  let whole := 1 <<< k
  let q := m >>> k
  let r := m % whole
  if 2 * r > whole || (2 * r == whole && q % 2 == 1) then q + 1 else q

/-- The pattern nearest to `m * 2 ^ q`, sign apart. The last place of the result has exponent
`t`; a carry out of the fraction runs into the exponent field, which is what it means. -/
def roundMagnitude (f : Format) (m : Nat) (q : Int) : Nat :=
  if m = 0 then 0 else
    let t := max (q + Nat.log2 m - f.fractionBits) f.leastExponent
    let n := if t ≤ q then m <<< (q - t).toNat else shiftNearest m (t - q).toNat
    min (((t - f.leastExponent).toNat <<< f.fractionBits) + n) f.infinity

def encode (f : Format) : Binary → Nat
  | .nan => f.infinity + (1 <<< (f.fractionBits - 1))
  | .infinite negative => (if negative then f.signWeight else 0) + f.infinity
  | .finite negative m q => (if negative then f.signWeight else 0) + f.roundMagnitude m q

end Format

end Binary

end TypedStack
