import TypedStack.Decimal
import TypedStack.Prim

/-! Folded values. Floating values are kept as their bit patterns, so that a constant is the
same constant whatever was rounded on the way. -/
namespace TypedStack

inductive Constant where
  | null
  | bool (value : Bool)
  | char (unit : UInt16)
  | int (value : Int64)
  | uint (value : UInt64)
  | float32 (bits : UInt32)
  | float64 (bits : UInt64)
  deriving DecidableEq, Repr

open Binary (Format)

def littleEndian (count n : Nat) : List UInt8 :=
  (List.range count).map fun i => UInt8.ofNat (n >>> (8 * i))

def single (x : Binary) : UInt32 := UInt32.ofNat (Format.single.encode x)
def double (x : Binary) : UInt64 := UInt64.ofNat (Format.double.encode x)

namespace Constant

def isNull : Constant → Bool
  | null => true
  | _ => false

/-- Integral values as a signed word; unsigned ones keep their bits. -/
def integral? : Constant → Option Int64
  | null => some 0
  | bool b => some (if b then 1 else 0)
  | char c => some (Int64.ofNat c.toNat)
  | int v => some v
  | uint v => some v.toInt64
  | float32 _ | float64 _ => none

def double? : Constant → Option UInt64
  | int v => some (double (.ofInt v.toInt))
  | uint v => some (double (.ofInt v.toNat))
  | float32 b => some (double (Format.single.decode b.toNat))
  | float64 b => some b
  | null | bool _ | char _ => none

/-- The bytes of the constant as a value of type `p`. A single is rounded from the double. -/
def layout? (c : Constant) (p : Prim) : Option (List UInt8) :=
  match p with
  | .f32 => c.double?.map fun b =>
      littleEndian 4 (single (Format.double.decode b.toNat)).toNat
  | .f64 => c.double?.map fun b => littleEndian 8 b.toNat
  | _ => do
      let size ← p.size?
      let v ← c.integral?
      return littleEndian size v.toUInt64.toNat

def fitsInt32 (v : Int64) : Bool :=
  Int32.minValue.toInt ≤ v.toInt && v.toInt ≤ Int32.maxValue.toInt

/-- The constant as a 32-bit immediate. Unsigned values up to 32 bits keep their bits. -/
def immediate? : Constant → Option Int32
  | bool b => some (if b then 1 else 0)
  | char c => some (Int32.ofNat c.toNat)
  | int v => if fitsInt32 v then some v.toInt32 else none
  | uint v => if v.toNat < UInt32.size then some v.toUInt32.toInt32 else none
  | null | float32 _ | float64 _ => none

def hex4 (n : Nat) : String :=
  let digits := Nat.toDigits 16 n
  String.ofList (List.replicate (4 - digits.length) '0' ++ digits)

def text : Constant → String
  | null => "null"
  | bool b => if b then "true" else "false"
  | char c => "'\\u\x7b" ++ hex4 c.toNat ++ "\x7d'"
  | int v => toString v.toInt
  | uint v => toString v.toNat ++ "u"
  | float32 b => (Format.single.decode b.toNat).text .single ++ "f"
  | float64 b => (Format.double.decode b.toNat).text .double ++ "d"

end Constant

end TypedStack
