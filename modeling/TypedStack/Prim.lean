/-! The primitive types of the machine. Address-sized integers have no size of their own:
the machine decides it. -/
namespace TypedStack

inductive Prim where
  | bool | char
  | i8 | u8 | i16 | u16 | i32 | u32 | i64 | u64
  | f32 | f64
  | nint | nuint
  deriving DecidableEq, Repr

namespace Prim

def all : List Prim :=
  [bool, char, i8, u8, i16, u16, i32, u32, i64, u64, f32, f64, nint, nuint]

def name : Prim → String
  | bool => "bool"
  | char => "char"
  | i8 => "i8"
  | u8 => "u8"
  | i16 => "i16"
  | u16 => "u16"
  | i32 => "i32"
  | u32 => "u32"
  | i64 => "i64"
  | u64 => "u64"
  | f32 => "f32"
  | f64 => "f64"
  | nint => "nint"
  | nuint => "nuint"

def ofName? (s : String) : Option Prim :=
  all.find? fun p => p.name == s

/-- Size in bytes, where the machine does not decide it. -/
def size? : Prim → Option Nat
  | bool | i8 | u8 => some 1
  | char | i16 | u16 => some 2
  | i32 | u32 | f32 => some 4
  | i64 | u64 | f64 => some 8
  | nint | nuint => none

def isUnsigned : Prim → Bool
  | char | u8 | u16 | u32 | u64 | nuint => true
  | _ => false

def isFloating : Prim → Bool
  | f32 | f64 => true
  | _ => false

def isNumeric (p : Prim) : Bool := p != bool

/-- A value of the type is the same bytes in memory on every machine. -/
def isBlittable (p : Prim) : Bool := p.size?.isSome

end Prim

end TypedStack
