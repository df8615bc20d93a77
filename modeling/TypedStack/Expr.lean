import TypedStack.Constant
import TypedStack.Span
import TypedStack.Symbol

/-! Lowered expression trees. Every node carries its type, the value it was folded to, if any,
and the place it came from. -/
namespace TypedStack

structure Info where
  ty : Ty
  constant : Option Constant
  span : Span
  deriving DecidableEq, Repr

inductive ConversionKind where
  | identity
  | implicitNumeric
  | explicitNumeric
  | implicitReference
  | boxing
  | explicitReference
  | unboxing
  | implicitEnumeration
  | explicitEnumeration
  | pointerToInteger
  | integerToPointer
  | pointerToPointer
  | pointerToVoid
  | nullToPointer
  | methodGroup
  | implicitUserDefined
  | explicitUserDefined
  | implicitNullable
  | explicitNullable
  deriving DecidableEq, Repr

def ConversionKind.text : ConversionKind → String
  | identity => "Identity"
  | implicitNumeric => "ImplicitNumeric"
  | explicitNumeric => "ExplicitNumeric"
  | implicitReference => "ImplicitReference"
  | boxing => "Boxing"
  | explicitReference => "ExplicitReference"
  | unboxing => "Unboxing"
  | implicitEnumeration => "ImplicitEnumeration"
  | explicitEnumeration => "ExplicitEnumeration"
  | pointerToInteger => "PointerToInteger"
  | integerToPointer => "IntegerToPointer"
  | pointerToPointer => "PointerToPointer"
  | pointerToVoid => "PointerToVoid"
  | nullToPointer => "NullToPointer"
  | methodGroup => "MethodGroup"
  | implicitUserDefined => "ImplicitUserDefined"
  | explicitUserDefined => "ExplicitUserDefined"
  | implicitNullable => "ImplicitNullable"
  | explicitNullable => "ExplicitNullable"

structure Conversion where
  kind : ConversionKind
  /-- Overflow is an error. -/
  checked : Bool
  /-- Written as a cast in the source. -/
  written : Bool
  deriving DecidableEq, Repr

/-- Dropping the result of the conversion would drop an effect with it. -/
def Conversion.hasEffect (c : Conversion) : Bool :=
  match c.kind with
  | .identity | .implicitNumeric | .implicitEnumeration | .implicitReference | .boxing
  | .pointerToPointer | .pointerToVoid => false
  | .explicitNumeric | .explicitEnumeration | .pointerToInteger | .integerToPointer => c.checked
  | _ => true

inductive Expr where
  | literal (info : Info)
  | element (info : Info) (array index : Expr)
  | deref (info : Info) (pointer : Expr)
  /-- The reference held in a typed reference. -/
  | typedRef (info : Info) (operand : Expr)
  | this (info : Info)
  | throw (info : Info) (exception : Expr)
  | param (info : Info) (p : Parameter)
  | localVar (info : Info) (l : Local)
  | call (info : Info) (receiver : Option Expr) (method : Method) (args : List Expr)
      (nonVirtual : Bool)
  /-- A value that already lies on the stack and is copied. -/
  | duplicate (info : Info) (mode : RefKind)
  | field (info : Info) (receiver : Option Expr) (f : Field) (byValue : Bool)
  | sequence (info : Info) (locals : List Local) (effects : List Expr) (value : Expr)
  | assign (info : Info) (left right : Expr) (isRef : Bool)
  /-- The receiver of a conditional access, already on the stack. -/
  | heldReceiver (info : Info)
  /-- A receiver of type-parameter type, by value or by reference as the type turns out. -/
  | eitherReceiver (info : Info) (value reference : Expr)
  | conditional (info : Info) (condition consequence alternative : Expr) (isRef : Bool)
  | convert (info : Info) (operand : Expr) (conversion : Conversion)
  | delegate (info : Info) (receiver : Option Expr) (method : Method) (nonVirtual : Bool)
  | stackalloc (info : Info) (elem : Ty) (count : Expr) (inits : List Expr)

namespace Expr

def info : Expr → Info
  | literal i | element i _ _ | deref i _ | typedRef i _ | this i | throw i _ | param i _
  | localVar i _ | call i _ _ _ _ | duplicate i _ | field i _ _ _ | sequence i _ _ _
  | assign i _ _ _ | heldReceiver i | eitherReceiver i _ _ | conditional i _ _ _ _
  | convert i _ _ | delegate i _ _ _ | stackalloc i _ _ _ => i

def ty (e : Expr) : Ty := e.info.ty
def constant (e : Expr) : Option Constant := e.info.constant
def span (e : Expr) : Span := e.info.span
def isConstant (e : Expr) : Bool := e.constant.isSome

def isThis : Expr → Bool
  | this _ => true
  | _ => false

/-- How the place that the expression denotes refers to its value. -/
def mode : Expr → RefKind
  | localVar _ l => l.mode
  | param _ p => p.mode
  | field _ _ f _ => f.mode
  | call _ _ m _ _ => m.resultMode
  | duplicate _ r => r
  | sequence _ _ _ value => value.mode
  | assign _ left _ true => left.mode
  | conditional _ _ _ _ true => .ref
  | _ => .byValue

end Expr

end TypedStack
