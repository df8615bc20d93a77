import TypedStack.Prim

/-! Types as the emitter sees them: a name and a shape. Two types are the same when name and
shape agree all the way down. -/
namespace TypedStack

structure Constraints where
  referenceType : Bool
  valueType : Bool
  allowsRefLike : Bool
  deriving DecidableEq, Repr

inductive Shape where
  | void
  | primitive (p : Prim)
  | object
  | string
  | classType
  | interfaceType
  | delegateType
  | structType (refLike readonly : Bool)
  | enumType (underlying : Prim)
  | typeParam (known : Constraints)
  deriving DecidableEq, Repr

inductive Ty where
  | simple (name : String) (shape : Shape)
  | array (name : String) (element : Ty)
  | pointer (name : String) (pointee : Ty)
  deriving DecidableEq, Repr

namespace Ty

def void : Ty := simple "void" .void
def object : Ty := simple "object" .object
def string : Ty := simple "string" .string
def ofPrim (p : Prim) : Ty := simple p.name (.primitive p)
def nint : Ty := ofPrim .nint
def classNamed (name : String) : Ty := simple name .classType
def structNamed (name : String) (refLike readonly : Bool) : Ty :=
  simple name (.structType refLike readonly)

def name : Ty → String
  | simple n _ | array n _ | pointer n _ => n

def arrayOf (element : Ty) : Ty := array (element.name ++ "[]") element
def pointerTo (pointee : Ty) : Ty := pointer (pointee.name ++ "*") pointee

def rename (name : String) : Ty → Ty
  | simple _ s => simple name s
  | array _ e => array name e
  | pointer _ p => pointer name p

def isVoid : Ty → Bool
  | simple _ .void => true
  | _ => false

def isObject : Ty → Bool
  | simple _ .object => true
  | _ => false

def isDelegate : Ty → Bool
  | simple _ .delegateType => true
  | _ => false

def isEnum : Ty → Bool
  | simple _ (.enumType _) => true
  | _ => false

def isPointer : Ty → Bool
  | pointer .. => true
  | _ => false

def isTypeParam : Ty → Bool
  | simple _ (.typeParam _) => true
  | _ => false

def isValueType : Ty → Bool
  | simple _ (.primitive _) | simple _ (.structType ..) | simple _ (.enumType _) => true
  | simple _ (.typeParam c) => c.valueType
  | pointer .. => true
  | _ => false

def isReferenceType : Ty → Bool
  | simple _ .object | simple _ .string | simple _ .classType
  | simple _ .interfaceType | simple _ .delegateType => true
  | simple _ (.typeParam c) => c.referenceType
  | array .. => true
  | _ => false

/-- A reference type that the verifier also takes for one: a type parameter never is, whatever
its constraints. -/
def isVerifierReference (t : Ty) : Bool := t.isReferenceType && !t.isTypeParam

/-- Values of the type may hold references and live on the stack only. -/
def isRefLike : Ty → Bool
  | simple _ (.structType refLike _) => refLike
  | simple _ (.typeParam c) => c.allowsRefLike
  | _ => false

def isReadonly : Ty → Bool
  | simple _ (.structType _ readonly) => readonly
  | _ => false

/-- The primitive that represents a value: an enum is represented by its underlying type. -/
def primitive? : Ty → Option Prim
  | simple _ (.primitive p) | simple _ (.enumType p) => some p
  | _ => none

def size? (t : Ty) : Option Nat := t.primitive?.bind Prim.size?

def isBlittable (t : Ty) : Bool := t.size?.isSome

def element? : Ty → Option Ty
  | array _ t | pointer _ t => some t
  | simple .. => none

end Ty

end TypedStack
