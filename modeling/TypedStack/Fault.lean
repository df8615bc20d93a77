import TypedStack.Expr

/-! Internal errors: a tree that no correct earlier stage hands over. -/
namespace TypedStack

structure InternalError where
  message : String
  span : Span
  notes : List (String × String)
  deriving DecidableEq, Repr

def InternalError.text (e : InternalError) : String :=
  let notes := e.notes.map fun (key, value) => "\n  " ++ key ++ ": " ++ value
  "internal compiler error at " ++ e.span.text ++ ": " ++ e.message ++ String.join notes

inductive Fault where
  | literalWithoutValue (ty : Ty)
  | fieldWithoutReceiver (f : Field)
  | storeWithoutReceiver (f : Field)
  | callWithoutReceiver (m : Method)
  | argumentCount (m : Method) (arguments parameters : Nat)
  | immediateTooWide (c : Constant) (ty : Ty)
  | addressOfValueAssignment
  | addressOfResident (id : LocalId)
  | addressOfResult (m : Method)
  | addressWithoutHome (ty : Ty)
  | rebindOfNonReference (ty : Ty)
  | methodGroup (target : Ty)
  | notLowered (kind : ConversionKind) (target : Ty)
  | numericOfNonPrimitive (source target : Ty)
  | numericOfNonNumeric (source target : Prim)
  | pointerToNonIntegral (source target : Ty)
  | blockOfNonBlittable (element : Ty)
  | noLayout (c : Constant) (element : Prim)
  /-- A checked build stops here. -/
  | assertionFailed
  deriving DecidableEq, Repr

namespace Fault

def message : Fault → String
  | literalWithoutValue _ => "literal without a constant value"
  | fieldWithoutReceiver _ => "instance field access without receiver"
  | storeWithoutReceiver _ => "instance field store without receiver"
  | callWithoutReceiver _ => "instance call without receiver"
  | argumentCount .. => "argument count does not match signature"
  | immediateTooWide .. => "constant does not fit a 32-bit immediate"
  | addressOfValueAssignment => "address of a value assignment"
  | addressOfResident _ => "address of a stack-resident value local"
  | addressOfResult _ => "address of a by-value call result"
  | addressWithoutHome _ => "expression without a home reached direct address emission"
  | rebindOfNonReference _ => "reference assignment to a non-reference location"
  | methodGroup _ => "method group conversion reached emission"
  | notLowered .. => "conversion should have been lowered"
  | numericOfNonPrimitive .. => "numeric conversion between non-primitive types"
  | numericOfNonNumeric .. => "numeric conversion with non-numeric endpoint"
  | pointerToNonIntegral .. => "pointer conversion with non-integral endpoint"
  | blockOfNonBlittable _ => "block initializer for non-blittable element"
  | noLayout .. => "constant has no layout at element type"
  | assertionFailed => "assertion failed"

def notes : Fault → List (String × String)
  | literalWithoutValue ty => [("type", ty.name)]
  | fieldWithoutReceiver f | storeWithoutReceiver f => [("field", f.text)]
  | callWithoutReceiver m | addressOfResult m => [("method", m.text)]
  | argumentCount m arguments parameters =>
    [("method", m.text), ("arguments", toString arguments), ("parameters", toString parameters)]
  | immediateTooWide c ty => [("value", c.text), ("type", ty.name)]
  | addressOfValueAssignment | assertionFailed => []
  | addressOfResident id => [("local", id.text)]
  | addressWithoutHome ty | rebindOfNonReference ty => [("type", ty.name)]
  | methodGroup target => [("target", target.name)]
  | notLowered kind target => [("kind", kind.text), ("to", target.name)]
  | numericOfNonPrimitive source target | pointerToNonIntegral source target =>
    [("from", source.name), ("to", target.name)]
  | numericOfNonNumeric source target => [("from", source.name), ("to", target.name)]
  | blockOfNonBlittable element => [("element", element.name)]
  | noLayout c element => [("value", c.text), ("element", element.name)]

end Fault

structure Failure where
  fault : Fault
  span : Span
  deriving DecidableEq, Repr

def Failure.error (f : Failure) : InternalError := ⟨f.fault.message, f.span, f.fault.notes⟩

end TypedStack
