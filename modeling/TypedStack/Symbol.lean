import TypedStack.Reference
import TypedStack.Ty

/-! Parameters, locals, fields and methods. Parameters and arguments are numbered by 16-bit words,
which wrap. -/
namespace TypedStack

structure Parameter where
  name : String
  ordinal : UInt16
  ty : Ty
  mode : RefKind
  lifetime : Lifetime
  deriving DecidableEq, Repr

abbrev LocalId := Nat

def LocalId.text (id : LocalId) : String := s!"_{id}"

structure Local where
  id : LocalId
  ty : Ty
  mode : RefKind
  deriving DecidableEq, Repr

structure Field where
  name : String
  owner : Ty
  ty : Ty
  isConst : Bool
  isStatic : Bool
  isReadonly : Bool
  mode : RefKind
  deriving DecidableEq, Repr

def Field.text (f : Field) : String := f.owner.name ++ "::" ++ f.name

inductive MethodKind where
  | constructor
  | staticConstructor
  | initOnlyMutator
  | ordinary
  deriving DecidableEq, Repr

structure Method where
  name : String
  owner : Ty
  kind : MethodKind
  isStatic : Bool
  isVirtual : Bool
  isReadonly : Bool
  result : Ty
  resultMode : RefKind
  params : List Parameter
  deriving DecidableEq, Repr

namespace Method

def text (m : Method) : String := m.owner.name ++ "::" ++ m.name

/-- The receiver as a parameter: by reference for value types, by value otherwise. -/
def receiver? (m : Method) : Option Parameter :=
  if m.isStatic then none
  else
    let mode : RefKind :=
      if m.owner.isValueType then (if m.isReadonly then .input else .ref) else .byValue
    some ⟨"this", 0, m.owner, mode, .unscoped⟩

def returnsValue (m : Method) : Bool := !m.result.isVoid || m.resultMode.isByRef

def inputs (m : Method) : Nat := m.params.length + (if m.isStatic then 0 else 1)

end Method

structure Enclosing where
  kind : MethodKind
  owner : Ty
  isStatic : Bool
  isReadonly : Bool
  deriving DecidableEq, Repr

namespace Enclosing

def ofMethod (m : Method) : Enclosing := ⟨m.kind, m.owner, m.isStatic, m.isReadonly⟩

def ordinary (owner : Ty) : Enclosing := ⟨.ordinary, owner, false, false⟩

/-- Argument number of a declared parameter: an instance method's receiver is argument zero. -/
def argument (m : Enclosing) (p : Parameter) : Nat :=
  (if m.isStatic then p.ordinal else p.ordinal + 1).toNat

/-- The number is counted without running over. -/
def numbers (m : Enclosing) (p : Parameter) : Bool := m.isStatic || p.ordinal != 65535

end Enclosing

end TypedStack
