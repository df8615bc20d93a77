import TypedStack.Expr

/-! Homes. An expression has a home for a kind of address when it denotes a place whose address
may be given out for that use. Where it has none, its value is copied to a temporary and the
address of the copy is taken. The rules take some homes for granted and give an answer all the
same; `asserted` tells where that is right. -/
namespace TypedStack

structure Surroundings where
  method : Enclosing
  /-- Keep to what older verifiers accept. -/
  compat : Bool
  /-- Locals that live on the evaluation stack only. -/
  resident : List LocalId
  deriving Repr

namespace Surroundings

def isResident (s : Surroundings) (id : LocalId) : Bool := s.resident.contains id

/-- Results of calls and copies of stack values: a reference is a home, a read-only one for
reading only. -/
def resultHasHome (mode : RefKind) (kind : AddressKind) : Bool :=
  mode == .ref || (kind.isReadonly && mode == .refReadonly)

def localHasHome (s : Surroundings) (l : Local) (kind : AddressKind) : Bool :=
  let onStack := s.isResident l.id && l.mode == .byValue
  let writesReadonly := !kind.isReadonly && l.mode == .refReadonly
  !(onStack || writesReadonly)

def paramHasHome (p : Parameter) (kind : AddressKind) : Bool :=
  kind.isReadonly || !(p.mode == .input || p.mode == .refReadonlyParam)

def thisHasHome (s : Surroundings) (ty : Ty) (kind : AddressKind) : Bool :=
  ty.isReferenceType || kind.isReadonly || !s.method.isReadonly

/-- A read-only field can be written only while its type is being constructed, and an instance
one only through `this`. -/
def readonlyFieldHasHome (s : Surroundings) (receiver : Option Expr) (f : Field) : Bool :=
  f.owner == s.method.owner &&
    if f.isStatic then s.method.kind == .staticConstructor
    else
      (s.method.kind == .constructor || s.method.kind == .initOnlyMutator) &&
        receiver.any Expr.isThis

/-- The home of a field, given how its receiver answers. A mutable field of a value follows the
receiver, save that a receiver with no home at all can be copied and the copy written. -/
def fieldHasHome (s : Surroundings) (receiver : Option Expr) (receiverHome : AddressKind → Bool)
    (f : Field) (byValue : Bool) (kind : AddressKind) : Bool :=
  if f.isConst then false
  else if f.mode == .ref then true
  else if kind == .readonlyStrict || (kind == .readonly && !s.compat) then true
  else if byValue || f.mode == .refReadonly then false
  else if f.isReadonly then s.readonlyFieldHasHome receiver f
  else if !s.compat && receiver.any (·.ty.isValueType) then
    receiverHome kind || !receiverHome .readonly
  else true

/-- What the home of a field depends on is that of its receiver. -/
def followsReceiver (s : Surroundings) (receiver : Option Expr) (f : Field) (byValue : Bool)
    (kind : AddressKind) : Bool :=
  !f.isConst && f.mode != .ref && !kind.isReadonly && !byValue && f.mode != .refReadonly &&
    !f.isReadonly && !s.compat && receiver.any (·.ty.isValueType)

/-- Rebinding a reference yields that reference. -/
def rebindHasHome (mode : RefKind) (kind : AddressKind) : Bool :=
  match mode with
  | .ref => true
  | .refReadonly | .refReadonlyParam => kind.isReadonly
  | _ => false

def hasHome (s : Surroundings) : Expr → AddressKind → Bool
  | .element i _ _, kind => !(kind == .readonly && !i.ty.isValueType && s.compat)
  | .deref .., _ | .typedRef .., _ | .throw .., _ | .heldReceiver _, _
  | .eitherReceiver .., _ => true
  | .this i, kind => s.thisHasHome i.ty kind
  | .param _ p, kind => paramHasHome p kind
  | .localVar _ l, kind => s.localHasHome l kind
  | .call _ _ m _ _, kind => resultHasHome m.resultMode kind
  | .duplicate _ mode, kind => resultHasHome mode kind
  | .field _ (some r) f byValue, kind =>
    s.fieldHasHome (some r) (fun k => hasHome s r k) f byValue kind
  | .field _ none f byValue, kind => s.fieldHasHome none (fun _ => false) f byValue kind
  | .sequence _ _ _ value, kind => hasHome s value kind
  | .assign _ left _ isRef, kind => isRef && rebindHasHome left.mode kind
  | .conditional _ _ consequence alternative isRef, kind =>
    isRef && hasHome s consequence kind && hasHome s alternative kind
  | .literal _, _ | .convert .., _ | .delegate .., _ | .stackalloc .., _ => false

/-- What the rules take for granted where they are asked: both parts of a receiver that is one of
two have a home. Only those expressions count that an answer is looked for in. -/
def asserted (s : Surroundings) : Expr → AddressKind → Bool
  | .eitherReceiver _ value reference, kind =>
    asserted s value kind && hasHome s value kind && asserted s reference kind &&
      hasHome s reference kind
  | .field _ (some r) f byValue, kind =>
    !s.followsReceiver (some r) f byValue kind ||
      (asserted s r kind && (hasHome s r kind || asserted s r .readonly))
  | .sequence _ _ _ value, kind => asserted s value kind
  | .conditional _ _ consequence alternative isRef, kind =>
    !isRef || (asserted s consequence kind &&
      (!hasHome s consequence kind || asserted s alternative kind))
  | _, _ => true

end Surroundings

end TypedStack
