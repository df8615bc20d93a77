import TypedStack.Symbol

/-! Escaping references. A temporary passed by reference may be used again after the call only
if the callee could not keep the reference. It can when a reference may come in through one
place (a source) and go out through another (a target). Sources and targets are counted without
a bound. -/
namespace TypedStack.Escape

structure Counts where
  sources : Nat
  targets : Nat
  deriving DecidableEq, Repr

namespace Counts

/-- A result that is observed and can hold references is a target. -/
def ofResult (used : Bool) (result : Ty) (mode : RefKind) : Counts :=
  ⟨0, if used && (mode.isByRef || result.isRefLike) then 1 else 0⟩

def mayCapture (c : Counts) : Bool := decide (0 < c.sources) && decide (0 < c.targets)

/-- A parameter that can hold references beyond the call is a source, and a target as well if
the callee can write it. -/
def add (c : Counts) (p : Parameter) (readonlyAddress : Bool) : Counts :=
  if p.ty.isRefLike && p.lifetime == .unscoped then
    let written := p.mode.isWritable && !p.ty.isReadonly && !readonlyAddress
    ⟨c.sources + 1, if written then c.targets + 1 else c.targets⟩
  else c

def anyCaptures (c : Counts) : List Parameter → Bool
  | [] => false
  | p :: rest => (c.add p false).mayCapture || (c.add p false).anyCaptures rest

end Counts

/-- Whether a call of this signature can let a reference to a temporary escape. The receiver
counts as a parameter, which a read-only address protects. -/
def mightEscape (used : Bool) (result : Ty) (mode : RefKind) (receiver : Option Parameter)
    (receiverKind : Option AddressKind) (params : List Parameter) : Bool :=
  let counts := Counts.ofResult used result mode
  match receiver with
  | some p =>
    let counts := counts.add p (receiverKind.any AddressKind.isReadonly)
    counts.mayCapture || counts.anyCaptures params
  | none => counts.anyCaptures params

def callMightEscape (m : Method) (used : Bool) (receiverKind : Option AddressKind) : Bool :=
  mightEscape used m.result m.resultMode m.receiver? receiverKind m.params

end TypedStack.Escape
