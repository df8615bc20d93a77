/-! How references are passed and what an address may be used for. -/
namespace TypedStack

inductive RefKind where
  | byValue
  | ref
  | input
  | output
  | refReadonly
  | refReadonlyParam
  deriving DecidableEq, Repr

namespace RefKind

def isByRef (r : RefKind) : Bool := r != byValue

def isWritable : RefKind → Bool
  | ref | output => true
  | _ => false

def isReadonly : RefKind → Bool
  | input | refReadonly | refReadonlyParam => true
  | _ => false

end RefKind

/-- What an address is wanted for, from the most to the least demanding. A constrained address
is the receiver of a call through a type parameter; a strict read-only address must be the
place itself, never a copy that the verifier would ask for. -/
inductive AddressKind where
  | writable
  | constrained
  | readonly
  | readonlyStrict
  deriving DecidableEq, Repr

namespace AddressKind

def all : List AddressKind := [writable, constrained, readonly, readonlyStrict]

def rank : AddressKind → Nat
  | writable => 0
  | constrained => 1
  | readonly => 2
  | readonlyStrict => 3

instance : LE AddressKind := ⟨fun a b => a.rank ≤ b.rank⟩

instance (a b : AddressKind) : Decidable (a ≤ b) := inferInstanceAs (Decidable (a.rank ≤ b.rank))

def isReadonly : AddressKind → Bool
  | readonly | readonlyStrict => true
  | _ => false

end AddressKind

/-- Whether a parameter's references may outlive the call. -/
inductive Lifetime where
  | unscoped
  | scoped
  deriving DecidableEq, Repr

end TypedStack
