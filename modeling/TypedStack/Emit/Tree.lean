import TypedStack.Emit.Access
import TypedStack.Emit.Call
import TypedStack.Emit.Control
import TypedStack.Emit.Delegate
import TypedStack.Emit.Stackalloc

/-! Emission of whole trees: the plan of a tree from the plans of its parts. -/
namespace TypedStack

open Emit

mutual

def Expr.plan (env : Env) : Expr → Plan
  | .literal i => .make env (.literal i) (literalLoad i) (noPlace i)
  | .element i array index =>
    let a := array.plan env
    let x := index.plan env
    .assignable env (.element i array index) (elementLoad i a x) (elementLocate i a x)
      (elementTarget i a x)
  | .deref i pointer =>
    let p := pointer.plan env
    .assignable env (.deref i pointer) (derefLoad i p) (derefLocate p) (derefTarget i p)
  | .typedRef i operand =>
    let p := operand.plan env
    .make env (.typedRef i operand) (typedRefLoad i p) (typedRefLocate i p)
  | .this i => .make env (.this i) (thisLoad i) (thisLocate i)
  | .throw i exception =>
    let p := exception.plan env
    .make env (.throw i exception) (throwLoad p) (throwLocate p)
  | .param i p =>
    .assignable env (.param i p) (paramLoad env p) (paramLocate env p) (paramTarget env p)
  | .localVar i l =>
    .assignable env (.localVar i l) (localLoad env l) (localLocate env i l) (localTarget env l)
  | .call i receiver m args nonVirtual =>
    let r := Expr.planOption env receiver
    let as := Expr.planList env args
    .make env (.call i receiver m args nonVirtual) (callLoad i r m as nonVirtual)
      (callLocate i r m as nonVirtual)
  | .duplicate i mode => .make env (.duplicate i mode) (duplicateLoad i mode) duplicateLocate
  | .field i receiver f byValue =>
    let r := Expr.planOption env receiver
    .assignable env (.field i receiver f byValue) (fieldLoad env i r f) (fieldLocate i r f)
      (fieldTarget i r f)
  | .sequence i locals effects value =>
    let es := Expr.planList env effects
    let v := value.plan env
    .make env (.sequence i locals effects value) (sequenceLoad env locals es v)
      (sequenceLocate env locals es v)
  | .assign i left right isRef =>
    let l := left.plan env
    let r := right.plan env
    .make env (.assign i left right isRef) (assignLoad i l r isRef) (assignLocate i l r isRef)
  | .heldReceiver i => .make env (.heldReceiver i) popUnless heldLocate
  | .eitherReceiver i value reference =>
    let v := value.plan env
    let r := reference.plan env
    .make env (.eitherReceiver i value reference) (eitherLoad i v r) (eitherLocate i v r)
  | .conditional i condition consequence alternative isRef =>
    let t := condition.plan env
    let c := consequence.plan env
    let a := alternative.plan env
    .make env (.conditional i condition consequence alternative isRef) (conditionalLoad t c a)
      (conditionalLocate t c a)
  | .convert i operand c =>
    let p := operand.plan env
    .make env (.convert i operand c) (convertLoad i p c) (noPlace i)
  | .delegate i receiver m nonVirtual =>
    let r := Expr.planOption env receiver
    .make env (.delegate i receiver m nonVirtual) (delegateLoad env i r m nonVirtual) (noPlace i)
  | .stackalloc i elem count inits =>
    let n := count.plan env
    let es := Expr.planList env inits
    .make env (.stackalloc i elem count inits)
      (fun used => Emit.stackalloc env elem n es used i.span) (noPlace i)

def Expr.planOption (env : Env) : Option Expr → Option Plan
  | none => none
  | some e => some (e.plan env)

def Expr.planList (env : Env) : List Expr → List Plan
  | [] => []
  | e :: es => e.plan env :: Expr.planList env es

end

namespace Emit

def value (env : Env) (e : Expr) (used : Bool) : Emit Unit := (e.plan env).value used

/-- Emit the address of `e` for this kind of use. The temporary made for it, if any, is given to
the caller. -/
def address (env : Env) (e : Expr) (kind : AddressKind) : Emit (Option Slot) :=
  (e.plan env).address kind

end Emit

end TypedStack
