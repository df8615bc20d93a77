import TypedStack.Emit.Tree
import TypedStack.Options

/-! Method bodies emitted side by side. Each body has options, code and slots of its own; symbols,
constant data and reports belong to all of them. Bodies take turns: a step runs to its end before
the next one starts, in whichever body. Nothing is asserted on the way. -/
namespace TypedStack

structure Body where
  method : Enclosing
  options : Options
  resident : List LocalId
  stream : Stream
  slots : SlotPool

namespace Body

def start (method : Enclosing) (options : Options) : Body := ⟨method, options, [], .empty, .empty⟩

def env (b : Body) (symbols : Symbols) : Env :=
  { method := b.method
    compat := b.options.verifierCompat
    resident := b.resident
    blobInitializers := b.options.blobInitializers
    symbols
    assertions := false }

end Body

/-- What can be asked of a body. Calls, conversions, delegates and allocations can also be
emitted without a node around them. -/
inductive Step where
  | value (e : Expr) (used : Bool)
  | address (e : Expr) (kind : AddressKind)
  | hasHome (e : Expr) (kind : AddressKind)
  | keepOnStack (id : LocalId)
  | isResident (id : LocalId)
  | slotOf (id : LocalId)
  | call (receiver : Option Expr) (m : Method) (args : List Expr) (nonVirtual : Bool) (use : Use)
      (span : Span)
  | convert (info : Info) (operand : Expr) (c : Conversion) (used : Bool)
  /-- The operand lies on the stack already. -/
  | convertPushed (info : Info) (operand : Expr) (c : Conversion)
  | delegate (info : Info) (receiver : Option Expr) (m : Method) (nonVirtual used : Bool)
  | stackalloc (elem : Ty) (count : Expr) (inits : List Expr) (used : Bool) (span : Span)

inductive Answer where
  | done
  | verdict (b : Bool)
  | slot (s : Option Slot)
  deriving DecidableEq, Repr

namespace Step

def emit (env : Env) : Step → Emit Answer
  | .value e used => do
    Emit.value env e used
    return .done
  | .address e kind => return .slot (← Emit.address env e kind)
  | .hasHome e kind => do
    Emit.assert env (env.asserted e kind)
    return .verdict (env.hasHome e kind)
  | .keepOnStack _ => return .done
  | .isResident id => return .verdict (env.isResident id)
  | .slotOf id => return .slot ((← get).slots.slotOf? id)
  | .call receiver m args nonVirtual use span => do
    Emit.call (Expr.planOption env receiver) m (Expr.planList env args) nonVirtual use span
    return .done
  | .convert info operand c used => do
    Emit.convertLoad info (operand.plan env) c used
    return .done
  | .convertPushed info operand c => do
    Emit.convertPushed info operand.info c
    return .done
  | .delegate info receiver m nonVirtual used => do
    Emit.delegateLoad env info (Expr.planOption env receiver) m nonVirtual used
    return .done
  | .stackalloc elem count inits used span => do
    Emit.stackalloc env elem (count.plan env) (Expr.planList env inits) used span
    return .done

def residentAfter (known : List LocalId) : Step → List LocalId
  | .keepOnStack id => id :: known
  | _ => known

end Step

structure Session where
  symbols : Symbols
  bodies : Array Body
  blobs : BlobTable
  reports : Reports

namespace Session

def fresh (symbols : Symbols) (methods : List (Enclosing × Options)) : Session :=
  ⟨symbols, (methods.map fun (m, options) => Body.start m options).toArray, .empty, .empty⟩

def start (options : Options) (symbols : Symbols) (methods : List Enclosing) : Session :=
  fresh symbols (methods.map fun m => (m, options))

def settle (s : Session) (m : Nat) (b : Body) (state : State) : Session :=
  { s with
    bodies := s.bodies.setIfInBounds m { b with stream := state.stream, slots := state.slots }
    blobs := state.blobs
    reports := state.reports }

/-- Take a step in body `m`. After a failure the session goes on from where the step failed. -/
def step (s : Session) (m : Nat) (step : Step) : Except Failure Answer × Session :=
  match s.bodies[m]? with
  | none => (.ok .done, s)
  | some b =>
    let after := { b with resident := step.residentAfter b.resident }
    match step.emit (b.env s.symbols) ⟨b.stream, b.slots, s.blobs, s.reports⟩ with
    | .ok a state => (.ok a, s.settle m after state)
    | .error e state => (.error e, s.settle m after state)

end Session

end TypedStack
