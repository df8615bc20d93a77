import Mathlib.Data.List.Forall2
import TypedStack.Proofs.Emission

/-! Outlines. The script of every use of a tree can be read off the tree, and emission follows it.
This is the one place where emission is gone through step by step: what a step counts for is
settled afterwards, on scripts. -/
namespace TypedStack

namespace Script

def when (b : Bool) (c : Script) : Script := if b then c else ∅

def all : List Script → Script
  | [] => ∅
  | c :: cs => c ++ all cs

def popUnless (used : Bool) : Script := when (!used) (code .pop)

def loadThrough (ty : Ty) : Script := code (.ldind (.load ty))

end Script

/-- How a method is called on a receiver. -/
def Method.called (m : Method) (receiver : Option Expr) (nonVirtual : Bool) : List Instr :=
  match m.isStatic, receiver with
  | true, _ | _, none => [.call m]
  | false, some r =>
    if r.ty.isVerifierReference then [if nonVirtual then .call m else .callvirt m]
    else if r.ty.isValueType then [.call m]
    else [.constrained r.ty, .callvirt m]

namespace Place

/-- The place without the number of its slot. -/
def shape : Place → Place
  | slot _ => slot ⟨0⟩
  | p => p

/-- The place is that of a local, if it is a slot. -/
def OfLocal (declared : Slot → Prop) : Place → Prop
  | slot x => declared x
  | _ => True

def script : Place → Script
  | stack => ∅
  | slot _ => .slot .store
  | arg n => .code (.arg .store n)
  | staticField f => .code (.staticField .store f)
  | field f => .code (.field .store f)
  | element ty => .code (.stelem ty)
  | indirect ty => .code (.stind (.store ty))

theorem script_shape (p : Place) : p.shape.script = p.script := by
  cases p <;> rfl

theorem takesOperands_shape (p : Place) : p.shape.takesOperands = p.takesOperands := by
  cases p <;> rfl

end Place

def Expr.place (env : Env) (isRef : Bool) : Expr → Place
  | localVar _ l =>
    if l.mode.isByRef && !isRef then .indirect l.ty
    else if env.isResident l.id then .stack else .slot ⟨0⟩
  | param _ p =>
    if p.mode.isByRef && !isRef then .indirect p.ty else .arg (env.method.argument p)
  | field _ _ f _ =>
    if f.mode.isByRef && !isRef then .indirect f.ty
    else if f.isStatic then .staticField f else .field f
  | element i _ _ => .element i.ty
  | e => .indirect e.ty

structure Outline where
  expr : Expr
  value : (used : Bool) → Script
  address : AddressKind → Script
  target : (isRef : Bool) → Script

namespace Outline

open Script

def ty (o : Outline) : Ty := o.expr.ty

def make (env : Env) (e : Expr) (load : Bool → Script) (locate : AddressKind → Script) :
    Outline :=
  let value used := if e.isConstant then when used constant else load used
  let address kind :=
    if env.hasHome e kind then locate kind else value true ++ (slot .store ++ slot .address)
  { expr := e, value, address, target := fun _ => address .writable }

def assignable (env : Env) (e : Expr) (load : Bool → Script) (locate : AddressKind → Script)
    (target : Bool → Script) : Outline :=
  { make env e load locate with target }

def receiver (o : Outline) (kind : AddressKind) : Script :=
  if o.ty.isVerifierReference then o.value true else o.address kind

def ofLocal (env : Env) (l : Local) (access : Access) : Script :=
  if env.isResident l.id then ∅ else define l ++ slot access

def ofLocalTarget (env : Env) (l : Local) (isRef : Bool) : Script :=
  if l.mode.isByRef && !isRef then ofLocal env l .load
  else if env.isResident l.id then ∅ else define l

def ofLoad (i : Instr) (byRef : Bool) (ty : Ty) (used : Bool) : Script :=
  when used (code i ++ when byRef (loadThrough ty))

def ofDuplicate (ty : Ty) (mode : RefKind) (used : Bool) : Script :=
  when (used || mode.isByRef) (duplicate ++ (when mode.isByRef (loadThrough ty) ++ popUnless used))

def ofFieldSource (env : Env) (r : Outline) : Script :=
  if r.ty.isVerifierReference then r.value true
  else if env.hasHome r.expr .readonly then r.address .readonly else r.value true

def ofFieldLoad (env : Env) (receiver : Option Outline) (f : Field) (used : Bool) : Script :=
  if f.isStatic then ofLoad (.staticField .load f) f.mode.isByRef f.ty used
  else receiver.elim fail fun r =>
    if !used && !r.ty.isVerifierReference then r.value false
    else ofFieldSource env r ++ (code (.field .load f) ++
      (when f.mode.isByRef (loadThrough f.ty) ++ popUnless used))

def ofFieldLocate (receiver : Option Outline) (f : Field) (kind : AddressKind) : Script :=
  if f.isStatic then code (.staticField (Emit.fieldAccess f) f)
  else receiver.elim fail fun r =>
    r.receiver (Emit.fieldReceiverKind kind) ++ code (.field (Emit.fieldAccess f) f)

def ofFieldTarget (receiver : Option Outline) (f : Field) (isRef : Bool) : Script :=
  let through := f.mode.isByRef && !isRef
  if f.isStatic then when through (code (.staticField .load f))
  else receiver.elim fail fun r => r.receiver .writable ++ when through (code (.field .load f))

def ofStart (env : Env) (locals : List Local) (effects : List Outline) : Script :=
  all ((locals.filter fun l => !env.isResident l.id).map define) ++
    all (effects.map fun o => o.value false)

def passed (o : Outline) : RefKind → Script
  | .byValue => o.value true
  | .ref | .output => o.address .writable
  | .input | .refReadonly | .refReadonlyParam => o.address .readonlyStrict

def ofDispatch (receiver : Option Outline) (m : Method) : Script :=
  if m.isStatic then ∅
  else receiver.elim fail (·.receiver (if m.isReadonly then .readonly else .constrained))

def ofArguments (args : List (Outline × Parameter)) : Script :=
  all (args.map fun x => x.1.passed x.2.mode)

def ofResult (m : Method) (use : Use) : Script :=
  when m.returnsValue <|
    match use with
    | .unused => code .pop
    | .value => when m.resultMode.isByRef (loadThrough m.result)
    | .address => ∅

def ofCall (receiver : Option Outline) (m : Method) (args : List Outline) (nonVirtual : Bool)
    (use : Use) : Script :=
  if args.length = m.params.length then
    ofDispatch receiver m ++ (ofArguments (args.zip m.params) ++
      (all ((m.called (receiver.map expr) nonVirtual).map code) ++ ofResult m use))
  else fail

def ofStore (place : Place) (use : Use) : Script :=
  match use, place.takesOperands with
  | .unused, _ => place.script
  | _, false => code .dup ++ place.script
  | _, true => code .dup ++ (slot .store ++ (place.script ++ slot .load))

def ofAssigned (left right : Outline) (isRef : Bool) : Script :=
  if isRef then right.address (if left.expr.mode.isReadonly then .readonlyStrict else .writable)
  else right.value true

def ofAssign (env : Env) (left right : Outline) (isRef : Bool) (use : Use) : Script :=
  left.target isRef ++ (ofAssigned left right isRef ++
    (ofStore (left.expr.place env isRef) use ++
      when (isRef && use == .value) (loadThrough left.ty)))

def ofConvert (operand : Outline) (c : Conversion) (used : Bool) : Script :=
  if c.kind = .methodGroup then fail
  else if c.kind = .nullToPointer then constant ++ popUnless used
  else if !used && !c.hasEffect then operand.value false
  else operand.value true ++ (remake ++ popUnless used)

def ofPointer (m : Method) (nonVirtual : Bool) : Script :=
  if m.isVirtual && !m.owner.isDelegate && !nonVirtual then code .dup ++ code (.ldvirtftn m)
  else code (.ldftn m)

def ofConstruct (env : Env) (ty : Ty) : Script :=
  (Emit.delegateConstructor? env ty).elim (adjust (-1)) fun m => code (.newobj m)

def ofDelegate (env : Env) (ty : Ty) (receiver : Option Outline) (m : Method)
    (nonVirtual used : Bool) : Script :=
  let receiver := if m.isStatic then none else receiver
  if used then
    receiver.elim constant (fun r => r.value true ++ remake) ++
      (ofPointer m nonVirtual ++ ofConstruct env ty)
  else receiver.elim ∅ fun r => r.value false

def ofSize (elem : Ty) (count : Outline) : Script :=
  if (Emit.foldedSize? elem count.expr).isSome then constant else count.value true ++ remake

def ofEntry (elem : Ty) (o : Outline) : Script :=
  code .dup ++ (remake ++ (o.value true ++ code (.stind (.store elem))))

def ofEntries (elem : Ty) (constants : Bool) (inits : List Outline) : Script :=
  all (inits.map fun o => when (constants || !o.expr.isConstant) (ofEntry elem o))

def ofData (env : Env) (elem : Ty) (inits : List Outline) (size : Nat) (data : List UInt8)
    (style : FillStyle) : Script :=
  let others := when (style == .mixed) (ofEntries elem false inits)
  match Emit.dataCopy env elem size data with
  | .repeated _ | .bytes => remake ++ others
  | .view _ => view ++ others
  | .unavailable => ofEntries elem true inits

def ofFill (env : Env) (elem : Ty) (inits : List Outline) : Script :=
  let exprs := inits.map expr
  match Emit.fillStyle env elem exprs with
  | .element => ofEntries elem true inits
  | style =>
    match Emit.blittable? elem with
    | none => fail
    | some p =>
      match Emit.blockBytes p exprs with
      | .error _ => fail
      | .ok data => ofData env elem inits (p.size?.getD 1) data style

def ofBlock (env : Env) (elem : Ty) (count : Outline) (inits : List Outline) (used : Bool) :
    Script :=
  ofSize elem count ++ (code .localloc ++
    if used then ofFill env elem inits
    else all (inits.map fun o => o.value false) ++ code .pop)

end Outline

open Script Outline

mutual

def Expr.outline (env : Env) : Expr → Outline
  | .literal i => .make env (.literal i) (fun _ => fail) fun _ => fail
  | .element i array index =>
    let operands := (array.outline env).value true ++ (index.outline env).value true
    .assignable env (.element i array index)
      (fun used => operands ++ (code (.ldelem i.ty) ++ popUnless used))
      (fun kind => operands ++ code
        (.ldelema i.ty ((kind == .constrained || kind.isReadonly) && !i.ty.isValueType)))
      fun _ => operands
  | .deref i pointer =>
    let p := (pointer.outline env).value true
    .assignable env (.deref i pointer) (fun used => p ++ (loadThrough i.ty ++ popUnless used))
      (fun _ => p) fun _ => p
  | .typedRef i operand =>
    let p := (operand.outline env).value true ++ code (.refanyval i.ty)
    .make env (.typedRef i operand) (fun used => p ++ (loadThrough i.ty ++ popUnless used))
      fun _ => p
  | .this i =>
    .make env (.this i) (ofLoad (.arg .load 0) i.ty.isValueType i.ty) fun _ =>
      code (.arg (if i.ty.isValueType then .load else .address) 0)
  | .throw i exception =>
    let p := (exception.outline env).value true
    .make env (.throw i exception) (fun used => p ++ Script.throw used) fun _ =>
      p ++ Script.throw true
  | .param i p =>
    let n := env.method.argument p
    .assignable env (.param i p) (ofLoad (.arg .load n) p.mode.isByRef p.ty)
      (fun _ => code (.arg (if p.mode.isByRef then .load else .address) n))
      fun isRef => when (p.mode.isByRef && !isRef) (code (.arg .load n))
  | .localVar i l =>
    .assignable env (.localVar i l)
      (fun used => when used (ofLocal env l .load ++ when l.mode.isByRef (loadThrough l.ty)))
      (fun _ => ofLocal env l (if l.mode.isByRef then .load else .address)) (ofLocalTarget env l)
  | .call i receiver m args nonVirtual =>
    let r := Expr.outlineOption env receiver
    let as := Expr.outlineList env args
    .make env (.call i receiver m args nonVirtual)
      (fun used => ofCall r m as nonVirtual (.ofUsed used))
      fun _ => ofCall r m as nonVirtual .address
  | .duplicate i mode =>
    .make env (.duplicate i mode) (ofDuplicate i.ty mode) fun _ => Script.duplicate
  | .field i receiver f byValue =>
    let r := Expr.outlineOption env receiver
    .assignable env (.field i receiver f byValue) (ofFieldLoad env r f) (ofFieldLocate r f)
      (ofFieldTarget r f)
  | .sequence i locals effects value =>
    let start := ofStart env locals (Expr.outlineList env effects)
    let v := value.outline env
    .make env (.sequence i locals effects value) (fun used => start ++ v.value used)
      fun kind => start ++ v.address kind
  | .assign i left right isRef =>
    let l := left.outline env
    let r := right.outline env
    .make env (.assign i left right isRef) (fun used => ofAssign env l r isRef (.ofUsed used))
      fun _ => ofAssign env l r isRef .address
  | .heldReceiver i => .make env (.heldReceiver i) popUnless fun _ => ∅
  | .eitherReceiver i value reference =>
    let v := value.outline env
    let r := reference.outline env
    .make env (.eitherReceiver i value reference)
      (fun used => Script.choice used Script.constant (r.value used) (v.value used))
      fun kind => Script.choice true Script.constant (r.address kind) (v.receiver kind)
  | .conditional i condition consequence alternative isRef =>
    let t := (condition.outline env).value true
    let c := consequence.outline env
    let a := alternative.outline env
    .make env (.conditional i condition consequence alternative isRef)
      (fun used => Script.choice used t (a.value used) (c.value used))
      fun kind => Script.choice true t (a.address kind) (c.address kind)
  | .convert i operand c =>
    .make env (.convert i operand c) (ofConvert (operand.outline env) c) fun _ => fail
  | .delegate i receiver m nonVirtual =>
    .make env (.delegate i receiver m nonVirtual)
      (ofDelegate env i.ty (Expr.outlineOption env receiver) m nonVirtual) fun _ => fail
  | .stackalloc i elem count inits =>
    .make env (.stackalloc i elem count inits)
      (ofBlock env elem (count.outline env) (Expr.outlineList env inits)) fun _ => fail

def Expr.outlineOption (env : Env) : Option Expr → Option Outline
  | none => none
  | some e => some (e.outline env)

def Expr.outlineList (env : Env) : List Expr → List Outline
  | [] => []
  | e :: es => e.outline env :: Expr.outlineList env es

end

namespace Expr

variable {env : Env} {P : Outline → Prop}

@[simp] theorem outline_expr (e : Expr) : (e.outline env).expr = e := by
  cases e <;> rfl

theorem outlineList_eq (es : List Expr) : outlineList env es = es.map (outline env) := by
  induction es with
  | nil => rfl
  | cons e es ih => rw [outlineList, ih, List.map_cons]

theorem forall_outlineOption {o : Option Expr} :
    (∀ x ∈ outlineOption env o, P x) ↔ ∀ e ∈ o, P (e.outline env) := by
  cases o <;> simp [outlineOption]

theorem forall_outlineList {es : List Expr} :
    (∀ x ∈ outlineList env es, P x) ↔ ∀ e ∈ es, P (e.outline env) := by
  simp [outlineList_eq]

end Expr

namespace Emit

variable {α : Type} {env : Env} {ok : Allowed} {c : Script} {own : List Slot}

/-! ### Uses of a plan -/

/-- What a node does that is not allowed everywhere: fail, and store. A node that stores may be
taken as it is. -/
structure Permits (env : Env) (ok : Allowed) (n : Expr) : Prop where
  fault : ∀ f, n.Defect env f → ok.fault f
  assign : ok.stores ∨ ∀ i l r isRef, n = .assign i l r isRef → ∀ use,
    ok.block (assign i (l.plan env) (r.plan env) isRef use)
  fill : ok.stores ∨ ∀ i elem count inits, n = .stackalloc i elem count inits → ∀ x ∈ inits,
    ∀ index, ok.block (fillElement elem index (x.plan env))

/-- The temporary that a place is reached by comes to those in hand. -/
abbrev Aims (env : Env) (ok : Allowed) (own : List Slot) (c : Script) (m : Emit Target) : Prop :=
  Runs env ok own c m fun t => t.temp.toList ++ own

/-- Each use of the plan follows its script. Only a form of expression that cannot be rebound adds
a fault of its own, where a reference is assigned to it. -/
structure PlanFollows (env : Env) (ok : Allowed) (o : Outline) (p : Plan) : Prop where
  expr : p.expr = o.expr
  value : ∀ used {own}, Follows env ok own (o.value used) (p.value used)
  address : ∀ kind {own}, Hands env ok own (o.address kind) (p.address kind)
  store : ∀ {own}, Aims env ok own (o.target false) (p.target false)
  rebind : (o.expr.isRebindable = false → ok.fault (.rebindOfNonReference o.ty)) →
    ∀ {own}, Aims env ok own (o.target true) (p.target true)

namespace PlanFollows

variable {o : Outline} {p : Plan} (h : PlanFollows env ok o p)

include h

-- with nothing given and no temporary in hand
theorem emits_value (used : Bool) :
    Emits env ok True [] (o.value used) (p.value used) fun _ => [] := h.value used True

theorem emits_address (kind : AddressKind) :
    Emits env ok True [] (o.address kind) (p.address kind) fun temp => temp.toList := by
  have haddress : Hands env ok [] (o.address kind) (p.address kind) := h.address kind
  simpa using haddress True

end PlanFollows

namespace Runs

theorem when {b : Bool} {m : Emit Unit} (h : Follows env ok own c m) :
    Follows env ok own (c.when b) (when b m) := by
  unfold Script.when Emit.when
  split
  · exact h
  · exact done ()

theorem popUnless (used : Bool) : Follows env ok own (.popUnless used) (popUnless used) :=
  when (code rfl)

theorem loadThrough (ty : Ty) : Follows env ok own (.loadThrough ty) (loadThrough ty) := .code rfl

theorem forM_all {f : α → Emit Unit} {script : α → Script} {xs : List α}
    (h : ∀ x ∈ xs, Follows env ok own (script x) (f x)) :
    Follows env ok own (.all (xs.map script)) (xs.forM f) := by
  induction xs with
  | nil => exact done ()
  | cons x xs ih =>
    exact (h x List.mem_cons_self).bind fun _ => ih fun y hy => h y (List.mem_cons_of_mem x hy)

end Runs

namespace PlanFollows

variable {e : Expr} {load : Bool → Emit Unit} {locate : AddressKind → Emit (Option Slot)}
  {target : Bool → Emit Target} {loaded : Bool → Script} {located : AddressKind → Script}

theorem valueOf (h : Permits env ok e)
    (hl : e.constant = none → ∀ used {own}, Follows env ok own (loaded used) (load used))
    (used : Bool) :
    Follows env ok own (if e.isConstant then .when used .constant else loaded used)
      (valueOf e.info load used) := by
  unfold Emit.valueOf Expr.isConstant Expr.constant
  cases hc : e.info.constant with
  | none => exact hl hc used
  | some c =>
    have hload : Follows env ok own .constant (constant c e.info.ty e.info.span) :=
      .loads (.constant (fun hfits => h.fault _ (.immediate hc hfits)) _)
    exact hload.when

theorem addressOf (h : e.All (Permits env ok))
    (hl : e.constant = none → ∀ used {own}, Follows env ok own (loaded used) (load used))
    (ha : ∀ kind, env.hasHome e kind = true → ∀ {own}, Hands env ok own (located kind)
      (locate kind)) (kind : AddressKind) :
    Hands env ok own ((Outline.make env e loaded located).address kind)
      ((Plan.make env e load locate).address kind) := by
  have hfaults : e.All fun n => ∀ f, n.Defect env f → ok.fault f := fun n u hn => (h n u hn).fault
  have hassert : (!env.assertions || env.asserted e kind) = false → ok.fault .assertionFailed :=
    hfaults.asserted
  refine .ensure_bind hassert fun _ => ?_
  dsimp only [Outline.make]
  split
  · exact ha kind ‹_›
  · exact (valueOf h.here hl true).spill

theorem make (h : e.All (Permits env ok))
    (hl : e.constant = none → ∀ used {own}, Follows env ok own (loaded used) (load used))
    (ha : ∀ kind, env.hasHome e kind = true → ∀ {own}, Hands env ok own (located kind)
      (locate kind)) (hr : e.isRebindable = false) :
    PlanFollows env ok (.make env e loaded located) (.make env e load locate) := by
  have htarget (isRef : Bool) (hf : (!isRef) = false → ok.fault (.rebindOfNonReference e.ty))
      {own : List Slot} : Aims env ok own ((Outline.make env e loaded located).target isRef)
        ((Plan.make env e load locate).target isRef) := by
    refine .ensure_bind hf fun _ => ?_
    exact (addressOf h hl ha .writable).quietly fun temp => .pure _ rfl
  exact
    { expr := rfl
      value := fun used => valueOf h.here hl used
      address := fun kind => addressOf h hl ha kind
      store := htarget false nofun
      rebind := fun hf => htarget true fun _ => hf hr }

theorem assignable {stored : Bool → Script} (h : e.All (Permits env ok))
    (hl : ∀ used {own}, Follows env ok own (loaded used) (load used))
    (ha : ∀ kind, env.hasHome e kind = true → ∀ {own}, Hands env ok own (located kind)
      (locate kind)) (ht : ∀ isRef {own}, Aims env ok own (stored isRef) (target isRef)) :
    PlanFollows env ok (.assignable env e loaded located stored)
      (.assignable env e load locate target) where
  expr := rfl
  value used := valueOf h.here (fun _ => hl) used
  address kind := addressOf h (fun _ => hl) ha kind
  store := ht false
  rebind _ := ht true

variable {o : Outline} {p : Plan}

theorem ty (h : PlanFollows env ok o p) : p.ty = o.ty := congrArg Expr.ty h.expr

theorem receiver (h : PlanFollows env ok o p) (kind : AddressKind) :
    Hands env ok own (o.receiver kind) (p.receiver kind) := by
  unfold Outline.receiver Plan.receiver
  rw [h.ty]
  split
  · exact (h.value true).returning rfl
  · exact h.address kind

theorem passed (h : PlanFollows env ok o p) (mode : RefKind) :
    Hands env ok own (o.passed mode) (passArgument p mode) := by
  cases mode
  · exact (h.value true).returning rfl
  all_goals exact h.address _

end PlanFollows

namespace Runs

/-! ### Places -/

theorem pushLocal (l : Local) {access : Access} (ha : access ≠ .store) :
    Follows env ok own (ofLocal env l access) (pushLocal env l access) := by
  unfold ofLocal Emit.pushLocal
  split
  · exact done ()
  · rename_i hl
    refine fun given => (Emits.define (Bool.eq_false_iff.mpr hl)).bind_of fun s x t hx => ?_
    refine .instr rfl (fun hstore => ?_) (fun y hy => .inr fun hknown => ?_) (.slot access x)
    · cases access with
      | store => exact absurd rfl ha
      | _ => cases hstore
    · cases hy
      exact ok.defined hx hknown.2

theorem localLoad (l : Local) (used : Bool) :
    Follows env ok own
      (.when used (ofLocal env l .load ++ .when l.mode.isByRef (.loadThrough l.ty)))
      (localLoad env l used) := by
  refine when ?_
  refine (pushLocal l (by decide)).bind fun _ => ?_
  exact when (loadThrough l.ty)

/-- A local that lives on the stack is located only where it is a reference. -/
theorem localLocate {i : Info} {l : Local} {kind : AddressKind}
    (h : env.hasHome (.localVar i l) kind = true) :
    Hands env ok own (ofLocal env l (if l.mode.isByRef then .load else .address))
      (localLocate env i l kind) := by
  have hplace : (env.isResident l.id && l.mode == .byValue) = false := by
    simp only [Surroundings.hasHome, Surroundings.localHasHome, Bool.not_eq_true',
      Bool.or_eq_false_iff] at h
    exact h.1
  refine .ensure_bind (fun hc => ?_) fun _ => returning (pushLocal l ?_) rfl
  · rw [hplace] at hc
    cases hc
  · split <;> decide

theorem localTarget (l : Local) (isRef : Bool) :
    Aims env ok own (ofLocalTarget env l isRef) (localTarget env l isRef) := by
  unfold ofLocalTarget Emit.localTarget
  split
  · exact (pushLocal l (by decide)).returning rfl
  · split
    · exact pure _ rfl
    · rename_i hl
      exact (define (Bool.eq_false_iff.mpr hl)).quietly fun _ => pure _ rfl

theorem load {i : Instr} (hi : i.isQuiet = true) (byRef : Bool) (ty : Ty) (used : Bool) :
    Follows env ok own (ofLoad i byRef ty used) (Emit.when used do
      Emit.instr i
      Emit.when byRef (Emit.loadThrough ty)) := by
  refine when ?_
  refine (code hi).bind fun _ => ?_
  exact when (loadThrough ty)

theorem locateArgument (byRef : Bool) (n : Nat) :
    Follows env ok own (.code (.arg (if byRef then .load else .address) n))
      (Emit.instr (.arg (if byRef then .load else .address) n)) := by
  cases byRef <;> exact code rfl

theorem thisLocate (i : Info) (kind : AddressKind) :
    Hands env ok own (.code (.arg (if i.ty.isValueType then .load else .address) 0))
      (thisLocate i kind) := (locateArgument i.ty.isValueType 0).returning rfl

section

variable {i : Info} {p : Parameter} (h : Permits env ok (.param i p))

include h

theorem numbered : Follows env ok own ∅ (numbered env p) := by
  refine ensure (fun hf => h.fault _ (.assertion ?_ ?_)) _
  · simpa using (Bool.or_eq_false_iff.mp hf).1
  · simpa [Expr.isAssured] using (Bool.or_eq_false_iff.mp hf).2

theorem paramLoad (used : Bool) :
    Follows env ok own (ofLoad (.arg .load (env.method.argument p)) p.mode.isByRef p.ty used)
      (paramLoad env p used) := by
  refine when ?_
  refine (numbered h).skip fun _ => ?_
  refine (code rfl).bind fun _ => ?_
  exact when (loadThrough p.ty)

theorem paramLocate (kind : AddressKind) :
    Hands env ok own
      (.code (.arg (if p.mode.isByRef then .load else .address) (env.method.argument p)))
      (paramLocate env p kind) := by
  refine (numbered h).skip fun _ => ?_
  exact (locateArgument p.mode.isByRef _).returning rfl

theorem paramTarget (isRef : Bool) :
    Aims env ok own
      (.when (p.mode.isByRef && !isRef) (.code (.arg .load (env.method.argument p))))
      (paramTarget env p isRef) := by
  refine (numbered h).skip fun _ => ?_
  unfold Script.when
  split
  · exact (code rfl).returning rfl
  · exact pure _ rfl

end

theorem copyBelow : Follows env ok own .duplicate (Emit.instr .dup) := by
  refine fun given => .instr rfl (fun hstore => ?_) (fun x hx => ?_) .duplicate
  · cases hstore
  · cases hx

theorem duplicateLoad (i : Info) (mode : RefKind) (used : Bool) :
    Follows env ok own (ofDuplicate i.ty mode used) (duplicateLoad i mode used) := by
  refine when ?_
  refine copyBelow.bind fun _ => ?_
  refine (when (loadThrough i.ty)).bind fun _ => ?_
  exact popUnless used

theorem duplicateLocate (kind : AddressKind) :
    Hands env ok own .duplicate (duplicateLocate kind) := copyBelow.returning rfl

variable {a x r v t : Outline} {pa px pr pv pt : Plan} {o : Option Outline} {po : Option Plan}
  {os : List Outline} {ps : List Plan}

theorem elementOperands (ha : PlanFollows env ok a pa) (hx : PlanFollows env ok x px) :
    Follows env ok own (a.value true ++ x.value true) (elementOperands pa px) :=
  (ha.value true).bind fun _ => hx.value true

theorem throughPointer {m : Emit Unit} (hm : Follows env ok own c m) (ty : Ty) (used : Bool) :
    Follows env ok own (c ++ (.loadThrough ty ++ .popUnless used)) (do
      m
      Emit.loadThrough ty
      Emit.popUnless used) := by
  refine hm.bind fun _ => ?_
  refine (loadThrough ty).bind fun _ => ?_
  exact popUnless used

theorem typedRefAddress (i : Info) (hx : PlanFollows env ok x px) :
    Follows env ok own (x.value true ++ .code (.refanyval i.ty)) (typedRefAddress i px) :=
  (hx.value true).bind fun _ => code rfl

/-! ### Fields -/

theorem fieldSource (hr : PlanFollows env ok r pr)
    (hf : (!env.assertions || env.asserted r.expr .readonly) = false →
      ok.fault .assertionFailed) :
    Hands env ok own (ofFieldSource env r) (fieldSource env pr) := by
  unfold ofFieldSource Emit.fieldSource
  rw [hr.ty, hr.expr]
  split
  · exact (hr.value true).returning rfl
  · refine .ensure_bind hf fun _ => ?_
    split
    · exact hr.address .readonly
    · exact (hr.value true).returning rfl

theorem instanceFieldLoad (hr : PlanFollows env ok r pr)
    (hf : (!env.assertions || env.asserted r.expr .readonly) = false →
      ok.fault .assertionFailed) (f : Field) (used : Bool) :
    Follows env ok own (if !used && !r.ty.isVerifierReference then r.value false
      else ofFieldSource env r ++ (.code (.field .load f) ++
        (.when f.mode.isByRef (.loadThrough f.ty) ++ .popUnless used)))
      (instanceFieldLoad env pr f used) := by
  unfold Emit.instanceFieldLoad
  rw [hr.ty]
  split
  · exact hr.value false
  · refine (fieldSource hr hf).bind fun temp => ?_
    refine bind (code rfl) fun _ => ?_
    refine skip (forM_option (fun x _ => free x) temp) fun _ => ?_
    refine (when (loadThrough f.ty)).bind fun _ => ?_
    exact popUnless used

theorem accessField (f : Field) :
    Follows env ok own (.code (.field (fieldAccess f) f)) (Emit.instr (.field (fieldAccess f) f)) ∧
      Follows env ok own (.code (.staticField (fieldAccess f) f))
        (Emit.instr (.staticField (fieldAccess f) f)) := by
  unfold fieldAccess
  split <;> exact ⟨code rfl, code rfl⟩

section

variable {i : Info} {f : Field} (ho : Option.Rel (PlanFollows env ok) o po)

include ho

theorem fieldLoad (hf : f.isStatic = false → o = none → ok.fault (.fieldWithoutReceiver f))
    (hassert : ∀ r ∈ o, (!env.assertions || env.asserted r.expr .readonly) = false →
      ok.fault .assertionFailed) (used : Bool) :
    Follows env ok own (ofFieldLoad env o f used) (fieldLoad env i po f used) := by
  unfold ofFieldLoad Emit.fieldLoad
  split
  · exact load rfl f.mode.isByRef f.ty used
  · rename_i hs
    cases ho with
    | none => exact fail (hf (Bool.eq_false_iff.mpr hs) rfl) _
    | some hr => exact instanceFieldLoad hr (hassert _ rfl) f used

theorem fieldLocate (hf : f.isStatic = false → o = none → ok.fault (.fieldWithoutReceiver f))
    (kind : AddressKind) :
    Hands env ok own (ofFieldLocate o f kind) (fieldLocate i po f kind) := by
  unfold ofFieldLocate Emit.fieldLocate
  split
  · exact (accessField f).2.returning rfl
  · rename_i hs
    cases ho with
    | none => exact fail (hf (Bool.eq_false_iff.mpr hs) rfl) _
    | some hr =>
      refine (hr.receiver _).bind fun temp => ?_
      exact (accessField f).1.returning rfl

theorem fieldTarget (hf : f.isStatic = false → o = none → ok.fault (.storeWithoutReceiver f))
    (isRef : Bool) : Aims env ok own (ofFieldTarget o f isRef) (fieldTarget i po f isRef) := by
  unfold ofFieldTarget Emit.fieldTarget
  dsimp only
  split
  · exact (when (code rfl)).returning rfl
  · rename_i hs
    cases ho with
    | none => exact fail (hf (Bool.eq_false_iff.mpr hs) rfl) _
    | some hr =>
      refine (hr.receiver .writable).bind fun temp => ?_
      exact (when (code rfl)).returning rfl

end

/-! ### Control -/

theorem values (h : List.Forall₂ (PlanFollows env ok) os ps) (used : Bool) :
    Follows env ok own (.all (os.map fun o => o.value used)) (ps.forM fun p => p.value used) := by
  induction h with
  | nil => exact done ()
  | cons hp _ ih => exact (hp.value used).bind fun _ => ih

theorem sequenceStart (locals : List Local) (h : List.Forall₂ (PlanFollows env ok) os ps) :
    Follows env ok own (ofStart env locals os) (sequenceStart env locals ps) := by
  refine bind (forM_all fun l hl => discard (define ?_)) fun _ => values h false
  simpa using (List.mem_filter.mp hl).2

theorem throwLoad (hx : PlanFollows env ok x px) (used : Bool) :
    Follows env ok own (x.value true ++ .throw used) (throwLoad px used) :=
  (hx.value true).bind fun _ _ => .throw used

theorem boxedDefault (ty : Ty) : Follows env ok own .constant (boxedDefault ty) := by
  refine (allocate ty false).skip fun x => .abstract (.boxed ty) ?_
  refine bind (slot (by decide) List.mem_cons_self) fun _ => ?_
  refine bind (code rfl) fun _ => ?_
  refine bind (slot (by decide) List.mem_cons_self) fun _ => ?_
  exact (code rfl).quietly fun _ => free x

theorem setAside {m : Emit (Option Slot)} (h : Hands env ok own c m) :
    Follows env ok own c (setAside m) :=
  h.quietly fun temp => forM_option (fun x _ => retire x) temp

theorem conditionalLocate {d e : Script} {test consequence alternative : Plan}
    {kind : AddressKind} (ht : Follows env ok own c (test.value true))
    (ha : Hands env ok own d (alternative.address kind))
    (hc : ∀ {own}, Hands env ok own e (consequence.address kind)) :
    Hands env ok own (.choice true c d e)
      (conditionalLocate test consequence alternative kind) := by
  refine quietly (branch ht ha fun _ => hc) fun (a, c) => ?_
  have hfirst : Runs env ok (c.toList ++ (a.toList ++ own)) ∅ (a.forM Emit.retire)
      fun _ => c.toList ++ own := by
    refine perm (forM_option (fun x _ => retire x) a) ?_ fun _ => .refl _
    exact List.perm_append_comm_assoc _ _ _
  refine hfirst.skip fun _ => ?_
  exact (forM_option (fun x _ => retire x) c).skip fun _ => pure _ rfl

theorem eitherLocate (i : Info) (hv : PlanFollows env ok v pv) (hr : PlanFollows env ok r pr)
    (kind : AddressKind) :
    Hands env ok own (.choice true .constant (r.address kind) (v.receiver kind))
      (eitherLocate i pv pr kind) := by
  refine returning (discard ?_) rfl
  exact branch (boxedDefault i.ty) (setAside (hr.address kind)) fun _ =>
    setAside (hv.receiver kind)

/-! ### Assignments -/

theorem storeTo (hs : ok.stores) {given : Prop} {place : Place}
    (hp : given → place.OfLocal ok.declared) :
    Emits env ok given own place.script place.store fun _ => own := by
  cases place with
  | stack => exact .pure () rfl
  | slot x =>
    refine .instr rfl (fun _ => hs) (fun y hy => .inr fun hgiven => ?_) (.slot .store x)
    cases hy
    exact hp hgiven
  | _ => exact store hs rfl rfl _

/-- The copy waits on the stack or in a temporary. -/
theorem storeKeeping (hs : ok.stores) {given : Prop} {place : Place}
    (hp : given → place.OfLocal ok.declared) (ty : Ty) (isRef : Bool) (use : Use) {m : Emit α}
    {post : α → List Slot} (hm : Runs env ok own c m post) :
    Emits env ok given own (ofStore place use ++ c) (do
      let copy ← keepCopy place ty isRef use
      place.store
      copy.forM takeCopy
      m) post := by
  have hassoc {given : Prop} {own own' : List Slot} {d e : Script} {m' : Emit Unit}
      (h : Emits env ok given own d m' fun _ => own') {k : Emit α}
      (hk : ∀ t, Emits env ok (given ∧ ok.known t) own' (e ++ c) k post) :
      Emits env ok given own (d ++ e ++ c) (m' >>= fun _ => k) post :=
    .stand (ok.abstracts (.assoc d e c)) (h.bind fun _ t => hk t)
  have hplain {given : Prop} (hp : given → place.OfLocal ok.declared) :
      Emits env ok given own (place.script ++ c) (place.store >>= fun _ => m) post :=
    (storeTo hs hp).bind fun _ _ => hm _
  unfold ofStore keepCopy
  cases ht : place.takesOperands with
  | false =>
    cases use with
    | unused => exact hplain hp
    | value | address => exact hassoc (code rfl _) fun _ => hplain fun h => hp h.1
  | true =>
    have htake (x : Slot) : Runs env ok (x :: own) (.slot .load) (takeCopy x) fun _ => own :=
      quietly (slot (by decide) List.mem_cons_self) fun _ => free x
    have hkeep {given : Prop} (hp : given → place.OfLocal ok.declared) :
        Emits env ok given own (.slot .store ++ (place.script ++ .slot .load) ++ c) (do
          let x ← Emit.allocate ty isRef
          Emit.instr (.slot .store x)
          place.store
          takeCopy x
          m) post := by
      refine .stand (ok.abstracts (.assoc _ _ c)) (.keep ty isRef fun x => ?_)
      exact hassoc (storeTo hs hp) fun _ => (htake x _).bind fun _ _ => hm _
    cases use with
    | unused => exact hplain hp
    | value | address => exact hassoc (code rfl _) fun _ => hkeep fun h => hp h.1

theorem pushAssigned (hx : px.expr = x.expr) (hr : PlanFollows env ok r pr) (isRef : Bool) :
    Follows env ok own (ofAssigned x r isRef) (pushAssigned px pr isRef) := by
  unfold ofAssigned Emit.pushAssigned Emit.bindReference
  rw [hx]
  cases isRef with
  | false => exact hr.value true
  | true => exact setAside (hr.address _)

end Runs

theorem dataCopy_view {elem : Ty} {size : Nat} {data : List UInt8} {v : BlobView}
    (h : dataCopy env elem size data = .view v) : env.symbols.blobView? elem = some v := by
  have hwide : dataCopy.wide env elem size = .view v → env.symbols.blobView? elem = some v := by
    unfold dataCopy.wide
    split
    · rintro ⟨⟩
    · split
      · rintro ⟨⟩
        assumption
      · rintro ⟨⟩
  unfold dataCopy at h
  split at h
  · split at h
    · cases h
    · exact hwide h
  · exact hwide h

/-- A block that is not filled entry by entry is mixed, or all of it is constant. -/
theorem fillStyle_cases {elem : Ty} {es : List Expr} (h : fillStyle env elem es ≠ .element) :
    fillStyle env elem es = .mixed ∨ ∀ e ∈ es, e.isConstant = true := by
  unfold fillStyle FillStyle.classify at *
  split at h
  · rename_i hb
    rw [if_pos hb]
    split at h
    · exact absurd rfl h
    · split at h
      · rename_i hc
        exact .inr (List.countP_eq_length.mp hc.symm)
      · split at h
        · exact .inl (by simp_all)
        · exact absurd rfl h
  · exact absurd rfl h

/-- Data is missing only for an entry whose constant has no bytes. -/
theorem blockBytes_error {p : Prim} {es : List Expr} {fault : Fault}
    (h : blockBytes p es = .error fault) :
    ∃ x ∈ es, ∃ c, x.constant = some c ∧ c.layout? p = none ∧ fault = .noLayout c p := by
  induction es with
  | nil => cases h
  | cons e rest ih =>
    unfold blockBytes at h
    cases hfirst : entryBytes p e with
    | error f =>
      rw [hfirst] at h
      cases h
      unfold entryBytes at hfirst
      split at hfirst
      · cases hfirst
      · split at hfirst
        · cases hfirst
        · cases hfirst
          exact ⟨e, List.mem_cons_self, _, ‹_›, ‹_›, rfl⟩
    | ok first =>
      rw [hfirst] at h
      cases hrest : blockBytes p rest with
      | error f =>
        rw [hrest] at h
        cases h
        obtain ⟨x, hx, hfault⟩ := ih hrest
        exact ⟨x, List.mem_cons_of_mem e hx, hfault⟩
      | ok others =>
        rw [hrest] at h
        cases h

theorem make_target_place {e : Expr} {load : Bool → Emit Unit}
    {locate : AddressKind → Emit (Option Slot)} {isRef : Bool} {s u : State} {t : Target}
    (h : (Plan.make env e load locate).target isRef s = .ok t u) :
    t.place = .indirect e.ty := by
  obtain ⟨_, _, _, h⟩ := bind_ok h
  obtain ⟨_, _, _, h⟩ := bind_ok h
  rw [← (pure_ok.mp h).1]
  rfl

theorem target_place {e : Expr} {isRef : Bool} {s u : State} {t : Target}
    (h : (e.plan env).target isRef s = .ok t u) : t.place.shape = e.place env isRef := by
  cases e with
  | element i a x =>
    obtain ⟨_, _, _, h⟩ := bind_ok h
    obtain ⟨rfl, -⟩ := pure_ok.mp h
    rfl
  | deref i p =>
    obtain ⟨_, _, _, h⟩ := bind_ok h
    obtain ⟨rfl, -⟩ := pure_ok.mp h
    rfl
  | param i p =>
    obtain ⟨_, _, _, h⟩ := bind_ok h
    rw [Expr.place]
    split at h
    · rename_i hthrough
      obtain ⟨_, _, _, h⟩ := bind_ok h
      obtain ⟨rfl, -⟩ := pure_ok.mp h
      rw [if_pos hthrough]
      rfl
    · rename_i hthrough
      obtain ⟨rfl, -⟩ := pure_ok.mp h
      rw [if_neg hthrough]
      rfl
  | localVar i l =>
    change localTarget env l isRef s = _ at h
    unfold localTarget at h
    rw [Expr.place]
    split at h
    · rename_i hthrough
      obtain ⟨_, _, _, h⟩ := bind_ok h
      obtain ⟨rfl, -⟩ := pure_ok.mp h
      rw [if_pos hthrough]
      rfl
    · rename_i hthrough
      rw [if_neg hthrough]
      split at h
      · rename_i hl
        obtain ⟨rfl, -⟩ := pure_ok.mp h
        rw [if_pos hl]
        rfl
      · rename_i hl
        obtain ⟨_, _, _, h⟩ := bind_ok h
        obtain ⟨rfl, -⟩ := pure_ok.mp h
        rw [if_neg hl]
        rfl
  | field i r f b =>
    change fieldTarget i _ f isRef s = _ at h
    unfold fieldTarget at h
    rw [Expr.place]
    split at h
    · rename_i hstatic
      obtain ⟨_, _, _, h⟩ := bind_ok h
      obtain ⟨rfl, -⟩ := pure_ok.mp h
      rw [if_pos hstatic]
      by_cases hthrough : f.mode.isByRef && !isRef <;> simp [Place.shape, hthrough]
    · rename_i hstatic
      rw [if_neg hstatic]
      cases r with
      | none => exact absurd h fail_not_ok
      | some r =>
        obtain ⟨_, _, _, h⟩ := bind_ok h
        obtain ⟨_, _, _, h⟩ := bind_ok h
        obtain ⟨rfl, -⟩ := pure_ok.mp h
        by_cases hthrough : f.mode.isByRef && !isRef <;> simp [Place.shape, hthrough]
  | _ =>
    rw [make_target_place h]
    rfl

/-- A store goes to a slot only for a local, and the slot is that of the local. -/
theorem target_slot {e : Expr} {isRef : Bool} {s u : State} {t : Target} {x : Slot}
    (h : (e.plan env).target isRef s = .ok t u) (hp : t.place = .slot x) :
    ∃ i l, e = .localVar i l ∧ define l s = .ok x u := by
  have hplace := target_place h
  rw [hp] at hplace
  cases e with
  | localVar i l =>
    change localTarget env l isRef s = _ at h
    unfold localTarget at h
    split at h
    · obtain ⟨_, _, _, h⟩ := bind_ok h
      obtain ⟨rfl, -⟩ := pure_ok.mp h
      cases hp
    · split at h
      · obtain ⟨rfl, -⟩ := pure_ok.mp h
        cases hp
      · obtain ⟨y, v, hy, h⟩ := bind_ok h
        obtain ⟨rfl, rfl⟩ := pure_ok.mp h
        cases hp
        exact ⟨i, l, rfl, hy⟩
  | param i p =>
    rw [Expr.place] at hplace
    split at hplace <;> cases hplace
  | field i r f b =>
    rw [Expr.place] at hplace
    split at hplace
    · cases hplace
    · split at hplace <;> cases hplace
  | _ => cases hplace

theorem target_ofLocal {e : Expr} {isRef : Bool} {s u : State} {t : Target}
    (h : (e.plan env).target isRef s = .ok t u) (hu : ok.known u) :
    t.place.OfLocal ok.declared := by
  cases hp : t.place with
  | slot x =>
    obtain ⟨_, _, _, hdefine⟩ := target_slot h hp
    exact ok.defined hdefine hu
  | _ => trivial

theorem ofStore_shape (place : Place) (use : Use) :
    ofStore place.shape use = ofStore place use := by
  unfold ofStore
  rw [place.takesOperands_shape, place.script_shape]

/-- The receiver's type decides how the method is called. -/
theorem passReceiver_called {o : Option Outline} {po : Option Plan}
    (ho : Option.Rel (PlanFollows env ok) o po) {m : Method} {nonVirtual : Bool} {span : Span}
    {s t : State} {d : Dispatch} (h : passReceiver po m nonVirtual span s = .ok d t) :
    d.constrained.toList.map .constrained ++ [if d.isVirtual then Instr.callvirt m else .call m] =
      m.called (o.map Outline.expr) nonVirtual := by
  unfold passReceiver at h
  split at h
  · rename_i hstatic
    obtain ⟨rfl, -⟩ := pure_ok.mp h
    simp [Method.called, hstatic]
  · rename_i hstatic
    cases ho with
    | none => exact absurd h fail_not_ok
    | @some o p hr =>
      have hty : p.ty = o.expr.ty := hr.ty
      dsimp only at h
      rw [hty] at h
      split at h
      · rename_i href
        obtain ⟨_, _, _, h⟩ := bind_ok h
        obtain ⟨rfl, -⟩ := pure_ok.mp h
        cases nonVirtual <;> simp [Method.called, hstatic, href]
      · rename_i href
        obtain ⟨_, _, _, h⟩ := bind_ok h
        obtain ⟨rfl, -⟩ := pure_ok.mp h
        by_cases hvalue : o.expr.ty.isValueType <;> simp [Method.called, hstatic, href, hvalue]

namespace Runs

variable {x r : Outline} {px pr : Plan} {o : Option Outline} {po : Option Plan}
  {os : List Outline} {ps : List Plan}

/-- Only an assignment of a reference can be located. -/
theorem assign (hs : ok.stores) (i : Info) {l : Expr}
    (hl : PlanFollows env ok (l.outline env) (l.plan env)) (hr : PlanFollows env ok r pr)
    {isRef : Bool} {use : Use} (huse : use = .address → isRef = true)
    (hf : isRef = true → (l.outline env).expr.isRebindable = false →
      ok.fault (.rebindOfNonReference (l.outline env).ty)) :
    Follows env ok own (ofAssign env (l.outline env) r isRef use)
      (assign i (l.plan env) pr isRef use) := by
  have htarget : Aims env ok own ((l.outline env).target isRef) ((l.plan env).target isRef) := by
    cases isRef with
    | false => exact hl.store
    | true => exact hl.rebind (hf rfl)
  refine .ensure_bind (fun hc => ?_) fun _ given => ?_
  · obtain ⟨hisRef, hu⟩ := Bool.or_eq_false_iff.mp hc
    have := huse (by simpa using hu)
    simp [hisRef] at this
  refine (htarget given).bind_of fun s target t ht => ?_
  refine (pushAssigned hl.expr hr isRef _).bind fun _ _ => ?_
  rw [← hl.expr, Expr.plan_expr, ← target_place ht, ofStore_shape]
  refine storeKeeping hs (fun hknown => target_ofLocal ht hknown.1.2) _ isRef use ?_
  refine skip (forM_option (fun x _ => free x) target.temp) fun _ => ?_
  rw [← hl.ty]
  exact when (loadThrough _)

/-! ### Calls -/

theorem passReceiver (ho : Option.Rel (PlanFollows env ok) o po) {m : Method}
    (hf : m.isStatic = false → o = none → ok.fault (.callWithoutReceiver m)) (nonVirtual : Bool)
    (span : Span) : Runs env ok own (ofDispatch o m) (passReceiver po m nonVirtual span) fun d =>
      d.temp.toList ++ own := by
  unfold ofDispatch Emit.passReceiver
  split
  · exact pure _ rfl
  · rename_i hstatic
    cases ho with
    | none => exact fail (hf (Bool.eq_false_iff.mpr hstatic) rfl) _
    | some hr =>
      dsimp only [Option.elim]
      unfold Outline.receiver
      rw [hr.ty]
      split
      · exact (hr.value true).returning rfl
      · exact (hr.address _).quietly fun _ => pure _ rfl

theorem passArguments (h : List.Forall₂ (PlanFollows env ok) os ps) (params : List Parameter) :
    Runs env ok own (ofArguments (os.zip params)) (passArguments (ps.zip params)) fun temps =>
      temps ++ own := by
  induction h generalizing params own with
  | nil => exact pure _ rfl
  | cons hp _ ih =>
    cases params with
    | nil => exact pure _ rfl
    | cons q params =>
      refine (hp.passed q.mode).bind fun temp => (ih params).quietly fun temps => ?_
      refine perm (pure (temp.toList ++ temps) rfl) ?_ fun _ => .refl _
      rw [List.append_assoc]
      exact List.perm_append_comm_assoc _ _ _

theorem releaseTemps (m : Method) (use : Use) (kind : Option AddressKind) (temps : List Slot) :
    Runs env ok (temps ++ own) ∅ (releaseTemps m use kind temps) fun _ => own := by
  unfold Emit.releaseTemps
  split
  · exact forM_list (fun x _ => retire x) temps
  · exact forM_list (fun x _ => free x) temps

theorem takeResult {m : Method} {use : Use}
    (huse : use = .address → m.resultMode.isByRef = false → ok.fault (.addressOfResult m))
    (span : Span) : Follows env ok own (ofResult m use) (takeResult m use span) := by
  refine when ?_
  cases use with
  | unused => exact code rfl
  | value => exact when (loadThrough m.result)
  | address => exact ensure (huse rfl) span

theorem call (ho : Option.Rel (PlanFollows env ok) o po) {m : Method}
    (h : List.Forall₂ (PlanFollows env ok) os ps)
    (hf : m.isStatic = false → o = none → ok.fault (.callWithoutReceiver m))
    (hcount : os.length ≠ m.params.length →
      ok.fault (.argumentCount m os.length m.params.length)) {use : Use}
    (huse : use = .address → m.resultMode.isByRef = false → ok.fault (.addressOfResult m))
    (nonVirtual : Bool) (span : Span) :
    Follows env ok own (ofCall o m os nonVirtual use) (call po m ps nonVirtual use span) := by
  unfold ofCall Emit.call
  rw [← h.length_eq]
  refine .ensure_bind (fun hlength => hcount (by simpa using hlength)) fun hlength => ?_
  rw [if_pos (by simpa using hlength)]
  refine (passReceiver ho hf nonVirtual span).bind_of fun s d t hd => ?_
  refine (passArguments h m.params).bind fun temps => ?_
  rw [← passReceiver_called ho hd]
  have hcall {own : List Slot} :
      Follows env ok own (.code (if d.isVirtual then Instr.callvirt m else .call m))
        (Emit.instr (if d.isVirtual then .callvirt m else .call m)) := by
    cases d.isVirtual <;> exact code rfl
  have hrelease : Runs env ok (temps ++ (d.temp.toList ++ own)) ∅
      (Emit.releaseTemps m use d.receiverKind (d.temp.toList ++ temps)) fun _ => own := by
    refine perm (releaseTemps m use _ _) ?_ fun _ => .refl _
    rw [List.append_assoc]
    exact List.perm_append_comm_assoc _ _ _
  have hrest : Runs env ok (temps ++ (d.temp.toList ++ own))
      (.all [.code (if d.isVirtual then Instr.callvirt m else .call m)] ++ ofResult m use) (do
        Emit.instr (if d.isVirtual then .callvirt m else .call m)
        Emit.releaseTemps m use d.receiverKind (d.temp.toList ++ temps)
        Emit.takeResult m use span) fun _ => own := by
    refine .abstract (.assoc _ _ _) (hcall.bind fun _ => ?_)
    exact hrelease.bind fun _ => takeResult huse span
  cases d.constrained with
  | none => exact hrest
  | some ty => exact .abstract (.assoc _ _ _) (bind (code rfl) fun _ => hrest)

/-! ### Conversions and delegates -/

theorem convertLoad {i : Info} {c : Conversion} (hx : PlanFollows env ok x px)
    (h : ∀ f, (Expr.convert i x.expr c).Defect env f → ok.fault f) (used : Bool) :
    Follows env ok own (ofConvert x c used) (convertLoad i px c used) := by
  unfold Emit.convertLoad
  rw [hx.expr]
  split
  · rename_i hk
    exact .fail (h _ (.methodGroup hk)) _
  · rename_i hk
    rw [ofConvert, if_neg (by simp [hk]), if_pos hk]
    exact (loads .nullPointer).bind fun _ => popUnless used
  · rename_i hgroup hnull
    rw [ofConvert, if_neg hgroup, if_neg hnull]
    split
    · exact hx.value false
    · refine (hx.value true).bind fun _ => ?_
      refine (remakes (.convertPushed h fun hk => absurd hk hnull)).bind fun _ => ?_
      exact popUnless used

theorem delegateTarget (ho : Option.Rel (PlanFollows env ok) o po) :
    Follows env ok own (o.elim .constant fun r => r.value true ++ .remake) (delegateTarget po) := by
  cases ho with
  | none => exact loads (.instr rfl)
  | some hr => exact (hr.value true).bind fun _ => remakes (.boxValue _)

theorem unusedOption (ho : Option.Rel (PlanFollows env ok) o po) :
    Follows env ok own (o.elim ∅ fun r => r.value false) (po.forM fun p => p.value false) := by
  cases ho with
  | none => exact done ()
  | some hr => exact hr.value false

theorem methodPointer (m : Method) (nonVirtual : Bool) :
    Follows env ok own (ofPointer m nonVirtual) (methodPointer m nonVirtual) := by
  unfold ofPointer Emit.methodPointer
  split
  · exact Runs.bind (code rfl) fun _ => code rfl
  · exact code rfl

theorem construct (ty : Ty) (span : Span) :
    Follows env ok own (ofConstruct env ty) (construct env ty span) := by
  unfold ofConstruct Emit.construct
  cases delegateConstructor? env ty with
  | some m => exact code rfl
  | none => exact (Runs.report _).skip fun _ => .adjust (-1)

theorem delegateLoad (i : Info) (ho : Option.Rel (PlanFollows env ok) o po) (m : Method)
    (nonVirtual used : Bool) :
    Follows env ok own (ofDelegate env i.ty o m nonVirtual used)
      (delegateLoad env i po m nonVirtual used) := by
  have hbound : Option.Rel (PlanFollows env ok) (if m.isStatic then none else o)
      (if m.isStatic then none else po) := by
    split
    · exact .none
    · exact ho
  unfold ofDelegate Emit.delegateLoad
  dsimp only
  cases used with
  | true =>
    refine (delegateTarget hbound).bind fun _ => ?_
    refine (methodPointer m nonVirtual).bind fun _ => ?_
    exact construct i.ty i.span
  | false => exact unusedOption hbound

/-! ### Blocks on the stack -/

theorem elementSize (elem : Ty) : Follows env ok own .constant (elementSize elem) := by
  unfold Emit.elementSize
  split
  · exact int _
  · exact .abstract (.size elem) (code rfl)

theorem remakeTwice {m : Emit Unit} {k : Emit Unit} (hm : Follows env ok own .remake m)
    (hk : Follows env ok own .remake k) : Follows env ok own .remake (m >>= fun _ => k) :=
  .abstract .again (hm.bind fun _ => hk)

theorem blockSize (elem : Ty) (hx : PlanFollows env ok x px) :
    Follows env ok own (ofSize elem x) (blockSize elem px) := by
  unfold ofSize Emit.blockSize
  rw [hx.expr]
  cases foldedSize? elem x.expr with
  | some size => exact .abstract .converted ((int size).bind fun _ => remake rfl)
  | none =>
    refine (hx.value true).bind fun _ => ?_
    refine remakeTwice (remake rfl) ?_
    unfold Emit.when
    split
    · exact combine (elementSize elem) rfl
    · exact remakes .pure

theorem elementOffset (elem : Ty) (index : Nat) :
    Follows env ok own .remake (elementOffset elem index) := by
  unfold Emit.elementOffset
  split
  · exact remakes .pure
  · split
    · exact combine (int _) rfl
    · split
      · exact combine (elementSize elem) rfl
      · -- the size is multiplied by the index before it is added
        have hindex : Follows env ok own .constant (do
            Emit.int (Int32.ofNat index)
            Emit.instr (.conv .i .unchecked)) :=
          .abstract .converted ((int _).bind fun _ => remake rfl)
        have hproduct : Follows env ok own .remake (do
            Emit.elementSize elem
            Emit.instr .mul) := combine (elementSize elem) rfl
        have hoffset : Follows env ok own .constant (do
            Emit.int (Int32.ofNat index)
            Emit.instr (.conv .i .unchecked)
            Emit.elementSize elem
            Emit.instr .mul) := .abstract .converted (hindex.bind fun _ => hproduct)
        simpa only [bind_assoc] using combine hoffset (i := .add) rfl

theorem fillElement (elem : Ty) (index : Nat) (hs : ok.stores ∨
      ok.block (fillElement elem index px)) (hx : PlanFollows env ok x px) :
    Follows env ok own (ofEntry elem x) (fillElement elem index px) := by
  rcases hs with hs | hblock
  · refine Runs.bind (code rfl) fun _ => ?_
    refine (elementOffset elem index).bind fun _ => ?_
    refine (hx.value true).bind fun _ => ?_
    exact store hs rfl rfl
  · exact fun _ => .block hblock

theorem fillElements (elem : Ty) (constants : Bool) (index : Nat)
    (hs : ok.stores ∨ ∀ p ∈ ps, ∀ index, ok.block (Emit.fillElement elem index p))
    (h : List.Forall₂ (PlanFollows env ok) os ps) :
    Follows env ok own (ofEntries elem constants os) (fillElements elem constants index ps) := by
  induction h generalizing index with
  | nil => exact done ()
  | @cons o p os ps hp _ ih =>
    have hrest := ih (index + 1) (hs.imp_right fun hb q hq => hb q (List.mem_cons_of_mem p hq))
    refine Runs.bind ?_ fun _ => hrest
    rw [hp.expr]
    refine when (fillElement elem index ?_ hp)
    exact hs.imp_right fun hb => hb p List.mem_cons_self index

theorem copyRepeated (byte : UInt8) (length : Nat) :
    Follows env ok own .remake (copyRepeated byte length) := by
  refine .abstract .fill (Runs.bind (code rfl) fun _ => ?_)
  refine (int _).bind fun _ => ?_
  exact (int _).bind fun _ => code rfl

theorem fillFromData (elem : Ty)
    (hs : ok.stores ∨ ∀ p ∈ ps, ∀ index, ok.block (Emit.fillElement elem index p))
    (h : List.Forall₂ (PlanFollows env ok) os ps) (size : Nat) (data : List UInt8)
    (style : FillStyle) (span : Span) :
    Follows env ok own (ofData env elem os size data style)
      (fillFromData env elem ps size data style span) := by
  have others : Follows env ok own (.when (style == .mixed) (ofEntries elem false os))
      (Emit.when (style == .mixed) (Emit.fillElements elem false 0 ps)) :=
    when (fillElements elem false 0 hs h)
  unfold ofData Emit.fillFromData
  dsimp only
  cases hcopy : dataCopy env elem size data with
  | repeated byte => exact (copyRepeated byte data.length).bind fun _ => others
  | bytes =>
    have hcopied : Follows env ok own .remake (copyBytes data) := fun _ => .copyBytes data
    exact hcopied.bind fun _ => others
  | view v =>
    have hcopied : Follows env ok own .view (copyThroughView v size data) := fun _ =>
      .copyThroughView (dataCopy_view hcopy) size data
    exact hcopied.bind fun _ => others
  | unavailable => exact (Runs.report _).skip fun _ => fillElements elem true 0 hs h

theorem expr_eq (h : List.Forall₂ (PlanFollows env ok) os ps) :
    ps.map Plan.expr = os.map Outline.expr := by
  induction h with
  | nil => rfl
  | cons hp _ ih => rw [List.map_cons, List.map_cons, hp.expr, ih]

/-- Blocks are filled from data only where the element has bytes. -/
theorem fill {elem : Ty}
    (hs : ok.stores ∨ ∀ p ∈ ps, ∀ index, ok.block (Emit.fillElement elem index p))
    (h : List.Forall₂ (PlanFollows env ok) os ps)
    (hf : ∀ e ∈ os.map Outline.expr, ∀ c p, e.constant = some c → blittable? elem = some p →
      c.layout? p = none → ok.fault (.noLayout c p)) (span : Span) :
    Follows env ok own (ofFill env elem os) (fill env elem ps span) := by
  unfold ofFill Emit.fill
  dsimp only
  rw [expr_eq h]
  cases hstyle : fillStyle env elem (os.map Outline.expr) with
  | element => exact fillElements elem true 0 hs h
  | block | mixed =>
    cases hp : blittable? elem with
    | none => simp [fillStyle, hp] at hstyle
    | some p =>
      dsimp only
      cases hbytes : blockBytes p (os.map Outline.expr) with
      | error fault =>
        obtain ⟨e, he, c, hc, hlayout, rfl⟩ := blockBytes_error hbytes
        exact .fail (hf e he c p hc hp hlayout) span
      | ok data => exact fillFromData elem hs h _ data _ span

theorem stackalloc {elem : Ty} (hx : PlanFollows env ok x px)
    (hs : ok.stores ∨ ∀ p ∈ ps, ∀ index, ok.block (Emit.fillElement elem index p))
    (h : List.Forall₂ (PlanFollows env ok) os ps)
    (hf : ∀ e ∈ os.map Outline.expr, ∀ c p, e.constant = some c → blittable? elem = some p →
      c.layout? p = none → ok.fault (.noLayout c p)) (used : Bool) (span : Span) :
    Follows env ok own (ofBlock env elem x os used) (stackalloc env elem px ps used span) := by
  refine (blockSize elem hx).bind fun _ => ?_
  refine Runs.bind (code rfl) fun _ => ?_
  cases used with
  | true => exact fill hs h hf span
  | false => exact (values h false).bind fun _ => code rfl

end Runs

/-! ### Trees -/

theorem planOption_follows {o : Option Expr}
    (h : ∀ e ∈ o, PlanFollows env ok (e.outline env) (e.plan env)) :
    Option.Rel (PlanFollows env ok) (Expr.outlineOption env o) (Expr.planOption env o) := by
  cases o with
  | none => exact .none
  | some e => exact .some (h e rfl)

theorem planList_follows {es : List Expr}
    (h : ∀ e ∈ es, PlanFollows env ok (e.outline env) (e.plan env)) :
    List.Forall₂ (PlanFollows env ok) (Expr.outlineList env es) (Expr.planList env es) := by
  induction es with
  | nil => exact .nil
  | cons e es ih =>
    exact .cons (h e List.mem_cons_self) (ih fun x hx => h x (List.mem_cons_of_mem e hx))

theorem resultHasHome_isByRef {mode : RefKind} {kind : AddressKind}
    (h : Surroundings.resultHasHome mode kind = true) : mode.isByRef = true := by
  cases mode with
  | ref | refReadonly => rfl
  | _ => simp [Surroundings.resultHasHome] at h

theorem plan_follows (env : Env) {e : Expr} (h : e.All (Permits env ok)) :
    PlanFollows env ok (e.outline env) (e.plan env) := by
  -- a node that never has a home is never located
  have homeless {c : AddressKind → Script} {locate : AddressKind → Emit (Option Slot)}
      (kind : AddressKind) (hk : false = true) {own : List Slot} :
      Hands env ok own (c kind) (locate kind) := absurd hk Bool.false_ne_true
  induction e using Expr.tree_induction with
  | literal i =>
    exact .make h (fun hc _ => .fail (h.here.fault _ (.literal hc)) _) homeless rfl
  | element i a x ha hx =>
    have ha := ha (h.part (by simp [Expr.parts]))
    have hx := hx (h.part (by simp [Expr.parts]))
    apply PlanFollows.assignable h
    · intro used own
      refine (Runs.elementOperands ha hx).bind fun _ => ?_
      exact Runs.bind (.code rfl) fun _ => .popUnless used
    · intro kind _ own
      exact (Runs.elementOperands ha hx).bind fun _ => .returning (.code rfl) rfl
    · intro isRef own
      exact (Runs.elementOperands ha hx).returning rfl
  | deref i p hp =>
    have hp := hp (h.part (by simp [Expr.parts]))
    apply PlanFollows.assignable h
    · intro used own
      exact .throughPointer (hp.value true) i.ty used
    · intro kind _ own
      exact (hp.value true).returning rfl
    · intro isRef own
      exact (hp.value true).returning rfl
  | typedRef i p hp =>
    have hp := hp (h.part (by simp [Expr.parts]))
    refine .make h (fun _ used own => ?_) (fun _ _ own => ?_) rfl
    · exact .throughPointer (.typedRefAddress i hp) i.ty used
    · exact (Runs.typedRefAddress i hp).returning rfl
  | this i =>
    exact .make h (fun _ used => .load rfl i.ty.isValueType i.ty used)
      (fun kind _ => .thisLocate i kind) rfl
  | throw i p hp =>
    have hp := hp (h.part (by simp [Expr.parts]))
    exact .make h (fun _ used => .throwLoad hp used)
      (fun _ _ => (Runs.throwLoad hp true).returning rfl) rfl
  | param i p =>
    exact .assignable h (fun used => .paramLoad h.here used)
      (fun kind _ => .paramLocate h.here kind) fun isRef => .paramTarget h.here isRef
  | localVar i l =>
    exact .assignable h (fun used => .localLoad l used) (fun _ hk => .localLocate hk) fun isRef =>
      .localTarget l isRef
  | call i r m as nv hr has =>
    have hr := planOption_follows fun e he => hr e he (h.part (by simp_all [Expr.parts]))
    have has := planList_follows fun e he => has e he (h.part (by simp [Expr.parts, he]))
    have hcall {use : Use} (huse : use = .address → m.resultMode.isByRef = true)
        {own : List Slot} : Follows env ok own
          (ofCall (Expr.outlineOption env r) m (Expr.outlineList env as) nv use)
          (call (Expr.planOption env r) m (Expr.planList env as) nv use i.span) := by
      refine .call hr has ?_ ?_ (fun hu hm => ?_) nv i.span
      · intro hm hnone
        cases r with
        | none => exact h.here.fault _ (.callReceiver hm)
        | some r => cases hnone
      · rw [Expr.outlineList_eq, List.length_map]
        exact fun hlength => h.here.fault _ (.arguments hlength)
      · rw [huse hu] at hm
        cases hm
    refine .make h (fun _ used => hcall ?_) (fun kind hk => (hcall ?_).returning rfl) rfl
    · cases used <;> rintro ⟨⟩
    · exact fun _ => resultHasHome_isByRef hk
  | duplicate i mode =>
    exact .make h (fun _ used => .duplicateLoad i mode used) (fun kind _ => .duplicateLocate kind)
      rfl
  | field i r f b hr =>
    have hparts : ∀ e ∈ r, e.All (Permits env ok) := fun e he =>
      h.part (by simp_all [Expr.parts])
    have hr := planOption_follows fun e he => hr e he (hparts e he)
    have hnone {fault : Fault} (hf : (Expr.field i none f b).Defect env fault)
        (ho : Expr.outlineOption env r = none) : ok.fault fault := by
      cases r with
      | none => exact h.here.fault _ hf
      | some r => cases ho
    have hassert : ∀ o ∈ Expr.outlineOption env r,
        (!env.assertions || env.asserted o.expr .readonly) = false →
          ok.fault .assertionFailed := by
      cases r with
      | none => rintro o ⟨⟩
      | some r =>
        rintro o ⟨⟩ hf
        rw [Expr.outline_expr] at hf
        exact Expr.All.asserted (fun n u hn => (hparts r rfl n u hn).fault) hf
    apply PlanFollows.assignable h
    · intro used own
      exact .fieldLoad hr (fun hs => hnone (.fieldReceiver hs)) hassert used
    · intro kind _ own
      exact .fieldLocate hr (fun hs => hnone (.fieldReceiver hs)) kind
    · intro isRef own
      exact .fieldTarget hr (fun hs => hnone (.storeReceiver hs)) isRef
  | sequence i ls es v hes hv =>
    have hes := planList_follows fun e he => hes e he (h.part (by simp [Expr.parts, he]))
    have hv := hv (h.part (by simp [Expr.parts]))
    exact .make h (fun _ used => (Runs.sequenceStart ls hes).bind fun _ => hv.value used)
      (fun kind _ => (Runs.sequenceStart ls hes).bind fun _ => hv.address kind) rfl
  | assign i l r isRef hl hr =>
    have hl := hl (h.part (by simp [Expr.parts]))
    have hr := hr (h.part (by simp [Expr.parts]))
    have hassign {use : Use} (huse : use = .address → isRef = true) {own : List Slot} :
        Follows env ok own (ofAssign env (l.outline env) (r.outline env) isRef use)
          (assign i (l.plan env) (r.plan env) isRef use) := by
      rcases h.here.assign with hs | hblock
      · refine .assign hs i hl hr huse fun hisRef hrebind => ?_
        rw [Expr.outline_expr] at hrebind
        rw [Outline.ty, Expr.outline_expr]
        subst hisRef
        exact h.here.fault _ (.rebind hrebind)
      · exact fun _ => .block (hblock i l r isRef rfl use)
    refine .make h (fun _ used => hassign ?_) (fun kind hk => (hassign ?_).returning rfl) rfl
    · cases used <;> rintro ⟨⟩
    · exact fun _ => (Bool.and_eq_true_iff.mp hk).1
  | heldReceiver i => exact .make h (fun _ used => .popUnless used) (fun _ _ => .pure none rfl) rfl
  | eitherReceiver i v r hv hr =>
    have hv := hv (h.part (by simp [Expr.parts]))
    have hr := hr (h.part (by simp [Expr.parts]))
    refine .make h (fun _ used own => ?_) (fun kind _ => .eitherLocate i hv hr kind) rfl
    exact .discard (.branch (.boxedDefault i.ty) (hr.value used) fun _ => hv.value used)
  | conditional i t c a isRef ht hc ha =>
    have ht := ht (h.part (by simp [Expr.parts]))
    have hc := hc (h.part (by simp [Expr.parts]))
    have ha := ha (h.part (by simp [Expr.parts]))
    refine .make h (fun _ used own => ?_) (fun kind _ own => ?_) rfl
    · exact .discard (.branch (ht.value true) (ha.value used) fun _ => hc.value used)
    · exact .conditionalLocate (ht.value true) (ha.address kind) (hc.address kind)
  | convert i p c hp =>
    have hp := hp (h.part (by simp [Expr.parts]))
    refine .make h (fun _ used own => .convertLoad hp ?_ used) homeless rfl
    rw [Expr.outline_expr]
    exact h.here.fault
  | delegate i r m nv hr =>
    have hr := planOption_follows fun e he => hr e he (h.part (by simp_all [Expr.parts]))
    exact .make h (fun _ used => .delegateLoad i hr m nv used) homeless rfl
  | stackalloc i elem n es hn hes =>
    have hn := hn (h.part (by simp [Expr.parts]))
    have hes := planList_follows fun e he => hes e he (h.part (by simp [Expr.parts, he]))
    have hs : ok.stores ∨ ∀ p ∈ Expr.planList env es, ∀ index,
        ok.block (fillElement elem index p) :=
      h.here.fill.imp_right fun hblock => Expr.forall_planList.mpr (hblock i elem n es rfl)
    refine .make h (fun _ used own => .stackalloc hn hs hes ?_ used i.span) homeless rfl
    have hexprs : (Expr.outlineList env es).map Outline.expr = es := by
      simp [Expr.outlineList_eq, Function.comp_def]
    rw [hexprs]
    exact fun x hx c p hc hp hl => h.here.fault _ (.entry hx hc hp hl)

/-- Where a tree may fail and store as it likes. -/
theorem plan_freely (env : Env) (hf : ∀ fault, ok.fault fault) (hs : ok.stores) (e : Expr) :
    PlanFollows env ok (e.outline env) (e.plan env) :=
  plan_follows env fun _ _ _ => ⟨fun f _ => hf f, .inl hs, .inl hs⟩

theorem plan_outlined (env : Env) (e : Expr) :
    PlanFollows env (.only fun _ => True) (e.outline env) (e.plan env) :=
  plan_freely env (fun _ => trivial) trivial e

theorem plan_emits (env : Env) (e : Expr) :
    PlanFollows env .any (e.outline env) (e.plan env) :=
  plan_freely env (fun _ => trivial) trivial e

end Emit

end TypedStack
