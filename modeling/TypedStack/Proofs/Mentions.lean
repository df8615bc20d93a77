import Mathlib.Data.List.Forall2
import TypedStack.Proofs.Sessions

/-! Where locals are mentioned. Emission asks for the slot of a local where it comes to a mention
of it, and which mentions it comes to, in which order, can be read off the tree. A tree is come to
as far as its use asks: nothing is loaded that is folded or not wanted, and a node without a home
is located through its value. -/
namespace TypedStack

/-- The locals that the uses of a node ask a slot for, in the order of emission. -/
structure Mentions where
  expr : Expr
  value : (used : Bool) → List Local
  address : AddressKind → List Local
  target : List Local

namespace Mentions

def ty (m : Mentions) : Ty := m.expr.ty

def make (env : Env) (e : Expr) (load : Bool → List Local) (locate : AddressKind → List Local) :
    Mentions :=
  let value used := if e.isConstant then [] else load used
  let address kind := if env.hasHome e kind then locate kind else value true
  { expr := e, value, address, target := address .writable }

/-- The same for a node that an assignment stores to in its own way. -/
def assignable (env : Env) (e : Expr) (load : Bool → List Local)
    (locate : AddressKind → List Local) (target : List Local) : Mentions :=
  { make env e load locate with target }

def alike (env : Env) (e : Expr) (ls : List Local) : Mentions :=
  make env e (fun _ => ls) fun _ => ls

def receiver (m : Mentions) (kind : AddressKind) : List Local :=
  if m.ty.isVerifierReference then m.value true else m.address kind

def passed (m : Mentions) : RefKind → List Local
  | .byValue => m.value true
  | .ref | .output => m.address .writable
  | .input | .refReadonly | .refReadonlyParam => m.address .readonlyStrict

/-- A local that lives on the stack needs no slot. -/
def ofLocal (env : Env) (l : Local) : List Local := if env.isResident l.id then [] else [l]

/-- What belongs to the type and not to a value of it has no receiver. -/
def ofReceiver (isStatic : Bool) (receiver : Option Mentions) (kind : AddressKind) : List Local :=
  if isStatic then [] else receiver.elim [] (·.receiver kind)

def ofFieldLoad (env : Env) (receiver : Option Mentions) (f : Field) (used : Bool) : List Local :=
  if f.isStatic then []
  else receiver.elim [] fun r =>
    if !used && !r.ty.isVerifierReference then r.value false
    else if !r.ty.isVerifierReference && env.hasHome r.expr .readonly then r.address .readonly
    else r.value true

def ofCall (receiver : Option Mentions) (m : Method) (args : List Mentions) : List Local :=
  ofReceiver m.isStatic receiver (if m.isReadonly then .readonly else .constrained) ++
    (args.zip m.params).flatMap fun x => x.1.passed x.2.mode

def ofAssign (left right : Mentions) (isRef : Bool) : List Local :=
  left.target ++
    if isRef then right.address (if left.expr.mode.isReadonly then .readonlyStrict else .writable)
    else right.value true

def ofConvert (operand : Mentions) (c : Conversion) (used : Bool) : List Local :=
  if c.kind = .nullToPointer then [] else operand.value (used || c.hasEffect)

def ofDelegate (receiver : Option Mentions) (m : Method) (used : Bool) : List Local :=
  (if m.isStatic then none else receiver).elim [] (·.value used)

def ofBlock (count : Mentions) (inits : List Mentions) (used : Bool) : List Local :=
  count.value true ++ inits.flatMap (·.value used)

end Mentions

open Mentions

mutual

def Expr.mentions (env : Env) : Expr → Mentions
  | .literal i => .alike env (.literal i) []
  | .element i array index =>
    .alike env (.element i array index)
      ((array.mentions env).value true ++ (index.mentions env).value true)
  | .deref i pointer => .alike env (.deref i pointer) ((pointer.mentions env).value true)
  | .typedRef i operand => .alike env (.typedRef i operand) ((operand.mentions env).value true)
  | .this i => .alike env (.this i) []
  | .throw i exception => .alike env (.throw i exception) ((exception.mentions env).value true)
  | .param i p => .assignable env (.param i p) (fun _ => []) (fun _ => []) []
  | .localVar i l =>
    let own := ofLocal env l
    .assignable env (.localVar i l) (fun used => if used then own else []) (fun _ => own) own
  | .call i receiver m args nonVirtual =>
    .alike env (.call i receiver m args nonVirtual)
      (ofCall (Expr.mentionsOption env receiver) m (Expr.mentionsList env args))
  | .duplicate i mode => .alike env (.duplicate i mode) []
  | .field i receiver f byValue =>
    let r := Expr.mentionsOption env receiver
    .assignable env (.field i receiver f byValue) (ofFieldLoad env r f)
      (fun kind => ofReceiver f.isStatic r (Emit.fieldReceiverKind kind))
      (ofReceiver f.isStatic r .writable)
  | .sequence i locals effects value =>
    let start := locals.filter (fun l => !env.isResident l.id) ++
      (Expr.mentionsList env effects).flatMap (·.value false)
    let v := value.mentions env
    .make env (.sequence i locals effects value) (fun used => start ++ v.value used)
      fun kind => start ++ v.address kind
  | .assign i left right isRef =>
    .alike env (.assign i left right isRef)
      (ofAssign (left.mentions env) (right.mentions env) isRef)
  | .heldReceiver i => .alike env (.heldReceiver i) []
  | .eitherReceiver i value reference =>
    let v := value.mentions env
    let r := reference.mentions env
    .make env (.eitherReceiver i value reference) (fun used => r.value used ++ v.value used)
      fun kind => r.address kind ++ v.receiver kind
  | .conditional i condition consequence alternative isRef =>
    let test := (condition.mentions env).value true
    let c := consequence.mentions env
    let a := alternative.mentions env
    .make env (.conditional i condition consequence alternative isRef)
      (fun used => test ++ (a.value used ++ c.value used))
      fun kind => test ++ (a.address kind ++ c.address kind)
  | .convert i operand c =>
    .make env (.convert i operand c) (ofConvert (operand.mentions env) c) fun _ => []
  | .delegate i receiver m nonVirtual =>
    .make env (.delegate i receiver m nonVirtual)
      (ofDelegate (Expr.mentionsOption env receiver) m) fun _ => []
  | .stackalloc i elem count inits =>
    .make env (.stackalloc i elem count inits)
      (ofBlock (count.mentions env) (Expr.mentionsList env inits)) fun _ => []

def Expr.mentionsOption (env : Env) : Option Expr → Option Mentions
  | none => none
  | some e => some (e.mentions env)

def Expr.mentionsList (env : Env) : List Expr → List Mentions
  | [] => []
  | e :: es => e.mentions env :: Expr.mentionsList env es

end

def Step.mentions (env : Env) : Step → List Local
  | .value e used => (e.mentions env).value used
  | .address e kind => (e.mentions env).address kind
  | .call receiver m args _ _ _ =>
    ofCall (Expr.mentionsOption env receiver) m (Expr.mentionsList env args)
  | .convert _ operand c used => ofConvert (operand.mentions env) c used
  | .delegate _ receiver m _ used => ofDelegate (Expr.mentionsOption env receiver) m used
  | .stackalloc _ count inits used _ =>
    ofBlock (count.mentions env) (Expr.mentionsList env inits) used
  | .hasHome .. | .keepOnStack _ | .isResident _ | .slotOf _ | .convertPushed .. => []

namespace SlotPool

def Request.local? : Request → Option Local
  | .define l => some l
  | _ => none

/-- Requests for these locals in this order, and for whatever temporaries, lead from one pool to
the other. -/
def Declares (p : SlotPool) (ls : List Local) (q : SlotPool) : Prop :=
  ∃ requests, requests.filterMap Request.local? = ls ∧ (p.serveAll requests).2 = q

namespace Declares

variable {p q r : SlotPool} {ls ls' : List Local}

theorem refl (p : SlotPool) : p.Declares [] p := ⟨[], rfl, rfl⟩

theorem serve (p : SlotPool) (request : Request) :
    p.Declares request.local?.toList (p.serve request).2 :=
  ⟨[request], by cases request <;> rfl, rfl⟩

theorem trans (h : p.Declares ls q) (h' : q.Declares ls' r) : p.Declares (ls ++ ls') r := by
  obtain ⟨first, rfl, rfl⟩ := h
  obtain ⟨second, rfl, rfl⟩ := h'
  exact ⟨first ++ second, List.filterMap_append, serveAll_append p first second⟩

end Declares

end SlotPool

/-! ### Scripts -/

namespace Script

/-- The locals whose slots a script asks for. What would come after a failure is left open. -/
inductive Asks : Script → List Local → Prop where
  | nothing : Asks ∅ []
  | seq {c d ls ls'} : Asks c ls → Asks d ls' → Asks (c ++ d) (ls ++ ls')
  | fail (ls) : Asks fail ls
  | code (i) : Asks (code i) []
  | slot (access) : Asks (slot access) []
  | duplicate : Asks duplicate []
  | throw (counted) : Asks (throw counted) []
  | adjust (d) : Asks (adjust d) []
  | define (l) : Asks (define l) [l]
  | constant : Asks constant []
  | remake : Asks remake []
  | view : Asks view []
  | choice {leaves test other taken lt lo lk} : Asks test lt → Asks other lo → Asks taken lk →
    Asks (choice leaves test other taken) (lt ++ (lo ++ lk))

namespace Asks

variable {c d : Script} {ls : List Local}

theorem skip (hc : c.Asks []) (hd : d.Asks ls) : (c ++ d).Asks ls := hc.seq hd

theorem quietly (hc : c.Asks ls) (hd : d.Asks []) : (c ++ d).Asks ls := ls.append_nil ▸ hc.seq hd

theorem abstract (hcd : c.Abstracts d) (h : c.Asks ls) : d.Asks ls := by
  cases hcd with
  | constant | remake | size =>
    cases h
    exact code _
  | boxed ty =>
    cases h
    exact (slot .address).skip ((code _).skip ((slot .load).skip (code _)))
  | converted =>
    cases h
    exact constant.skip remake
  | nothing =>
    cases h
    exact nothing
  | again =>
    cases h
    exact remake.skip remake
  | combine =>
    cases h
    exact constant.skip (code _)
  | fill =>
    cases h
    exact (code _).skip (constant.skip (constant.skip (code _)))
  | skip => exact nothing.skip h
  | quietly => exact h.quietly nothing
  | assoc =>
    cases h with
    | seq hcd he =>
      cases hcd with
      | seq hc hd =>
        rw [List.append_assoc]
        exact hc.seq (hd.seq he)

theorem when_used {b : Bool} (h : c.Asks ls) : (c.when b).Asks (if b then ls else []) := by
  cases b with
  | false => exact nothing
  | true => exact h

theorem when {b : Bool} (h : c.Asks []) : (c.when b).Asks [] := by
  simpa using when_used (b := b) h

theorem popUnless (used : Bool) : (Script.popUnless used).Asks [] := when (code _)

theorem load_pop (hc : c.Asks ls) (i : Instr) (used : Bool) :
    (c ++ (Script.code i ++ Script.popUnless used)).Asks ls :=
  hc.quietly ((code i).skip (popUnless used))

theorem all_code (is : List Instr) : (Script.all (is.map .code)).Asks [] := by
  induction is with
  | nil => exact nothing
  | cons i is ih => exact (code i).skip ih

theorem all_define (ls : List Local) : (Script.all (ls.map .define)).Asks ls := by
  induction ls with
  | nil => exact nothing
  | cons l ls ih => exact (define l).seq ih

end Asks

end Script

/-! ### What is asked for -/

namespace Emit

variable {α β : Type} {env : Env} {ls ls' : List Local}

/-- The emission asks for the slots of these locals in order, or where it fails, of the first few
of them. -/
structure Visits (ls : List Local) (m : Emit α) : Prop where
  ok : ∀ {s a t}, m s = .ok a t → s.slots.Declares ls t.slots
  error : ∀ {s f t}, m s = .error f t → ∃ done, done <+: ls ∧ s.slots.Declares done t.slots

namespace Visits

theorem fail (fault : Fault) (span : Span) : Visits ls (fail fault span : Emit α) where
  ok h := absurd h fail_not_ok
  error := by
    rintro s f t ⟨⟩
    exact ⟨[], List.nil_prefix, .refl _⟩

theorem request {m : Emit α} {r : SlotPool.Request}
    (h : ∀ s, ∃ a, m s = .ok a { s with slots := (s.slots.serve r).2 }) :
    Visits r.local?.toList m where
  ok {s a t} hm := by
    obtain ⟨b, hb⟩ := h s
    cases hb.symm.trans hm
    exact .serve _ r
  error {s f t} hm := by
    obtain ⟨b, hb⟩ := h s
    cases hb.symm.trans hm

theorem still {m : Emit α} (h : ∀ s, ∃ a t, m s = .ok a t ∧ t.slots = s.slots) : Visits [] m where
  ok {s a t} hm := by
    obtain ⟨b, u, hb, hu⟩ := h s
    cases hb.symm.trans hm
    exact hu ▸ .refl _
  error {s f t} hm := by
    obtain ⟨b, u, hb, -⟩ := h s
    cases hb.symm.trans hm

theorem bind_of {m : Emit α} {k : α → Emit β} (hm : Visits ls m)
    (hk : ∀ s a t, m s = .ok a t → Visits ls' (k a)) : Visits (ls ++ ls') (m >>= k) where
  ok {s b t} h := by
    obtain ⟨a, u, hu, ht⟩ := bind_ok h
    exact (hm.ok hu).trans ((hk s a u hu).ok ht)
  error {s f t} h := by
    rcases bind_error h with hu | ⟨a, u, hu, ht⟩
    · obtain ⟨done, hdone, hd⟩ := hm.error hu
      exact ⟨done, hdone.trans (List.prefix_append _ _), hd⟩
    · obtain ⟨done, hdone, hd⟩ := (hk s a u hu).error ht
      exact ⟨ls ++ done, (List.prefix_append_right_inj ls).mpr hdone, (hm.ok hu).trans hd⟩

theorem bind {m : Emit α} {k : α → Emit β} (hm : Visits ls m) (hk : ∀ a, Visits ls' (k a)) :
    Visits (ls ++ ls') (m >>= k) := hm.bind_of fun _ a _ _ => hk a

theorem skip {m : Emit α} {k : α → Emit β} (hm : Visits [] m) (hk : ∀ a, Visits ls (k a)) :
    Visits ls (m >>= k) := hm.bind hk

theorem quietly {m : Emit α} {k : α → Emit β} (hm : Visits ls m) (hk : ∀ a, Visits [] (k a)) :
    Visits ls (m >>= k) := ls.append_nil ▸ hm.bind hk

theorem pure (a : α) : Visits [] (pure a : Emit α) := still fun s => ⟨a, s, rfl, rfl⟩

theorem instr (i : Instr) : Visits [] (instr i) := still fun _ => ⟨(), _, rfl, rfl⟩

theorem newLabel : Visits [] newLabel := still fun _ => ⟨_, _, rfl, rfl⟩

theorem allocate (ty : Ty) (byRef : Bool) : Visits [] (allocate ty byRef) :=
  request (r := .allocate ty byRef) fun _ => ⟨_, rfl⟩

theorem free (x : Slot) : Visits [] (free x) := request (r := .free x) fun _ => ⟨(), rfl⟩

theorem when {c : Bool} {m : Emit Unit} (h : Visits [] m) : Visits [] (when c m) := by
  unfold Emit.when
  split
  · exact h
  · exact pure ()

theorem copyThroughView (v : BlobView) (size : Nat) (data : List UInt8) :
    Visits [] (copyThroughView v size data) := by
  refine skip (still fun _ => ⟨_, _, rfl, rfl⟩) fun _ => ?_
  refine (instr _).skip fun _ => ?_
  refine (instr _).skip fun _ => ?_
  refine (instr _).skip fun _ => ?_
  refine (allocate _ _).skip fun x => ?_
  refine (instr _).skip fun _ => ?_
  refine (instr _).skip fun _ => ?_
  refine (instr _).skip fun _ => ?_
  refine (instr _).skip fun _ => ?_
  refine (instr _).skip fun _ => ?_
  exact free x

theorem branch {leaves : Bool} {test : Emit Unit} {other taken : Emit α} {lt lo lk : List Local}
    (ht : Visits lt test) (ho : Visits lo other) (hk : α → Visits lk taken) :
    Visits (lt ++ (lo ++ lk)) (branch leaves test other taken) := by
  refine newLabel.skip fun _ => ?_
  refine newLabel.skip fun _ => ?_
  refine ht.bind fun _ => ?_
  refine (instr _).skip fun _ => ?_
  refine ho.bind fun a => ?_
  refine (instr _).skip fun _ => ?_
  refine skip (when (still fun _ => ⟨(), _, rfl, rfl⟩)) fun _ => ?_
  refine (instr _).skip fun _ => ?_
  refine (hk a).quietly fun _ => ?_
  exact (instr _).skip fun _ => pure _

theorem declares {m : Emit α} (h : Visits ls m) (s : State) :
    ∃ done, done <+: ls ∧ s.slots.Declares done (after m s).slots := by
  unfold after
  cases hm : m s with
  | ok a t => exact ⟨ls, List.prefix_refl ls, h.ok hm⟩
  | error f t => exact h.error hm

end Visits

theorem Emits.visits {P : Fault → Prop} {given : Prop} {own : List Slot} {c : Script} {m : Emit α}
    {post : α → List Slot} (h : Emits env (.only P) given own c m post) (hc : c.Asks ls) :
    Visits ls m := by
  induction h generalizing ls with
  | pure a =>
    cases hc
    exact .pure a
  | bind_of _ _ ih ihk =>
    cases hc with
    | seq hc hd => exact (ih hc).bind_of fun s a t hm => ihk s a t hm hd
  | stand hstand _ ih => exact ih (hc.abstract hstand)
  | list _ _ _ ih => exact ih hc
  | fail _ span => exact .fail _ span
  | instr _ _ _ hsays =>
    cases hsays <;>
    · cases hc
      exact .instr _
  | throw counted =>
    cases hc
    exact (Visits.instr _).skip fun _ => .when (.still fun _ => ⟨(), _, rfl, rfl⟩)
  | adjust | report | copyBytes =>
    cases hc
    exact .still fun _ => ⟨(), _, rfl, rfl⟩
  | @define _ _ l _ =>
    cases hc
    exact .request (r := .define l) fun _ => ⟨_, rfl⟩
  | allocate ty byRef =>
    cases hc
    exact .allocate ty byRef
  | free x =>
    cases hc
    exact .free x
  | retire x =>
    cases hc
    exact .request (r := .retire x) fun _ => ⟨(), rfl⟩
  | keep ty byRef _ ih =>
    cases hc with
    | seq hstore hc =>
      cases hstore
      refine (Visits.allocate ty byRef).skip fun x => ?_
      exact (Visits.instr _).skip fun _ => ih x hc
  | copyThroughView _ size data =>
    cases hc
    exact .copyThroughView _ size data
  | block hblock => exact hblock.elim
  | branch _ _ _ iht iho ihk =>
    cases hc with
    | choice hct hco hck => exact .branch (iht hct) (iho hco) fun a => ihk a hck

end Emit

/-! ### Trees -/

namespace Outline

variable {env : Env} {ls : List Local}

/-- Each use of the node asks for what the node mentions, and a folded node mentions nothing. -/
structure Asks (o : Outline) (m : Mentions) : Prop where
  expr : o.expr = m.expr
  value : ∀ used, (o.value used).Asks (m.value used)
  address : ∀ kind, (o.address kind).Asks (m.address kind)
  target : ∀ isRef, (o.target isRef).Asks m.target
  folded : m.expr.isConstant = true → ∀ used, m.value used = []

namespace Asks

variable {e : Expr} {load : Bool → Script} {locate : AddressKind → Script}
  {target : Bool → Script} {loaded : Bool → List Local} {located : AddressKind → List Local}

theorem make (hl : ∀ used, (load used).Asks (loaded used))
    (ha : ∀ kind, (locate kind).Asks (located kind)) :
    (make env e load locate).Asks (.make env e loaded located) := by
  have hvalue (used : Bool) : ((Outline.make env e load locate).value used).Asks
      ((Mentions.make env e loaded located).value used) := by
    dsimp only [Outline.make, Mentions.make]
    split
    · exact .when .constant
    · exact hl used
  have haddress (kind : AddressKind) : ((Outline.make env e load locate).address kind).Asks
      ((Mentions.make env e loaded located).address kind) := by
    dsimp only [Outline.make, Mentions.make]
    split
    · exact ha kind
    · exact (hvalue true).quietly (.skip (.slot .store) (.slot .address))
  exact ⟨rfl, hvalue, haddress, fun _ => haddress .writable, fun hc _ => if_pos hc⟩

theorem assignable {stored : List Local} (hl : ∀ used, (load used).Asks (loaded used))
    (ha : ∀ kind, (locate kind).Asks (located kind)) (ht : ∀ isRef, (target isRef).Asks stored) :
    (assignable env e load locate target).Asks (.assignable env e loaded located stored) :=
  { make hl ha with target := ht }

theorem alike (hl : ∀ used, (load used).Asks ls) (ha : ∀ kind, (locate kind).Asks ls) :
    (Outline.make env e load locate).Asks (.alike env e ls) := make hl ha

/-- A node that always has a home to write to is stored to through the same parts too. -/
theorem alike_target (hl : ∀ used, (load used).Asks ls) (ha : ∀ kind, (locate kind).Asks ls)
    (ht : ∀ isRef, (target isRef).Asks ls) (home : env.hasHome e .writable = true) :
    (Outline.assignable env e load locate target).Asks (.alike env e ls) := by
  have hstored : (Mentions.alike env e ls).target = ls := if_pos home
  refine { make hl ha with target := fun isRef => ?_ }
  rw [hstored]
  exact ht isRef

variable {o : Outline} {m : Mentions} (h : o.Asks m)

include h

theorem ty : o.ty = m.ty := congrArg Expr.ty h.expr

theorem receiver (kind : AddressKind) : (o.receiver kind).Asks (m.receiver kind) := by
  unfold Outline.receiver Mentions.receiver
  rw [h.ty]
  split
  · exact h.value true
  · exact h.address kind

theorem passed (mode : RefKind) : (o.passed mode).Asks (m.passed mode) := by
  cases mode
  · exact h.value true
  all_goals exact h.address _

end Asks

theorem ofLocal_asks (l : Local) (access : Access) :
    (ofLocal env l access).Asks (Mentions.ofLocal env l) := by
  unfold ofLocal Mentions.ofLocal
  split
  · exact .nothing
  · exact .quietly (.define l) (.slot access)

theorem ofLocalTarget_asks (l : Local) (isRef : Bool) :
    (ofLocalTarget env l isRef).Asks (Mentions.ofLocal env l) := by
  unfold ofLocalTarget
  split
  · exact ofLocal_asks l .load
  · unfold Mentions.ofLocal
    split
    · exact .nothing
    · exact .define l

theorem ofLoad_asks (i : Instr) (byRef : Bool) (ty : Ty) (used : Bool) :
    (ofLoad i byRef ty used).Asks [] := .when (.skip (.code i) (.when (.code _)))

section

variable {x y : Outline} {mx my : Mentions} {o : Option Outline} {mo : Option Mentions}
  {os : List Outline} {ms : List Mentions}

section

variable (ho : Option.Rel Asks o mo)

include ho

theorem ofFieldLoad_asks (f : Field) (used : Bool) :
    (ofFieldLoad env o f used).Asks (Mentions.ofFieldLoad env mo f used) := by
  unfold ofFieldLoad Mentions.ofFieldLoad
  split
  · exact ofLoad_asks _ _ _ _
  · cases ho with
    | none => exact .fail _
    | @some r m hr =>
      dsimp only [Option.elim]
      unfold ofFieldSource
      rw [hr.ty, hr.expr]
      have hrest : (Script.code (.field .load f) ++ (Script.when f.mode.isByRef
          (Script.loadThrough f.ty) ++ Script.popUnless used)).Asks [] :=
        .skip (.code _) (.skip (.when (.code _)) (.popUnless used))
      by_cases href : m.ty.isVerifierReference
      · simp only [href, Bool.not_true, Bool.and_false, Bool.false_and, Bool.false_eq_true,
          if_false, if_true]
        exact (hr.value true).quietly hrest
      · simp only [Bool.eq_false_iff.mpr href, Bool.not_false, Bool.and_true, Bool.true_and,
          Bool.false_eq_true, if_false]
        split
        · exact hr.value false
        · refine .quietly ?_ hrest
          split
          · exact hr.address _
          · exact hr.value true

theorem ofFieldLocate_asks (f : Field) (kind : AddressKind) :
    (ofFieldLocate o f kind).Asks
      (Mentions.ofReceiver f.isStatic mo (Emit.fieldReceiverKind kind)) := by
  unfold ofFieldLocate Mentions.ofReceiver
  split
  · exact .code _
  · cases ho with
    | none => exact .fail _
    | some hr => exact (hr.receiver _).quietly (.code _)

theorem ofFieldTarget_asks (f : Field) (isRef : Bool) :
    (ofFieldTarget o f isRef).Asks (Mentions.ofReceiver f.isStatic mo .writable) := by
  unfold ofFieldTarget Mentions.ofReceiver
  dsimp only
  split
  · exact .when (.code _)
  · cases ho with
    | none => exact .fail _
    | some hr => exact (hr.receiver _).quietly (.when (.code _))

theorem ofDispatch_asks (m : Method) :
    (ofDispatch o m).Asks (Mentions.ofReceiver m.isStatic mo
      (if m.isReadonly then .readonly else .constrained)) := by
  unfold ofDispatch Mentions.ofReceiver
  split
  · exact .nothing
  · cases ho with
    | none => exact .fail _
    | some hr => exact hr.receiver _

theorem ofDelegate_asks (ty : Ty) (m : Method) (nonVirtual used : Bool) :
    (ofDelegate env ty o m nonVirtual used).Asks (Mentions.ofDelegate mo m used) := by
  have hbound : Option.Rel Asks (if m.isStatic then none else o)
      (if m.isStatic then none else mo) := by
    split
    · exact .none
    · exact ho
  have hpointer : (ofPointer m nonVirtual).Asks [] := by
    unfold ofPointer
    split
    · exact .skip (.code _) (.code _)
    · exact .code _
  have hmade : (ofConstruct env ty).Asks [] := by
    unfold ofConstruct
    cases Emit.delegateConstructor? env ty with
    | none => exact .adjust _
    | some m => exact .code _
  unfold ofDelegate Mentions.ofDelegate
  dsimp only
  generalize (if m.isStatic then none else o) = bound at hbound ⊢
  generalize (if m.isStatic then none else mo) = mentioned at hbound ⊢
  cases hbound with
  | none =>
    split
    · exact .skip .constant (hpointer.skip hmade)
    · exact .nothing
  | some hr =>
    cases used with
    | true => exact ((hr.value true).quietly .remake).quietly (hpointer.skip hmade)
    | false => exact hr.value false

end

theorem values_ask (h : List.Forall₂ Asks os ms) (used : Bool) :
    (Script.all (os.map fun o => o.value used)).Asks (ms.flatMap (·.value used)) := by
  induction h with
  | nil => exact .nothing
  | cons hx _ ih => exact (hx.value used).seq ih

theorem ofStart_asks (locals : List Local) (h : List.Forall₂ Asks os ms) :
    (ofStart env locals os).Asks
      (locals.filter (fun l => !env.isResident l.id) ++ ms.flatMap (·.value false)) :=
  .seq (.all_define _) (values_ask h false)

theorem ofArguments_asks (h : List.Forall₂ Asks os ms) (params : List Parameter) :
    (ofArguments (os.zip params)).Asks
      ((ms.zip params).flatMap fun x => x.1.passed x.2.mode) := by
  induction h generalizing params with
  | nil => exact .nothing
  | cons hx _ ih =>
    cases params with
    | nil => exact .nothing
    | cons p params => exact (hx.passed p.mode).seq (ih params)

theorem ofCall_asks (ho : Option.Rel Asks o mo) (m : Method) (h : List.Forall₂ Asks os ms)
    (nonVirtual : Bool) (use : Use) :
    (ofCall o m os nonVirtual use).Asks (Mentions.ofCall mo m ms) := by
  have hresult : (ofResult m use).Asks [] := by
    refine .when ?_
    cases use with
    | unused => exact .code _
    | value => exact .when (.code _)
    | address => exact .nothing
  unfold ofCall
  split
  · refine (ofDispatch_asks ho m).seq ((ofArguments_asks h m.params).quietly ?_)
    exact .skip (.all_code _) hresult
  · exact .fail _

theorem ofStore_asks (place : Place) (use : Use) : (ofStore place use).Asks [] := by
  have hstore : place.script.Asks [] := by
    cases place
    · exact .nothing
    · exact .slot .store
    all_goals exact .code _
  unfold ofStore
  split
  · exact hstore
  · exact .skip (.code _) hstore
  · exact .skip (.code _) (.skip (.slot .store) (hstore.skip (.slot .load)))

theorem ofAssign_asks (hx : x.Asks mx) (hy : y.Asks my) (isRef : Bool) (use : Use) :
    (ofAssign env x y isRef use).Asks (Mentions.ofAssign mx my isRef) := by
  have hassigned : (ofAssigned x y isRef).Asks (if isRef then
      my.address (if mx.expr.mode.isReadonly then .readonlyStrict else .writable)
      else my.value true) := by
    unfold ofAssigned
    rw [hx.expr]
    split
    · exact hy.address _
    · exact hy.value true
  refine (hx.target isRef).seq (hassigned.quietly ?_)
  exact (ofStore_asks _ use).skip (.when (.code _))

theorem ofConvert_asks (hx : x.Asks mx) (c : Conversion) (used : Bool) :
    (ofConvert x c used).Asks (Mentions.ofConvert mx c used) := by
  unfold ofConvert Mentions.ofConvert
  split
  · exact .fail _
  · split
    · exact .skip .constant (.popUnless used)
    · cases used <;> cases c.hasEffect
      · exact hx.value false
      all_goals exact (hx.value true).quietly (.skip .remake (.popUnless _))

/-- A size that is known is that of a folded count. -/
theorem ofSize_asks (elem : Ty) (hx : x.Asks mx) : (ofSize elem x).Asks (mx.value true) := by
  unfold ofSize
  split
  · rename_i hsize
    have hfolded : mx.expr.isConstant = true := by
      rw [← hx.expr, Expr.isConstant, Option.isSome_iff_ne_none]
      intro hnone
      simp [Emit.foldedSize?, hnone] at hsize
    rw [hx.folded hfolded]
    exact .constant
  · exact (hx.value true).quietly .remake

/-- Entries that are left out are folded and mention nothing. -/
theorem ofEntries_asks (elem : Ty) (constants : Bool) (h : List.Forall₂ Asks os ms) :
    (ofEntries elem constants os).Asks (ms.flatMap (·.value true)) := by
  induction h with
  | nil => exact .nothing
  | @cons o m os ms hx _ ih =>
    refine .seq ?_ ih
    dsimp only
    cases hk : constants || !o.expr.isConstant with
    | true => exact .skip (.code _) (.skip .remake ((hx.value true).quietly (.code _)))
    | false =>
      have hfolded : m.expr.isConstant = true := by
        rw [← hx.expr]
        simpa using (Bool.or_eq_false_iff.mp hk).2
      rw [hx.folded hfolded]
      exact .nothing

theorem ofData_asks (elem : Ty) (h : List.Forall₂ Asks os ms) (size : Nat) (data : List UInt8)
    {style : FillStyle} (hstyle : style = .mixed ∨ ms.flatMap (·.value true) = []) :
    (ofData env elem os size data style).Asks (ms.flatMap (·.value true)) := by
  have hothers : (Script.when (style == .mixed) (ofEntries elem false os)).Asks
      (ms.flatMap (·.value true)) := by
    have hentries := ofEntries_asks elem false h
    rcases hstyle with rfl | hnothing
    · exact hentries
    · rw [hnothing] at hentries ⊢
      exact hentries.when
  unfold ofData
  dsimp only
  split
  · exact .skip .remake hothers
  · exact .skip .remake hothers
  · exact .skip .view hothers
  · exact ofEntries_asks elem true h

theorem ofFill_asks (elem : Ty) (h : List.Forall₂ Asks os ms) :
    (ofFill env elem os).Asks (ms.flatMap (·.value true)) := by
  -- a block that is all constant has only folded entries
  have hnothing (hall : ∀ e ∈ os.map expr, e.isConstant = true) :
      ms.flatMap (·.value true) = [] := by
    induction h with
    | nil => rfl
    | @cons o m os ms hx _ ih =>
      obtain ⟨hfirst, hrest⟩ := List.forall_mem_cons.mp hall
      rw [List.flatMap_cons, hx.folded (hx.expr ▸ hfirst), ih hrest]
      rfl
  unfold ofFill
  dsimp only
  split
  · exact ofEntries_asks elem true h
  · rename_i hstyle
    split
    · exact .fail _
    · split
      · exact .fail _
      · exact ofData_asks elem h _ _ ((Emit.fillStyle_cases hstyle).imp_right hnothing)

theorem ofBlock_asks (elem : Ty) (hx : x.Asks mx) (h : List.Forall₂ Asks os ms) (used : Bool) :
    (ofBlock env elem x os used).Asks (Mentions.ofBlock mx ms used) := by
  refine (ofSize_asks elem hx).seq (.skip (.code _) ?_)
  cases used with
  | true => exact ofFill_asks elem h
  | false => exact (values_ask h false).quietly (.code _)

end

theorem outlineOption_asks {o : Option Expr} (h : ∀ e ∈ o, (e.outline env).Asks (e.mentions env)) :
    Option.Rel Asks (Expr.outlineOption env o) (Expr.mentionsOption env o) := by
  cases o with
  | none => exact .none
  | some e => exact .some (h e rfl)

theorem outlineList_asks {es : List Expr} (h : ∀ e ∈ es, (e.outline env).Asks (e.mentions env)) :
    List.Forall₂ Asks (Expr.outlineList env es) (Expr.mentionsList env es) := by
  induction es with
  | nil => exact .nil
  | cons e es ih =>
    exact .cons (h e List.mem_cons_self) (ih fun x hx => h x (List.mem_cons_of_mem e hx))

theorem asks (env : Env) (e : Expr) : (e.outline env).Asks (e.mentions env) := by
  induction e using Expr.tree_induction with
  | literal i => exact .alike (fun _ => .fail _) fun _ => .fail _
  | element i a x ha hx =>
    have hoperands := (ha.value true).seq (hx.value true)
    refine .alike_target (fun used => ?_) (fun kind => ?_) (fun _ => hoperands) rfl
    · exact hoperands.load_pop _ used
    · exact hoperands.quietly (.code _)
  | deref i p hp =>
    have hpointer := hp.value true
    exact .alike_target (fun used => hpointer.load_pop _ used) (fun _ => hpointer)
      (fun _ => hpointer) rfl
  | typedRef i p hp =>
    have haddress := (hp.value true).quietly (.code (.refanyval i.ty))
    exact .alike (fun used => haddress.load_pop _ used) fun _ => haddress
  | this i => exact .alike (fun used => ofLoad_asks _ _ _ used) fun _ => .code _
  | throw i p hp =>
    have hthrow (counted : Bool) := (hp.value true).quietly (.throw counted)
    exact .alike hthrow fun _ => hthrow true
  | param i p =>
    exact .assignable (fun used => ofLoad_asks _ _ _ used) (fun _ => .code _) fun _ =>
      .when (.code _)
  | localVar i l =>
    refine .assignable (fun used => ?_) (fun _ => ofLocal_asks l _) (ofLocalTarget_asks l)
    exact .when_used ((ofLocal_asks l .load).quietly (.when (.code _)))
  | call i r m as nv hr has =>
    have hcall (use : Use) :=
      ofCall_asks (outlineOption_asks hr) m (outlineList_asks has) nv use
    exact .alike (fun _ => hcall _) fun _ => hcall _
  | duplicate i mode =>
    refine .alike (fun used => ?_) fun _ => .duplicate
    exact .when (.skip .duplicate (.skip (.when (.code _)) (.popUnless used)))
  | field i r f b hr =>
    have hr := outlineOption_asks hr
    exact .assignable (ofFieldLoad_asks hr f) (ofFieldLocate_asks hr f) (ofFieldTarget_asks hr f)
  | sequence i ls es v hes hv =>
    have hstart : (ofStart env ls (Expr.outlineList env es)).Asks _ :=
      ofStart_asks ls (outlineList_asks hes)
    exact .make (fun used => hstart.seq (hv.value used)) fun kind => hstart.seq (hv.address kind)
  | assign i l r isRef hl hr =>
    have hassign (use : Use) : (ofAssign env (l.outline env) (r.outline env) isRef use).Asks _ :=
      ofAssign_asks hl hr isRef use
    exact .alike (fun _ => hassign _) fun _ => hassign _
  | heldReceiver i => exact .alike (fun used => .popUnless used) fun _ => .nothing
  | eitherReceiver i v r hv hr =>
    exact .make (fun used => .choice .constant (hr.value used) (hv.value used)) fun kind =>
      .choice .constant (hr.address kind) (hv.receiver kind)
  | conditional i t c a isRef ht hc ha =>
    exact .make (fun used => .choice (ht.value true) (ha.value used) (hc.value used)) fun kind =>
      .choice (ht.value true) (ha.address kind) (hc.address kind)
  | convert i p c hp => exact .make (ofConvert_asks hp c) fun _ => .fail _
  | delegate i r m nv hr =>
    exact .make (ofDelegate_asks (outlineOption_asks hr) i.ty m nv) fun _ => .fail _
  | stackalloc i elem n es hn hes =>
    exact .make (ofBlock_asks elem hn (outlineList_asks hes)) fun _ => .fail _

end Outline

namespace Step

open Emit Outline

theorem asks (env : Env) (step : Step) : (step.script env).Asks (step.mentions env) := by
  have hoption {o : Option Expr} := outlineOption_asks fun e (_ : e ∈ o) => Outline.asks env e
  have hlist {es : List Expr} := outlineList_asks fun e (_ : e ∈ es) => Outline.asks env e
  cases step with
  | value e used => exact (Outline.asks env e).value used
  | address e kind => exact (Outline.asks env e).address kind
  | call receiver m args nonVirtual use span => exact ofCall_asks hoption m hlist nonVirtual use
  | convert info operand c used => exact ofConvert_asks (Outline.asks env operand) c used
  | convertPushed => exact .remake
  | delegate info receiver m nonVirtual used => exact ofDelegate_asks hoption info.ty m _ used
  | stackalloc elem count inits used span =>
    exact ofBlock_asks elem (Outline.asks env count) hlist used
  | hasHome | keepOnStack | isResident | slotOf => exact .nothing

theorem visits (env : Env) (step : Step) : Visits (step.mentions env) (step.emit env) := by
  by_cases h : ∃ id, step = .slotOf id
  · obtain ⟨id, rfl⟩ := h
    exact .still fun s => ⟨_, s, rfl, rfl⟩
  · have hruns : Runs env (.only fun _ => True) [] (step.script env) (step.emit env)
        Answer.slots := runs (fun _ => trivial) trivial fun id hid => h ⟨id, hid⟩
    exact (hruns True).visits (step.asks env)

end Step

end TypedStack
