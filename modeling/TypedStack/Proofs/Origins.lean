import TypedStack.Proofs.Outlines
import TypedStack.Proofs.Triples

/-! Where the entries of the stack come from. A machine that runs code on origins in place of
values tells of every address where it leads. It follows what is stored in slots, arguments and
fields. Fields are told apart by owner and name, not by the object they are in, and what callees
store is not followed. -/
namespace TypedStack

inductive Origin where
  /-- Made on the way; nothing else is known. -/
  | computed
  | constant
  /-- What an argument held when it was loaded. -/
  | argument (index : Nat) (content : Origin)
  | argumentPlace (index : Nat)
  | held (s : Slot) (content : Origin)
  | slotPlace (s : Slot)
  | staticHeld (f : Field) (content : Origin)
  | staticPlace (f : Field)
  | fieldHeld (f : Field) (base content : Origin)
  | fieldPlace (f : Field) (base : Origin)
  | result (m : Method)
  deriving DecidableEq

inductive Holder where
  | slot (s : Slot)
  | argument (index : Nat)
  | member (owner : Ty) (name : String)
  deriving DecidableEq

def Field.holder (f : Field) : Holder := .member f.owner f.name

namespace Instr

def reads? : Instr → Option Holder
  | arg .load n => some (.argument n)
  | slot .load s => some (.slot s)
  | staticField .load f | field .load f => some f.holder
  | _ => none

/-- What was held there is gone after the instruction. -/
def sets? : Instr → Option Holder
  | arg .store n => some (.argument n)
  | slot .store s => some (.slot s)
  | staticField .store f => some f.holder
  | _ => none

/-- The instruction may store there: in the field of some object, or wherever a reference leads. -/
def Reaches : Instr → Holder → Prop
  | field .store f, h => h = f.holder
  | stind _, _ => True
  | _, _ => False

theorem sets_none {i : Instr} (h : i.isStore = false) : i.sets? = none := by
  cases i with
  | arg access | slot access | staticField access => cases access <;> first | rfl | cases h
  | _ => rfl

theorem not_reaches {i : Instr} (hi : i.isStore = false) (h : Holder) : ¬ i.Reaches h := by
  cases i with
  | field access => cases access <;> first | exact id | cases hi
  | stind => cases hi
  | _ => exact id

end Instr

structure Tracked where
  stack : List Origin
  /-- What may be held, as far as it was stored on the way. -/
  holds : Holder → Origin → Prop

namespace Tracked

/-- Nothing was stored so far. -/
def Fresh (x : Tracked) : Prop := ∀ h o, ¬ x.holds h o

def top (x : Tracked) : Origin := x.stack.headD .computed

def below (x : Tracked) : Origin := (x.stack.drop 1).headD .computed

/-- The stack after an instruction that reads this content, if it reads any. -/
def push (x : Tracked) (content : Origin) : Instr → List Origin
  | .dup => x.top :: x.stack
  | .ldcI4 _ | .ldcI8 _ | .ldcR4 _ | .ldcR8 _ | .ldnull => .constant :: x.stack
  | .arg .load n => .argument n content :: x.stack
  | .arg .address n => .argumentPlace n :: x.stack
  | .slot .load s => .held s content :: x.stack
  | .slot .address s => .slotPlace s :: x.stack
  | .staticField .load f => .staticHeld f content :: x.stack
  | .staticField .address f => .staticPlace f :: x.stack
  | .field .load f => .fieldHeld f x.top content :: x.stack.drop 1
  | .field .address f => .fieldPlace f x.top :: x.stack.drop 1
  | .call m | .callvirt m =>
    (if m.returnsValue then [.result m] else []) ++ x.stack.drop m.inputs
  | i => List.replicate i.pushes .computed ++ x.stack.drop i.pops

def keep (x : Tracked) (i : Instr) (h : Holder) (o : Origin) : Prop :=
  if i.sets? = some h then o = x.top else x.holds h o ∨ (i.Reaches h ∧ o = x.top)

def after (x : Tracked) (content : Origin) (i : Instr) : Tracked := ⟨x.push content i, x.keep i⟩

/-- What the instruction may find where it reads. Others may have stored there. -/
def MayRead (x : Tracked) (i : Instr) (content : Origin) : Prop :=
  content = .computed ∨ ∃ h, i.reads? = some h ∧ x.holds h content

variable {x : Tracked} {o : Origin} {i : Instr} {h : Holder}

theorem keep_eq (hi : i.isStore = false) : x.keep i = x.holds := by
  funext h o
  simp [keep, Instr.sets_none hi, Instr.not_reaches hi]

/-- A store adds the entry on top, where it goes. -/
theorem keep_cases (ho : x.keep i h o) :
    x.holds h o ∨ (o = x.top ∧ (i.sets? = some h ∨ i.Reaches h)) := by
  unfold keep at ho
  split at ho
  · exact .inr ⟨ho, .inl ‹_›⟩
  · rcases ho with ho | ⟨hr, ho⟩
    · exact .inl ho
    · exact .inr ⟨ho, .inr hr⟩

end Tracked

def origins : Machine Tracked where
  next i x y := ∃ content, x.MayRead i content ∧ y = x.after content i
  jump i x y := ∃ content, x.MayRead i content ∧ y = x.after content i

theorem origins_transparent : origins.Transparent := by
  have hsame {x y : Tracked} {i : Instr} (hi : i.isStore = false)
      (hstack : ∀ content, x.push content i = x.stack)
      (h : ∃ content, x.MayRead i content ∧ y = x.after content i) : y = x := by
    obtain ⟨content, -, rfl⟩ := h
    rw [Tracked.after, hstack, Tracked.keep_eq hi]
  constructor
  · exact fun h => hsame rfl (fun _ => rfl) h
  · exact fun h => hsame rfl (fun _ => rfl) h

/-- A tree with what surrounds it, and the slots that its body ends up with. -/
structure Scope where
  env : Env
  tree : Expr
  slots : SlotPool

namespace Scope

def Has (k : Scope) (n : Expr) : Prop := ∃ used u, k.tree.Node used n u

/-- The receiver of a method that leaves it unchanged, passed by reference. -/
def ReadonlyThis (method : Enclosing) (ty : Ty) : Prop :=
  ty.isValueType = true ∧ ty.isReferenceType = false ∧ method.isReadonly = true

/-- All that the tree says of this argument is that it is only read through. -/
def ReadonlyArgument (k : Scope) (n : Nat) : Prop :=
  (∀ i p, k.Has (.param i p) → k.env.method.argument p = n →
    p.mode = .input ∨ p.mode = .refReadonlyParam) ∧
  ∀ i, k.Has (.this i) → n = 0 → ReadonlyThis k.env.method i.ty

/-- The slot of a local of the tree, and all that the tree says of it is that it is only read
through. -/
def ReadonlySlot (k : Scope) (s : Slot) : Prop :=
  (∃ i l, k.Has (.localVar i l) ∧ k.slots.slotOf? l.id = some s) ∧ ¬ k.slots.Temporary s ∧
  ∀ i l, k.Has (.localVar i l) → k.slots.slotOf? l.id = some s → l.mode = .refReadonly

/-- The receiver of the body, the copy made of one that must not change, or the constant that
stands for one that was folded. -/
def IsThis (k : Scope) : Origin → Prop
  | .constant => True
  | .argument n _ | .argumentPlace n => n = 0
  | .slotPlace s => k.env.method.isReadonly = true ∧ k.slots.Temporary s
  | _ => False

/-- The body constructs what the read-only field is in. -/
def Constructs (k : Scope) (f : Field) (base : Origin) : Prop :=
  f.owner = k.env.method.owner ∧
    (k.env.method.kind = .constructor ∨ k.env.method.kind = .initOnlyMutator) ∧ k.IsThis base

/-- Nothing may be written where this leads. What is held somewhere leads where it led when it was
stored. -/
def Protected (k : Scope) : Origin → Prop
  | .computed | .constant | .argumentPlace _ | .slotPlace _ => False
  | .argument n content => k.ReadonlyArgument n ∨ k.Protected content
  | .held s content => k.ReadonlySlot s ∨ k.Protected content
  | .staticHeld f content | .fieldHeld f _ content =>
    f.mode = .refReadonly ∨ k.Protected content
  | .staticPlace f => f.isConst = true ∨ (f.isReadonly = true ∧
      ¬ (f.owner = k.env.method.owner ∧ k.env.method.kind = .staticConstructor))
  | .fieldPlace f base => f.isConst = true ∨
      (f.isReadonly = true ∧ ¬ k.Constructs f base) ∨ k.Protected base
  | .result m => m.resultMode = .refReadonly

def Writable (k : Scope) (x : Tracked) : Prop := ¬ k.Protected x.top

variable {k : Scope} {x : Tracked}

theorem Has.part {e c : Expr} (h : k.Has e) (hc : c ∈ (e.parts true).map Prod.fst) :
    k.Has c := by
  obtain ⟨used, u, hn⟩ := h
  rw [e.parts_fst true u] at hc
  obtain ⟨⟨_, v⟩, hv, rfl⟩ := List.mem_map.mp hc
  exact ⟨used, v, hn.trans (.part hv (.self _ v))⟩

end Scope

namespace Emit

variable {α : Type} {k : Scope} {env : Env} {P : Tracked → Prop}

theorem instr_ends {i : Instr} {R : Tracked → Prop} (hi : i.isOrdinary)
    (h : ∀ x content, P x → x.MayRead i content → i.continues → R (x.after content i)) :
    Triple origins env k.slots P (instr i) fun _ => R := by
  refine .instr hi fun x y hx hc hy => ?_
  obtain ⟨content, hread, rfl⟩ := hy
  exact h x content hx hread hc

theorem choice_ends {leaves : Bool} {test : Emit Unit} {other taken : Emit α} {R : Tracked → Prop}
    (hP : ∀ {l x content}, P x → P (Tracked.after x content (.brtrue l)))
    (ht : Triple origins env k.slots P test fun _ => P)
    (ho : Triple origins env k.slots P other fun _ => R)
    (hk : α → Triple origins env k.slots P taken fun _ => R) :
    Triple origins env k.slots P (branch leaves test other taken) fun _ => R := by
  have hstep {l : Label} {x y : Tracked} (hx : P x)
      (h : ∃ content, x.MayRead (.brtrue l) content ∧ y = x.after content (.brtrue l)) : P y := by
    obtain ⟨content, -, rfl⟩ := h
    exact hP hx
  refine (Triple.branch origins_transparent ht hstep hstep ho hk).conseq (fun _ hx => hx) ?_
  exact fun _ _ hx => hx.elim id id

end Emit

end TypedStack
