import TypedStack.Emit.Tree

/-! Expression trees as a whole: induction over them, and their nodes, each with whether its
value is used. -/
namespace TypedStack

theorem Emit.valueOf_none {i : Info} (h : i.constant = none) (load : Bool → Emit Unit) :
    valueOf i load = load := by
  funext used
  rw [valueOf, h]

namespace Expr

/-- Induction over trees; operands in options and lists have their hypothesis too. -/
@[elab_as_elim]
theorem tree_induction {P : Expr → Prop}
    (literal : ∀ i, P (.literal i))
    (element : ∀ i array index, P array → P index → P (.element i array index))
    (deref : ∀ i pointer, P pointer → P (.deref i pointer))
    (typedRef : ∀ i operand, P operand → P (.typedRef i operand))
    (this : ∀ i, P (.this i))
    (throw : ∀ i exception, P exception → P (.throw i exception))
    (param : ∀ i p, P (.param i p))
    (localVar : ∀ i l, P (.localVar i l))
    (call : ∀ i receiver m args nonVirtual, (∀ r ∈ receiver, P r) → (∀ a ∈ args, P a) →
      P (.call i receiver m args nonVirtual))
    (duplicate : ∀ i mode, P (.duplicate i mode))
    (field : ∀ i receiver f byValue, (∀ r ∈ receiver, P r) → P (.field i receiver f byValue))
    (sequence : ∀ i locals effects value, (∀ x ∈ effects, P x) → P value →
      P (.sequence i locals effects value))
    (assign : ∀ i left right isRef, P left → P right → P (.assign i left right isRef))
    (heldReceiver : ∀ i, P (.heldReceiver i))
    (eitherReceiver : ∀ i value reference, P value → P reference →
      P (.eitherReceiver i value reference))
    (conditional : ∀ i condition consequence alternative isRef, P condition → P consequence →
      P alternative → P (.conditional i condition consequence alternative isRef))
    (convert : ∀ i operand c, P operand → P (.convert i operand c))
    (delegate : ∀ i receiver m nonVirtual, (∀ r ∈ receiver, P r) →
      P (.delegate i receiver m nonVirtual))
    (stackalloc : ∀ i elem count inits, P count → (∀ x ∈ inits, P x) →
      P (.stackalloc i elem count inits)) (e : Expr) : P e := by
  refine @Expr.rec P (fun o => ∀ e ∈ o, P e) (fun es => ∀ e ∈ es, P e) literal element deref
    typedRef this throw param localVar call duplicate field sequence assign heldReceiver
    eitherReceiver conditional convert delegate stackalloc ?_ ?_ ?_ ?_ e
  · intro e he
    cases he
  · intro e ih x hx
    cases hx
    exact ih
  · intro e he
    cases he
  · intro e es ih ihs x hx
    rcases List.mem_cons.mp hx with rfl | hx
    · exact ih
    · exact ihs x hx

theorem planOption_eq (env : Env) (o : Option Expr) : planOption env o = o.map (plan env) := by
  cases o <;> rfl

theorem planList_eq (env : Env) (es : List Expr) : planList env es = es.map (plan env) := by
  induction es with
  | nil => rfl
  | cons e es ih => simp [planList, ih]

theorem forall_planList {env : Env} {es : List Expr} {P : Plan → Prop} :
    (∀ p ∈ planList env es, P p) ↔ ∀ e ∈ es, P (e.plan env) := by
  rw [planList_eq]
  simp

@[simp] theorem plan_expr (env : Env) (e : Expr) : (e.plan env).expr = e := by
  cases e <;> rfl

@[simp] theorem plan_ty (env : Env) (e : Expr) : (e.plan env).ty = e.ty := by
  simp [Plan.ty]

/-- A constant is loaded as such, whatever the node is, and only where its value is used. -/
theorem plan_value_constant {env : Env} {e : Expr} {c : Constant} (h : e.constant = some c) :
    (e.plan env).value = fun used => Emit.when used (Emit.constant c e.ty e.span) := by
  obtain ⟨load, hload⟩ : ∃ load, (e.plan env).value = Emit.valueOf e.info load := by
    cases e <;> exact ⟨_, rfl⟩
  have h : e.info.constant = some c := h
  funext used
  rw [hload, Emit.valueOf, h]
  rfl

@[simp] theorem map_plan_expr (env : Env) (es : List Expr) :
    (es.map (plan env)).map Plan.expr = es := by
  simp [Function.comp_def]

/-- The operands of a node, each with whether its value is used. Where the node itself is not
used, nothing is loaded from a value, a conversion that cannot fail is left out, and branches,
entries and the last part of a sequence are not used either. -/
def parts (used : Bool) : Expr → List (Expr × Bool)
  | literal _ | this _ | param .. | localVar .. | duplicate .. | heldReceiver _ => []
  | element _ array index => [(array, true), (index, true)]
  | deref _ operand | typedRef _ operand | throw _ operand => [(operand, true)]
  | call _ receiver _ args _ => (receiver.toList ++ args).map fun e => (e, true)
  | field _ receiver _ _ =>
    receiver.toList.map fun r => (r, used || r.ty.isVerifierReference)
  | sequence _ _ effects value => effects.map (fun e => (e, false)) ++ [(value, used)]
  | assign _ left right _ => [(left, true), (right, true)]
  | eitherReceiver _ value reference => [(value, used), (reference, used)]
  | conditional _ condition consequence alternative _ =>
    [(condition, true), (consequence, used), (alternative, used)]
  | convert _ operand c => [(operand, used || c.hasEffect)]
  | delegate _ receiver _ _ => receiver.toList.map fun r => (r, used)
  | stackalloc _ _ count inits => (count, true) :: inits.map fun e => (e, used)

theorem parts_fst (e : Expr) (used used' : Bool) :
    (e.parts used).map Prod.fst = (e.parts used').map Prod.fst := by
  cases e <;> simp [parts, Function.comp_def]

/-- `Node e used n u`: `n` is a node of `e`, and where `e` is used or not as `used` says, the
value of `n` is used as `u` says. -/
inductive Node : Expr → Bool → Expr → Bool → Prop where
  | self (e used) : Node e used e used
  | part {e used c v n u} : (c, v) ∈ e.parts used → Node c v n u → Node e used n u

theorem Node.trans {e n m : Expr} {used u v : Bool} (h : Node e used n u) (h' : Node n u m v) :
    Node e used m v := by
  induction h with
  | self => exact h'
  | part hc _ ih => exact .part hc (ih h')

def Every (P : Expr → Bool → Prop) (e : Expr) (used : Bool) : Prop :=
  ∀ n u, Node e used n u → P n u

variable {P : Expr → Bool → Prop} {e : Expr} {used : Bool}

theorem Every.here (h : e.Every P used) : P e used := h e used (.self e used)

theorem Every.part (h : e.Every P used) {c v} (hc : (c, v) ∈ e.parts used) : c.Every P v :=
  fun n u hn => h n u (.part hc hn)

theorem every_iff : e.Every P used ↔ P e used ∧ ∀ c ∈ e.parts used, c.1.Every P c.2 := by
  constructor
  · exact fun h => ⟨h.here, fun c hc => h.part hc⟩
  · rintro ⟨he, hp⟩ n u hn
    cases hn with
    | self => exact he
    | part hc hn => exact hp _ hc n u hn

def All (P : Expr → Prop) (e : Expr) : Prop := e.Every (fun n _ => P n) true

/-- Which nodes a tree has does not depend on how it is used. -/
theorem Node.any {n : Expr} {u : Bool} (h : Node e used n u) (used' : Bool) :
    ∃ u', Node e used' n u' := by
  induction h generalizing used' with
  | self e => exact ⟨used', .self e used'⟩
  | @part e used c v n u hc _ ih =>
    have hfst : c ∈ (e.parts used').map Prod.fst := by
      rw [e.parts_fst used' used]
      exact List.mem_map_of_mem hc
    obtain ⟨⟨_, v'⟩, hc', rfl⟩ := List.mem_map.mp hfst
    obtain ⟨u', hn⟩ := ih v'
    exact ⟨u', .part hc' hn⟩

namespace All

variable {P : Expr → Prop}

theorem here (h : e.All P) : P e := Every.here h

theorem part (h : e.All P) {c} (hc : c ∈ (e.parts true).map Prod.fst) : c.All P := by
  intro n u hn
  obtain ⟨⟨_, v⟩, hpart, rfl⟩ := List.mem_map.mp hc
  obtain ⟨u', hn'⟩ := hn.any v
  exact h n u' (.part hpart hn')

end All

end Expr

end TypedStack
