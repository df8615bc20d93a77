import TypedStack.Proofs.Processor
import TypedStack.Proofs.Requests

/-! What expressions over integers mean: a number, and a change of the variables. The variables of
an expression lie in cells of the processor, and a state of the one shows a store of the other. -/
namespace TypedStack

inductive Variable where
  | localVar (id : LocalId)
  | arg (index : Nat)
  | static (f : Field)
  deriving DecidableEq

abbrev Store := Variable → Int

/-- Where an evaluation stops, what it has written so far stays. -/
abbrev Eval := EStateM Halt Store

namespace Eval

def read : Option Variable → Eval Int
  | some v => do return (← get) v
  | none => throw .undefined

def write : Option Variable → Int → Eval Int
  | some v, z => do
    modify fun σ u => if u = v then z else σ u
    return z
  | none, _ => throw .undefined

def ofResult : Option Int → Eval Int
  | some z => return z
  | none => throw .overflow

def convert (W : WordSize) (c : Conversion) (ty : Ty) (z : Int) : Eval Int :=
  match c.kind, ty.primitive? with
  | .identity, _ => return z
  | .implicitNumeric, some p | .explicitNumeric, some p => ofResult (p.convert W c.checked z)
  | _, _ => throw .undefined

/-- A node that was folded is the number it was folded to. -/
def folded (i : Info) (m : Eval Int) : Eval Int :=
  match i.constant with
  | none => m
  | some c =>
    match c.number? with
    | some z => return z
    | none => throw .undefined

theorem convert_identity {W : WordSize} {c : Conversion} (h : c.kind = .identity) (ty : Ty) :
    convert W c ty = pure := by
  funext z
  rw [convert, h]

theorem convert_numeric {W : WordSize} {c : Conversion} {ty : Ty} {p : Prim}
    (h : c.kind = .implicitNumeric ∨ c.kind = .explicitNumeric) (hp : ty.primitive? = some p) :
    convert W c ty = fun z => ofResult (p.convert W c.checked z) := by
  funext z
  rcases h with h | h <;> rw [convert, h, hp]

theorem folded_none {i : Info} (h : i.constant = none) (m : Eval Int) : folded i m = m := by
  rw [folded, h]

variable {γ δ : Type} {m : Eval γ} {k : γ → Eval δ} {σ τ : Store}

theorem bind_of_ok {a : γ} (h : m σ = .ok a τ) : (m >>= k) σ = k a τ := by
  change EStateM.bind m k σ = _
  rw [EStateM.bind, h]

theorem bind_of_error {halt : Halt} (h : m σ = .error halt τ) :
    (m >>= k) σ = .error halt τ := by
  change EStateM.bind m k σ = _
  rw [EStateM.bind, h]

end Eval

namespace Expr

/-- The variable that an expression names: a local with a slot, an argument or a static field, held
by value. -/
def names? (env : Env) : Expr → Option Variable
  | localVar _ l => if l.mode.isByRef || env.isResident l.id then none else some (.localVar l.id)
  | param _ p => if p.mode.isByRef then none else some (.arg (env.method.argument p))
  | field _ _ f _ => if f.isStatic && !f.mode.isByRef then some (.static f) else none
  | _ => none

theorem names_cases {env : Env} {e : Expr} {v : Variable} (h : e.names? env = some v) :
    (∃ i l, e = .localVar i l ∧ l.mode.isByRef = false ∧ env.isResident l.id = false ∧
      v = .localVar l.id) ∨
    (∃ i p, e = .param i p ∧ p.mode.isByRef = false ∧ v = .arg (env.method.argument p)) ∨
    (∃ i r f b, e = .field i r f b ∧ f.isStatic = true ∧ f.mode.isByRef = false ∧
      v = .static f) := by
  cases e with
  | localVar i l =>
    simp only [names?, Option.ite_none_left_eq_some, Bool.or_eq_true, not_or,
      Bool.not_eq_true, Option.some.injEq] at h
    exact .inl ⟨i, l, rfl, h.1.1, h.1.2, h.2.symm⟩
  | param i p =>
    simp only [names?, Option.ite_none_left_eq_some, Bool.not_eq_true, Option.some.injEq] at h
    exact .inr (.inl ⟨i, p, rfl, h.1, h.2.symm⟩)
  | field i r f b =>
    simp only [names?, Option.ite_none_right_eq_some, Bool.and_eq_true, Bool.not_eq_true',
      Option.some.injEq] at h
    exact .inr (.inr ⟨i, r, f, b, rfl, h.1.1, h.1.2, h.2.symm⟩)
  | _ => cases h

mutual

def eval (W : WordSize) (env : Env) : Expr → Eval Int
  | sequence i _ effects value =>
    .folded i (evalAll W env effects >>= fun _ => value.eval W env)
  | conditional i condition consequence alternative false =>
    .folded i (condition.eval W env >>= fun z =>
      if z = 0 then alternative.eval W env else consequence.eval W env)
  | assign i left right false => .folded i (right.eval W env >>= .write (left.names? env))
  | convert i operand c => .folded i (operand.eval W env >>= .convert W c i.ty)
  | e => .folded e.info (.read (e.names? env))

def evalAll (W : WordSize) (env : Env) : List Expr → Eval Unit
  | [] => pure ()
  | e :: es => e.eval W env >>= fun _ => evalAll W env es

end

theorem eval_of_names {W : WordSize} {env : Env} {e : Expr} {v : Variable}
    (h : e.names? env = some v) : e.eval W env = .folded e.info (.read (some v)) := by
  rcases names_cases h with ⟨i, l, rfl, -⟩ | ⟨i, p, rfl, -⟩ | ⟨i, r, f, b, rfl, -⟩ <;>
    rw [eval, h] <;> simp

theorem eval_of_constant {W : WordSize} {env : Env} {e : Expr} {c : Constant} {z : Int}
    (hc : e.constant = some c) (hz : c.number? = some z) : e.eval W env = pure z := by
  have hfolded (m : Eval Int) : Eval.folded e.info m = pure z := by
    have hc : e.info.constant = some c := hc
    simp [Eval.folded, hc, hz]
  cases e with
  | conditional i t a b isRef | assign i l r isRef =>
    cases isRef <;> simpa [eval, info] using hfolded _
  | _ => simpa [eval, info] using hfolded _

/-- Expressions over integers of fixed width whose variables have these types. -/
inductive Typed (W : WordSize) (env : Env) (types : Variable → Option Prim) : Expr → Prop where
  | constant {e c z p} : e.constant = some c → c.number? = some z → e.ty.primitive? = some p →
    p.isFixed → p.InRange W z → Typed W env types e
  | named {e v p} : e.constant = none → e.names? env = some v → types v = some p →
    e.ty.primitive? = some p → p.isFixed → Typed W env types e
  | sequence {i locals effects value} : i.constant = none →
    (∀ e ∈ effects, Typed W env types e) → Typed W env types value →
    i.ty.primitive? = value.ty.primitive? →
    Typed W env types (.sequence i locals effects value)
  | conditional {i condition consequence alternative} : i.constant = none →
    Typed W env types condition → Typed W env types consequence →
    Typed W env types alternative → condition.ty.primitive? = some .bool →
    i.ty.primitive? = consequence.ty.primitive? → i.ty.primitive? = alternative.ty.primitive? →
    Typed W env types (.conditional i condition consequence alternative false)
  | assign {i left right v p} : i.constant = none → left.names? env = some v →
    types v = some p → Typed W env types right → right.ty.primitive? = some p →
    i.ty.primitive? = some p → Typed W env types (.assign i left right false)
  | identity {i operand c} : i.constant = none → c.kind = .identity →
    Typed W env types operand → i.ty.primitive? = operand.ty.primitive? →
    Typed W env types (.convert i operand c)
  | implicitNumeric {i operand c p q} : i.constant = none → c.kind = .implicitNumeric →
    Typed W env types operand → operand.ty.primitive? = some p → i.ty.primitive? = some q →
    q.isFixed → p.Within W q → Typed W env types (.convert i operand c)
  | explicitNumeric {i operand c q} : i.constant = none → c.kind = .explicitNumeric →
    Typed W env types operand → i.ty.primitive? = some q → q.isFixed →
    Typed W env types (.convert i operand c)

/-- Every expression has such a type itself. -/
theorem Typed.fixed {W : WordSize} {env : Env} {types : Variable → Option Prim} {e : Expr}
    (h : e.Typed W env types) : ∃ p, e.ty.primitive? = some p ∧ p.isFixed = true := by
  induction h with
  | constant _ _ hp hf => exact ⟨_, hp, hf⟩
  | named _ _ _ hp hf => exact ⟨_, hp, hf⟩
  | sequence _ _ _ hty _ ih => exact hty ▸ ih
  | conditional _ _ _ _ _ hty _ _ ih => exact hty ▸ ih
  | assign _ _ _ _ hr hty ih => exact (hr.trans hty.symm) ▸ ih
  | identity _ _ _ hty ih => exact hty ▸ ih
  | implicitNumeric _ _ _ _ hq hf => exact ⟨_, hq, hf⟩
  | explicitNumeric _ _ _ hq hf => exact ⟨_, hq, hf⟩

end Expr

structure Layout where
  types : Variable → Option Prim
  slots : SlotPool

namespace Layout

variable {W : WordSize} {L : Layout} {σ σ' σ'' : Store} {x y z : Cpu W} {v u : Variable} {c : Cell}

def cell? (L : Layout) : Variable → Option Cell
  | .localVar id => (L.slots.slotOf? id).map .slot
  | .arg n => some (.arg n)
  | .static f => some (.static f)

theorem cell_unique (hL : L.slots.Coherent) (hv : L.cell? v = some c) (hu : L.cell? u = some c) :
    v = u := by
  cases v with
  | localVar id =>
    obtain ⟨s, hs, rfl⟩ := Option.map_eq_some_iff.mp hv
    cases u with
    | localVar id' =>
      obtain ⟨s', hs', he⟩ := Option.map_eq_some_iff.mp hu
      cases he
      rw [hL.apart id id' _ hs hs']
    | arg | static => cases hu
  | arg n =>
    cases hv
    cases u with
    | localVar id => simp [cell?] at hu
    | arg | static => cases hu <;> rfl
  | static f =>
    cases hv
    cases u with
    | localVar id => simp [cell?] at hu
    | arg | static => cases hu <;> rfl

/-- The store is one of the types, and the processor has it in its cells. -/
structure Reflects (L : Layout) (σ : Store) (x : Cpu W) : Prop where
  inRange : ∀ v p, L.types v = some p → p.InRange W (σ v)
  cells : ∀ v p c, L.types v = some p → L.cell? v = some c → x.cells c = .ofInt p (σ v)

/-- From one store and state to another that reflect each other too. Variables without a cell and
cells without a variable stay as they were. -/
structure Follows (L : Layout) (σ : Store) (x : Cpu W) (σ' : Store) (y : Cpu W) : Prop
    extends L.Reflects σ' y where
  others : ∀ c, (∀ v, L.cell? v = some c → L.types v = none) → y.cells c = x.cells c
  kept : ∀ v, L.types v = none ∨ L.cell? v = none → σ' v = σ v

theorem Follows.trans (h : L.Follows σ x σ' y) (h' : L.Follows σ' y σ'' z) :
    L.Follows σ x σ'' z where
  toReflects := h'.toReflects
  others c hc := (h'.others c hc).trans (h.others c hc)
  kept v hv := (h'.kept v hv).trans (h.kept v hv)

/-- Only the cells matter. -/
theorem Reflects.follows (h : L.Reflects σ x) (hy : y.cells = x.cells) : L.Follows σ x σ y where
  inRange := h.inRange
  cells v p c ht hc := hy ▸ h.cells v p c ht hc
  others c _ := congrFun hy c
  kept _ _ := rfl

/-- A variable and its cell are written together. -/
theorem Reflects.store (hL : L.slots.Coherent) (h : L.Reflects σ x) {p : Prim} {n : Int}
    (ht : L.types v = some p) (hc : L.cell? v = some c) (hn : p.InRange W n)
    (st : List (Word W)) :
    L.Follows σ x (fun u => if u = v then n else σ u) (x.store c (.ofInt p n) st) := by
  have hcell {u : Variable} {d : Cell} (hu : L.cell? u = some d) : d = c ↔ u = v := by
    constructor
    · rintro rfl
      exact cell_unique hL hu hc
    · rintro rfl
      exact Option.some.inj (hu.symm.trans hc)
  refine ⟨⟨?_, ?_⟩, ?_, ?_⟩
  · intro u q hq
    by_cases hu : u = v
    · subst hu
      obtain rfl := Option.some.inj (ht.symm.trans hq)
      simpa using hn
    · simpa [hu] using h.inRange u q hq
  · intro u q d hq hd
    by_cases hu : u = v
    · subst hu
      obtain rfl := Option.some.inj (ht.symm.trans hq)
      simp [Cpu.store, (hcell hd).mpr rfl]
    · simpa [Cpu.store, hu, (hcell hd).not.mpr hu] using h.cells u q d hq hd
  · intro d hd
    have hne : d ≠ c := by
      rintro rfl
      exact nomatch ht.symm.trans (hd v hc)
    simp [Cpu.store, hne]
  · intro u hu
    have hne : u ≠ v := by
      rintro rfl
      simp [ht, hc] at hu
    simp [hne]

end Layout

end TypedStack
