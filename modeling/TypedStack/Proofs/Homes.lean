import TypedStack.Proofs.WriteProtection

/-! Paths. The home of a field of a value depends on the home of that value, and so on along the
path that leads to a place. What the rules say of the outermost node and what emission asks of each
node on the path fit together: a value on the path is copied only where it has no home at all. -/
namespace TypedStack

namespace Surroundings

variable {s : Surroundings}

/-- A call through an address may write, so it asks for what a write asks for. -/
theorem hasHome_constrained (s : Surroundings) (e : Expr) :
    s.hasHome e .constrained = s.hasHome e .writable := by
  induction e using Expr.tree_induction with
  | field i r f b ih =>
    have hr : ∀ kind, s.hasHome (.field i r f b) kind = s.fieldHasHome r
        (fun kind => r.any fun x => s.hasHome x kind) f b kind := fun _ => hasHome_field
    have hany : (r.any fun x => s.hasHome x .constrained) =
        r.any fun x => s.hasHome x .writable := by
      cases r with
      | none => rfl
      | some x => exact ih x rfl
    rw [hr, hr]
    simp only [fieldHasHome, hany]
    rfl
  | sequence i ls es v _ ih => exact ih
  | conditional i t c a isRef _ ihc iha => simp only [hasHome_conditional, ihc, iha]
  | _ => rfl

theorem hasHome_readonlyStrict (hs : s.compat = false) (e : Expr) :
    s.hasHome e .readonlyStrict = s.hasHome e .readonly := by
  induction e using Expr.tree_induction with
  | element i a x => simp [hasHome_element, hs]
  | field i r f b => simp [hasHome_field, fieldHasHome, hs]
  | sequence i ls es v _ ih => exact ih
  | conditional i t c a isRef _ ihc iha => simp only [hasHome_conditional, ihc, iha]
  | _ => rfl

end Surroundings

namespace Expr

/-- The nodes that an address leads through: from a field of a value to that value, to the value
of a sequence, and to both sides of a choice between references. -/
def path : Expr → List Expr
  | .field i (some r) f byValue =>
    .field i (some r) f byValue :: if f.isStatic || !r.ty.isValueType then [] else r.path
  | .sequence i locals effects value => .sequence i locals effects value :: value.path
  | .conditional i condition consequence alternative true =>
    .conditional i condition consequence alternative true :: (consequence.path ++ alternative.path)
  | e => [e]

theorem mem_path (e : Expr) : e ∈ e.path := by
  unfold path
  split <;> exact List.mem_cons_self

end Expr

/-! ### Emission that tells what it copies -/

/-- Emission of a node that also tells which nodes on the path it copied to temporaries. -/
structure Watched where
  value : (used : Bool) → Emit (List Expr)
  address : AddressKind → Emit (Option Slot × List Expr)

namespace Watched

open Emit

/-- A node is copied where an address is asked for that it has no home for. -/
def make (env : Env) (e : Expr) (load : Bool → Emit (List Expr))
    (locate : AddressKind → Emit (Option Slot × List Expr)) : Watched :=
  let value used :=
    match e.constant with
    | some c => do
      when used (constant c e.ty e.span)
      return []
    | none => load used
  let address kind := do
    assert env (env.asserted e kind)
    if env.hasHome e kind then locate kind
    else
      let copied ← value true
      let temp ← spill e.ty (pure ())
      return (temp, copied ++ [e])
  { value, address }

def last (env : Env) (e : Expr) : Watched where
  value used := do
    (e.plan env).value used
    return []
  address kind := do
    let temp ← (e.plan env).address kind
    return (temp, if env.hasHome e kind then [] else [e])

def fieldSource (env : Env) (r : Expr) (w : Watched) : Emit (Option Slot × List Expr) := do
  assert env (env.asserted r .readonly)
  if env.hasHome r .readonly then w.address .readonly
  else
    let copied ← w.value true
    return (none, copied)

/-- Of a value, that is. -/
def fieldLoad (env : Env) (r : Expr) (w : Watched) (f : Field) (used : Bool) :
    Emit (List Expr) :=
  if !used then w.value false
  else do
    let (temp, copied) ← fieldSource env r w
    instr (.field .load f)
    temp.forM free
    when f.mode.isByRef (loadThrough f.ty)
    return copied

def fieldLocate (w : Watched) (f : Field) (kind : AddressKind) :
    Emit (Option Slot × List Expr) := do
  let (temp, copied) ← w.address (fieldReceiverKind kind)
  instr (.field (fieldAccess f) f)
  return (temp, copied)

def conditionalLoad (condition : Plan) (consequence alternative : Watched) (used : Bool) :
    Emit (List Expr) := do
  let (a, c) ← branch used (condition.value true) (alternative.value used) (consequence.value used)
  return a ++ c

def conditionalLocate (condition : Plan) (consequence alternative : Watched)
    (kind : AddressKind) : Emit (Option Slot × List Expr) := do
  let (a, c) ← branch true (condition.value true) (alternative.address kind)
    (consequence.address kind)
  a.1.forM retire
  c.1.forM retire
  return (none, a.2 ++ c.2)

end Watched

namespace Watched

open Emit

variable {env : Env}

structure Erases (w : Watched) (p : Plan) : Prop where
  value : ∀ used, (fun _ => ()) <$> w.value used = p.value used
  address : ∀ kind, Prod.fst <$> w.address kind = p.address kind

theorem spill_map {α : Type} (ty : Ty) (value : Emit α) :
    spill ty ((fun _ => ()) <$> value) = value >>= fun _ => spill ty (pure ()) := by
  simp [spill]

theorem map_branch {α β : Type} (f : α → β) (leaves : Bool) (test : Emit Unit)
    (other taken : Emit α) :
    (fun r => (f r.1, f r.2)) <$> branch leaves test other taken =
      branch leaves test (f <$> other) (f <$> taken) := by
  simp [branch]

namespace Erases

theorem make {e : Expr} {load : Bool → Emit Unit} {locate : AddressKind → Emit (Option Slot)}
    {load' : Bool → Emit (List Expr)} {locate' : AddressKind → Emit (Option Slot × List Expr)}
    (hl : ∀ used, (fun _ => ()) <$> load' used = load used)
    (ha : ∀ kind, Prod.fst <$> locate' kind = locate kind) :
    (Watched.make env e load' locate').Erases (.make env e load locate) := by
  have hv : ∀ used, (fun _ => ()) <$> (Watched.make env e load' locate').value used =
      valueOf e.info load used := by
    intro used
    unfold Watched.make valueOf
    change _ <$> (match e.constant with
      | some c => _
      | none => load' used) = (match e.constant with
      | some c => _
      | none => _)
    cases e.constant with
    | none => exact hl used
    | some c => simp; rfl
  refine ⟨hv, fun kind => ?_⟩
  change Prod.fst <$> (assert env (env.asserted e kind) >>= fun _ =>
      if env.hasHome e kind then locate' kind else _) =
    (assert env (env.asserted e kind) >>= fun _ =>
      if env.hasHome e kind then locate kind else spill e.ty (valueOf e.info load true))
  rw [map_bind]
  refine bind_congr fun _ => ?_
  split
  · exact ha kind
  · rw [← hv true, spill_map]
    simp
    rfl

theorem last (e : Expr) : (Watched.last env e).Erases (e.plan env) :=
  ⟨fun used => by simp [Watched.last], fun kind => by simp [Watched.last]⟩

variable {w : Watched} {r : Expr}

theorem fieldSource (hw : w.Erases (r.plan env)) (hr : r.ty.isVerifierReference = false) :
    Prod.fst <$> Watched.fieldSource env r w = Emit.fieldSource env (r.plan env) := by
  unfold Watched.fieldSource Emit.fieldSource
  rw [Expr.plan_ty, Expr.plan_expr, hr, map_bind]
  refine bind_congr fun _ => ?_
  cases env.hasHome r .readonly with
  | true => exact hw.address .readonly
  | false =>
    rw [← hw.value true]
    simp

theorem fieldLoad (hw : w.Erases (r.plan env)) (hr : r.ty.isVerifierReference = false)
    (i : Info) {f : Field} (hf : f.isStatic = false) (used : Bool) :
    (fun _ => ()) <$> Watched.fieldLoad env r w f used =
      Emit.fieldLoad env i (some (r.plan env)) f used := by
  have hplan : Emit.fieldLoad env i (some (r.plan env)) f used =
      instanceFieldLoad env (r.plan env) f used := by
    unfold Emit.fieldLoad
    rw [hf]
    rfl
  rw [hplan]
  unfold Watched.fieldLoad instanceFieldLoad
  rw [Expr.plan_ty, hr]
  cases used with
  | false => exact hw.value false
  | true =>
    rw [← fieldSource hw hr]
    simp [Emit.popUnless, Emit.when]

theorem fieldLocate (hw : w.Erases (r.plan env)) (hr : r.ty.isVerifierReference = false)
    (i : Info) {f : Field} (hf : f.isStatic = false) (kind : AddressKind) :
    Prod.fst <$> Watched.fieldLocate w f kind =
      Emit.fieldLocate i (some (r.plan env)) f kind := by
  have hreceiver : (r.plan env).receiver (fieldReceiverKind kind) =
      (r.plan env).address (fieldReceiverKind kind) := by
    unfold Plan.receiver
    rw [Expr.plan_ty, hr]
    rfl
  unfold Watched.fieldLocate Emit.fieldLocate
  simp [hf, hreceiver, ← hw.address]

variable {c a : Watched} {t pc pa : Plan}

theorem conditionalLoad (hc : c.Erases pc) (ha : a.Erases pa) (used : Bool) :
    (fun _ => ()) <$> Watched.conditionalLoad t c a used = Emit.conditionalLoad t pc pa used := by
  unfold Watched.conditionalLoad Emit.conditionalLoad
  rw [← hc.value, ← ha.value, ← map_branch, discard_eq]
  simp

theorem conditionalLocate (hc : c.Erases pc) (ha : a.Erases pa) (kind : AddressKind) :
    Prod.fst <$> Watched.conditionalLocate t c a kind = Emit.conditionalLocate t pc pa kind := by
  unfold Watched.conditionalLocate Emit.conditionalLocate
  rw [← hc.address, ← ha.address, ← map_branch]
  simp

end Erases

end Watched

namespace Emit

variable {α β : Type} {env : Env}

/-- What the emission returns, if it goes through. -/
def Returns (m : Emit α) (Q : α → Prop) : Prop := ∀ ⦃s a t⦄, m s = .ok a t → Q a

namespace Returns

variable {Q : α → Prop} {R : β → Prop}

theorem pure {a : α} (h : Q a) : Returns (pure a : Emit α) Q :=
  fun _ _ _ hm => (pure_ok.mp hm).1 ▸ h

theorem fail (fault : Fault) (span : Span) : Returns (fail fault span : Emit α) Q :=
  fun _ _ _ hm => absurd hm fail_not_ok

theorem mono {m : Emit α} {Q' : α → Prop} (h : Returns m Q) (hQ : ∀ a, Q a → Q' a) :
    Returns m Q' := fun _ a _ hm => hQ a (h hm)

theorem bind {m : Emit α} {k : α → Emit β} (hm : Returns m Q) (hk : ∀ a, Q a → Returns (k a) R) :
    Returns (m >>= k) R := by
  intro s b u h
  obtain ⟨a, t, hmt, hkt⟩ := bind_ok h
  exact hk a (hm hmt) hkt

/-- Only the last part matters. -/
theorem skip {m : Emit α} {k : α → Emit β} (hk : ∀ a, Returns (k a) R) : Returns (m >>= k) R :=
  bind (Q := fun _ => True) (fun _ _ _ _ => trivial) fun a _ => hk a

theorem branch {leaves : Bool} {test : Emit Unit} {other taken : Emit α} (ho : Returns other Q)
    (hk : Returns taken Q) : Returns (branch leaves test other taken) fun r => Q r.1 ∧ Q r.2 := by
  intro s r t h
  obtain ⟨u, v, w, -, hv, hw, -⟩ := branch_ok h
  exact ⟨ho hv, hk hw⟩

end Returns

end Emit

namespace Watched

open Emit

variable {env : Env}

/-- All these nodes are on the path and have no home, not even to be read. -/
def Homeless (env : Env) (e : Expr) (copied : List Expr) : Prop :=
  ∀ n ∈ copied, n ∈ e.path ∧ env.hasHome n .readonly = false

theorem Homeless.nil (e : Expr) : Homeless env e [] := fun _ hn => nomatch hn

theorem Homeless.append {e : Expr} {c c' : List Expr} (h : Homeless env e c)
    (h' : Homeless env e c') : Homeless env e (c ++ c') := by
  intro n hn
  rcases List.mem_append.mp hn with hn | hn
  · exact h n hn
  · exact h' n hn

/-- Only nodes without a home are copied, and a temporary is handed over only for a copy. -/
structure Careful (env : Env) (e : Expr) (w : Watched) : Prop where
  value : ∀ used, Returns (w.value used) (Homeless env e)
  address : ∀ kind, env.hasHome e kind = true ∨ env.hasHome e .readonly = false →
    Returns (w.address kind) fun r => Homeless env e r.2 ∧ (r.2 = [] → r.1 = none)

namespace Careful

variable {e : Expr}

theorem last (h : ∀ kind, env.hasHome e kind = true →
    Returns ((e.plan env).address kind) fun temp => temp = none) :
    Careful env e (.last env e) := by
  constructor
  · intro used
    exact .skip fun _ => .pure (.nil e)
  · intro kind hhome
    by_cases hk : env.hasHome e kind = true
    · refine (h kind hk).bind fun temp htemp => .pure ?_
      simp [hk, htemp, Homeless.nil]
    · refine .skip fun temp => .pure ?_
      have hread : env.hasHome e .readonly = false := hhome.resolve_left hk
      simp [hk, Homeless, hread, e.mem_path]

theorem make {load : Bool → Emit (List Expr)}
    {locate : AddressKind → Emit (Option Slot × List Expr)}
    (hl : ∀ used, Returns (load used) (Homeless env e))
    (ha : ∀ kind, env.hasHome e kind = true →
      Returns (locate kind) fun r => Homeless env e r.2 ∧ (r.2 = [] → r.1 = none)) :
    Careful env e (.make env e load locate) := by
  have hv : ∀ used, Returns ((Watched.make env e load locate).value used) (Homeless env e) := by
    intro used
    dsimp only [Watched.make]
    split
    · exact .skip fun _ => .pure (.nil e)
    · exact hl used
  refine ⟨hv, fun kind hhome => .skip fun _ => ?_⟩
  split
  · exact ha kind ‹_›
  · rename_i hk
    have hread : env.hasHome e .readonly = false := hhome.resolve_left (by simpa using hk)
    refine (hv true).bind fun copied hcopied => .skip fun temp => .pure ⟨?_, by simp⟩
    refine hcopied.append fun n hn => ?_
    obtain rfl := List.mem_singleton.mp hn
    exact ⟨n.mem_path, hread⟩

variable {w : Watched} {r : Expr} {f : Field}

theorem fieldLoad (hw : Careful env r w) (used : Bool) :
    Returns (Watched.fieldLoad env r w f used) (Homeless env r) := by
  have hsource : Returns (Watched.fieldSource env r w) fun x => Homeless env r x.2 := by
    refine .skip fun _ => ?_
    split
    · intro s x t hx
      exact (hw.address .readonly (.inl ‹_›) hx).1
    · exact (hw.value true).bind fun copied hcopied => .pure hcopied
  unfold Watched.fieldLoad
  split
  · exact hw.value false
  · exact hsource.bind fun x hx => .skip fun _ => .skip fun _ => .skip fun _ => .pure hx

theorem fieldLocate (hw : Careful env r w) {kind : AddressKind}
    (hr : env.hasHome r (fieldReceiverKind kind) = true ∨ env.hasHome r .readonly = false) :
    Returns (Watched.fieldLocate w f kind) fun x =>
      Homeless env r x.2 ∧ (x.2 = [] → x.1 = none) :=
  (hw.address _ hr).bind fun _ hx => .skip fun _ => .pure hx

end Careful

end Watched

end TypedStack
