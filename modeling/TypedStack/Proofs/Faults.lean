import TypedStack.Proofs.Outlines

/-! Internal errors. Emission fails only where a node of the tree has a fault by itself, so a tree
of well-formed nodes is emitted without one. A checked build stops on what it asserts besides. -/
namespace TypedStack

namespace Emit

variable {α β : Type} {env : Env} {P : Fault → Prop}

/-- Every failure is with one of these faults. -/
def FailsOnly (P : Fault → Prop) (m : Emit α) : Prop :=
  ∀ ⦃s f t⦄, m s = .error f t → P f.fault

namespace FailsOnly

theorem bind {m : Emit α} {k : α → Emit β} (hm : FailsOnly P m)
    (hk : ∀ s a t, m s = .ok a t → FailsOnly P (k a)) : FailsOnly P (m >>= k) := by
  intro s f t h
  rcases bind_error h with h | ⟨a, u, hu, h⟩
  · exact hm h
  · exact hk s a u hu h

/-- A step that always goes through. -/
theorem total {m : Emit α} (h : ∀ s, ∃ a t, m s = .ok a t) : FailsOnly P m := by
  intro s f t hf
  obtain ⟨a, u, hu⟩ := h s
  cases hu.symm.trans hf

theorem branch {leaves : Bool} {test : Emit Unit} {other taken : Emit α} (ht : FailsOnly P test)
    (ho : FailsOnly P other) (hk : α → FailsOnly P taken) :
    FailsOnly P (branch leaves test other taken) := by
  refine bind (total fun _ => ⟨_, _, rfl⟩) fun _ _ _ _ => ?_
  refine bind (total fun _ => ⟨_, _, rfl⟩) fun _ _ _ _ => ?_
  refine bind ht fun _ _ _ _ => ?_
  refine bind (total fun _ => ⟨_, _, rfl⟩) fun _ _ _ _ => ?_
  refine bind ho fun _ a _ _ => ?_
  refine bind (total fun _ => ⟨_, _, rfl⟩) fun _ _ _ _ => ?_
  refine bind (total fun _ => ?_) fun _ _ _ _ => ?_
  · cases leaves <;> exact ⟨_, _, rfl⟩
  refine bind (total fun _ => ⟨_, _, rfl⟩) fun _ _ _ _ => ?_
  refine bind (hk a) fun _ _ _ _ => ?_
  exact bind (total fun _ => ⟨_, _, rfl⟩) fun _ _ _ _ => total fun _ => ⟨_, _, rfl⟩

theorem succeeds {m : Emit α} (h : FailsOnly (fun _ => False) m) (s : State) :
    ∃ a t, m s = .ok a t := by
  cases hm : m s with
  | ok a t => exact ⟨a, t, rfl⟩
  | error f t => exact (h hm).elim

end FailsOnly

theorem Emits.failsOnly {given : Prop} {own : List Slot} {c : Script} {m : Emit α}
    {post : α → List Slot} (h : Emits env (.only P) given own c m post) : FailsOnly P m := by
  induction h with
  | pure a => exact .total fun _ => ⟨_, _, rfl⟩
  | bind_of _ _ ih ihk => exact .bind ih ihk
  | stand _ _ ih | list _ _ _ ih => exact ih
  | fail hf span =>
    rintro s f t ⟨⟩
    exact hf
  | throw counted => cases counted <;> exact .total fun _ => ⟨_, _, rfl⟩
  | instr | adjust | define | allocate | free | retire | report | copyBytes | copyThroughView =>
    exact .total fun _ => ⟨_, _, rfl⟩
  | keep ty byRef _ ih =>
    refine .bind (.total fun _ => ⟨_, _, rfl⟩) fun _ x _ _ => ?_
    exact .bind (.total fun _ => ⟨_, _, rfl⟩) fun _ _ _ _ => ih x
  | block hb => exact hb.elim
  | branch _ _ _ iht iho ihk => exact .branch iht iho ihk

theorem plan_fails (env : Env) {e : Expr} (h : e.All fun n => ∀ f, n.Defect env f → P f) :
    (∀ used, FailsOnly P ((e.plan env).value used)) ∧
      ∀ kind, FailsOnly P ((e.plan env).address kind) := by
  have hplan : PlanFollows env (.only P) (e.outline env) (e.plan env) :=
    plan_follows env fun n u hn => ⟨h n u hn, .inl trivial, .inl trivial⟩
  constructor
  · exact fun used => (hplan.emits_value used).failsOnly
  · exact fun kind => (hplan.emits_address kind).failsOnly

/-- A tree whose nodes are all well formed is emitted without an internal error, as a value that
is used or not and as an address of every kind, from every state and whatever surrounds it. A
checked build asserts more: there the parameters must be numbered and both parts of a receiver that
is one of two must have a home, and the build stops on nothing but that. -/
theorem wellFormed_emits {e : Expr} (h : e.All fun n => n.isWellFormed = true) (env : Env)
    (s : State) :
    ((env.assertions = true → e.All fun n => n.isAssured env) →
      (∀ used, ∃ t, value env e used s = .ok () t) ∧
        ∀ kind, ∃ temp t, address env e kind s = .ok temp t) ∧
    (∀ used f t, value env e used s = .error f t → f.fault = .assertionFailed) ∧
      ∀ kind f t, address env e kind s = .error f t → f.fault = .assertionFailed := by
  have hdefect {n : Expr} {u : Bool} (hn : e.Node true n u) {f : Fault} (hf : n.Defect env f) :
      f = .assertionFailed := by
    by_cases hassert : f = .assertionFailed
    · exact hassert
    · have hw : n.isWellFormed = true := h n u hn
      rw [hf.not_wellFormed hassert] at hw
      cases hw
  refine ⟨fun hassured => ?_, ?_⟩
  · have hplan := plan_fails (P := fun _ => False) env fun n u hn f hf => by
      obtain rfl := hdefect hn hf
      cases hf with
      | assertion hbuild hmiss => exact hmiss (hassured hbuild n u hn)
    constructor
    · intro used
      obtain ⟨⟨⟩, t, ht⟩ := (hplan.1 used).succeeds s
      exact ⟨t, ht⟩
    · intro kind
      exact (hplan.2 kind).succeeds s
  · have hplan := plan_fails (P := fun f => f = .assertionFailed) env fun n u hn f hf =>
      hdefect hn hf
    exact ⟨fun used f t hfail => hplan.1 used hfail, fun kind f t hfail => hplan.2 kind hfail⟩

/-- Bind a reference, then make a block of what it refers to, cut to a byte, and two constants. -/
def blockThroughReference : Expr :=
  let i32 := Ty.ofPrim .i32
  let u8 := Ty.ofPrim .u8
  let l : Expr := .localVar (.plain i32) ⟨0, i32, .ref⟩
  let constant (v : Int64) (ty : Ty) : Expr := .literal ⟨ty, some (.int v), .synthesized⟩
  .sequence (.plain (.pointerTo u8)) [⟨0, i32, .ref⟩]
    [.assign (.plain i32) l (.param (.plain i32) ⟨"p", 0, i32, .ref, .unscoped⟩) true]
    (.stackalloc (.plain (.pointerTo u8)) u8 (constant 3 i32)
      [constant 1 u8, constant 2 u8, .convert (.plain u8) l ⟨.explicitNumeric, true, true⟩])

def checked : Env := { Env.bare (.ordinary .object) with assertions := true }

theorem blockThroughReference_nodes :
    blockThroughReference.All fun n => n.isWellFormed = true ∧ n.isAssured checked := by
  simp only [Expr.All, blockThroughReference, Expr.every_iff (e := .sequence ..),
    Expr.every_iff (e := .assign ..), Expr.every_iff (e := .localVar ..),
    Expr.every_iff (e := .param ..), Expr.every_iff (e := .stackalloc ..),
    Expr.every_iff (e := .literal ..), Expr.every_iff (e := .convert ..), Expr.parts,
    List.map_cons, List.map_nil, List.cons_append, List.nil_append, List.mem_cons,
    List.not_mem_nil, or_false, forall_eq_or_imp, false_implies, implies_true, and_true, forall_eq,
    Bool.true_or, Expr.isAssured]
  decide

theorem wellFormed_emits_blockThroughReference :
    blockThroughReference.All (fun n => n.isWellFormed = true) ∧
    blockThroughReference.All (fun n => n.isAssured checked) ∧
    (∃ t, value checked blockThroughReference true .empty = .ok () t) ∧
    (∃ t, value checked blockThroughReference false .empty = .ok () t) ∧
    ∃ temp t, address checked blockThroughReference .writable .empty = .ok temp t := by
  have hformed : blockThroughReference.All fun n => n.isWellFormed = true :=
    fun n u hn => (blockThroughReference_nodes n u hn).1
  have hassured : blockThroughReference.All fun n => n.isAssured checked :=
    fun n u hn => (blockThroughReference_nodes n u hn).2
  have h := (wellFormed_emits hformed checked .empty).1 fun _ => hassured
  exact ⟨hformed, hassured, h.1 true, h.1 false, h.2 .writable⟩

/-- A receiver that is one of two numbers. Its nodes are well formed, and a checked build stops
where it asks for a home of either. -/
def eitherNumber : Expr :=
  let one : Expr := .literal ⟨.ofPrim .i32, some (.int 1), .synthesized⟩
  .sequence (.plain (.ofPrim .i32)) [] [] (.eitherReceiver (.plain (.ofPrim .i32)) one one)

theorem eitherNumber_stops_checked :
    eitherNumber.All (fun n => n.isWellFormed = true) ∧
    address checked eitherNumber .readonlyStrict .empty =
      .error ⟨.assertionFailed, .synthesized⟩ .empty := by
  refine ⟨?_, rfl⟩
  simp only [Expr.All, eitherNumber, Expr.every_iff (e := .sequence ..),
    Expr.every_iff (e := .eitherReceiver ..), Expr.every_iff (e := .literal ..), Expr.parts,
    List.map_nil, List.nil_append, List.mem_cons, List.not_mem_nil, or_false, forall_eq_or_imp,
    false_implies, implies_true, and_true, forall_eq]
  decide

end Emit

/-! ### Guards -/

/-- What emission says where its own parts would disagree: the rules for homes let something be
located that has no place, or a block be filled from data that its elements do not have. -/
def Fault.guards : List String :=
  ["expression without a home reached direct address emission",
    "address of a stack-resident value local",
    "address of a by-value call result",
    "address of a value assignment",
    "block initializer for non-blittable element"]

theorem Expr.Defect.not_guard {env : Env} {e : Expr} {f : Fault} (h : e.Defect env f) :
    f.message ∉ Fault.guards := by
  cases h <;> simp [Fault.message, Fault.guards]

namespace Emit

/-- Whatever tree is emitted, as a value or as an address, from whatever state and in whatever
surroundings: if emission fails, then on a fault that a node of the tree has by itself, and never
on a guard. -/
theorem guards_unreachable (env : Env) (e : Expr) (s : State) :
    (∀ used f t, value env e used s = .error f t →
      f.error.message ∉ Fault.guards ∧ ∃ n u, e.Node true n u ∧ n.Defect env f.fault) ∧
    ∀ kind f t, address env e kind s = .error f t →
      f.error.message ∉ Fault.guards ∧ ∃ n u, e.Node true n u ∧ n.Defect env f.fault := by
  have hplan := plan_fails (P := fun f => ∃ n u, e.Node true n u ∧ n.Defect env f) env
    fun n u hn f hf => ⟨n, u, hn, hf⟩
  constructor
  · intro used f t hfail
    obtain ⟨n, u, hn, hf⟩ := hplan.1 used hfail
    exact ⟨hf.not_guard, n, u, hn, hf⟩
  · intro kind f t hfail
    obtain ⟨n, u, hn, hf⟩ := hplan.2 kind hfail
    exact ⟨hf.not_guard, n, u, hn, hf⟩

def assignNothing : Expr :=
  let i32 := Ty.ofPrim .i32
  .assign (.plain i32) (.localVar (.plain i32) ⟨0, i32, .byValue⟩) (.literal (.plain i32)) false

theorem guards_unreachable_assignNothing :
    let env : Env := { Env.bare (.ordinary .object) with resident := [0] }
    let missing : Failure := ⟨.literalWithoutValue (.ofPrim .i32), .synthesized⟩
    address env assignNothing .writable .empty = .error missing .empty ∧
      missing.error.message ∉ Fault.guards ∧
      ∃ n u, assignNothing.Node true n u ∧ n.Defect env missing.fault := by
  intro env missing
  have hfail : address env assignNothing .writable .empty = .error missing .empty := rfl
  exact ⟨hfail, (guards_unreachable env assignNothing .empty).2 _ _ _ hfail⟩

end Emit

end TypedStack
