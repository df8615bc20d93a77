import TypedStack.Proofs.Trees

/-! Well-formed nodes, and the faults that a node can have by itself. A checked build asserts more
than that nodes are well formed, and what it asserts can be missed by a well-formed tree. -/
namespace TypedStack

/-- Constants of such a type are not loaded as 32-bit immediates. -/
def Ty.isWide (ty : Ty) : Bool :=
  match ty.primitive? with
  | some .i64 | some .u64 | some .nint | some .nuint | some .f32 | some .f64 => true
  | _ => false

def Ty.isNumber (ty : Ty) : Bool := ty.primitive?.any (· != .bool)

def Constant.fits (c : Constant) (ty : Ty) : Bool :=
  match c with
  | .null | .float32 _ | .float64 _ => true
  | _ => ty.isWide || c.immediate?.isSome

namespace ConversionKind

def isNumeric : ConversionKind → Bool
  | implicitNumeric | explicitNumeric | implicitEnumeration | explicitEnumeration => true
  | _ => false

def isPointerCast : ConversionKind → Bool
  | pointerToInteger | integerToPointer => true
  | _ => false

/-- An earlier stage replaces such conversions by calls. -/
def isLoweredEarlier : ConversionKind → Bool
  | methodGroup | implicitUserDefined | explicitUserDefined | implicitNullable
  | explicitNullable => true
  | _ => false

def joins (k : ConversionKind) (source target : Ty) : Bool :=
  !k.isLoweredEarlier &&
    (!k.isNumeric || (source.isNumber && target.isNumber)) &&
    (!k.isPointerCast ||
      ((source.isPointer || source.isNumber) && (target.isPointer || target.isNumber)))

end ConversionKind

namespace Expr

/-- An expression of a form that an assignment can give a new reference to. -/
def isRebindable : Expr → Bool
  | localVar .. | param .. | field .. | element .. | deref .. => true
  | _ => false

/-- What earlier stages promise of a node. -/
def isWellFormed (e : Expr) : Bool :=
  e.constant.all (·.fits e.ty) &&
    match e with
    | literal i => i.constant.isSome
    | call _ receiver m args _ =>
      args.length == m.params.length && (m.isStatic || receiver.isSome)
    | field _ receiver f _ => f.isStatic || receiver.isSome
    | assign _ left _ isRef => !isRef || left.isRebindable
    | convert i operand c => c.kind.joins operand.ty i.ty
    | stackalloc _ elem _ inits =>
      inits.all fun x => x.constant.all fun c =>
        (Emit.blittable? elem).all fun p => (c.layout? p).isSome
    | _ => true

/-- What a checked build asserts where it comes to a node. -/
def isAssured (env : Env) : Expr → Prop
  | param _ p => env.method.numbers p = true
  | eitherReceiver _ value reference => ∀ kind, env.hasHome value kind ∧ env.hasHome reference kind
  | _ => True

/-- The faults that a node can have by itself. -/
inductive Defect (env : Env) : Expr → Fault → Prop where
  | literal {i} : i.constant = none → Defect env (literal i) (.literalWithoutValue i.ty)
  | immediate {e c} : e.constant = some c → c.fits e.ty = false →
    Defect env e (.immediateTooWide c e.ty)
  | arguments {i receiver m args nonVirtual} : args.length ≠ m.params.length →
    Defect env (call i receiver m args nonVirtual) (.argumentCount m args.length m.params.length)
  | callReceiver {i m args nonVirtual} : m.isStatic = false →
    Defect env (call i none m args nonVirtual) (.callWithoutReceiver m)
  | fieldReceiver {i f byValue} : f.isStatic = false →
    Defect env (field i none f byValue) (.fieldWithoutReceiver f)
  | storeReceiver {i f byValue} : f.isStatic = false →
    Defect env (field i none f byValue) (.storeWithoutReceiver f)
  | rebind {i left right} : left.isRebindable = false →
    Defect env (assign i left right true) (.rebindOfNonReference left.ty)
  | methodGroup {i operand c} : c.kind = .methodGroup →
    Defect env (convert i operand c) (.methodGroup i.ty)
  | notLowered {i operand c} : c.kind.isLoweredEarlier = true →
    Defect env (convert i operand c) (.notLowered c.kind i.ty)
  | numeric {i operand c} : c.kind.isNumeric = true →
    operand.ty.primitive? = none ∨ i.ty.primitive? = none →
    Defect env (convert i operand c) (.numericOfNonPrimitive operand.ty i.ty)
  | pointer {i operand c} : c.kind.isPointerCast = true →
    Emit.pointerPrim? operand.ty = none ∨ Emit.pointerPrim? i.ty = none →
    Defect env (convert i operand c) (.pointerToNonIntegral operand.ty i.ty)
  | nonNumeric {i operand c p q} : c.kind.isNumeric = true →
    operand.ty.primitive? = some p → i.ty.primitive? = some q → p = .bool ∨ q = .bool →
    Defect env (convert i operand c) (.numericOfNonNumeric p q)
  | pointerNonNumeric {i operand c p q} : c.kind.isPointerCast = true →
    Emit.pointerPrim? operand.ty = some p → Emit.pointerPrim? i.ty = some q →
    p = .bool ∨ q = .bool → Defect env (convert i operand c) (.numericOfNonNumeric p q)
  | entry {i elem count inits x c p} : x ∈ inits → x.constant = some c →
    Emit.blittable? elem = some p → c.layout? p = none →
    Defect env (stackalloc i elem count inits) (.noLayout c p)
  | assertion {e} : env.assertions = true → ¬ isAssured env e → Defect env e .assertionFailed

theorem pointer_or_number (ty : Ty) :
    (ty.isPointer || ty.isNumber) = (Emit.pointerPrim? ty).any (· != .bool) := by
  unfold Emit.pointerPrim? Ty.isNumber
  cases ty.isPointer <;> rfl

variable {env : Env} {e : Expr} {P : Fault → Prop}

/-- A node with a fault is not well formed, unless it is what a checked build asserts. -/
theorem Defect.not_wellFormed {f : Fault} (h : e.Defect env f) (hassert : f ≠ .assertionFailed) :
    e.isWellFormed = false := by
  cases h with
  | assertion => exact absurd rfl hassert
  | literal h => simp [isWellFormed, h]
  | immediate h hf => simp [isWellFormed, h, hf]
  | arguments h => simp [isWellFormed, h]
  | callReceiver h | fieldReceiver h | storeReceiver h | rebind h => simp [isWellFormed, h]
  | methodGroup h =>
    have hjoins (source target : Ty) : ConversionKind.methodGroup.joins source target = false := rfl
    simp [isWellFormed, h, hjoins]
  | notLowered h => simp [isWellFormed, ConversionKind.joins, h]
  | numeric h hnone =>
    rcases hnone with hnone | hnone <;>
      simp [isWellFormed, ConversionKind.joins, h, Ty.isNumber, hnone]
  | pointer h hnone =>
    rcases hnone with hnone | hnone <;>
      simp [isWellFormed, ConversionKind.joins, h, pointer_or_number, hnone]
  | nonNumeric h hp hq hbool =>
    rcases hbool with rfl | rfl <;>
      simp [isWellFormed, ConversionKind.joins, h, Ty.isNumber, hp, hq]
  | pointerNonNumeric h hp hq hbool =>
    rcases hbool with rfl | rfl <;>
      simp [isWellFormed, ConversionKind.joins, h, pointer_or_number, hp, hq]
  | entry hx hc hp hl =>
    refine Bool.and_eq_false_iff.mpr (.inr (List.all_eq_false.mpr ⟨_, hx, ?_⟩))
    simp [hc, hp, hl]

/-- An assertion about the home of a tree fails only on what one of its nodes misses. -/
theorem All.asserted (h : e.All fun n => ∀ f, n.Defect env f → P f) {kind : AddressKind}
    (hf : (!env.assertions || env.asserted e kind) = false) : P .assertionFailed := by
  obtain ⟨hbuild, hasserted⟩ : env.assertions = true ∧ env.asserted e kind = false := by
    simpa using hf
  clear hf
  induction e using Expr.tree_induction generalizing kind with
  | eitherReceiver i value reference ihv ihr =>
    have hv : value.All fun n => ∀ f, n.Defect env f → P f := h.part (by simp [parts])
    have hr : reference.All fun n => ∀ f, n.Defect env f → P f := h.part (by simp [parts])
    rw [Surroundings.asserted, Bool.and_eq_false_iff, Bool.and_eq_false_iff,
      Bool.and_eq_false_iff] at hasserted
    rcases hasserted with ((hmiss | hmiss) | hmiss) | hmiss
    · exact ihv hv hmiss
    · refine h.here _ (.assertion hbuild fun hassured => ?_)
      rw [(hassured kind).1] at hmiss
      cases hmiss
    · exact ihr hr hmiss
    · refine h.here _ (.assertion hbuild fun hassured => ?_)
      rw [(hassured kind).2] at hmiss
      cases hmiss
  | field i receiver f byValue ih =>
    cases receiver with
    | none => cases hasserted
    | some r =>
      have hr : r.All fun n => ∀ f, n.Defect env f → P f := h.part (by simp [parts])
      rw [Surroundings.asserted, Bool.or_eq_false_iff, Bool.and_eq_false_iff,
        Bool.or_eq_false_iff] at hasserted
      rcases hasserted.2 with hmiss | ⟨-, hmiss⟩
      · exact ih r rfl hr hmiss
      · exact ih r rfl hr hmiss
  | sequence i locals effects value _ ih =>
    exact ih (h.part (by simp [parts])) hasserted
  | conditional i condition consequence alternative isRef _ ihc iha =>
    rw [Surroundings.asserted, Bool.or_eq_false_iff, Bool.and_eq_false_iff,
      Bool.or_eq_false_iff] at hasserted
    rcases hasserted.2 with hmiss | ⟨-, hmiss⟩
    · exact ihc (h.part (by simp [parts])) hmiss
    · exact iha (h.part (by simp [parts])) hmiss
  | _ => cases hasserted

end Expr

end TypedStack
