import TypedStack.Proofs.Homes

/-! Homes by the kind of address and by the verifier. The kinds are ordered by what they ask of a
place, and verdicts follow that order: what may be written may be read. Only for older verifiers a
plain read is an exception, as it may ask for a copy where a write does not. Older verifiers take
homes from plain reads, give homes to writes, and leave strict reads alone. -/
namespace TypedStack

namespace Surroundings

variable {s : Surroundings} {kind : AddressKind}

/-! ### What has any home has one to be read in -/

theorem resultHasHome_strict {mode : RefKind} (h : resultHasHome mode kind = true) :
    resultHasHome mode .readonlyStrict = true := by
  simp only [resultHasHome, Bool.or_eq_true, Bool.and_eq_true] at h ⊢
  exact h.imp_right fun hmode => ⟨rfl, hmode.2⟩

theorem rebindHasHome_strict {mode : RefKind} (h : rebindHasHome mode kind = true) :
    rebindHasHome mode .readonlyStrict = true := by
  cases mode <;> first | rfl | cases h

theorem localHasHome_strict {l : Local} (h : s.localHasHome l kind = true) :
    s.localHasHome l .readonlyStrict = true := by
  simp only [localHasHome, Bool.not_or, Bool.and_eq_true] at h ⊢
  exact ⟨h.1, rfl⟩

variable {receiver : Option Expr} {home home' : AddressKind → Bool} {f : Field} {byValue : Bool}

/-- A strict read asks nothing of the receiver or the verifier: every field is stored somewhere,
unless it is a constant. -/
theorem fieldHasHome_readonlyStrict :
    s.fieldHasHome receiver home f byValue .readonlyStrict = !f.isConst := by
  cases hc : f.isConst <;> simp [fieldHasHome, hc]

theorem fieldHasHome_strict (h : s.fieldHasHome receiver home f byValue kind = true) :
    s.fieldHasHome receiver home f byValue .readonlyStrict = true := by
  rw [fieldHasHome_readonlyStrict]
  cases hc : f.isConst with
  | true => simp [fieldHasHome, hc] at h
  | false => rfl

theorem hasHome_strict {e : Expr} (h : s.hasHome e kind = true) :
    s.hasHome e .readonlyStrict = true := by
  induction e using Expr.tree_induction with
  | literal | convert | delegate | stackalloc => cases h
  | deref | typedRef | throw | heldReceiver | eitherReceiver => rfl
  | element i a x => simp [hasHome_element]
  | this i => simp [hasHome_this, thisHasHome, AddressKind.isReadonly]
  | param i p => simp [hasHome_param, paramHasHome, AddressKind.isReadonly]
  | localVar i l => exact localHasHome_strict h
  | call i r m args nonVirtual => exact resultHasHome_strict h
  | duplicate i mode => exact resultHasHome_strict h
  | field i r f byValue =>
    rw [hasHome_field] at h ⊢
    exact fieldHasHome_strict h
  | sequence i ls es v _ ih => exact ih h
  | assign i l r isRef =>
    rw [hasHome_assign, Bool.and_eq_true] at h ⊢
    exact ⟨h.1, rebindHasHome_strict h.2⟩
  | conditional i t c a isRef _ ihc iha =>
    simp only [hasHome_conditional, Bool.and_eq_true] at h ⊢
    exact ⟨⟨h.1.1, ihc h.1.2⟩, iha h.2⟩

/-- Home verdicts are ordered by the kind of address. A call through an address asks for what a
write asks for, and what has a home for any use has one for a strict read. Where no older verifier
has to accept the code, the two ways to read are one, and a less demanding use finds a home wherever
a more demanding one does. -/
theorem home_verdicts_ordered (s : Surroundings) (e : Expr) :
    s.hasHome e .writable = s.hasHome e .constrained ∧
    (∀ kind, s.hasHome e kind = true → s.hasHome e .readonlyStrict = true) ∧
    (s.compat = false → s.hasHome e .readonly = s.hasHome e .readonlyStrict ∧
      ∀ kind kind', kind ≤ kind' → s.hasHome e kind = true → s.hasHome e kind' = true) := by
  refine ⟨(s.hasHome_constrained e).symm, fun _ => hasHome_strict, fun hs => ?_⟩
  have hread := hasHome_readonlyStrict hs e
  refine ⟨hread.symm, ?_⟩
  intro kind kind' hle h
  have hstrict := hasHome_strict h
  cases kind' with
  | readonlyStrict => exact hstrict
  | readonly => exact hread ▸ hstrict
  | constrained =>
    cases kind with
    | writable => rwa [hasHome_constrained]
    | constrained => exact h
    | readonly | readonlyStrict => exact absurd hle (by decide)
  | writable =>
    cases kind with
    | writable => exact h
    | constrained | readonly | readonlyStrict => exact absurd hle (by decide)

theorem home_verdicts_ordered_fieldOfInput :
    let s : Surroundings := ⟨.ordinary .object, false, []⟩
    s.hasHome Emit.fieldOfInput .writable = false ∧
      s.hasHome Emit.fieldOfInput .constrained = false ∧
      s.hasHome Emit.fieldOfInput .readonly = true ∧
      s.hasHome Emit.fieldOfInput .readonlyStrict = true := by
  intro s
  obtain ⟨hcall, -, hmodern⟩ := s.home_verdicts_ordered Emit.fieldOfInput
  have hwrite : s.hasHome Emit.fieldOfInput .writable = false := by decide
  have hread : s.hasHome Emit.fieldOfInput .readonly = true := by decide
  exact ⟨hwrite, hcall ▸ hwrite, hread, (hmodern rfl).2 _ _ (by decide) hread⟩

/-- An element of an array of references, for older verifiers: to read it asks for a copy, to write
it does not. -/
example :
    let s : Surroundings := ⟨.ordinary .object, true, []⟩
    let array : Expr := .this (.plain (.arrayOf .string))
    let e : Expr := .element (.plain .string) array array
    s.hasHome e .writable = true ∧ s.hasHome e .readonly = false ∧
      s.hasHome e .readonlyStrict = true := by
  decide

/-! ### Older verifiers -/

variable {method : Enclosing} {resident : List LocalId}

theorem hasHome_strict_any_verifier (compat compat' : Bool) (e : Expr) :
    hasHome ⟨method, compat, resident⟩ e .readonlyStrict =
      hasHome ⟨method, compat', resident⟩ e .readonlyStrict := by
  induction e using Expr.tree_induction with
  | field i r f byValue => simp only [hasHome_field, fieldHasHome_readonlyStrict]
  | sequence i ls es v _ ih => exact ih
  | conditional i t c a isRef _ ihc iha => simp only [hasHome_conditional, ihc, iha]
  | _ => rfl

/-- For older verifiers a field of a value is written where it is, whatever home the value has. -/
theorem fieldHasHome_writable_older
    (h : fieldHasHome ⟨method, false, resident⟩ receiver home f byValue .writable = true) :
    fieldHasHome ⟨method, true, resident⟩ receiver home' f byValue .writable = true := by
  have hconst : f.isConst = false := (fieldHasHome_writable rfl h).1
  by_cases hmode : f.mode = .ref
  · simp [fieldHasHome, hconst, hmode]
  · cases hread : byValue || f.mode == .refReadonly with
    | true => simp [fieldHasHome, hconst, hmode, hread] at h
    | false =>
      by_cases hro : f.isReadonly = true
      · have hrule (s : Surroundings) (home : AddressKind → Bool) :
            s.fieldHasHome receiver home f byValue .writable =
              s.readonlyFieldHasHome receiver f := by
          simp [fieldHasHome, hconst, hmode, hread, hro]
        rw [hrule] at h ⊢
        exact h
      · simp [fieldHasHome, hconst, hmode, hread, hro]

theorem hasHome_writable_older {e : Expr}
    (h : hasHome ⟨method, false, resident⟩ e .writable = true) :
    hasHome ⟨method, true, resident⟩ e .writable = true := by
  induction e using Expr.tree_induction with
  | field i r f byValue =>
    rw [hasHome_field] at h ⊢
    exact fieldHasHome_writable_older h
  | sequence i ls es v _ ih => exact ih h
  | conditional i t c a isRef _ ihc iha =>
    simp only [hasHome_conditional, Bool.and_eq_true] at h ⊢
    exact ⟨⟨h.1.1, ihc h.1.2⟩, iha h.2⟩
  | _ => exact h

/-- What older verifiers change. A strict read has the home that it has without them. A plain read
has one only where it has one without them, and so may ask for more copies. A write, or a call
through an address, has one wherever it has one without them. -/
theorem older_verifiers_change_homes (method : Enclosing) (resident : List LocalId) (e : Expr) :
    let older : Surroundings := ⟨method, true, resident⟩
    let modern : Surroundings := ⟨method, false, resident⟩
    older.hasHome e .readonlyStrict = modern.hasHome e .readonlyStrict ∧
    (older.hasHome e .readonly = true → modern.hasHome e .readonly = true) ∧
    (modern.hasHome e .writable = true → older.hasHome e .writable = true) ∧
    (modern.hasHome e .constrained = true → older.hasHome e .constrained = true) := by
  intro older modern
  have hstrict : older.hasHome e .readonlyStrict = modern.hasHome e .readonlyStrict :=
    hasHome_strict_any_verifier true false e
  refine ⟨hstrict, fun h => ?_, hasHome_writable_older, fun h => ?_⟩
  · -- to read is to read strictly where no older verifier looks
    rw [← hasHome_readonlyStrict rfl, ← hstrict]
    exact hasHome_strict h
  · rw [hasHome_constrained] at h ⊢
    exact hasHome_writable_older h

def pointedField : Expr :=
  let pair := Ty.structNamed "Pair" false false
  let i32 := Ty.ofPrim .i32
  let pointer : Expr :=
    .param (.plain (.pointerTo pair)) ⟨"p", 0, .pointerTo pair, .byValue, .unscoped⟩
  .field (.plain i32) (some (.deref (.plain pair) pointer))
    ⟨"X", pair, i32, false, false, false, .byValue⟩ false

theorem older_verifiers_change_homes_pointedField :
    let older : Surroundings := ⟨.ordinary .object, true, []⟩
    let modern : Surroundings := ⟨.ordinary .object, false, []⟩
    older.hasHome pointedField .readonly = true ∧ modern.hasHome pointedField .readonly = true ∧
      modern.hasHome pointedField .writable = true ∧ older.hasHome pointedField .writable = true ∧
      modern.hasHome pointedField .constrained = true ∧
      older.hasHome pointedField .constrained = true := by
  intro older modern
  obtain ⟨-, hread, hwrite, hcall⟩ :=
    older_verifiers_change_homes (.ordinary .object) [] pointedField
  have hreads : older.hasHome pointedField .readonly = true := by decide
  have hwrites : modern.hasHome pointedField .writable = true := by decide
  have hcalls : modern.hasHome pointedField .constrained = true := by decide
  exact ⟨hreads, hread hreads, hwrites, hwrite hwrites, hcalls, hcall hcalls⟩

/-- Only with older verifiers a field of a parameter that is passed to be read has a home to be
written in, and only without them a read-only field has one to be read in. -/
example :
    let older : Surroundings := ⟨.ordinary .object, true, []⟩
    let modern : Surroundings := ⟨.ordinary .object, false, []⟩
    let pair := Ty.structNamed "Pair" false false
    let readonlyField : Expr := .field (.plain .string) none
      ⟨"Name", pair, .string, false, true, true, .byValue⟩ false
    older.hasHome Emit.fieldOfInput .writable = true ∧
      modern.hasHome Emit.fieldOfInput .writable = false ∧
      older.hasHome readonlyField .readonly = false ∧
      modern.hasHome readonlyField .readonly = true := by
  decide

end Surroundings

end TypedStack
