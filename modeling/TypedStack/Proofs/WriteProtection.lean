import TypedStack.Proofs.Strays

/-! Addresses to write through. An address that is asked for in order to write never leads where
nothing may be written, strays apart: a copy is made, and the address is that of the copy. -/
namespace TypedStack

namespace Surroundings

variable {s : Surroundings} {kind : AddressKind}

theorem hasHome_element {i : Info} {array index : Expr} : s.hasHome (.element i array index) kind =
    !(kind == .readonly && !i.ty.isValueType && s.compat) := rfl

theorem hasHome_this {i : Info} : s.hasHome (.this i) kind = s.thisHasHome i.ty kind := rfl

theorem hasHome_param {i : Info} {p : Parameter} :
    s.hasHome (.param i p) kind = paramHasHome p kind := rfl

theorem hasHome_assign {i : Info} {left right : Expr} {isRef : Bool} :
    s.hasHome (.assign i left right isRef) kind = (isRef && rebindHasHome left.mode kind) := rfl

theorem hasHome_conditional {i : Info} {condition consequence alternative : Expr} {isRef : Bool} :
    s.hasHome (.conditional i condition consequence alternative isRef) kind =
      (isRef && s.hasHome consequence kind && s.hasHome alternative kind) := rfl

theorem hasHome_field {i : Info} {receiver : Option Expr} {f : Field} {byValue : Bool} :
    s.hasHome (.field i receiver f byValue) kind = s.fieldHasHome receiver
      (fun kind => receiver.any fun x => s.hasHome x kind) f byValue kind := by
  cases receiver <;> rfl

/-- A field that has a home to be written in is neither constant nor a read-only reference, and
if it is read-only, it is being constructed. -/
theorem fieldHasHome_writable {receiver : Option Expr} {home : AddressKind → Bool} {f : Field}
    {byValue : Bool} (hk : kind.isReadonly = false)
    (h : s.fieldHasHome receiver home f byValue kind = true) :
    f.isConst = false ∧ f.mode ≠ .refReadonly ∧
      (f.mode = .byValue → f.isReadonly = true → s.readonlyFieldHasHome receiver f = true) := by
  unfold fieldHasHome at h
  have hk1 : kind ≠ .readonlyStrict := by rintro rfl; cases hk
  have hk2 : kind ≠ .readonly := by rintro rfl; cases hk
  split at h
  · cases h
  · rename_i hc
    refine ⟨by simpa using hc, ?_, ?_⟩
    · intro hm
      simp [hm, hk1, hk2] at h
    · intro hm hr
      simp [hm, hk1, hk2, hr] at h
      exact h.2

end Surroundings

namespace Emit

variable {k : Scope} {P : Tracked → Prop}

/-! ### What is loaded -/

/-- Each use of the tree heeds what must not be written. -/
structure Heeds (k : Scope) (e : Expr) : Prop where
  permits : e.All (Permits k.env (.sound k))
  value : ¬ StrayValue k e → Ends k k.Writable ((e.plan k.env).value true)
  address : ∀ {kind}, kind.isReadonly = false → ¬ StrayAddress k kind e →
    Ends k k.Writable ((e.plan k.env).address kind)

theorem Heeds.follows {e : Expr} (h : Heeds k e) :
    PlanFollows k.env (.sound k) (e.outline k.env) (e.plan k.env) := plan_follows k.env h.permits

/-- A field of a struct that is passed to be read only. -/
def fieldOfInput : Expr :=
  let pair := Ty.structNamed "Pair" false false
  let i32 := Ty.ofPrim .i32
  .field (.plain i32) (some (.param (.plain pair) ⟨"p", 0, pair, .input, .unscoped⟩))
    ⟨"X", pair, i32, false, false, false, .byValue⟩ false

end Emit

end TypedStack
