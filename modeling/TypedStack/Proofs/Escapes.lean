import TypedStack.Escape

/-! Escapes, without the order in which parameters are looked at. A call lets a reference escape
just if one can come in with some parameter and go out through the result or through some
parameter. Only parameters that can hold references beyond the call have a say in it. -/
namespace TypedStack

/-- References can come in with such a parameter and outlive the call. -/
def Parameter.carries (p : Parameter) : Bool := p.ty.isRefLike && p.lifetime == .unscoped

/-- The callee can leave a reference in what is passed for such a parameter. -/
def Parameter.accepts (p : Parameter) (readonlyAddress : Bool) : Bool :=
  p.carries && (p.mode.isWritable && !p.ty.isReadonly && !readonlyAddress)

theorem Parameter.not_carries {p : Parameter} (h : p.lifetime = .scoped ∨ p.ty.isRefLike = false) :
    p.carries = false := by
  rcases h with h | h <;> simp [carries, h]

theorem Parameter.accepts_iff {p : Parameter} {readonlyAddress : Bool} :
    p.accepts readonlyAddress = true ↔ p.carries = true ∧ p.mode.isWritable = true ∧
      p.ty.isReadonly = false ∧ readonlyAddress = false := by
  simp [accepts, and_assoc]

namespace Escape

namespace Counts

theorem sources_add (c : Counts) (p : Parameter) (readonlyAddress : Bool) :
    decide (0 < (c.add p readonlyAddress).sources) = (decide (0 < c.sources) || p.carries) := by
  unfold add
  rw [← Parameter.carries]
  cases p.carries <;> simp

theorem targets_add (c : Counts) (p : Parameter) (readonlyAddress : Bool) :
    decide (0 < (c.add p readonlyAddress).targets) =
      (decide (0 < c.targets) || p.accepts readonlyAddress) := by
  unfold add Parameter.accepts
  rw [← Parameter.carries]
  cases p.carries
  · simp
  · cases p.mode.isWritable && !p.ty.isReadonly && !readonlyAddress <;> simp

theorem mayCapture_add (c : Counts) (p : Parameter) (readonlyAddress : Bool) :
    (c.add p readonlyAddress).mayCapture =
      ((decide (0 < c.sources) || p.carries) &&
        (decide (0 < c.targets) || p.accepts readonlyAddress)) := by
  rw [mayCapture, sources_add, targets_add]

/-- Stopping at the parameter that settles it gives the same verdict as counting all of them. -/
theorem mayCapture_or_any (c : Counts) (params : List Parameter) :
    (c.mayCapture || c.anyCaptures params) =
      ((decide (0 < c.sources) || params.any Parameter.carries) &&
        (decide (0 < c.targets) || params.any fun p => p.accepts false)) := by
  induction params generalizing c with
  | nil => simp [anyCaptures, mayCapture]
  | cons p rest ih =>
    have hmono : c.mayCapture = true → (c.add p false).mayCapture = true := by
      intro h
      obtain ⟨hs, ht⟩ := Bool.and_eq_true_iff.mp h
      simp [mayCapture_add, hs, ht]
    have hstep : (c.mayCapture || c.anyCaptures (p :: rest)) =
        ((c.add p false).mayCapture || (c.add p false).anyCaptures rest) := by
      rw [anyCaptures]
      cases hc : c.mayCapture with
      | false => rfl
      | true => simp [hmono hc]
    rw [hstep, ih, sources_add, targets_add]
    simp [Bool.or_assoc]

end Counts

/-- A reference can come in with the receiver or with a parameter. -/
def Source (receiver : Option Parameter) (params : List Parameter) : Prop :=
  ∃ p ∈ receiver.toList ++ params, p.carries = true

/-- A reference can go out: in a result that is looked at, or in what the callee can write. It
cannot write a receiver whose address is given for reading only. -/
inductive Target (used : Bool) (result : Ty) (mode : RefKind) (receiver : Option Parameter)
    (receiverKind : Option AddressKind) (params : List Parameter) : Prop where
  | result : used = true → mode.isByRef = true ∨ result.isRefLike = true →
    Target used result mode receiver receiverKind params
  | receiver {p} : p ∈ receiver → p.carries = true → p.mode.isWritable = true →
    p.ty.isReadonly = false → (∀ kind ∈ receiverKind, kind.isReadonly = false) →
    Target used result mode receiver receiverKind params
  | param {p} : p ∈ params → p.carries = true → p.mode.isWritable = true →
    p.ty.isReadonly = false → Target used result mode receiver receiverKind params

variable {used used' : Bool} {result : Ty} {mode : RefKind} {receiver : Option Parameter}
  {receiverKind : Option AddressKind} {params params' : List Parameter}

theorem mightEscape_eq : mightEscape used result mode receiver receiverKind params =
    ((receiver.toList ++ params).any Parameter.carries &&
      (used && (mode.isByRef || result.isRefLike) ||
        receiver.any (fun p => p.accepts (receiverKind.any AddressKind.isReadonly)) ||
        params.any fun p => p.accepts false)) := by
  have htargets : decide (0 < (Counts.ofResult used result mode).targets) =
      (used && (mode.isByRef || result.isRefLike)) := by
    unfold Counts.ofResult
    cases used && (mode.isByRef || result.isRefLike) <;> rfl
  unfold mightEscape
  cases receiver with
  | none =>
    -- nothing has come in before the first parameter
    have hnone := Counts.mayCapture_or_any (.ofResult used result mode) params
    rw [htargets] at hnone
    simpa [Counts.mayCapture, Counts.ofResult] using hnone
  | some p =>
    dsimp only
    rw [Counts.mayCapture_or_any, Counts.sources_add, Counts.targets_add, htargets]
    simp [Counts.ofResult]

theorem mightEscape_iff : mightEscape used result mode receiver receiverKind params = true ↔
    Source receiver params ∧ Target used result mode receiver receiverKind params := by
  rw [mightEscape_eq, Bool.and_eq_true, List.any_eq_true]
  refine and_congr_right fun _ => ?_
  simp only [Bool.or_eq_true, Bool.and_eq_true, Option.any_eq_true, List.any_eq_true,
    Parameter.accepts_iff, Option.any_eq_false]
  constructor
  · rintro ((⟨hused, hresult⟩ | ⟨p, hp, hc, hw, hr, hk⟩) | ⟨p, hp, hc, hw, hr, -⟩)
    · exact .result hused hresult
    · exact .receiver hp hc hw hr hk
    · exact .param hp hc hw hr
  · intro h
    cases h with
    | result hused hresult => exact .inl (.inl ⟨hused, hresult⟩)
    | receiver hp hc hw hr hk => exact .inl (.inr ⟨_, hp, hc, hw, hr, hk⟩)
    | param hp hc hw hr => exact .inr ⟨_, hp, hc, hw, hr, trivial⟩

/-- More ways in or out never close the way that a reference has. -/
theorem mightEscape_mono (hused : used = true → used' = true)
    (hparams : ∀ p ∈ params, p.carries = true → p ∈ params')
    (h : mightEscape used result mode receiver receiverKind params = true) :
    mightEscape used' result mode receiver receiverKind params' = true := by
  obtain ⟨⟨p, hp, hc⟩, htarget⟩ := mightEscape_iff.mp h
  refine mightEscape_iff.mpr ⟨⟨p, ?_, hc⟩, ?_⟩
  · rcases List.mem_append.mp hp with hp | hp
    · exact List.mem_append_left _ hp
    · exact List.mem_append_right _ (hparams p hp hc)
  · cases htarget with
    | result hu hresult => exact .result (hused hu) hresult
    | receiver hp hc hw hr hk => exact .receiver hp hc hw hr hk
    | param hp hc hw hr => exact .param (hparams _ hp hc) hc hw hr

theorem mightEscape_congr (h : ∀ p ∈ params, p.carries = true → p ∈ params')
    (h' : ∀ p ∈ params', p.carries = true → p ∈ params) :
    mightEscape used result mode receiver receiverKind params =
      mightEscape used result mode receiver receiverKind params' :=
  Bool.eq_iff_iff.mpr ⟨mightEscape_mono id h, mightEscape_mono id h'⟩

/-- A call may let a reference escape just if there is a source and a target. So the order of the
parameters plays no part, a further parameter or a use of the result never takes the danger away,
and parameters that are scoped or cannot hold references may be left out. -/
theorem escape_iff_source_and_target (used : Bool) (result : Ty) (mode : RefKind)
    (receiver : Option Parameter) (receiverKind : Option AddressKind) (params : List Parameter) :
    let verdict (used : Bool) (params : List Parameter) : Bool :=
      mightEscape used result mode receiver receiverKind params
    (verdict used params = true ↔
      Source receiver params ∧ Target used result mode receiver receiverKind params) ∧
    (∀ params', params.Perm params' → verdict used params' = verdict used params) ∧
    (verdict used params = true → verdict true params = true ∧
      ∀ before p after, params = before ++ after →
        verdict used (before ++ p :: after) = true) ∧
    (∀ kept, kept ⊆ params →
      (∀ p ∈ params, p ∉ kept → p.lifetime = .scoped ∨ p.ty.isRefLike = false) →
      verdict used kept = verdict used params) := by
  intro verdict
  refine ⟨mightEscape_iff, ?_, ?_, ?_⟩
  · intro params' hperm
    apply mightEscape_congr
    · intro p hp _
      exact hperm.mem_iff.mpr hp
    · intro p hp _
      exact hperm.mem_iff.mp hp
  · intro h
    constructor
    · exact mightEscape_mono (fun _ => rfl) (fun p hp _ => hp) h
    · rintro before p after rfl
      refine mightEscape_mono id (fun x hx _ => ?_) h
      rcases List.mem_append.mp hx with hx | hx
      · exact List.mem_append_left _ hx
      · exact List.mem_append_right _ (List.mem_cons_of_mem p hx)
  · intro kept hsub hinert
    apply mightEscape_congr
    · intro p hp _
      exact hsub hp
    · intro p hp hc
      by_cases hkept : p ∈ kept
      · exact hkept
      · rw [Parameter.not_carries (hinert p hp hkept)] at hc
        cases hc

def readSpan : Parameter := ⟨"from", 0, .structNamed "Span" true false, .byValue, .unscoped⟩

def scopedSpan : Parameter := ⟨"buffer", 1, .structNamed "Span" true false, .ref, .scoped⟩

def writtenSpan : Parameter := ⟨"to", 2, .structNamed "Span" true false, .ref, .unscoped⟩

/-- A span that comes in can be kept in the one that is written, wherever the two stand and
whatever else is passed. The one that is scoped makes no difference. -/
theorem escape_iff_source_and_target_spans :
    let params := [readSpan, scopedSpan, writtenSpan]
    let verdict := mightEscape false .void .byValue none none
    verdict params = true ∧ Source none params ∧ Target false .void .byValue none none params ∧
      verdict [writtenSpan, readSpan, scopedSpan] = true ∧
      mightEscape true .void .byValue none none params = true ∧
      verdict [readSpan, scopedSpan, readSpan, writtenSpan] = true ∧
      verdict [readSpan, writtenSpan] = true ∧ verdict [readSpan] = false := by
  intro params verdict
  have hverdict : verdict params = true := by decide
  obtain ⟨hiff, hperm, hadd, hleft⟩ :=
    escape_iff_source_and_target false .void .byValue none none params
  obtain ⟨hsource, htarget⟩ := hiff.mp hverdict
  obtain ⟨hused, hmore⟩ := hadd hverdict
  refine ⟨hverdict, hsource, htarget, ?_, hused, ?_, ?_, by decide⟩
  · rw [← hverdict]
    exact hperm _ (by decide)
  · exact hmore [readSpan, scopedSpan] readSpan [writtenSpan] rfl
  · rw [← hverdict]
    exact hleft _ (by decide) (by decide)

end Escape

end TypedStack
