import TypedStack.Proofs.Effects

/-! The effects of emitted code are those of the tree, whatever becomes of the result: a value
that is used, one that is not, or an address of any kind. -/
namespace TypedStack

/-- What a store to a place does beyond the body's own slots. -/
def Place.effect : Place → List Instr
  | stack | slot _ => []
  | arg n => [.arg .store n]
  | staticField f => [.staticField .store f]
  | field f => [.field .store f]
  | element ty => [.stelem ty]
  | indirect ty => [.stind (.store ty)]

theorem Place.script_shows (p : Place) : p.script.Shows (.ofCode p.effect) := by
  cases p
  · exact .nothing
  · exact .slot .store
  all_goals exact .code _

theorem Expr.place_effect (env : Env) (isRef : Bool) (e : Expr) :
    (e.place env isRef).effect = e.stored env.method isRef := by
  cases e with
  | localVar i l =>
    simp only [place, stored]
    split
    · rfl
    · split <;> rfl
  | param i p =>
    simp only [place, stored]
    split <;> rfl
  | field i r f b =>
    simp only [place, stored]
    split
    · rfl
    · split <;> rfl
  | _ => rfl

namespace Outline

variable {env : Env}

structure Shows (o : Outline) (e : Trace) : Prop where
  value : ∀ used, (o.value used).Shows e
  address : ∀ kind, (o.address kind).Shows e
  target : ∀ isRef, (o.target isRef).Shows e

namespace Shows

variable {e : Expr} {t : Trace} {load : Bool → Script} {locate : AddressKind → Script}
  {target : Bool → Script}

theorem make (hc : e.constant = none ∨ t = ∅) (hl : ∀ used, (load used).Shows t)
    (ha : ∀ kind, (locate kind).Shows t) : (make env e load locate).Shows t := by
  have hvalue (used : Bool) : ((Outline.make env e load locate).value used).Shows t := by
    dsimp only [Outline.make]
    split
    · rename_i hconstant
      rcases hc with hnone | rfl
      · rw [Expr.isConstant, hnone] at hconstant
        cases hconstant
      · exact .when .constant
    · exact hl used
  have haddress (kind : AddressKind) : ((Outline.make env e load locate).address kind).Shows t := by
    dsimp only [Outline.make]
    split
    · exact ha kind
    · exact (hvalue true).quietly (.skip (.slot .store) (.slot .address))
  exact ⟨hvalue, haddress, fun _ => haddress .writable⟩

theorem assignable (hc : e.constant = none) (hl : ∀ used, (load used).Shows t)
    (ha : ∀ kind, (locate kind).Shows t) (ht : ∀ isRef, (target isRef).Shows t) :
    (assignable env e load locate target).Shows t := by
  have hmake : (Outline.make env e load locate).Shows t := make (.inl hc) hl ha
  exact ⟨hmake.value, hmake.address, ht⟩

variable {o : Outline} (h : o.Shows t)

include h

theorem receiver (kind : AddressKind) : (o.receiver kind).Shows t := by
  unfold Outline.receiver
  split
  · exact h.value true
  · exact h.address kind

theorem passed (mode : RefKind) : (o.passed mode).Shows t := by
  cases mode
  · exact h.value true
  all_goals exact h.address _

end Shows

/-! ### Nodes -/

theorem ofLocal_shows (l : Local) (access : Access) : (ofLocal env l access).Shows ∅ := by
  unfold ofLocal
  split
  · exact .nothing
  · exact .skip (.define l) (.slot access)

theorem ofLoad_shows {i : Instr} (h : i.isEffect = false) (byRef : Bool) (ty : Ty) (used : Bool) :
    (ofLoad i byRef ty used).Shows ∅ :=
  .when (.skip (.quiet h) (.when (.loadThrough ty)))

section

variable {receiver : Option Expr}
  (hr : ∀ r ∈ receiver, (r.outline env).Shows (r.effects env.method))

include hr

theorem ofFieldLoad_shows (f : Field) (used : Bool) :
    (ofFieldLoad env (Expr.outlineOption env receiver) f used).Shows
      (if f.isStatic then ∅ else Expr.effectsOption env.method receiver) := by
  unfold ofFieldLoad
  by_cases hs : f.isStatic
  · rw [if_pos hs, if_pos hs]
    exact ofLoad_shows rfl _ _ _
  · rw [if_neg hs, if_neg hs]
    cases receiver with
    | none => exact .fail _
    | some r =>
      have hr := hr r rfl
      have hsource : (ofFieldSource env (r.outline env)).Shows (r.effects env.method) := by
        unfold ofFieldSource
        split
        · exact hr.value true
        · split
          · exact hr.address _
          · exact hr.value true
      rw [Expr.outlineOption, Option.elim_some, Expr.effectsOption]
      split
      · exact hr.value false
      · refine hsource.quietly (.skip (.quiet rfl) ?_)
        exact .skip (.when (.loadThrough _)) (.popUnless _)

theorem ofFieldLocate_shows (f : Field) (kind : AddressKind) :
    (ofFieldLocate (Expr.outlineOption env receiver) f kind).Shows
      (if f.isStatic then ∅ else Expr.effectsOption env.method receiver) := by
  have haccess (access : Access → Field → Instr)
      (h : ∀ x, x ≠ .store → (access x f).isEffect = false) :
      (Script.code (access (Emit.fieldAccess f) f)).Shows ∅ := by
    refine .quiet (h _ ?_)
    unfold Emit.fieldAccess
    split <;> decide
  unfold ofFieldLocate
  by_cases hs : f.isStatic
  · rw [if_pos hs, if_pos hs]
    refine haccess .staticField fun x hx => ?_
    cases x <;> first | rfl | exact absurd rfl hx
  · rw [if_neg hs, if_neg hs]
    cases receiver with
    | none => exact .fail _
    | some r =>
      refine ((hr r rfl).receiver _).quietly (haccess .field fun x hx => ?_)
      cases x <;> first | rfl | exact absurd rfl hx

theorem ofFieldTarget_shows (f : Field) (isRef : Bool) :
    (ofFieldTarget (Expr.outlineOption env receiver) f isRef).Shows
      (if f.isStatic then ∅ else Expr.effectsOption env.method receiver) := by
  unfold ofFieldTarget
  dsimp only
  by_cases hs : f.isStatic
  · rw [if_pos hs, if_pos hs]
    exact .when (.quiet rfl)
  · rw [if_neg hs, if_neg hs]
    cases receiver with
    | none => exact .fail _
    | some r => exact ((hr r rfl).receiver _).quietly (.when (.quiet rfl))

theorem ofDispatch_shows (m : Method) :
    (ofDispatch (Expr.outlineOption env receiver) m).Shows
      (if m.isStatic then ∅ else Expr.effectsOption env.method receiver) := by
  unfold ofDispatch
  by_cases hs : m.isStatic
  · rw [if_pos hs, if_pos hs]
    exact .nothing
  · rw [if_neg hs, if_neg hs]
    cases receiver with
    | none => exact .fail _
    | some r => exact (hr r rfl).receiver _

theorem ofDelegate_shows (ty : Ty) (m : Method) (nonVirtual used : Bool) :
    (ofDelegate env ty (Expr.outlineOption env receiver) m nonVirtual used).Shows
      (if m.isStatic then ∅ else Expr.effectsOption env.method receiver) := by
  have hmade : (ofPointer m nonVirtual ++ ofConstruct env ty).Shows ∅ := by
    refine .skip ?_ ?_
    · unfold ofPointer
      split
      · exact .skip (.quiet rfl) (.quiet rfl)
      · exact .quiet rfl
    · unfold ofConstruct
      cases Emit.delegateConstructor? env ty with
      | none => exact .adjust _
      | some m => exact .quiet rfl
  unfold ofDelegate
  dsimp only
  by_cases hs : m.isStatic
  · rw [if_pos hs, if_pos hs]
    split
    · exact .skip .constant hmade
    · exact .nothing
  · rw [if_neg hs, if_neg hs]
    cases receiver with
    | none =>
      split
      · exact .skip .constant hmade
      · exact .nothing
    | some r =>
      split
      · exact (((hr r rfl).value true).quietly .remake).quietly hmade
      · exact (hr r rfl).value false

end

theorem values_show {es : List Expr} (used : Bool)
    (h : ∀ x ∈ es, (x.outline env).Shows (x.effects env.method)) :
    (Script.all ((Expr.outlineList env es).map fun o => o.value used)).Shows
      (Expr.effectsList env.method es) := by
  induction es with
  | nil => exact .nothing
  | cons x es ih =>
    exact ((h x List.mem_cons_self).value used).seq
      (ih fun y hy => h y (List.mem_cons_of_mem x hy))

theorem ofStart_shows (locals : List Local) {es : List Expr}
    (h : ∀ x ∈ es, (x.outline env).Shows (x.effects env.method)) :
    (ofStart env locals (Expr.outlineList env es)).Shows (Expr.effectsList env.method es) := by
  refine .skip ?_ (values_show false h)
  induction locals.filter fun l => !env.isResident l.id with
  | nil => exact .nothing
  | cons l ls ih => exact .skip (.define l) ih

theorem ofArguments_shows {args : List Expr} {params : List Parameter}
    (hlength : args.length = params.length)
    (h : ∀ x ∈ args, (x.outline env).Shows (x.effects env.method)) :
    (ofArguments ((Expr.outlineList env args).zip params)).Shows
      (Expr.effectsList env.method args) := by
  induction args generalizing params with
  | nil => exact .nothing
  | cons x args ih =>
    cases params with
    | nil => cases hlength
    | cons p params =>
      refine ((h x List.mem_cons_self).passed p.mode).seq ?_
      exact ih (Nat.succ.inj hlength) fun y hy => h y (List.mem_cons_of_mem x hy)

theorem called_shows (m : Method) (receiver : Option Expr) (nonVirtual : Bool) :
    (Script.all ((m.called receiver nonVirtual).map .code)).Shows
      (.ofCode (m.called receiver nonVirtual)) := by
  have hall : (m.called receiver nonVirtual).filter Instr.isEffect =
      m.called receiver nonVirtual := by
    unfold Method.called
    split
    · rfl
    · rfl
    · split
      · split <;> rfl
      · split <;> rfl
  have hcode := Script.Shows.all (m.called receiver nonVirtual)
  rwa [hall] at hcode

theorem ofCall_shows {receiver : Option Expr} {args : List Expr} (m : Method)
    (hr : ∀ r ∈ receiver, (r.outline env).Shows (r.effects env.method))
    (ha : ∀ x ∈ args, (x.outline env).Shows (x.effects env.method)) (nonVirtual : Bool)
    (use : Use) :
    (ofCall (Expr.outlineOption env receiver) m (Expr.outlineList env args) nonVirtual use).Shows
      ((if m.isStatic then ∅ else Expr.effectsOption env.method receiver) ++
        Expr.effectsList env.method args ++ .ofCode (m.called receiver nonVirtual)) := by
  have hreceiver : (Expr.outlineOption env receiver).map expr = receiver := by
    cases receiver <;> simp [Expr.outlineOption]
  unfold ofCall
  split
  · rename_i hlength
    have hlength : args.length = m.params.length := by
      rwa [Expr.outlineList_eq, List.length_map] at hlength
    have hresult : (ofResult m use).Shows ∅ := by
      refine .when ?_
      cases use with
      | unused => exact .quiet rfl
      | value => exact .when (.loadThrough _)
      | address => exact .nothing
    rw [hreceiver, Trace.append_assoc]
    refine (ofDispatch_shows hr m).seq ((ofArguments_shows hlength ha).seq ?_)
    exact (called_shows m receiver nonVirtual).quietly hresult
  · exact .fail _

theorem ofStore_shows (place : Place) (use : Use) :
    (ofStore place use).Shows (.ofCode place.effect) := by
  have hstore := place.script_shows
  unfold ofStore
  split
  · exact hstore
  · exact .skip (.quiet rfl) hstore
  · exact .skip (.quiet rfl) (.skip (.slot .store) (hstore.quietly (.slot .load)))

theorem ofAssign_shows {l r : Expr} (hl : (l.outline env).Shows (l.effects env.method))
    (hr : (r.outline env).Shows (r.effects env.method)) (isRef : Bool) (use : Use) :
    (ofAssign env (l.outline env) (r.outline env) isRef use).Shows
      (l.effects env.method ++ r.effects env.method ++ .ofCode (l.stored env.method isRef)) := by
  have hassigned : (ofAssigned (l.outline env) (r.outline env) isRef).Shows
      (r.effects env.method) := by
    unfold ofAssigned
    split
    · exact hr.address _
    · exact hr.value true
  unfold ofAssign
  rw [Expr.outline_expr, Trace.append_assoc, ← Expr.place_effect]
  refine (hl.target isRef).seq (hassigned.seq ?_)
  exact (ofStore_shows _ use).quietly (.when (.loadThrough _))

theorem ofConvert_shows {x : Expr} (hx : (x.outline env).Shows (x.effects env.method))
    (c : Conversion) (used : Bool) :
    (ofConvert (x.outline env) c used).Shows
      (if c.kind = .nullToPointer then ∅ else x.effects env.method) := by
  unfold ofConvert
  split
  · exact .fail _
  · split
    · exact .skip .constant (.popUnless used)
    · split
      · exact hx.value false
      · exact (hx.value true).quietly (.skip .remake (.popUnless used))

/-- A size that is folded leaves out only a literal. -/
theorem ofSize_shows (elem : Ty) {n : Expr} (hn : (n.outline env).Shows (n.effects env.method))
    (hs : n.Spelled) : (ofSize elem (n.outline env)).Shows (n.effects env.method) := by
  unfold ofSize
  split
  · rename_i hsize
    rw [Expr.outline_expr] at hsize
    have hconstant : n.constant ≠ none := by
      intro hnone
      simp [Emit.foldedSize?, hnone] at hsize
    have hliteral : n.effects env.method = ∅ := by
      cases n with
      | literal i => rfl
      | stackalloc i elem count inits => exact absurd hs.1 hconstant
      | _ => exact absurd hs hconstant
    rw [hliteral]
    exact .constant
  · exact (hn.value true).quietly .remake

theorem ofBlock_shows (elem : Ty) {n : Expr} (hn : (n.outline env).Shows (n.effects env.method))
    (hs : n.Spelled) (used : Bool) :
    (ofBlock env elem (n.outline env) [] used).Shows
      (n.effects env.method ++ .ofCode [.localloc]) := by
  have hstyle : Emit.fillStyle env elem [] = .element := by
    unfold Emit.fillStyle
    split <;> rfl
  refine (ofSize_shows elem hn hs).seq (.quietly (.code .localloc) ?_)
  cases used with
  | true =>
    rw [if_pos rfl, ofFill, List.map_nil, hstyle]
    exact .nothing
  | false => exact .skip .nothing (.quiet rfl)

theorem shows (env : Env) {e : Expr} (h : e.All Expr.Spelled) :
    (e.outline env).Shows (e.effects env.method) := by
  induction e using Expr.tree_induction with
  | literal i => exact .make (.inr rfl) (fun _ => .fail _) fun _ => .fail _
  | element i a x iha ihx =>
    have ha := iha (h.part (by simp [Expr.parts]))
    have hx := ihx (h.part (by simp [Expr.parts]))
    have hoperands := (ha.value true).seq (hx.value true)
    apply Shows.assignable h.here
    · intro used
      exact hoperands.quietly (.skip (.quiet rfl) (.popUnless used))
    · intro kind
      exact hoperands.quietly (.quiet rfl)
    · intro isRef
      exact hoperands
  | deref i p ihp =>
    have hp := (ihp (h.part (by simp [Expr.parts]))).value true
    exact .assignable h.here
      (fun used => hp.quietly (.skip (.loadThrough _) (.popUnless used))) (fun _ => hp) fun _ => hp
  | typedRef i p ihp =>
    have hp := ((ihp (h.part (by simp [Expr.parts]))).value true).quietly
      (.quiet (i := .refanyval i.ty) rfl)
    exact .make (.inl h.here)
      (fun used => hp.quietly (.skip (.loadThrough _) (.popUnless used))) fun _ => hp
  | this i =>
    refine .make (.inl h.here) (ofLoad_shows rfl _ _) fun _ => .quiet ?_
    split <;> rfl
  | throw i p ihp =>
    have hp := (ihp (h.part (by simp [Expr.parts]))).value true
    exact .make (.inl h.here) (fun used => hp.seq (.throw used)) fun _ => hp.seq (.throw true)
  | param i p =>
    apply Shows.assignable h.here
    · exact ofLoad_shows rfl _ _
    · intro kind
      refine .quiet ?_
      split <;> rfl
    · intro isRef
      exact .when (.quiet rfl)
  | localVar i l =>
    apply Shows.assignable h.here
    · intro used
      exact .when (.skip (ofLocal_shows l .load) (.when (.loadThrough _)))
    · intro kind
      exact ofLocal_shows l _
    · intro isRef
      unfold ofLocalTarget
      split
      · exact ofLocal_shows l .load
      · split
        · exact .nothing
        · exact .define l
  | call i r m as nv ihr ihas =>
    have hr : ∀ x ∈ r, (x.outline env).Shows (x.effects env.method) := fun x hx =>
      ihr x hx (h.part (by simp_all [Expr.parts]))
    have has : ∀ x ∈ as, (x.outline env).Shows (x.effects env.method) := fun x hx =>
      ihas x hx (h.part (by simp [Expr.parts, hx]))
    exact .make (.inl h.here) (fun _ => ofCall_shows m hr has nv _) fun _ =>
      ofCall_shows m hr has nv _
  | duplicate i mode =>
    refine .make (.inl h.here) (fun used => .when ?_) fun _ => .duplicate
    exact .skip .duplicate (.skip (.when (.loadThrough _)) (.popUnless used))
  | field i r f b ihr =>
    have hr : ∀ x ∈ r, (x.outline env).Shows (x.effects env.method) := fun x hx =>
      ihr x hx (h.part (by simp_all [Expr.parts]))
    exact .assignable h.here (ofFieldLoad_shows hr f) (ofFieldLocate_shows hr f)
      (ofFieldTarget_shows hr f)
  | sequence i ls es v ihes ihv =>
    have hstart := ofStart_shows ls fun x hx => ihes x hx (h.part (by simp [Expr.parts, hx]))
    have hv := ihv (h.part (by simp [Expr.parts]))
    exact .make (.inl h.here) (fun used => hstart.seq (hv.value used)) fun kind =>
      hstart.seq (hv.address kind)
  | assign i l r isRef ihl ihr =>
    have hl := ihl (h.part (by simp [Expr.parts]))
    have hr := ihr (h.part (by simp [Expr.parts]))
    exact .make (.inl h.here) (fun _ => ofAssign_shows hl hr isRef _) fun _ =>
      ofAssign_shows hl hr isRef _
  | heldReceiver i => exact .make (.inl h.here) .popUnless fun _ => .nothing
  | eitherReceiver i v r ihv ihr =>
    have hv := ihv (h.part (by simp [Expr.parts]))
    have hr := ihr (h.part (by simp [Expr.parts]))
    exact .make (.inl h.here) (fun used => .choice .constant (hr.value used) (hv.value used))
      fun kind => .choice .constant (hr.address kind) (hv.receiver kind)
  | conditional i t c a isRef iht ihc iha =>
    have ht := (iht (h.part (by simp [Expr.parts]))).value true
    have hc := ihc (h.part (by simp [Expr.parts]))
    have ha := iha (h.part (by simp [Expr.parts]))
    exact .make (.inl h.here) (fun used => .choice ht (ha.value used) (hc.value used)) fun kind =>
      .choice ht (ha.address kind) (hc.address kind)
  | convert i p c ihp =>
    have hp := ihp (h.part (by simp [Expr.parts]))
    exact .make (.inl h.here) (ofConvert_shows hp c) fun _ => .fail _
  | delegate i r m nv ihr =>
    have hr : ∀ x ∈ r, (x.outline env).Shows (x.effects env.method) := fun x hx =>
      ihr x hx (h.part (by simp_all [Expr.parts]))
    exact .make (.inl h.here) (ofDelegate_shows hr i.ty m nv) fun _ => .fail _
  | stackalloc i elem n es ihn ihes =>
    have hpart := h.part (c := n) (by simp [Expr.parts])
    obtain ⟨hconstant, rfl⟩ : i.constant = none ∧ es = [] := h.here
    exact .make (.inl hconstant) (ofBlock_shows elem (ihn hpart) hpart.here) fun _ => .fail _

end Outline

namespace Emit

/-- Effects come once and in order, and do not depend on how the result is used: a value that is
used, one that is not, and an address of any kind all add code with the effects that the tree has,
numbered from the first label that is free. -/
theorem effects_in_order {e : Expr} (h : e.All Expr.Spelled) (env : Env) (s : State) :
    (∀ used t, value env e used s = .ok () t →
      s.stream.Shows (e.effects env.method) t.stream) ∧
    (∀ kind temp t, address env e kind s = .ok temp t →
      s.stream.Shows (e.effects env.method) t.stream) := by
  have hplan := plan_outlined env e
  have houtline := Outline.shows env h
  constructor
  · intro used t ht
    exact (hplan.emits_value used).shows (houtline.value used) ht
  · intro kind temp t ht
    exact (hplan.emits_address kind).shows (houtline.address kind) ht

/-- Call on a member of an argument, choose the value to pass by a call, and store the result. -/
def storeCalled : Expr :=
  let i32 := Ty.ofPrim .i32
  let pair := Ty.structNamed "Pair" false false
  let program := Ty.classNamed "Program"
  let method (name : String) (owner result : Ty) (isStatic : Bool) (params : List Parameter) :
      Method :=
    ⟨name, owner, .ordinary, isStatic, false, false, result, .byValue, params⟩
  let member : Expr := .field (.plain i32)
    (some (.param (.plain pair) ⟨"p", 0, pair, .input, .unscoped⟩))
    ⟨"X", pair, i32, false, false, false, .byValue⟩ false
  let chosen : Expr := .conditional (.plain i32)
    (.call (.plain (.ofPrim .bool)) none (method "Test" program (.ofPrim .bool) true []) [] false)
    (.literal ⟨i32, some (.int 1), .synthesized⟩)
    (.call (.plain i32) none (method "Get" program i32 true []) [] false) false
  .assign (.plain i32)
    (.field (.plain i32) none ⟨"total", program, i32, false, true, false, .byValue⟩ false)
    (.call (.plain i32) (some member)
      (method "Add" i32 i32 false [⟨"x", 0, i32, .byValue, .unscoped⟩]) [chosen] false) false

theorem storeCalled_spelled : storeCalled.All Expr.Spelled := by
  simp [Expr.All, storeCalled, Expr.every_iff (e := .assign ..), Expr.every_iff (e := .field ..),
    Expr.every_iff (e := .call ..), Expr.every_iff (e := .param ..),
    Expr.every_iff (e := .conditional ..), Expr.every_iff (e := .literal ..), Expr.parts,
    Expr.Spelled, Expr.constant, Expr.info, Info.plain]

theorem effects_in_order_storeCalled :
    let env := Env.bare (.ordinary (.classNamed "Program"))
    let verified := { env with compat := true }
    (storeCalled.effects env.method).code.length = 8 ∧
    (∃ t, value env storeCalled false .empty = .ok () t ∧
      State.empty.stream.Shows (storeCalled.effects env.method) t.stream) ∧
    ∃ temp t, address verified storeCalled .readonly .empty = .ok temp t ∧
      State.empty.stream.Shows (storeCalled.effects env.method) t.stream := by
  intro env verified
  have hv := effects_in_order storeCalled_spelled env .empty
  have ha := effects_in_order storeCalled_spelled verified .empty
  refine ⟨by decide +kernel, ?_, ?_⟩
  · have hy : yields (value env storeCalled false) .empty (fun _ _ => true) = true := by
      decide +kernel
    obtain ⟨⟨⟩, t, ht, -⟩ := ok_of_yields hy
    exact ⟨t, ht, hv.1 false t ht⟩
  · have hy : yields (address verified storeCalled .readonly) .empty (fun _ _ => true) = true := by
      decide +kernel
    obtain ⟨temp, t, ht, -⟩ := ok_of_yields hy
    exact ⟨temp, t, ht, ha.2 .readonly temp t ht⟩

end Emit

end TypedStack
