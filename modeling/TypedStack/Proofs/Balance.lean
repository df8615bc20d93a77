import TypedStack.Proofs.Outlines
import TypedStack.Proofs.StackEffect

/-! The stack effect of every emission, read off its script: a value that is used leaves one entry,
one that is not used leaves none, and an address leaves one. -/
namespace TypedStack

/-- What the count of the stack asks of a node: locals have slots, no receiver is held on the
stack, and a call that gives nothing is not used. -/
def Countable (env : Env) : Expr → Bool → Prop
  | .localVar _ l, _ => env.isResident l.id = false
  | .heldReceiver _, _ => False
  | .call _ _ m _ _, used => used = true → m.returnsValue = true
  | _, _ => True

/-- The code of a node finds all its operands in code of its own: nothing is copied from below,
and no delegate is counted as made that is not. -/
def SelfContained (env : Env) : Expr → Bool → Prop
  | .duplicate .., _ => False
  | .delegate i .., used => used = true → (Emit.delegateConstructor? env i.ty).isSome
  | _, _ => True

def Sound (strict : Bool) (env : Env) (e : Expr) (used : Bool) : Prop :=
  Countable env e used ∧ (strict = true → SelfContained env e used)

def Place.operands : Place → Nat
  | stack | slot _ | arg _ | staticField _ => 0
  | field _ | indirect _ => 1
  | element _ => 2

namespace Script

/-- How many entries a script finds on the stack, and how many it leaves. Under `strict` the depth
is never corrected by hand and nothing is copied from below. -/
inductive Moves (strict : Bool) : Script → Nat → Nat → Prop where
  | nothing (p) : Moves strict ∅ p p
  | seq {c d p q r} : Moves strict c p q → Moves strict d q r → Moves strict (c ++ d) p r
  | fail (p q) : Moves strict fail p q
  | code (i k) : Moves strict (code i) (k + i.pops) (k + i.pushes)
  | slot (access k) : Moves strict (slot access) (k + (Instr.slot access ⟨0⟩).pops)
    (k + (Instr.slot access ⟨0⟩).pushes)
  | duplicate (p) : strict = false → Moves strict duplicate p (p + 1)
  | throw (counted k) : Moves strict (throw counted) (k + 1) (k + counted.toNat)
  | adjust {d : Int} {p q : Nat} : strict = false → (q : Int) = p + d →
    Moves strict (adjust d) p q
  | define (l p) : Moves strict (define l) p p
  | constant (p) : Moves strict constant p (p + 1)
  | remake (k) : Moves strict remake (k + 1) (k + 1)
  | view (k) : Moves strict view (k + 1) (k + 1)
  | choice {leaves test other taken} (p) : Moves strict test 0 1 →
    Moves strict other 0 leaves.toNat → Moves strict taken 0 leaves.toNat →
    Moves strict (choice leaves test other taken) p (p + leaves.toNat)

namespace Moves

variable {strict : Bool} {c d : Script} {p q n : Nat}

theorem frame (h : c.Moves strict p q) (n : Nat) : c.Moves strict (n + p) (n + q) := by
  induction h with
  | nothing p => exact .nothing _
  | seq _ _ ih ih' => exact .seq ih ih'
  | fail => exact .fail _ _
  | code i k =>
    rw [← Nat.add_assoc, ← Nat.add_assoc]
    exact .code i _
  | slot access k =>
    rw [← Nat.add_assoc, ← Nat.add_assoc]
    exact .slot access _
  | duplicate p hs => exact .duplicate _ hs
  | throw counted k =>
    rw [← Nat.add_assoc, ← Nat.add_assoc]
    exact .throw counted _
  | adjust hs hq => exact .adjust hs (by omega)
  | define l p => exact .define l _
  | constant p => exact .constant _
  | remake k => exact .remake _
  | view k => exact .view _
  | choice p ht ho hk =>
    rw [← Nat.add_assoc]
    exact .choice _ ht ho hk

theorem counted {i : Instr} (hp : i.pops = p) (hq : i.pushes = q) (k : Nat) :
    (Script.code i).Moves strict (k + p) (k + q) := by
  rw [← hp, ← hq]
  exact .code i k

theorem abstract (hcd : c.Abstracts d) (h : c.Moves strict p q) : d.Moves strict p q := by
  cases hcd with
  | @constant i hi =>
    cases h
    cases i with
    | ldcI4 | ldcI8 | ldcR4 | ldcR8 | ldnull => exact .code _ p
    | _ => cases hi
  | size ty =>
    cases h
    exact .code _ p
  | boxed ty =>
    cases h
    exact .seq (.slot .address p) (.seq (.code _ p) (.seq (.slot .load p) (.code _ p)))
  | converted =>
    cases h
    exact .seq (.constant p) (.remake p)
  | nothing =>
    cases h
    exact .nothing _
  | @remake i hi =>
    cases h with
    | remake k =>
      cases i with
      | conv | box | unboxAny | castclass => exact .code _ k
      | _ => cases hi
  | again =>
    cases h with
    | remake k => exact .seq (.remake k) (.remake k)
  | @combine i hi =>
    cases h with
    | remake k =>
      refine .seq (.constant _) ?_
      cases i with
      | add | mul | mulOvfUn => exact .code _ k
      | _ => cases hi
  | fill =>
    cases h with
    | remake k =>
      exact .seq (.code _ k) (.seq (.constant _) (.seq (.constant _) (.code _ (k + 1))))
  | skip => exact .seq (.nothing p) h
  | quietly => exact .seq h (.nothing q)
  | assoc =>
    cases h with
    | seq hcd he =>
      cases hcd with
      | seq hc hd => exact .seq hc (.seq hd he)

theorem when {b : Bool} (h : b = true → c.Moves strict p q) (hb : b = false → p = q) :
    (c.when b).Moves strict p q := by
  unfold Script.when
  split
  · exact h ‹_›
  · rw [hb (Bool.eq_false_iff.mpr ‹_›)]
    exact .nothing q

theorem all {cs : List Script} (h : ∀ c ∈ cs, c.Moves strict n n) :
    (Script.all cs).Moves strict n n := by
  induction cs with
  | nil => exact .nothing n
  | cons c cs ih =>
    exact .seq (h c List.mem_cons_self) (ih fun d hd => h d (List.mem_cons_of_mem c hd))

theorem popUnless (used : Bool) : (Script.popUnless used).Moves strict 1 used.toNat := by
  cases used
  · exact .code .pop 0
  · exact .nothing 1

theorem loadThrough (b : Bool) (ty : Ty) :
    ((Script.loadThrough ty).when b).Moves strict 1 1 :=
  .when (fun _ => .code _ 0) fun _ => rfl

theorem store {place : Place} (h : place ≠ .stack) :
    place.script.Moves strict (place.operands + 1) 0 := by
  cases place
  · exact absurd rfl h
  · exact .slot .store 0
  all_goals exact .code _ 0

end Moves

end Script

namespace Emit

variable {α : Type} {env : Env} {P : Fault → Prop} {strict : Bool} {c : Script} {p q : Nat}
  {s t : State}

/-- Making a view takes the handle and gives the view; pinning takes the view's address and gives
the address of the data. -/
theorem view_calls {elem : Ty} {v : BlobView} (h : env.symbols.blobView? elem = some v) :
    ((Instr.call v.create).pops = 1 ∧ (Instr.call v.create).pushes = 1) ∧
      (Instr.call v.pin).pops = 1 ∧ (Instr.call v.pin).pushes = 1 := by
  unfold Symbols.blobView? at h
  split at h
  · cases h
    simp [Instr.pops, Instr.pushes, Method.inputs, Method.returnsValue, Ty.structNamed, Ty.isVoid,
      RefKind.isByRef]
  · cases h

theorem emitAll_gains (code : List Instr) (hplain : code.all Instr.isPlain)
    (h : (Script.all (code.map .code)).Moves strict p q) (s : Stream) :
    s.Gains strict p q (s.emitAll code) := by
  induction code generalizing s p with
  | nil =>
    cases h
    exact .refl s
  | cons i code ih =>
    obtain ⟨hi, hcode⟩ : i.isPlain = true ∧ code.all Instr.isPlain = true := by simpa using hplain
    cases h with
    | seq hfirst hrest =>
      cases hfirst with
      | code i k => exact ((Stream.Gains.emit hi).frame k).trans (ih hcode hrest _)

theorem Emits.gains {given : Prop} {own : List Slot} {m : Emit α} {post : α → List Slot}
    (h : Emits env (.only P) given own c m post) (hc : c.Moves strict p q) {a : α}
    (hm : m s = .ok a t) : s.stream.Gains strict p q t.stream := by
  induction h generalizing p q s t with
  | pure b =>
    obtain ⟨-, rfl⟩ := pure_ok.mp hm
    cases hc
    exact .refl _
  | bind_of _ _ ih ihk =>
    obtain ⟨b, u, hm, hk⟩ := bind_ok hm
    cases hc with
    | seq hc hd => exact (ih hc hm).trans (ihk s b u hm hd hk)
  | stand hstand _ ih => exact ih (hc.abstract hstand) hm
  | list _ _ _ ih => exact ih hc hm
  | fail => exact absurd hm fail_not_ok
  | instr hi _ _ hsays =>
    obtain rfl := instr_ok.mp hm
    have hplain := (Instr.isOrdinary_iff.mp hi).1
    cases hsays with
    | code i =>
      cases hc with
      | code i k => exact (Stream.Gains.emit hplain).frame k
    | slot access x =>
      cases hc with
      | slot access k => cases access <;> exact (Stream.Gains.emit hplain).frame k
    | duplicate =>
      cases hc with
      | duplicate p hs =>
        subst hs
        refine ⟨?_, Int.le_max_left _ _, nofun⟩
        simp only [State.lay, Stream.emit, Stream.adjust, Instr.delta]
        omega
  | throw counted =>
    cases hc with
    | throw counted k =>
      cases counted
      · cases hm
        exact (Stream.Gains.emit (i := .throw) rfl).frame k
      · cases hm
        exact (Stream.Gains.throw_counted s.stream).frame k
  | adjust d =>
    cases hm
    cases hc with
    | adjust hs hq =>
      subst hs
      refine ⟨?_, Int.le_max_left _ _, nofun⟩
      simp only [Stream.adjust]
      omega
  | define | allocate | free | retire | report =>
    cases hm
    cases hc
    exact .refl _
  | keep ty byRef _ ih =>
    obtain ⟨_, _, ⟨⟩, hm⟩ := bind_ok hm
    obtain ⟨_, _, ⟨⟩, hm⟩ := bind_ok hm
    cases hc with
    | seq hstore hc =>
      cases hstore with
      | slot access k =>
        have hstore : s.stream.Gains strict (k + 1) (k + 0)
            (s.stream.emit (.slot .store (s.slots.allocate ty byRef).1)) :=
          Stream.Gains.frame k (.emit (i := .slot .store (s.slots.allocate ty byRef).1) rfl)
        exact hstore.trans (ih _ hc hm)
  | copyBytes data =>
    rw [copyBytes_eq] at hm
    cases hm
    cases hc with
    | remake k =>
      refine emitAll_gains (bytesCopy _ _) rfl ?_ _
      exact .seq (.code _ k) (.seq (.code _ (k + 2)) (.seq (.code _ (k + 3))
        (.seq (.code _ (k + 1)) (.nothing _))))
  | @copyThroughView _ _ elem v hv size data =>
    rw [copyThroughView_eq] at hm
    cases hm
    obtain ⟨⟨hcreate, hview⟩, hpin, haddress⟩ := view_calls hv
    cases hc with
    | view k =>
      refine emitAll_gains (viewCopy _ _ _ _ _) rfl ?_ _
      have hmade : (Script.code (.call v.create)).Moves strict (k + 3) (k + 3) :=
        .counted hcreate hview (k + 2)
      have hpinned : (Script.code (.call v.pin)).Moves strict (k + 3) (k + 3) :=
        .counted hpin haddress (k + 2)
      exact .seq (.code _ k) (.seq (.code _ (k + 2)) (.seq hmade (.seq (.code _ (k + 2))
        (.seq (.code _ (k + 2)) (.seq hpinned (.seq (.code _ (k + 3)) (.seq (.code _ (k + 1))
          (.nothing _))))))))
  | block hblock => exact hblock.elim
  | branch _ _ _ iht iho ihk =>
    obtain ⟨u, v, w, ht, ho, hk, rfl⟩ := branch_ok hm
    cases hc with
    | choice p hct hco hck =>
      exact (branch_gains (iht hct ht) (iho hco ho) (ihk a.1 hck hk)).frame p

end Emit

namespace Outline

variable {env : Env} {strict : Bool}

/-- How many entries the three uses of a node leave. -/
structure Balanced (strict : Bool) (env : Env) (o : Outline) : Prop where
  value : ∀ used, o.expr.Every (Sound strict env) used → (o.value used).Moves strict 0 used.toNat
  address : o.expr.Every (Sound strict env) true → ∀ kind, (o.address kind).Moves strict 0 1
  target : o.expr.Every (Sound strict env) true → ∀ isRef,
    (o.target isRef).Moves strict 0 (o.expr.place env isRef).operands

structure Leaves (strict : Bool) (o : Outline) : Prop where
  value : (o.value true).Moves strict 0 1
  address : ∀ kind, (o.address kind).Moves strict 0 1

namespace Leaves

variable {o : Outline} (h : o.Leaves strict)

include h

theorem receiver (kind : AddressKind) : (o.receiver kind).Moves strict 0 1 := by
  unfold Outline.receiver
  split
  · exact h.value
  · exact h.address kind

theorem passed (mode : RefKind) : (o.passed mode).Moves strict 0 1 := by
  cases mode
  · exact h.value
  all_goals exact h.address _

theorem fieldSource : (ofFieldSource env o).Moves strict 0 1 := by
  unfold ofFieldSource
  split
  · exact h.value
  · split
    · exact h.address _
    · exact h.value

end Leaves

namespace Balanced

variable {e : Expr} {load : Bool → Script} {locate : AddressKind → Script}
  {target : Bool → Script}

theorem valueOf {used : Bool} (h : (load used).Moves strict 0 used.toNat) :
    (if e.isConstant then Script.when used .constant else load used).Moves strict 0 used.toNat := by
  split
  · cases used
    · exact .nothing 0
    · exact .constant 0
  · exact h

theorem addressOf (hl : (load true).Moves strict 0 1) {kind : AddressKind}
    (ha : (locate kind).Moves strict 0 1) :
    ((make env e load locate).address kind).Moves strict 0 1 := by
  dsimp only [Outline.make]
  split
  · exact ha
  · exact .seq (valueOf hl) (.seq (.slot .store 0) (.slot .address 0))

theorem make (hp : ∀ isRef, (e.place env isRef).operands = 1)
    (hl : ∀ used, e.Every (Sound strict env) used → (load used).Moves strict 0 used.toNat)
    (ha : e.Every (Sound strict env) true → ∀ kind, (locate kind).Moves strict 0 1) :
    (make env e load locate).Balanced strict env where
  value used h := valueOf (hl used h)
  address h kind := addressOf (hl true h) (ha h kind)
  target h isRef := by
    have haddress : ((Outline.make env e load locate).address .writable).Moves strict 0 1 :=
      addressOf (hl true h) (ha h .writable)
    rw [← hp isRef] at haddress
    exact haddress

theorem assignable
    (hl : ∀ used, e.Every (Sound strict env) used → (load used).Moves strict 0 used.toNat)
    (ha : e.Every (Sound strict env) true → ∀ kind, (locate kind).Moves strict 0 1)
    (ht : e.Every (Sound strict env) true → ∀ isRef,
      (target isRef).Moves strict 0 (e.place env isRef).operands) :
    (assignable env e load locate target).Balanced strict env :=
  ⟨fun used h => valueOf (hl used h), fun h kind => addressOf (hl true h) (ha h kind), ht⟩

section

variable {x : Expr} (h : (x.outline env).Balanced strict env)

include h

theorem value_of {used : Bool} (hx : x.Every (Sound strict env) used) :
    ((x.outline env).value used).Moves strict 0 used.toNat :=
  h.value used (by rwa [Expr.outline_expr])

theorem wanted (hx : x.Every (Sound strict env) true) :
    ((x.outline env).value true).Moves strict 0 1 := h.value_of hx

theorem leaves_of (hx : x.Every (Sound strict env) true) : (x.outline env).Leaves strict :=
  ⟨h.wanted hx, h.address (by rwa [Expr.outline_expr])⟩

end

end Balanced

/-! ### Nodes -/

theorem ofLocal_moves {l : Local} (h : env.isResident l.id = false) {access : Access}
    (ha : access ≠ .store) : (ofLocal env l access).Moves strict 0 1 := by
  unfold ofLocal
  rw [if_neg (by simp [h])]
  refine .seq (.define l 0) ?_
  cases access with
  | load => exact .slot .load 0
  | address => exact .slot .address 0
  | store => exact absurd rfl ha

theorem ofLocalTarget_moves (i : Info) {l : Local} (h : env.isResident l.id = false)
    (isRef : Bool) : (ofLocalTarget env l isRef).Moves strict 0
      ((Expr.localVar i l).place env isRef).operands := by
  have hslot : ¬ env.isResident l.id = true := Bool.eq_false_iff.mp h
  rw [ofLocalTarget, Expr.place, if_neg hslot, if_neg hslot]
  split
  · exact ofLocal_moves h (by decide : Access.load ≠ .store)
  · exact .define l 0

theorem ofLoad_moves {i : Instr} (hp : i.pops = 0) (hq : i.pushes = 1) (byRef : Bool) (ty : Ty)
    (used : Bool) : (ofLoad i byRef ty used).Moves strict 0 used.toNat := by
  cases used
  · exact .nothing 0
  · exact .seq (.counted hp hq 0) (.loadThrough byRef ty)

theorem ofDuplicate_moves (ty : Ty) (mode : RefKind) (used : Bool) :
    (ofDuplicate ty mode used).Moves false 0 used.toNat := by
  apply Script.Moves.when
  · intro _
    exact .seq (.duplicate 0 rfl) (.seq (.loadThrough mode.isByRef ty) (.popUnless used))
  · intro h
    rw [(Bool.or_eq_false_iff.mp h).1]
    rfl

variable {receiver : Option Outline} {f : Field}

theorem ofFieldLoad_moves {used : Bool}
    (hv : ∀ r ∈ receiver, (r.value (used || r.ty.isVerifierReference)).Moves strict 0
      (used || r.ty.isVerifierReference).toNat)
    (ha : used = true → ∀ r ∈ receiver, ∀ kind, (r.address kind).Moves strict 0 1) :
    (ofFieldLoad env receiver f used).Moves strict 0 used.toNat := by
  unfold ofFieldLoad
  split
  · exact ofLoad_moves rfl rfl _ _ _
  · cases receiver with
    | none => exact .fail _ _
    | some r =>
      replace hv := hv r rfl
      simp only [Option.elim_some]
      split
      · rename_i hunused
        obtain ⟨rfl, href⟩ : used = false ∧ r.ty.isVerifierReference = false := by
          simpa using hunused
        rwa [href] at hv
      · rename_i hwanted
        have hw : (used || r.ty.isVerifierReference) = true := by
          cases used <;> simp_all
        rw [hw] at hv
        have hsource : (ofFieldSource env r).Moves strict 0 1 := by
          cases used with
          | true => exact Leaves.fieldSource ⟨hv, ha rfl r rfl⟩
          | false =>
            have href : r.ty.isVerifierReference = true := hw
            unfold ofFieldSource
            rwa [if_pos href]
        refine .seq hsource (.seq (.code (.field .load f) 0) ?_)
        exact .seq (.loadThrough _ _) (.popUnless used)

theorem ofFieldLocate_moves (h : ∀ r ∈ receiver, r.Leaves strict) (kind : AddressKind) :
    (ofFieldLocate receiver f kind).Moves strict 0 1 := by
  unfold ofFieldLocate Emit.fieldAccess
  split
  · split <;> exact .code _ 0
  · cases receiver with
    | none => exact .fail _ _
    | some r =>
      refine .seq ((h r rfl).receiver _) ?_
      split <;> exact .code _ 0

theorem ofFieldTarget_moves (i : Info) {o : Option Expr} (byValue : Bool)
    (h : ∀ r ∈ receiver, r.Leaves strict) (isRef : Bool) :
    (ofFieldTarget receiver f isRef).Moves strict 0
      ((Expr.field i o f byValue).place env isRef).operands := by
  unfold ofFieldTarget Expr.place
  dsimp only
  cases hs : f.isStatic with
  | true =>
    simp only [ite_true]
    split
    · rename_i hthrough
      rw [Script.when, if_pos hthrough]
      exact .code _ 0
    · rename_i hplain
      rw [Script.when, if_neg hplain]
      exact .nothing 0
  | false =>
    simp only [Bool.false_eq_true, if_false]
    cases receiver with
    | none => exact .fail _ _
    | some r =>
      have hr := (h r rfl).receiver .writable
      split
      · rename_i hthrough
        rw [Option.elim_some, Script.when, if_pos hthrough]
        exact .seq hr (.code _ 0)
      · rename_i hplain
        rw [Option.elim_some, Script.when, if_neg hplain]
        exact .seq hr (.nothing 1)

theorem ofStart_moves (locals : List Local) {effects : List Outline}
    (h : ∀ o ∈ effects, (o.value false).Moves strict 0 0) :
    (ofStart env locals effects).Moves strict 0 0 := by
  refine .seq (.all ?_) (.all ?_)
  · rintro c hc
    obtain ⟨l, -, rfl⟩ := List.mem_map.mp hc
    exact .define l 0
  · rintro c hc
    obtain ⟨o, ho, rfl⟩ := List.mem_map.mp hc
    exact h o ho

/-- A copy of what is stored is on the stack after the store, wherever it waited. -/
theorem ofStore_moves {place : Place} (h : place ≠ .stack) (use : Use) :
    (ofStore place use).Moves strict (place.operands + 1) (use != .unused).toNat := by
  have hstore : place.script.Moves strict (place.operands + 1) 0 := .store h
  have hbelow : place.script.Moves strict (place.operands + 2) 1 := by
    have hframed := hstore.frame 1
    rwa [Nat.add_comm 1] at hframed
  have hcopy : (Script.code .dup).Moves strict (place.operands + 1) (place.operands + 2) :=
    .code .dup _
  have hkeep : (Script.slot .store).Moves strict (place.operands + 2) (place.operands + 1) :=
    .slot .store _
  unfold ofStore
  cases use with
  | unused => exact hstore
  | value | address =>
    cases place.takesOperands with
    | false => exact .seq hcopy hbelow
    | true => exact .seq hcopy (.seq hkeep (.seq hstore (.slot .load 0)))

/-- Only a local that lives on the stack is stored to by leaving the value there. -/
theorem place_not_stack {e : Expr} (h : Countable env e true) (isRef : Bool) :
    e.place env isRef ≠ .stack := by
  unfold Expr.place
  split
  · rename_i l
    have hl : env.isResident l.id = false := h
    rw [hl]
    split <;> simp
  all_goals (repeat' split) <;> simp

theorem ofAssign_moves {left right : Outline} {isRef : Bool} (use : Use)
    (ht : (left.target isRef).Moves strict 0 (left.expr.place env isRef).operands)
    (hp : left.expr.place env isRef ≠ .stack) (hr : right.Leaves strict) :
    (ofAssign env left right isRef use).Moves strict 0 (use != .unused).toNat := by
  have hassigned : (ofAssigned left right isRef).Moves strict 0 1 := by
    unfold ofAssigned
    split
    · exact hr.address _
    · exact hr.value
  refine .seq ht (.seq (hassigned.frame _) (.seq (ofStore_moves hp use) (.when ?_ fun _ => rfl)))
  intro hu
  have hused : (use != .unused) = true := by
    cases use <;> simp_all
  rw [hused]
  exact .code _ 0

section

variable {m : Method} {args : List Outline}

theorem ofDispatch_moves (hr : ∀ r ∈ receiver, r.Leaves strict) :
    (ofDispatch receiver m).Moves strict 0 (!m.isStatic).toNat := by
  unfold ofDispatch
  cases m.isStatic with
  | true => exact .nothing 0
  | false =>
    cases receiver with
    | none => exact .fail _ _
    | some r => exact (hr r rfl).receiver _

theorem ofArguments_moves {xs : List (Outline × Parameter)} (h : ∀ x ∈ xs, x.1.Leaves strict)
    (n : Nat) : (ofArguments xs).Moves strict n (n + xs.length) := by
  induction xs generalizing n with
  | nil => exact .nothing n
  | cons x xs ih =>
    have hrest := ih (fun y hy => h y (List.mem_cons_of_mem x hy)) (n + 1)
    rw [Nat.add_assoc, Nat.add_comm 1] at hrest
    exact .seq (((h x List.mem_cons_self).passed x.2.mode).frame n) hrest

theorem called_moves (m : Method) (o : Option Expr) (nonVirtual : Bool) :
    (Script.all ((m.called o nonVirtual).map .code)).Moves strict m.inputs
      m.returnsValue.toNat := by
  have hcall (i : Instr) (hp : i.pops = m.inputs) (hq : i.pushes = m.returnsValue.toNat) :
      (Script.code i ++ ∅).Moves strict m.inputs m.returnsValue.toNat := by
    refine .seq ?_ (.nothing _)
    rw [← Nat.zero_add m.inputs, ← Nat.zero_add m.returnsValue.toNat]
    exact .counted hp hq 0
  unfold Method.called
  split
  · exact hcall _ rfl rfl
  · exact hcall _ rfl rfl
  · split
    · split <;> exact hcall _ rfl rfl
    · split
      · exact hcall _ rfl rfl
      · exact .seq (.code _ _) (hcall _ rfl rfl)

theorem ofResult_moves {use : Use} (h : use ≠ .unused → m.returnsValue = true) :
    (ofResult m use).Moves strict m.returnsValue.toNat (use != .unused).toNat := by
  unfold ofResult
  cases hm : m.returnsValue with
  | false =>
    have huse : use = .unused := by
      by_contra hused
      rw [h hused] at hm
      cases hm
    rw [huse]
    exact .nothing 0
  | true =>
    cases use with
    | unused => exact .code .pop 0
    | value => exact .loadThrough _ _
    | address => exact .nothing 1

theorem ofCall_moves (hr : ∀ r ∈ receiver, r.Leaves strict) (ha : ∀ a ∈ args, a.Leaves strict)
    {use : Use} (h : use ≠ .unused → m.returnsValue = true) (nonVirtual : Bool) :
    (ofCall receiver m args nonVirtual use).Moves strict 0 (use != .unused).toNat := by
  unfold ofCall
  split
  · rename_i hlength
    have hinputs : (!m.isStatic).toNat + (args.zip m.params).length = m.inputs := by
      rw [List.length_zip, hlength, Nat.min_self]
      unfold Method.inputs
      cases m.isStatic <;> simp [Nat.add_comm]
    have hargs : (ofArguments (args.zip m.params)).Moves strict (!m.isStatic).toNat m.inputs :=
      hinputs ▸ ofArguments_moves (fun x hx => ha _ (List.of_mem_zip hx).1) _
    exact .seq (ofDispatch_moves hr) (.seq hargs (.seq (called_moves m _ nonVirtual)
      (ofResult_moves h)))
  · exact .fail _ _

end

theorem ofConvert_moves {o : Outline} {c : Conversion} {used : Bool}
    (h : (o.value (used || c.hasEffect)).Moves strict 0 (used || c.hasEffect).toNat) :
    (ofConvert o c used).Moves strict 0 used.toNat := by
  unfold ofConvert
  split
  · exact .fail _ _
  · split
    · exact .seq (.constant 0) (.popUnless used)
    · split
      · rename_i hunused
        obtain ⟨rfl, heffect⟩ : used = false ∧ c.hasEffect = false := by simpa using hunused
        rwa [heffect] at h
      · rename_i hwanted
        have hw : (used || c.hasEffect) = true := by
          cases used <;> simp_all
        rw [hw] at h
        exact .seq h (.seq (.remake 0) (.popUnless used))

theorem ofConstruct_moves {ty : Ty}
    (h : strict = true → (Emit.delegateConstructor? env ty).isSome) :
    (ofConstruct env ty).Moves strict 2 1 := by
  unfold ofConstruct
  cases hm : Emit.delegateConstructor? env ty with
  | some m =>
    have hctor : Emit.isDelegateConstructor m = true := List.find?_some hm
    have hparams : m.params.length = 2 := by
      unfold Emit.isDelegateConstructor at hctor
      split at hctor
      · rename_i heq
        rw [heq]
        rfl
      · cases hctor
    exact .counted (i := .newobj m) hparams rfl 0
  | none =>
    refine .adjust ?_ rfl
    by_contra hs
    have hsome := h (Bool.not_eq_false _ ▸ hs)
    rw [hm] at hsome
    cases hsome

theorem ofDelegate_moves {ty : Ty} (m : Method) (nonVirtual : Bool) {used : Bool}
    (hv : ∀ r ∈ receiver, (r.value used).Moves strict 0 used.toNat)
    (hc : strict = true → used = true → (Emit.delegateConstructor? env ty).isSome) :
    (ofDelegate env ty receiver m nonVirtual used).Moves strict 0 used.toNat := by
  have hpassed : ∀ r ∈ (if m.isStatic then none else receiver),
      (r.value used).Moves strict 0 used.toNat := by
    split
    · nofun
    · exact hv
  unfold ofDelegate
  generalize (if m.isStatic then none else receiver) = target at hpassed
  cases used with
  | false =>
    cases target with
    | none => exact .nothing 0
    | some r => exact hpassed r rfl
  | true =>
    have htarget : (target.elim Script.constant fun r => r.value true ++ .remake).Moves strict
        0 1 := by
      cases target with
      | none => exact .constant 0
      | some r => exact .seq (hpassed r rfl) (.remake 0)
    have hpointer : (ofPointer m nonVirtual).Moves strict 1 2 := by
      unfold ofPointer
      split
      · exact .seq (.code .dup 0) (.code _ 1)
      · exact .code _ 1
    exact .seq htarget (.seq hpointer (ofConstruct_moves fun hs => hc hs rfl))

section

variable {elem : Ty} {inits : List Outline} (h : ∀ o ∈ inits, (o.value true).Moves strict 0 1)

include h

theorem ofEntries_moves (constants : Bool) : (ofEntries elem constants inits).Moves strict 1 1 := by
  refine .all fun c hc => ?_
  obtain ⟨o, ho, rfl⟩ := List.mem_map.mp hc
  refine .when (fun _ => ?_) fun _ => rfl
  exact .seq (.code .dup 0) (.seq (.remake 1) (.seq ((h o ho).frame 2) (.code _ 1)))

theorem ofFill_moves : (ofFill env elem inits).Moves strict 1 1 := by
  have hothers (b : Bool) : ((ofEntries elem false inits).when b).Moves strict 1 1 :=
    .when (fun _ => ofEntries_moves h false) fun _ => rfl
  unfold ofFill
  dsimp only
  split
  · exact ofEntries_moves h true
  · split
    · exact .fail _ _
    · split
      · exact .fail _ _
      · unfold ofData
        dsimp only
        split
        · exact .seq (.remake 0) (hothers _)
        · exact .seq (.remake 0) (hothers _)
        · exact .seq (.view 0) (hothers _)
        · exact ofEntries_moves h true

end

theorem ofBlock_moves {elem : Ty} {count : Outline} {inits : List Outline} {used : Bool}
    (hn : (count.value true).Moves strict 0 1)
    (hi : ∀ o ∈ inits, (o.value used).Moves strict 0 used.toNat) :
    (ofBlock env elem count inits used).Moves strict 0 used.toNat := by
  have hsize : (ofSize elem count).Moves strict 0 1 := by
    unfold ofSize
    split
    · exact .constant 0
    · exact .seq hn (.remake 0)
  refine .seq hsize (.seq (.code .localloc 0) ?_)
  cases used with
  | true => exact ofFill_moves hi
  | false =>
    refine .seq (.all fun c hc => ?_) (.code .pop 0)
    obtain ⟨o, ho, rfl⟩ := List.mem_map.mp hc
    exact (hi o ho).frame 1

/-- Every use of a tree leaves what it should where its nodes can be counted. -/
theorem balanced (strict : Bool) (env : Env) (e : Expr) :
    (e.outline env).Balanced strict env := by
  induction e using Expr.tree_induction with
  | literal i => exact .make (fun _ => rfl) (fun _ _ => .fail _ _) fun _ _ => .fail _ _
  | element i a x ha hx =>
    have hoperands {used} (h : (Expr.element i a x).Every (Sound strict env) used) :
        ((a.outline env).value true ++ (x.outline env).value true).Moves strict 0 2 :=
      .seq (ha.wanted (h.part (by simp [Expr.parts])))
        ((hx.wanted (h.part (by simp [Expr.parts]))).frame 1)
    apply Balanced.assignable
    · intro used h
      exact .seq (hoperands h) (.seq (.code _ 0) (.popUnless used))
    · intro h kind
      exact .seq (hoperands h) (.code _ 0)
    · intro h isRef
      exact hoperands h
  | deref i p hp =>
    have hv {used} (h : (Expr.deref i p).Every (Sound strict env) used) :=
      hp.wanted (h.part (by simp [Expr.parts]))
    apply Balanced.assignable
    · intro used h
      exact .seq (hv h) (.seq (.code _ 0) (.popUnless used))
    · intro h kind
      exact hv h
    · intro h isRef
      exact hv h
  | typedRef i p hp =>
    have hv {used} (h : (Expr.typedRef i p).Every (Sound strict env) used) :
        ((p.outline env).value true ++ .code (.refanyval i.ty)).Moves strict 0 1 :=
      .seq (hp.wanted (h.part (by simp [Expr.parts]))) (.code _ 0)
    exact .make (fun _ => rfl) (fun used h => .seq (hv h) (.seq (.code _ 0) (.popUnless used)))
      fun h _ => hv h
  | this i =>
    refine .make (fun _ => rfl) (fun used _ => ofLoad_moves rfl rfl _ _ used) fun _ _ => ?_
    split <;> exact .code _ 0
  | throw i p hp =>
    have hv {used} (h : (Expr.throw i p).Every (Sound strict env) used) :=
      hp.wanted (h.part (by simp [Expr.parts]))
    have hthrow (used : Bool) : (Script.throw used).Moves strict 1 used.toNat := by
      cases used <;> exact .throw _ 0
    exact .make (fun _ => rfl) (fun used h => .seq (hv h) (hthrow used)) fun h _ =>
      .seq (hv h) (hthrow true)
  | param i p =>
    apply Balanced.assignable
    · intro used _
      exact ofLoad_moves rfl rfl _ _ used
    · intro _ kind
      split <;> exact .code _ 0
    · intro _ isRef
      rw [Script.when, Expr.place]
      split
      · exact .code _ 0
      · exact .nothing 0
  | localVar i l =>
    apply Balanced.assignable
    · intro used h
      cases used
      · exact .nothing 0
      · exact .seq (ofLocal_moves h.here.1 (by decide)) (.loadThrough _ _)
    · intro h kind
      refine ofLocal_moves h.here.1 ?_
      split <;> decide
    · intro h isRef
      exact ofLocalTarget_moves i h.here.1 isRef
  | call i r m as nv hr has =>
    have hcall (use : Use) (h : (Expr.call i r m as nv).Every (Sound strict env)
        (use != .unused)) : (ofCall (Expr.outlineOption env r) m (Expr.outlineList env as) nv
          use).Moves strict 0 (use != .unused).toNat := by
      refine ofCall_moves ?_ ?_ (fun hu => h.here.1 (bne_iff_ne.mpr hu)) nv
      · exact Expr.forall_outlineOption.mpr fun x hx =>
          (hr x hx).leaves_of (h.part (by simp_all [Expr.parts]))
      · exact Expr.forall_outlineList.mpr fun x hx =>
          (has x hx).leaves_of (h.part (by simp_all [Expr.parts]))
    apply Balanced.make fun _ => rfl
    · intro used h
      cases used
      · exact hcall .unused h
      · exact hcall .value h
    · intro h _
      exact hcall .address h
  | duplicate i mode =>
    cases strict with
    | true =>
      exact .make (fun _ => rfl) (fun _ h => (h.here.2 rfl).elim) fun h => (h.here.2 rfl).elim
    | false =>
      exact .make (fun _ => rfl) (fun used _ => ofDuplicate_moves i.ty mode used) fun _ _ =>
        .duplicate 0 rfl
  | field i r f b hr =>
    have hleaves {used} (h : (Expr.field i r f b).Every (Sound strict env) used)
        (hu : used = true) : ∀ o ∈ Expr.outlineOption env r, o.Leaves strict :=
      Expr.forall_outlineOption.mpr fun x hx =>
        (hr x hx).leaves_of (h.part (by simp_all [Expr.parts]))
    apply Balanced.assignable
    · intro used h
      refine ofFieldLoad_moves ?_ fun hu o ho => (hleaves h hu o ho).address
      refine Expr.forall_outlineOption.mpr fun x hx => (hr x hx).value_of (h.part ?_)
      rw [Outline.ty, Expr.outline_expr]
      simp_all [Expr.parts]
    · intro h
      exact ofFieldLocate_moves (hleaves h rfl)
    · intro h
      exact ofFieldTarget_moves i b (hleaves h rfl)
  | sequence i ls es v hes hv =>
    have hstart {used} (h : (Expr.sequence i ls es v).Every (Sound strict env) used) :
        (ofStart env ls (Expr.outlineList env es)).Moves strict 0 0 :=
      ofStart_moves ls (Expr.forall_outlineList.mpr fun x hx =>
        (hes x hx).value_of (h.part (by simp [Expr.parts, hx])))
    apply Balanced.make fun _ => rfl
    · intro used h
      exact .seq (hstart h) (hv.value_of (h.part (by simp [Expr.parts])))
    · intro h kind
      exact .seq (hstart h) ((hv.leaves_of (h.part (by simp [Expr.parts]))).address kind)
  | assign i l r isRef hl hr =>
    have hassign (use : Use) {used} (h : (Expr.assign i l r isRef).Every (Sound strict env) used) :
        (ofAssign env (l.outline env) (r.outline env) isRef use).Moves strict 0
          (use != .unused).toNat := by
      have hleft := h.part (c := l) (v := true) (by simp [Expr.parts])
      have htarget := hl.target (by simpa using hleft) isRef
      refine ofAssign_moves use htarget ?_ (hr.leaves_of (h.part (by simp [Expr.parts])))
      rw [Expr.outline_expr]
      exact place_not_stack hleft.here.1 isRef
    apply Balanced.make fun _ => rfl
    · intro used h
      cases used
      · exact hassign .unused h
      · exact hassign .value h
    · intro h _
      exact hassign .address h
  | heldReceiver i =>
    exact .make (fun _ => rfl) (fun _ h => h.here.1.elim) fun h => h.here.1.elim
  | eitherReceiver i v r hv hr =>
    apply Balanced.make fun _ => rfl
    · intro used h
      have hother := hr.value_of (h.part (v := used) (by simp [Expr.parts]))
      have htaken := hv.value_of (h.part (v := used) (by simp [Expr.parts]))
      simpa using Script.Moves.choice 0 (.constant 0) hother htaken
    · intro h kind
      exact .choice 0 (.constant 0) ((hr.leaves_of (h.part (by simp [Expr.parts]))).address kind)
        ((hv.leaves_of (h.part (by simp [Expr.parts]))).receiver kind)
  | conditional i t c a isRef ht hc ha =>
    apply Balanced.make fun _ => rfl
    · intro used h
      have hother := ha.value_of (h.part (v := used) (by simp [Expr.parts]))
      have htaken := hc.value_of (h.part (v := used) (by simp [Expr.parts]))
      simpa using Script.Moves.choice 0 (ht.wanted (h.part (by simp [Expr.parts]))) hother htaken
    · intro h kind
      exact .choice 0 (ht.wanted (h.part (by simp [Expr.parts])))
        ((ha.leaves_of (h.part (by simp [Expr.parts]))).address kind)
        ((hc.leaves_of (h.part (by simp [Expr.parts]))).address kind)
  | convert i p c hp =>
    refine .make (fun _ => rfl) (fun used h => ?_) fun _ _ => .fail _ _
    exact ofConvert_moves (hp.value_of (h.part (by simp [Expr.parts])))
  | delegate i r m nv hr =>
    refine .make (fun _ => rfl) (fun used h => ?_) fun _ _ => .fail _ _
    refine ofDelegate_moves m nv (Expr.forall_outlineOption.mpr fun x hx => ?_) h.here.2
    exact (hr x hx).value_of (h.part (by simp_all [Expr.parts]))
  | stackalloc i elem n es hn hes =>
    refine .make (fun _ => rfl) (fun used h => ?_) fun _ _ => .fail _ _
    refine ofBlock_moves (hn.wanted (h.part (by simp [Expr.parts]))) ?_
    refine Expr.forall_outlineList.mpr fun x hx => ?_
    exact (hes x hx).value_of (h.part (by simp [Expr.parts, hx]))

end Outline

namespace Emit

/-- Emission keeps the stack in balance: one entry more for a value that is used and for every
address, and none for a value that is not used. -/
theorem stack_balanced (env : Env) (e : Expr) (s : State) :
    (∀ used t, e.Every (Countable env) used → value env e used s = .ok () t →
      t.stream.depth = s.stream.depth + if used then 1 else 0) ∧
    (∀ kind temp t, e.Every (Countable env) true → address env e kind s = .ok temp t →
      t.stream.depth = s.stream.depth + 1) := by
  have sound {used : Bool} (h : e.Every (Countable env) used) : e.Every (Sound false env) used :=
    fun n u hn => ⟨h n u hn, by simp⟩
  have hplan := plan_outlined env e
  have hcount := Outline.balanced false env e
  constructor
  · intro used t h ht
    have hd := ((hplan.emits_value used).gains (hcount.value_of (sound h)) ht).depth
    cases used <;> simpa using hd
  · intro kind temp t h ht
    have hleaves := (hcount.leaves_of (sound h)).address kind
    have hd := ((hplan.emits_address kind).gains hleaves ht).depth
    simpa using hd

/-- Bind a local to the second argument, or throw the third, as the first one says. -/
def bindOrThrow : Expr :=
  let i32 := Ty.ofPrim .i32
  let argument (n : UInt16) (ty : Ty) (mode : RefKind) : Expr :=
    .param (.plain ty) ⟨"p", n, ty, mode, .unscoped⟩
  .conditional (.plain i32) (argument 0 (.ofPrim .bool) .byValue)
    (.assign (.plain i32) (.localVar (.plain i32) ⟨0, i32, .ref⟩) (argument 1 i32 .ref) true)
    (.throw (.plain i32) (argument 2 .object .byValue)) true

theorem bindOrThrow_countable {env : Env} (h : env.isResident 0 = false) :
    bindOrThrow.Every (Countable env) true := by
  simp [bindOrThrow, Expr.every_iff (e := .conditional ..), Expr.every_iff (e := .assign ..),
    Expr.every_iff (e := .throw ..), Expr.every_iff (e := .param ..),
    Expr.every_iff (e := .localVar ..), Expr.parts, Countable, h]

theorem stack_balanced_bindOrThrow :
    (∃ t, value (.bare (.ordinary .object)) bindOrThrow true .empty = .ok () t ∧
      t.stream.depth = 1) ∧
    ∃ temp t, address (.bare (.ordinary .object)) bindOrThrow .writable .empty = .ok temp t ∧
      t.stream.depth = 1 := by
  have h := stack_balanced (.bare (.ordinary .object)) bindOrThrow .empty
  have hc : bindOrThrow.Every (Countable (.bare (.ordinary .object))) true :=
    bindOrThrow_countable rfl
  exact ⟨⟨_, rfl, h.1 true _ hc rfl⟩, ⟨_, _, rfl, h.2 .writable _ _ hc rfl⟩⟩

end Emit

end TypedStack
