import TypedStack.Proofs.Origins

/-! Strays. An address is judged where it is asked for. What lay on the stack before is not judged
again, and what the tree binds in order to read it is not judged again when it is loaded to be
written. -/
namespace TypedStack

/-- What is stored there can be loaded from here again. -/
def Place.Stores : Place → Holder → Prop
  | stack, _ | element _, _ => False
  | slot s, h => h = .slot s
  | arg n, h => h = .argument n
  | staticField f, h | field f, h => h = f.holder
  | indirect _, _ => True

/-- An assignment to the expression may change what is held here. -/
def Scope.StoresTo (k : Scope) (left : Expr) (isRef : Bool) (h : Holder) : Prop :=
  match left.place k.env isRef with
  | .slot _ => ∃ i l s, left = .localVar i l ∧ k.slots.slotOf? l.id = some s ∧ h = .slot s
  | place => place.Stores h

mutual

/-- The value of the tree is, or passes on, what already lies on the stack or is held by a stray. -/
inductive StrayValue (k : Scope) : Expr → Prop where
  | resident {i l} : k.env.isResident l.id → l.mode = .byValue → StrayValue k (.localVar i l)
  | localVar {i l s} : l.mode = .byValue → k.slots.slotOf? l.id = some s →
    StrayHolder k (.slot s) → StrayValue k (.localVar i l)
  | param {i p} : p.mode = .byValue → StrayHolder k (.argument (k.env.method.argument p)) →
    StrayValue k (.param i p)
  | this {i} : i.ty.isValueType = false → StrayHolder k (.argument 0) → StrayValue k (.this i)
  | field {i receiver f byValue} : f.mode = .byValue → StrayHolder k f.holder →
    StrayValue k (.field i receiver f byValue)
  | duplicate {i} : StrayValue k (.duplicate i .byValue)
  | heldReceiver {i} : StrayValue k (.heldReceiver i)
  /-- A call that gives nothing leaves what was there. -/
  | call {i receiver m args nonVirtual} : m.returnsValue = false →
    StrayValue k (.call i receiver m args nonVirtual)
  /-- Entries that take from below may leave something else than the block. -/
  | stackalloc {i elem count inits} : inits ≠ [] → StrayValue k (.stackalloc i elem count inits)
  | sequence {i locals effects value} : StrayValue k value →
    StrayValue k (.sequence i locals effects value)
  | assign {i left right} : StrayValue k right → StrayValue k (.assign i left right false)
  | value {i value reference} : StrayValue k value →
    StrayValue k (.eitherReceiver i value reference)
  | reference {i value reference} : StrayValue k reference →
    StrayValue k (.eitherReceiver i value reference)
  | consequence {i condition consequence alternative isRef} : StrayValue k consequence →
    StrayValue k (.conditional i condition consequence alternative isRef)
  | alternative {i condition consequence alternative isRef} : StrayValue k alternative →
    StrayValue k (.conditional i condition consequence alternative isRef)
  | convert {i operand c} : StrayValue k operand → StrayValue k (.convert i operand c)

/-- The address of the tree is, or leads on from, what already lies on the stack or is held by a
stray. -/
inductive StrayAddress (k : Scope) : AddressKind → Expr → Prop where
  | resident {kind i l} : k.env.hasHome (.localVar i l) kind → k.env.isResident l.id →
    StrayAddress k kind (.localVar i l)
  | localVar {kind i l s} : k.env.hasHome (.localVar i l) kind → l.mode.isByRef →
    k.slots.slotOf? l.id = some s → StrayHolder k (.slot s) → StrayAddress k kind (.localVar i l)
  | param {kind i p} : k.env.hasHome (.param i p) kind → p.mode.isByRef →
    StrayHolder k (.argument (k.env.method.argument p)) → StrayAddress k kind (.param i p)
  | this {kind i} : k.env.hasHome (.this i) kind → i.ty.isValueType →
    StrayHolder k (.argument 0) → StrayAddress k kind (.this i)
  | held {kind i receiver f byValue} : k.env.hasHome (.field i receiver f byValue) kind →
    f.mode.isByRef → StrayHolder k f.holder → StrayAddress k kind (.field i receiver f byValue)
  | duplicate {kind i mode} : k.env.hasHome (.duplicate i mode) kind →
    StrayAddress k kind (.duplicate i mode)
  | heldReceiver {kind i} : StrayAddress k kind (.heldReceiver i)
  | deref {kind i pointer} : StrayValue k pointer → StrayAddress k kind (.deref i pointer)
  | sequence {kind i locals effects value} : StrayAddress k kind value →
    StrayAddress k kind (.sequence i locals effects value)
  | object {kind i r f byValue} : k.env.hasHome (.field i (some r) f byValue) kind →
    f.mode = .byValue → r.ty.isVerifierReference → StrayValue k r →
    StrayAddress k kind (.field i (some r) f byValue)
  | member {kind i r f byValue} : k.env.hasHome (.field i (some r) f byValue) kind →
    f.mode = .byValue → r.ty.isVerifierReference = false →
    StrayAddress k (Emit.fieldReceiverKind kind) r →
    StrayAddress k kind (.field i (some r) f byValue)
  | assign {kind i left right} : k.env.hasHome (.assign i left right true) kind →
    StrayAddress k .writable right → StrayAddress k kind (.assign i left right true)
  | reference {kind i value reference} : StrayAddress k kind reference →
    StrayAddress k kind (.eitherReceiver i value reference)
  | receiver {kind i value reference} : value.ty.isVerifierReference → StrayValue k value →
    StrayAddress k kind (.eitherReceiver i value reference)
  | value {kind i value reference} : value.ty.isVerifierReference = false →
    StrayAddress k kind value → StrayAddress k kind (.eitherReceiver i value reference)
  | consequence {kind i condition consequence alternative} :
    k.env.hasHome (.conditional i condition consequence alternative true) kind →
    StrayAddress k kind consequence →
    StrayAddress k kind (.conditional i condition consequence alternative true)
  | alternative {kind i condition consequence alternative} :
    k.env.hasHome (.conditional i condition consequence alternative true) kind →
    StrayAddress k kind alternative →
    StrayAddress k kind (.conditional i condition consequence alternative true)

/-- The tree itself puts there what may lead anywhere. -/
inductive StrayHolder (k : Scope) : Holder → Prop where
  /-- Copies are made of whatever has no home. -/
  | temporary {s} : k.slots.Temporary s → StrayHolder k (.slot s)
  /-- What is bound to be read only is located for reading, wherever it is. -/
  | readonly {i left right h} : k.Has (.assign i left right true) → left.mode.isReadonly →
    k.StoresTo left true h → StrayHolder k h
  | reference {i left right h} : k.Has (.assign i left right true) →
    StrayAddress k .writable right → k.StoresTo left true h → StrayHolder k h
  | value {i left right h} : k.Has (.assign i left right false) → StrayValue k right →
    k.StoresTo left false h → StrayHolder k h
  /-- An entry is stored through an address, which may lead anywhere. -/
  | entry {i elem count inits x h} : k.Has (.stackalloc i elem count inits) → x ∈ inits →
    StrayValue k x → StrayHolder k h

end

namespace Scope

/-- Only strays hold what must not be written. -/
def Sound (k : Scope) (x : Tracked) : Prop :=
  ∀ h o, x.holds h o → ¬ StrayHolder k h → ¬ k.Protected o

variable {k : Scope} {x : Tracked} {i : Instr} {content : Origin}

theorem Sound.fresh (hx : x.Fresh) : k.Sound x := fun h o ho => absurd ho (hx h o)

theorem Sound.after (hx : k.Sound x) (hi : i.isStore = false) : k.Sound (x.after content i) := by
  intro h o ho
  have ho : x.keep i h o := ho
  rw [Tracked.keep_eq hi] at ho
  exact hx h o ho

theorem Sound.store (hx : k.Sound x)
    (hi : ∀ h, i.sets? = some h ∨ i.Reaches h → ¬ StrayHolder k h → k.Writable x) :
    k.Sound (x.after content i) := by
  intro h o ho hs
  rcases Tracked.keep_cases ho with ho | ⟨rfl, hreach⟩
  · exact hx h o ho hs
  · exact hi h hreach hs

theorem Sound.store_temporary {s : Slot} (hx : k.Sound x) (hs : k.slots.Temporary s) :
    k.Sound (x.after content (.slot .store s)) := by
  refine hx.store fun h hreach hstray => ?_
  rcases hreach with ⟨⟨⟩⟩ | ⟨⟨⟩⟩
  exact absurd (.temporary hs) hstray

theorem Sound.read {h : Holder} (hx : k.Sound x) (hread : x.MayRead i content)
    (hi : i.reads? = some h) (hs : ¬ StrayHolder k h) : ¬ k.Protected content := by
  rcases hread with rfl | ⟨h', hi', ho⟩
  · exact id
  · obtain rfl := Option.some.inj (hi.symm.trans hi')
    exact hx h content ho hs

end Scope

namespace Emit

variable {α : Type} {k : Scope}

/-- Every run of the code from a sound state ends like this. -/
abbrev Ends (k : Scope) (R : Tracked → Prop) (m : Emit α) : Prop :=
  Triple origins k.env k.slots k.Sound m fun _ => R

abbrev Keeps (k : Scope) (m : Emit α) : Prop := Ends k k.Sound m

def Allowed.sound (k : Scope) : Allowed where
  fault _ := True
  stores := False
  block m := Keeps k m
  stands _ _ := True
  lists _ _ := True
  known _ := True
  declared _ := True
  abstracts _ := trivial
  perm _ := trivial
  defined _ _ := trivial

theorem instr_keeps {i : Instr} (hi : i.isOrdinary) (hs : i.isStore = false) :
    Keeps k (instr i) := instr_ends hi fun _ _ hx _ _ => hx.after hs

theorem copyBytes_keeps (data : List UInt8) : Keeps k (copyBytes data) := by
  have hcopy : Follows k.env .any [] .remake (copyBytes data) := fun _ => .copyBytes data
  refine .code [] hcopy fun {s a t} hm _ => ?_
  rw [copyBytes_eq] at hm
  cases hm
  refine ⟨_, .emitAll _ _, fun i hi x y hx hstep => ?_⟩
  have hstore : i.isStore = false := by
    simp only [bytesCopy, List.mem_cons, List.not_mem_nil, or_false] at hi
    rcases hi with rfl | rfl | rfl | rfl <;> rfl
  rcases hstep with ⟨content, -, rfl⟩ | ⟨content, -, rfl⟩
  · exact hx.after hstore
  · exact hx.after hstore

theorem copyThroughView_keeps {elem : Ty} {v : BlobView}
    (hv : k.env.symbols.blobView? elem = some v) (size : Nat) (data : List UInt8) :
    Keeps k (copyThroughView v size data) := by
  have hcopy : Follows k.env .any [] .view (copyThroughView v size data) := fun _ =>
    .copyThroughView hv size data
  refine .code [] hcopy fun {s a t} hm hg => ?_
  rw [copyThroughView_eq] at hm
  cases hm
  have htemp : k.slots.Temporary (s.slots.allocate v.view false).1 :=
    SlotPool.allocate_temporary s.slots v.view false
      (((s.slots.allocate v.view false).2.serve_grows (.free _)).trans hg)
  refine ⟨_, .emitAll _ _, fun i hi x y hx hstep => ?_⟩
  have hnext (content : Origin) : k.Sound (x.after content i) := by
    simp only [viewCopy, List.mem_cons, List.not_mem_nil, or_false] at hi
    rcases hi with rfl | rfl | rfl | rfl | rfl | rfl | rfl | rfl
    · exact hx.after rfl
    · exact hx.after rfl
    · exact hx.after rfl
    · exact hx.store_temporary htemp
    all_goals exact hx.after rfl
  rcases hstep with ⟨content, -, rfl⟩ | ⟨content, -, rfl⟩
  · exact hnext content
  · exact hnext content

theorem Emits.keeps {given : Prop} {own : List Slot} {c : Script} {m : Emit α}
    {post : α → List Slot} (h : Emits k.env (.sound k) given own c m post) : Keeps k m := by
  induction h with
  | pure a => exact .pure fun _ hx => hx
  | bind_of _ _ ih ihk => exact ih.bind_of ihk
  | stand _ _ ih | list _ _ _ ih => exact ih
  | fail _ span => exact .fail _ span
  | instr hi hstore => exact instr_keeps hi (Bool.eq_false_iff.mpr hstore)
  | throw counted =>
    refine (instr_keeps rfl rfl).bind fun _ => ?_
    exact .when (fun _ => .adjust 1) fun _ _ hx => hx
  | adjust d => exact .adjust d
  | define hl => exact (Triple.define hl).conseq (fun _ hx => hx) fun _ _ hx => hx.1
  | allocate ty byRef =>
    exact (Triple.allocate ty byRef).conseq (fun _ hx => hx) fun _ _ hx => hx.1
  | free x => exact .free x
  | retire x => exact .retire x
  | report d => exact .report d
  | keep ty byRef _ ih =>
    -- the temporary may hold anything: it is a stray itself
    refine (Triple.allocate ty byRef).bind fun x => .bind (Q := fun _ => k.Sound) ?_ fun _ => ih x
    exact instr_ends rfl fun _ _ hx _ _ => hx.1.store_temporary hx.2
  | copyBytes data => exact copyBytes_keeps data
  | copyThroughView hv size data => exact copyThroughView_keeps hv size data
  | block hblock => exact hblock
  | branch _ _ _ iht iho ihk => exact choice_ends (fun hx => hx.after rfl) iht iho ihk

theorem Runs.keeps {c : Script} {m : Emit α} {post : α → List Slot}
    (h : Runs k.env (.sound k) [] c m post) : Keeps k m := (h True).keeps

end Emit

end TypedStack
