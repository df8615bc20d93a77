import TypedStack.Proofs.Defects

/-! What every emission is made of. A script tells what is emitted without the labels, slots and
tokens that are used for it, and a small class of programs follows scripts. A fact about all
emissions is one induction over that class; what an emission leaves, asks for or shows is read off
its script. -/
namespace TypedStack

namespace Instr

def target? : Instr → Option Label
  | br l | brtrue l | brfalse l => some l
  | _ => none

def mark? : Instr → Option Label
  | label l => some l
  | _ => none

/-- Neither a branch nor the mark of a label. -/
def isPlain (i : Instr) : Bool := i.target?.isNone && i.mark?.isNone

theorem isPlain_iff {i : Instr} : i.isPlain = true ↔ i.target? = none ∧ i.mark? = none := by
  simp [isPlain]

theorem mark_eq_some {i : Instr} {l : Label} : i.mark? = some l ↔ i = label l := by
  cases i <;> simp [mark?]

def token? : Instr → Option BlobToken
  | blobAddress t | blobHandle t => some t
  | _ => none

def slot? : Instr → Option Slot
  | slot _ s => some s
  | _ => none

/-- Plain, and has nothing to do with data. -/
def isOrdinary (i : Instr) : Bool := i.isPlain && i.token?.isNone

theorem isOrdinary_iff {i : Instr} :
    i.isOrdinary = true ↔ i.isPlain = true ∧ i.token? = none := by
  simp [isOrdinary]

def isStore : Instr → Bool
  | slot .store _ | arg .store _ | field .store _ | staticField .store _ | stelem _
  | stind _ => true
  | _ => false

/-- Ordinary, no store, and has nothing to do with slots. -/
def isQuiet (i : Instr) : Bool := i.isOrdinary && !i.isStore && i.slot?.isNone

theorem isQuiet_iff {i : Instr} :
    i.isQuiet = true ↔ i.isOrdinary = true ∧ i.isStore = false ∧ i.slot? = none := by
  simp [isQuiet, and_assoc]

def pushesConstant : Instr → Bool
  | ldcI4 _ | ldcI8 _ | ldcR4 _ | ldcR8 _ | ldnull => true
  | _ => false

def remakes : Instr → Bool
  | conv .. | box _ | unboxAny _ | castclass _ => true
  | _ => false

def combines : Instr → Bool
  | add | mul | mulOvfUn => true
  | _ => false

theorem isQuiet_of_pushesConstant {i : Instr} (h : i.pushesConstant = true) :
    i.isQuiet = true := by
  cases i <;> first | rfl | cases h

theorem isQuiet_of_remakes {i : Instr} (h : i.remakes = true) : i.isQuiet = true := by
  cases i <;> first | rfl | cases h

theorem isQuiet_of_combines {i : Instr} (h : i.combines = true) : i.isQuiet = true := by
  cases i <;> first | rfl | cases h

end Instr

theorem Numeric.conversion_all (source target : Prim) (checked : Bool) :
    ((conversion source target checked).getD []).all Instr.remakes := by
  cases source <;> cases target <;> cases checked <;> rfl

def State.empty : State := ⟨.empty, .empty, .empty, .empty⟩

/-- Nothing but the method is known. -/
def Env.bare (method : Enclosing) : Env :=
  { method, compat := false, resident := [], blobInitializers := true, symbols := ⟨[], false⟩,
    assertions := false }

def Info.plain (ty : Ty) : Info := ⟨ty, none, .synthesized⟩

namespace Emit

variable {α β : Type} {env : Env}

/-- The emission goes through, and what it leaves passes the test. -/
def yields (m : Emit α) (s : State) (test : α → State → Bool) : Bool :=
  match m s with
  | .ok a t => test a t
  | .error .. => false

theorem ok_of_yields {m : Emit α} {s : State} {test : α → State → Bool}
    (h : yields m s test = true) : ∃ a t, m s = .ok a t ∧ test a t = true := by
  unfold yields at h
  split at h
  · exact ⟨_, _, ‹_›, h⟩
  · cases h

theorem bind_ok {m : Emit α} {k : α → Emit β} {s u : State} {b : β}
    (h : (m >>= k) s = .ok b u) : ∃ a t, m s = .ok a t ∧ k a t = .ok b u := by
  change EStateM.bind m k s = _ at h
  unfold EStateM.bind at h
  split at h
  · exact ⟨_, _, ‹_›, h⟩
  · cases h

theorem bind_error {m : Emit α} {k : α → Emit β} {s u : State} {f : Failure}
    (h : (m >>= k) s = .error f u) :
    m s = .error f u ∨ ∃ a t, m s = .ok a t ∧ k a t = .error f u := by
  change EStateM.bind m k s = _ at h
  unfold EStateM.bind at h
  split at h
  · exact .inr ⟨_, _, ‹_›, h⟩
  · cases h
    exact .inl ‹_›

def after (m : Emit α) (s : State) : State :=
  match m s with
  | .ok _ t | .error _ t => t

theorem after_ok {m : Emit α} {s t : State} {a : α} (h : m s = .ok a t) : after m s = t := by
  rw [after, h]

theorem after_bind (m : Emit α) (k : α → Emit β) (s : State) :
    after (m >>= k) s = match m s with
      | .ok a t => after (k a) t
      | .error _ t => t := by
  change (match EStateM.bind m k s with | .ok _ t | .error _ t => t) = _
  unfold EStateM.bind
  cases m s <;> rfl

theorem discard_eq (m : Emit α) : discard m = m >>= fun _ => pure () := by
  funext s
  change EStateM.map _ m s = EStateM.bind m _ s
  unfold EStateM.map EStateM.bind
  cases m s <;> rfl

theorem pure_ok {a b : α} {s t : State} : (pure a : Emit α) s = .ok b t ↔ a = b ∧ s = t := by
  change EStateM.Result.ok a s = _ ↔ _
  simp

theorem fail_not_ok {fault : Fault} {span : Span} {a : α} {s t : State} :
    (fail fault span : Emit α) s ≠ .ok a t := by
  rintro ⟨⟩

/-! ### Scripts -/

end Emit

/-- What an emission does, without the labels, slots and tokens that it uses. -/
inductive Script where
  | nothing
  | seq (first rest : Script)
  /-- Nothing comes after this. -/
  | fail
  | code (i : Instr)
  | slot (access : Access)
  | duplicate
  /-- Throw, and count a value that is not there. -/
  | throw (counted : Bool)
  | adjust (d : Int)
  | define (l : Local)
  | constant
  | remake
  /-- Copy data through a view of it. -/
  | view
  | choice (leaves : Bool) (test other taken : Script)

namespace Script

instance : EmptyCollection Script := ⟨nothing⟩

instance : Append Script := ⟨seq⟩

inductive Says : Script → Instr → Prop where
  | code (i) : Says (code i) i
  | slot (access x) : Says (slot access) (.slot access x)
  | duplicate : Says duplicate .dup

/-- The first script says less of the same code. -/
inductive Abstracts : Script → Script → Prop where
  | constant {i} : i.pushesConstant → Abstracts constant (code i)
  | size (ty) : Abstracts constant (code (.sizeof ty))
  | boxed (ty) : Abstracts constant
    (slot .address ++ (code (.initobj ty) ++ (slot .load ++ code (.box ty))))
  | converted : Abstracts constant (constant ++ remake)
  | nothing : Abstracts remake ∅
  | remake {i} : i.remakes → Abstracts remake (code i)
  | again : Abstracts remake (remake ++ remake)
  | combine {i} : i.combines → Abstracts remake (constant ++ code i)
  | fill : Abstracts remake (code .dup ++ (constant ++ (constant ++ code .initblk)))
  | skip (c) : Abstracts c (∅ ++ c)
  | quietly (c) : Abstracts c (c ++ ∅)
  | assoc (c d e) : Abstracts (c ++ d ++ e) (c ++ (d ++ e))

end Script

namespace Emit

/-- What is asked of an emission, and what is taken for granted in it: the faults it may end in,
whether it stores anywhere but in new temporaries, further programs that are taken as they are, how
much of it a script leaves out, how the temporaries in hand are listed, what is known of the states
it comes to, and which slots are those of locals. -/
structure Allowed where
  fault : Fault → Prop
  stores : Prop
  block : Emit Unit → Prop
  stands : Script → Script → Prop
  lists : List Slot → List Slot → Prop
  known : State → Prop
  declared : Slot → Prop
  abstracts : ∀ {c d}, Script.Abstracts c d → stands c d
  perm : ∀ {xs ys}, xs.Perm ys → lists xs ys
  defined : ∀ {l s x t}, define l s = .ok x t → known t → declared x

/-- Scripts are kept to, and failures are with these faults. -/
def Allowed.only (P : Fault → Prop) : Allowed where
  fault := P
  stores := True
  block _ := False
  stands := Script.Abstracts
  lists := List.Perm
  known _ := True
  declared _ := True
  abstracts := id
  perm := id
  defined _ _ := trivial

def Allowed.any : Allowed where
  fault _ := True
  stores := True
  block _ := False
  stands _ _ := True
  lists _ _ := True
  known _ := True
  declared _ := True
  abstracts _ := trivial
  perm _ := trivial
  defined _ _ := trivial

/-- The programs that emission is written in, with the temporaries that they take over and leave.
Labels are made and marked only by `branch`, data is stored and named only to be copied, only
locals that do not live on the stack are given a slot, and the slots that are named are those of
locals and of temporaries in hand. -/
inductive Emits (env : Env) (ok : Allowed) :
    {α : Type} → Prop → List Slot → Script → Emit α → (α → List Slot) → Prop where
  | pure {α : Type} {given own} {post : α → List Slot} (a) : post a = own →
    Emits env ok given own ∅ (pure a) post
  | bind_of {α β : Type} {given own c d} {m : Emit α} {k : α → Emit β} {post rest} :
    Emits env ok given own c m post →
    (∀ s a t, m s = .ok a t → Emits env ok (given ∧ ok.known t) (post a) d (k a) rest) →
    Emits env ok given own (c ++ d) (m >>= k) rest
  | stand {α : Type} {given own c d} {m : Emit α} {post} : ok.stands c d →
    Emits env ok given own d m post → Emits env ok given own c m post
  | list {α : Type} {given own own' c} {m : Emit α} {post post'} : ok.lists own' own →
    (∀ a, ok.lists (post a) (post' a)) → Emits env ok given own c m post →
    Emits env ok given own' c m post'
  | fail {α : Type} {given own c fault} {post : α → List Slot} : ok.fault fault → ∀ span,
    Emits env ok given own c (fail fault span) post
  | instr {given own c i} : i.isOrdinary → (i.isStore → ok.stores) →
    (∀ x, i.slot? = some x → x ∈ own ∨ (given → ok.declared x)) → c.Says i →
    Emits env ok given own c (instr i) fun _ => own
  | throw {given own} (counted) : Emits env ok given own (.throw counted) (do
    instr .throw
    when counted (adjust 1)) fun _ => own
  | adjust {given own} (d) : Emits env ok given own (.adjust d) (adjust d) fun _ => own
  | define {given own l} : env.isResident l.id = false →
    Emits env ok given own (.define l) (define l) fun _ => own
  | allocate {given own} (ty byRef) :
    Emits env ok given own ∅ (allocate ty byRef) fun x => x :: own
  | free {given own} (x) : Emits env ok given (x :: own) ∅ (free x) fun _ => own
  | retire {given own} (x) : Emits env ok given (x :: own) ∅ (retire x) fun _ => own
  | report {given own} (d) : Emits env ok given own ∅ (report d) fun _ => own
  | keep {α : Type} {given own c} (ty byRef) {k : Slot → Emit α} {post} :
    (∀ x, Emits env ok given (x :: own) c (k x) post) →
    Emits env ok given own (.slot .store ++ c) (do
      let x ← allocate ty byRef
      instr (.slot .store x)
      k x) post
  | copyBytes {given own} (data) : Emits env ok given own .remake (copyBytes data) fun _ => own
  | copyThroughView {given own elem v} : env.symbols.blobView? elem = some v → ∀ size data,
    Emits env ok given own .view (copyThroughView v size data) fun _ => own
  | block {given own c} {m : Emit Unit} : ok.block m → Emits env ok given own c m fun _ => own
  | branch {α : Type} {given own c d e leaves} {test : Emit Unit} {other taken : Emit α}
    {post : α → List Slot} {rest : α → α → List Slot} :
    Emits env ok given own c test (fun _ => own) →
    Emits env ok given own d other post → (∀ a, Emits env ok given (post a) e taken (rest a)) →
    Emits env ok given own (.choice leaves c d e) (branch leaves test other taken) fun r =>
      rest r.1 r.2

variable {ok : Allowed} {c d : Script} {own : List Slot} {post : α → List Slot}
  {rest : β → List Slot}

theorem Emits.bind {given : Prop} {m : Emit α} {k : α → Emit β}
    (hm : Emits env ok given own c m post)
    (hk : ∀ a t, Emits env ok (given ∧ ok.known t) (post a) d (k a) rest) :
    Emits env ok given own (c ++ d) (m >>= k) rest := hm.bind_of fun _ a t _ => hk a t

abbrev Runs (env : Env) (ok : Allowed) (own : List Slot) (c : Script) (m : Emit α)
    (post : α → List Slot) : Prop := ∀ given, Emits env ok given own c m post

/-- The temporaries in hand stay there. -/
abbrev Follows (env : Env) (ok : Allowed) (own : List Slot) (c : Script) (m : Emit α) : Prop :=
  Runs env ok own c m fun _ => own

/-- The temporary that is handed over comes to those in hand. -/
abbrev Hands (env : Env) (ok : Allowed) (own : List Slot) (c : Script) (m : Emit (Option Slot)) :
    Prop := Runs env ok own c m fun temp => temp.toList ++ own

namespace Runs

theorem pure (a : α) (h : post a = own) : Runs env ok own ∅ (pure a) post := fun _ => .pure a h

theorem done (a : α) : Follows env ok own ∅ (Pure.pure a : Emit α) := pure a rfl

theorem fail {fault : Fault} (h : ok.fault fault) (span : Span) :
    Runs env ok own c (fail fault span : Emit α) post := fun _ => .fail h span

theorem bind_of {m : Emit α} {k : α → Emit β} (hm : Runs env ok own c m post)
    (hk : ∀ s a t, m s = .ok a t → Runs env ok (post a) d (k a) rest) :
    Runs env ok own (c ++ d) (m >>= k) rest :=
  fun given => (hm given).bind_of fun s a t h => hk s a t h _

theorem bind {m : Emit α} {k : α → Emit β} (hm : Runs env ok own c m post)
    (hk : ∀ a, Runs env ok (post a) d (k a) rest) : Runs env ok own (c ++ d) (m >>= k) rest :=
  hm.bind_of fun _ a _ _ => hk a

theorem abstract {m : Emit α} (hc : c.Abstracts d) (h : Runs env ok own d m post) :
    Runs env ok own c m post := fun given => .stand (ok.abstracts hc) (h given)

theorem perm {own' : List Slot} {post' : α → List Slot} {m : Emit α}
    (h : Runs env ok own c m post) (hown : own'.Perm own)
    (hpost : ∀ a, (post a).Perm (post' a)) : Runs env ok own' c m post' :=
  fun given => .list (ok.perm hown) (fun a => ok.perm (hpost a)) (h given)

/-- What comes first is no part of the script. -/
theorem skip {m : Emit α} {k : α → Emit β} (hm : Runs env ok own ∅ m post)
    (hk : ∀ a, Runs env ok (post a) c (k a) rest) : Runs env ok own c (m >>= k) rest :=
  .abstract (.skip c) (hm.bind hk)

/-- What comes last is no part of the script. -/
theorem quietly {m : Emit α} {k : α → Emit β} (hm : Runs env ok own c m post)
    (hk : ∀ a, Runs env ok (post a) ∅ (k a) rest) : Runs env ok own c (m >>= k) rest :=
  .abstract (.quietly c) (hm.bind hk)

theorem returning {m : Emit α} (h : Follows env ok own c m) {b : β} (hb : rest b = own) :
    Runs env ok own c (m >>= fun _ => Pure.pure b) rest := h.quietly fun _ => pure b hb

theorem code {i : Instr} (h : i.isQuiet = true) :
    Follows env ok own (.code i) (Emit.instr i) := by
  obtain ⟨ho, hs, hslot⟩ := Instr.isQuiet_iff.mp h
  refine fun given => .instr ho (fun hstore => ?_) (fun x hx => ?_) (.code i)
  · rw [hs] at hstore
    cases hstore
  · rw [hslot] at hx
    cases hx

theorem store {i : Instr} (hs : ok.stores) (h : i.isOrdinary = true) (hslot : i.slot? = none) :
    Follows env ok own (.code i) (Emit.instr i) := by
  refine fun given => .instr h (fun _ => hs) (fun x hx => ?_) (.code i)
  rw [hslot] at hx
  cases hx

theorem slot {access : Access} (h : access ≠ .store) {x : Slot} (hx : x ∈ own) :
    Follows env ok own (.slot access) (Emit.instr (.slot access x)) := by
  refine fun given => .instr rfl (fun hstore => ?_) (fun y hy => ?_) (.slot access x)
  · cases access with
    | store => exact absurd rfl h
    | _ => cases hstore
  · cases hy
    exact .inl hx

theorem adjust (d : Int) : Follows env ok own (.adjust d) (adjust d) := fun _ => .adjust d

theorem define {l : Local} (h : env.isResident l.id = false) :
    Follows env ok own (.define l) (define l) := fun _ => .define h

theorem report (d : Diagnostic) : Follows env ok own ∅ (report d) := fun _ => .report d

theorem allocate (ty : Ty) (byRef : Bool) :
    Runs env ok own ∅ (allocate ty byRef) fun x => x :: own := fun _ => .allocate ty byRef

theorem free (x : Slot) : Runs env ok (x :: own) ∅ (free x) fun _ => own := fun _ => .free x

theorem retire (x : Slot) : Runs env ok (x :: own) ∅ (retire x) fun _ => own := fun _ => .retire x

theorem keep (ty : Ty) (byRef : Bool) {k : Slot → Emit α}
    (h : ∀ x, Runs env ok (x :: own) c (k x) post) :
    Runs env ok own (.slot .store ++ c) (do
      let x ← Emit.allocate ty byRef
      Emit.instr (.slot .store x)
      k x) post := fun given => .keep ty byRef fun x => h x given

theorem branch {e : Script} {leaves : Bool} {test : Emit Unit} {other taken : Emit α}
    {next : α → α → List Slot} (ht : Follows env ok own c test)
    (ho : Runs env ok own d other post) (hk : ∀ a, Runs env ok (post a) e taken (next a)) :
    Runs env ok own (.choice leaves c d e) (branch leaves test other taken) fun r =>
      next r.1 r.2 := fun given => .branch (ht given) (ho given) fun a => hk a given

theorem discard {m : Emit α} (h : Follows env ok own c m) :
    Follows env ok own c (discard m) := by
  rw [discard_eq]
  exact h.returning rfl

theorem ensure {b : Bool} {fault : Fault} (h : b = false → ok.fault fault) (span : Span) :
    Follows env ok own ∅ (ensure b fault span) := by
  unfold Emit.ensure
  split
  · exact done ()
  · rename_i hb
    exact fail (h (Bool.eq_false_iff.mpr hb)) span

/-- The script need only be followed where the condition holds. -/
theorem ensure_bind {b : Bool} {fault : Fault} {span : Span} {m : Emit α}
    (hf : b = false → ok.fault fault) (h : b = true → Runs env ok own c m post) :
    Runs env ok own c (Emit.ensure b fault span >>= fun _ => m) post := by
  cases b with
  | false => exact fail (hf rfl) span
  | true => exact h rfl

section

-- what gives back one temporary gives back many
variable {f : Slot → Emit Unit}
  (h : ∀ x own, Runs env ok (x :: own) ∅ (f x) fun _ => own)

include h

theorem forM_list (temps : List Slot) :
    Runs env ok (temps ++ own) ∅ (temps.forM f) fun _ => own := by
  induction temps with
  | nil => exact done ()
  | cons x temps ih => exact (h x _).skip fun _ => ih

theorem forM_option (temp : Option Slot) :
    Runs env ok (temp.toList ++ own) ∅ (temp.forM f) fun _ => own := by
  cases temp with
  | none => exact done ()
  | some x => exact h x own

end

theorem int (v : Int32) : Follows env ok own .constant (int v) :=
  .abstract (.constant rfl) (.code rfl)

theorem spill {ty : Ty} {value : Emit Unit} (h : Follows env ok own c value) :
    Hands env ok own (c ++ (.slot .store ++ .slot .address)) (spill ty value) := by
  refine h.bind fun _ => .keep ty false fun x => ?_
  have hlocated : Follows env ok (x :: own) (.slot .address) (Emit.instr (.slot .address x)) :=
    slot (by decide) List.mem_cons_self
  exact hlocated.returning rfl

end Runs

/-- The program is one that emission is written in. -/
abbrev Emitted (env : Env) (m : Emit α) : Prop := Follows env .any [] ∅ m

namespace Emitted

theorem of {m : Emit α} (h : Runs env .any own c m post) : Emitted env m := fun given =>
  .list trivial (fun _ => trivial) (.stand trivial (h given))

theorem bind_of {m : Emit α} {k : α → Emit β} (hm : Emitted env m)
    (hk : ∀ s a t, m s = .ok a t → Emitted env (k a)) : Emitted env (m >>= k) :=
  Runs.abstract (.skip ∅) (Runs.bind_of hm hk)

theorem instr {i : Instr} (h : i.isOrdinary = true) : Emitted env (instr i) := by
  have hrun : Follows env .any [] (.code i) (Emit.instr i) := fun given =>
    .instr h (fun _ => trivial) (fun _ _ => .inr fun _ => trivial) (.code i)
  exact of hrun

end Emitted

/-! ### Constants and conversions -/

/-- Code that pushes a constant, or fails with one of these faults. -/
inductive Loads (P : Fault → Prop) : Emit Unit → Prop where
  | instr {i : Instr} : i.pushesConstant → Loads P (instr i)
  | converted {i : Instr} (target) : i.pushesConstant →
    Loads P (instr i >>= fun _ => instr (.conv target .unchecked))
  | fail {fault} : P fault → ∀ span, Loads P (fail fault span)

namespace Loads

variable {P : Fault → Prop}

theorem nullPointer : Loads P nullPointer := .converted .u rfl

theorem addressSized (v : Int64) (target : ConvTarget) : Loads P (addressSized v target) := by
  refine .converted target ?_
  split <;> rfl

theorem integral {c : Constant} {ty : Ty}
    (h : ty.isWide = false → c.immediate? = none → P (.immediateTooWide c ty)) (v : Int64)
    (span : Span) : Loads P (integral c v ty span) := by
  unfold Emit.integral
  split
  · exact .instr rfl
  · exact .instr rfl
  · exact addressSized v _
  · exact addressSized v _
  · exact .instr rfl
  · exact .instr rfl
  · split
    · exact .instr rfl
    · refine .fail (h ?_ ‹_›) span
      unfold Ty.isWide
      split <;> simp_all

theorem constant {c : Constant} {ty : Ty} (h : c.fits ty = false → P (.immediateTooWide c ty))
    (span : Span) : Loads P (constant c ty span) := by
  unfold Emit.constant
  split
  · split
    · exact nullPointer
    · exact .instr rfl
  · exact .instr rfl
  · exact .instr rfl
  all_goals
    refine integral (fun hwide hnone => h ?_) _ span
    simp [Constant.fits, hwide, hnone]

end Loads

/-- Code that makes another entry of the one on top, step by step, or fails with one of these
faults. -/
inductive Remakes (P : Fault → Prop) : Emit Unit → Prop where
  | pure : Remakes P (pure ())
  | fail {fault} : P fault → ∀ span, Remakes P (fail fault span)
  | instr {i : Instr} : i.remakes → Remakes P (instr i)
  | bind {m k : Emit Unit} : Remakes P m → Remakes P k → Remakes P (m >>= fun _ => k)

theorem none_or_none {x y : Option Prim} (h : ∀ p q, x = some p → y = some q → False) :
    x = none ∨ y = none := by
  cases x with
  | none => exact .inl rfl
  | some p =>
    cases y with
    | none => exact .inr rfl
    | some q => exact (h p q rfl rfl).elim

namespace Remakes

variable {P : Fault → Prop}

theorem when {c : Bool} {m : Emit Unit} (h : Remakes P m) : Remakes P (when c m) := by
  unfold Emit.when
  split
  · exact h
  · exact .pure

theorem instrs {code : List Instr} (h : ∀ i ∈ code, i.remakes = true) :
    Remakes P (instrs code) := by
  induction code with
  | nil => exact .pure
  | cons i code ih =>
    exact .bind (.instr (h i List.mem_cons_self)) (ih fun j hj => h j (List.mem_cons_of_mem i hj))

theorem numeric {source target : Prim}
    (h : source = .bool ∨ target = .bool → P (.numericOfNonNumeric source target)) (checked : Bool)
    (span : Span) : Remakes P (numeric source target checked span) := by
  have hall := Numeric.conversion_all source target checked
  unfold Emit.numeric
  split
  · rename_i code hcode
    rw [hcode, Option.getD_some, List.all_eq_true] at hall
    exact instrs hall
  · rename_i hnone
    refine .fail (h ?_) span
    by_cases hs : source = .bool
    · exact .inl hs
    · unfold Numeric.conversion at hnone
      rw [if_neg hs] at hnone
      cases target <;> first | exact .inr rfl | cases hnone

theorem boxValue (ty : Ty) : Remakes P (boxValue ty) := when (.instr rfl)

theorem convertPushed {i : Info} {operand : Expr} {c : Conversion}
    (h : ∀ f, (Expr.convert i operand c).Defect env f → P f)
    (hnull : c.kind = .nullToPointer → P (.notLowered c.kind i.ty)) :
    Remakes P (convertPushed i operand.info c) := by
  unfold Emit.convertPushed
  dsimp only
  split
  · split
    · split
      · exact numeric nofun _ _
      · exact numeric nofun _ _
      · exact .pure
    · exact .pure
  -- between numbers and enums
  iterate 4
    · rename_i hk
      have hk : c.kind.isNumeric = true := by rw [hk]; rfl
      split
      · rename_i hp hq
        exact numeric (fun hb => h _ (.nonNumeric hk hp hq hb)) _ _
      · exact .fail (h _ (.numeric hk (none_or_none ‹_›))) _
  -- to and from boxes
  iterate 2 exact .bind (boxValue _) (when (.instr rfl))
  iterate 2
    · refine .bind (boxValue _) (.instr ?_)
      split <;> rfl
  -- pointers
  iterate 2 exact .pure
  iterate 2
    · rename_i hk
      have hk : c.kind.isPointerCast = true := by rw [hk]; rfl
      split
      · rename_i hp hq
        exact numeric (fun hb => h _ (.pointerNonNumeric hk hp hq hb)) _ _
      · exact .fail (h _ (.pointer hk (none_or_none ‹_›))) _
  · exact .fail (hnull ‹_›) _
  all_goals
    rename_i hk
    refine .fail (h _ (.notLowered ?_)) _
    rw [hk]
    rfl

end Remakes

namespace Runs

theorem remake {i : Instr} (h : i.remakes = true) : Follows env ok own .remake (Emit.instr i) :=
  .abstract (.remake h) (code (Instr.isQuiet_of_remakes h))

theorem combine {m : Emit Unit} (hm : Follows env ok own .constant m) {i : Instr}
    (h : i.combines = true) : Follows env ok own .remake (m >>= fun _ => Emit.instr i) :=
  .abstract (.combine h) (hm.bind fun _ => code (Instr.isQuiet_of_combines h))

theorem loads {m : Emit Unit} (h : Loads ok.fault m) : Follows env ok own .constant m := by
  have hpush {i : Instr} (hi : i.pushesConstant = true) :
      Follows env ok own .constant (Emit.instr i) :=
    .abstract (.constant hi) (code (Instr.isQuiet_of_pushesConstant hi))
  cases h with
  | instr hi => exact hpush hi
  | converted target hi => exact .abstract .converted ((hpush hi).bind fun _ => remake rfl)
  | fail hf span => exact fail hf span

theorem remakes {m : Emit Unit} (h : Remakes ok.fault m) : Follows env ok own .remake m := by
  induction h with
  | pure => exact .abstract .nothing (done ())
  | fail hf span => exact fail hf span
  | instr hi => exact remake hi
  | bind _ _ ih ih' => exact .abstract .again (ih.bind fun _ => ih')

end Runs

end Emit

end TypedStack
