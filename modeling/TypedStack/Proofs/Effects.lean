import TypedStack.Proofs.Blocks
import TypedStack.Proofs.Outlines

/-! Effects. What a tree does besides leaving a value can be read off the tree: its operands from
left to right, then the node itself. Emission follows that order. -/
namespace TypedStack

namespace Instr

/-- Calls, stores that reach beyond the body's own slots, throws, allocations, and the branches
between them. -/
def isEffect : Instr → Bool
  | call _ | callvirt _ | constrained _ | field .store _ | staticField .store _ | stelem _
  | arg .store _ | stind _ | throw | localloc | br _ | brtrue _ | label _ => true
  | _ => false

/-- The same instruction with its label counted from `n` on. -/
def relabel (n : Nat) : Instr → Instr
  | br l => br ⟨n + l.id⟩
  | brtrue l => brtrue ⟨n + l.id⟩
  | brfalse l => brfalse ⟨n + l.id⟩
  | label l => label ⟨n + l.id⟩
  | i => i

@[simp] theorem relabel_br (n : Nat) (l : Label) : (br l).relabel n = br ⟨n + l.id⟩ := rfl

@[simp] theorem relabel_brtrue (n : Nat) (l : Label) :
    (brtrue l).relabel n = brtrue ⟨n + l.id⟩ := rfl

@[simp] theorem relabel_label (n : Nat) (l : Label) : (label l).relabel n = label ⟨n + l.id⟩ := rfl

@[simp] theorem relabel_zero : relabel 0 = id := by
  funext i
  cases i <;> simp [relabel]

theorem relabel_plain {i : Instr} (h : i.isPlain = true) (n : Nat) : i.relabel n = i := by
  cases i <;> first | rfl | cases h

@[simp] theorem relabel_relabel (a b : Nat) (i : Instr) :
    (i.relabel b).relabel a = i.relabel (a + b) := by
  cases i <;> simp [relabel, Nat.add_assoc]

end Instr

/-- Effects in order. Their labels are numbered from zero, and there are so many of them. -/
@[ext]
structure Trace where
  code : List Instr
  labels : Nat

namespace Trace

def numbered (n : Nat) (e : Trace) : List Instr := e.code.map (Instr.relabel n)

instance : EmptyCollection Trace := ⟨⟨[], 0⟩⟩

instance : Append Trace := ⟨fun a b => ⟨a.code ++ b.numbered a.labels, a.labels + b.labels⟩⟩

def ofCode (code : List Instr) : Trace := ⟨code, 0⟩

/-- One of two, as the test decides. The labels are made before the test. -/
def choice (test other taken : Trace) : Trace where
  code := TypedStack.choice ⟨0⟩ ⟨1⟩ (test.numbered 2) (other.numbered (2 + test.labels))
    (taken.numbered (2 + test.labels + other.labels))
  labels := 2 + test.labels + other.labels + taken.labels

@[simp] theorem numbered_empty (n : Nat) : (∅ : Trace).numbered n = [] := rfl

@[simp] theorem labels_empty : (∅ : Trace).labels = 0 := rfl

@[simp] theorem labels_append (a b : Trace) : (a ++ b).labels = a.labels + b.labels := rfl

@[simp] theorem numbered_append (a b : Trace) (n : Nat) :
    (a ++ b).numbered n = a.numbered n ++ b.numbered (n + a.labels) := by
  change (a.code ++ b.numbered a.labels).map _ = _
  simp [numbered, Function.comp_def]

@[simp] theorem numbered_zero (e : Trace) : e.numbered 0 = e.code := by
  simp [numbered]

theorem append_empty (e : Trace) : e ++ ∅ = e :=
  Trace.ext (List.append_nil _) rfl

theorem empty_append (e : Trace) : ∅ ++ e = e :=
  Trace.ext e.numbered_zero (Nat.zero_add _)

theorem ofCode_append (a b : List Instr) : ofCode a ++ ofCode b = ofCode (a ++ b) :=
  Trace.ext (congrArg (a ++ ·) (ofCode b).numbered_zero) rfl

theorem append_assoc (a b c : Trace) : a ++ b ++ c = a ++ (b ++ c) := by
  apply Trace.ext
  · change (a ++ b).code ++ _ = a.code ++ (b ++ c).numbered a.labels
    rw [numbered_append, ← List.append_assoc]
    rfl
  · exact Nat.add_assoc _ _ _

theorem numbered_choice (test other taken : Trace) (n : Nat) :
    (choice test other taken).numbered n =
      TypedStack.choice ⟨n⟩ ⟨n + 1⟩ (test.numbered (n + 2)) (other.numbered (n + 2 + test.labels))
        (taken.numbered (n + 2 + test.labels + other.labels)) := by
  simp [choice, numbered, TypedStack.choice, Function.comp_def, Nat.add_assoc]

end Trace

/-! ### The effects of a tree -/

/-- What a store to an expression does beyond the body's own slots. -/
def Expr.stored (method : Enclosing) (isRef : Bool) : Expr → List Instr
  | localVar _ l => if l.mode.isByRef && !isRef then [.stind (.store l.ty)] else []
  | param _ p =>
    [if p.mode.isByRef && !isRef then .stind (.store p.ty) else .arg .store (method.argument p)]
  | field _ _ f _ =>
    [if f.mode.isByRef && !isRef then .stind (.store f.ty)
      else if f.isStatic then .staticField .store f else .field .store f]
  | element i _ _ => [.stelem i.ty]
  | e => [.stind (.store e.ty)]

mutual

/-- Operands from left to right, each once, then what the node itself does. A static member has no
receiver to evaluate, and neither has the null pointer an operand. -/
def Expr.effects (method : Enclosing) : Expr → Trace
  | .literal _ | .this _ | .param .. | .localVar .. | .duplicate .. | .heldReceiver _ => ∅
  | .element _ array index => array.effects method ++ index.effects method
  | .deref _ operand | .typedRef _ operand => operand.effects method
  | .throw _ exception => exception.effects method ++ .ofCode [.throw]
  | .call _ receiver m args nonVirtual =>
    (if m.isStatic then ∅ else Expr.effectsOption method receiver) ++
      Expr.effectsList method args ++ .ofCode (m.called receiver nonVirtual)
  | .field _ receiver f _ => if f.isStatic then ∅ else Expr.effectsOption method receiver
  | .sequence _ _ effects value => Expr.effectsList method effects ++ value.effects method
  | .assign _ left right isRef =>
    left.effects method ++ right.effects method ++ .ofCode (left.stored method isRef)
  | .eitherReceiver _ value reference =>
    .choice ∅ (reference.effects method) (value.effects method)
  | .conditional _ condition consequence alternative _ =>
    .choice (condition.effects method) (alternative.effects method) (consequence.effects method)
  | .convert _ operand c => if c.kind = .nullToPointer then ∅ else operand.effects method
  | .delegate _ receiver m _ => if m.isStatic then ∅ else Expr.effectsOption method receiver
  | .stackalloc _ _ count _ => count.effects method ++ .ofCode [.localloc]

def Expr.effectsOption (method : Enclosing) : Option Expr → Trace
  | none => ∅
  | some e => e.effects method

def Expr.effectsList (method : Enclosing) : List Expr → Trace
  | [] => ∅
  | e :: es => e.effects method ++ Expr.effectsList method es

end

/-- Only literals are constant, and blocks on the stack are left as they are allocated. -/
def Expr.Spelled : Expr → Prop
  | literal _ => True
  | stackalloc i _ _ inits => i.constant = none ∧ inits = []
  | e => e.constant = none

/-! ### Code that shows certain effects -/

structure Stream.Shows (e : Trace) (s t : Stream) : Prop where
  code : ∃ c, s.Adds t c ∧ c.filter Instr.isEffect = e.numbered s.labels
  labels : t.labels = s.labels + e.labels

namespace Stream.Shows

variable {s t u : Stream} {e e' : Trace}

theorem refl (s : Stream) : s.Shows ∅ s := ⟨⟨[], .refl s, rfl⟩, rfl⟩

theorem trans (h : s.Shows e t) (h' : t.Shows e' u) : s.Shows (e ++ e') u := by
  obtain ⟨c, hc, he⟩ := h.code
  obtain ⟨c', hc', he'⟩ := h'.code
  refine ⟨⟨c ++ c', hc.trans hc', ?_⟩, ?_⟩
  · rw [List.filter_append, he, he', h.labels, Trace.numbered_append]
  · rw [h'.labels, h.labels, Trace.labels_append, Nat.add_assoc]

theorem emit {i : Instr} (hi : i.isPlain) (s : Stream) :
    s.Shows (.ofCode ([i].filter Instr.isEffect)) (s.emit i) := by
  refine ⟨⟨[i], .emit _ _, ?_⟩, rfl⟩
  by_cases he : i.isEffect <;> simp [Trace.numbered, Trace.ofCode, he, Instr.relabel_plain hi]

end Stream.Shows

namespace Script

/-- The effects that a script tells of. A copy through a view calls methods of its own, which no
tree mentions. -/
inductive Shows : Script → Trace → Prop where
  | nothing : Shows ∅ ∅
  | seq {c d e e'} : Shows c e → Shows d e' → Shows (c ++ d) (e ++ e')
  | fail (e) : Shows fail e
  | code (i) : Shows (code i) (.ofCode ([i].filter Instr.isEffect))
  | slot (access) : Shows (slot access) ∅
  | duplicate : Shows duplicate ∅
  | throw (counted) : Shows (throw counted) (.ofCode [.throw])
  | adjust (d) : Shows (adjust d) ∅
  | define (l) : Shows (define l) ∅
  | constant : Shows constant ∅
  | remake : Shows remake ∅
  | choice {leaves test other taken e₁ e₂ e₃} : Shows test e₁ → Shows other e₂ → Shows taken e₃ →
    Shows (choice leaves test other taken) (.choice e₁ e₂ e₃)

namespace Shows

variable {c d : Script} {e : Trace}

theorem quiet {i : Instr} (h : i.isEffect = false) : (Script.code i).Shows ∅ := by
  have hcode := Shows.code i
  rwa [List.filter_cons_of_neg (by simp [h])] at hcode

theorem skip (hc : c.Shows ∅) (hd : d.Shows e) : (c ++ d).Shows e := by
  have hseq := hc.seq hd
  rwa [e.empty_append] at hseq

theorem quietly (hc : c.Shows e) (hd : d.Shows ∅) : (c ++ d).Shows e := by
  have hseq := hc.seq hd
  rwa [e.append_empty] at hseq

theorem abstract (hcd : c.Abstracts d) (h : c.Shows e) : d.Shows e := by
  cases hcd with
  | @constant i hi =>
    cases h
    refine quiet ?_
    cases i <;> first | rfl | cases hi
  | size ty =>
    cases h
    exact quiet rfl
  | boxed ty =>
    cases h
    exact (slot .address).skip ((quiet rfl).skip ((slot .load).skip (quiet rfl)))
  | converted =>
    cases h
    exact constant.skip remake
  | nothing =>
    cases h
    exact nothing
  | @remake i hi =>
    cases h
    refine quiet ?_
    cases i <;> first | rfl | cases hi
  | again =>
    cases h
    exact remake.skip remake
  | @combine i hi =>
    cases h
    refine constant.skip (quiet ?_)
    cases i <;> first | rfl | cases hi
  | fill =>
    cases h
    exact (quiet rfl).skip (constant.skip (constant.skip (quiet rfl)))
  | skip => exact nothing.skip h
  | quietly => exact h.quietly nothing
  | assoc =>
    cases h with
    | seq hcd he =>
      cases hcd with
      | seq hc hd =>
        rw [Trace.append_assoc]
        exact hc.seq (hd.seq he)

theorem when {b : Bool} (h : c.Shows ∅) : (c.when b).Shows ∅ := by
  unfold Script.when
  split
  · exact h
  · exact nothing

theorem popUnless (used : Bool) : (Script.popUnless used).Shows ∅ := when (quiet rfl)

theorem loadThrough (ty : Ty) : (Script.loadThrough ty).Shows ∅ := quiet rfl

theorem all (code : List Instr) :
    (Script.all (code.map .code)).Shows (.ofCode (code.filter Instr.isEffect)) := by
  induction code with
  | nil => exact nothing
  | cons i code ih =>
    have hseq := (Shows.code i).seq ih
    rwa [Trace.ofCode_append, ← List.filter_append] at hseq

end Shows

end Script

namespace Emit

variable {α : Type} {env : Env} {P : Fault → Prop} {c : Script} {e : Trace} {s t : State}

theorem branch_shows {leaves : Bool} {u v w : State} {e₁ e₂ e₃ : Trace}
    (ht : s.takeLabels.stream.Shows e₁ u.stream)
    (ho : (u.lay (.brtrue ⟨s.stream.labels⟩)).stream.Shows e₂ v.stream)
    (hk : (v.between leaves ⟨s.stream.labels⟩ ⟨s.stream.labels + 1⟩).stream.Shows e₃ w.stream) :
    s.stream.Shows (.choice e₁ e₂ e₃) (w.lay (.label ⟨s.stream.labels + 1⟩)).stream := by
  obtain ⟨⟨ct, hct, het⟩, hlt⟩ := ht
  obtain ⟨⟨co, hco, heo⟩, hlo⟩ := ho
  obtain ⟨⟨ck, hck, hek⟩, hlk⟩ := hk
  have hlu : u.stream.labels = s.stream.labels + 2 + e₁.labels := hlt
  have hlv : v.stream.labels = s.stream.labels + 2 + e₁.labels + e₂.labels := hlu ▸ hlo
  rw [between_labels, hlv] at hek hlk
  refine ⟨⟨_, branch_adds hct hco hck, ?_⟩, ?_⟩
  · rw [Trace.numbered_choice, ← hek]
    have heo : co.filter Instr.isEffect = e₂.numbered (s.stream.labels + 2 + e₁.labels) := hlu ▸ heo
    have het : ct.filter Instr.isEffect = e₁.numbered (s.stream.labels + 2) := het
    rw [← heo, ← het]
    simp [TypedStack.choice, List.filter_cons, Instr.isEffect]
  · change w.stream.labels = _
    rw [hlk]
    simp [Trace.choice, Nat.add_assoc]

theorem Emits.shows {given : Prop} {own : List Slot} {m : Emit α} {post : α → List Slot}
    (h : Emits env (.only P) given own c m post) (hc : c.Shows e) {a : α}
    (hm : m s = .ok a t) : s.stream.Shows e t.stream := by
  induction h generalizing e s t with
  | pure b =>
    obtain ⟨-, rfl⟩ := pure_ok.mp hm
    cases hc
    exact .refl _
  | bind_of _ _ ih ihk =>
    obtain ⟨b, u, hm, hk⟩ := bind_ok hm
    cases hc with
    | seq hc hd => exact (ih hc hm).trans (ihk s b u hm hd hk)
  | stand hstand _ ih => exact ih (hc.abstract hstand) hm
  | list _ _ _ ih => exact ih hc hm
  | fail => exact absurd hm fail_not_ok
  | instr hi _ _ hsays =>
    obtain rfl := instr_ok.mp hm
    have hemit := Stream.Shows.emit (Instr.isOrdinary_iff.mp hi).1 s.stream
    cases hsays with
    | code i =>
      cases hc
      exact hemit
    | slot access x =>
      cases hc
      exact hemit
    | duplicate =>
      cases hc
      exact hemit
  | throw counted =>
    cases hc
    cases counted <;>
    · cases hm
      exact ⟨⟨[.throw], .emit _ _, rfl⟩, rfl⟩
  | adjust | define | allocate | free | retire | report =>
    cases hm
    cases hc
    exact ⟨⟨[], .refl _, rfl⟩, rfl⟩
  | keep ty byRef _ ih =>
    obtain ⟨_, _, ⟨⟩, hm⟩ := bind_ok hm
    obtain ⟨_, _, ⟨⟩, hm⟩ := bind_ok hm
    cases hc with
    | seq hstore hc =>
      cases hstore
      exact Stream.Shows.trans ⟨⟨[_], .emit _ _, rfl⟩, rfl⟩ (ih _ hc hm)
  | copyBytes data =>
    rw [copyBytes_eq] at hm
    cases hm
    cases hc
    exact ⟨⟨_, .emitAll _ _, rfl⟩, rfl⟩
  | copyThroughView => cases hc
  | block hblock => exact hblock.elim
  | branch _ _ _ iht iho ihk =>
    obtain ⟨u, v, w, ht, ho, hk, rfl⟩ := branch_ok hm
    cases hc with
    | choice hct hco hck => exact branch_shows (iht hct ht) (iho hco ho) (ihk a.1 hck hk)

end Emit

end TypedStack
