import Mathlib.Data.List.Forall2
import TypedStack.Proofs.Blobs

/-! The numbers of stored data. An emission does the same whatever data is stored already: its
answer, its slots, its reports and its code are the same, but for the numbers by which the code
names data. -/
namespace TypedStack

/-! ### The same but for the numbers of data -/

/-- The same instruction, or the same one about the same data, which has a number in each of the
two tables. -/
inductive Instr.Like (A B : BlobTable) : Instr → Instr → Prop where
  | same {i : Instr} : i.token? = none → Like A B i i
  | address {t t' : BlobToken} {blob : Blob} : A.blobs[t.index]? = some blob →
    B.blobs[t'.index]? = some blob → Like A B (.blobAddress t) (.blobAddress t')
  | handle {t t' : BlobToken} {blob : Blob} : A.blobs[t.index]? = some blob →
    B.blobs[t'.index]? = some blob → Like A B (.blobHandle t) (.blobHandle t')

variable {A A' B B' : BlobTable}

namespace Instr.Like

variable {i i' : Instr}

theorem mono (h : Like A B i i') (hA : A.Within A') (hB : B.Within B') : Like A' B' i i' := by
  cases h with
  | same hi => exact .same hi
  | address ha hb => exact .address (hA _ _ ha) (hB _ _ hb)
  | handle ha hb => exact .handle (hA _ _ ha) (hB _ _ hb)

theorem symm (h : Like A B i i') : Like B A i' i := by
  cases h with
  | same hi => exact .same hi
  | address ha hb => exact .address hb ha
  | handle ha hb => exact .handle hb ha

theorem delta (h : Like A B i i') : i.delta = i'.delta := by
  cases h <;> rfl

theorem mem_blobs (h : Like A B i i') {t : BlobToken} {blob : Blob} (ht : i.token? = some t)
    (hb : A.blobs[t.index]? = some blob) : blob ∈ B.blobs := by
  cases h with
  | same hi => exact nomatch hi.symm.trans ht
  | address ha hb' | handle ha hb' =>
    cases ht
    cases ha.symm.trans hb
    exact Array.mem_of_getElem? hb'

end Instr.Like

abbrev LikeCode (A B : BlobTable) : List Instr → List Instr → Prop :=
  List.Forall₂ (Instr.Like A B)

theorem LikeCode.of_bytesCopy {t t' : BlobToken} {blob : Blob} (ha : A.blobs[t.index]? = some blob)
    (hb : B.blobs[t'.index]? = some blob) (n : Nat) :
    LikeCode A B (bytesCopy t n) (bytesCopy t' n) :=
  .cons (.same rfl) (.cons (.address ha hb) (.cons (.same rfl) (.cons (.same rfl) .nil)))

theorem LikeCode.of_viewCopy {t t' : BlobToken} {blob : Blob}
    (ha : A.blobs[t.index]? = some blob) (hb : B.blobs[t'.index]? = some blob) (v : BlobView)
    (size : Nat) (temp : Slot) (n : Nat) :
    LikeCode A B (viewCopy v size t temp n) (viewCopy v size t' temp n) := by
  refine .cons (.same rfl) (.cons (.handle ha hb) (List.forall₂_same.mpr ?_))
  intro i hi
  simp only [List.mem_cons, List.not_mem_nil, or_false] at hi
  rcases hi with rfl | rfl | rfl | rfl | rfl | rfl <;> exact .same rfl

theorem LikeCode.mem_blobs {code code' : List Instr} (h : LikeCode A B code code') {blob : Blob}
    (hn : Names A code blob) : blob ∈ B.blobs := by
  obtain ⟨i, hi, t, ht, hb⟩ := hn
  induction h with
  | nil => cases hi
  | cons hij _ ih =>
    rcases List.mem_cons.mp hi with rfl | hi
    · exact hij.mem_blobs ht hb
    · exact ih hi

namespace Stream

structure Like (A B : BlobTable) (s s' : Stream) : Prop where
  code : LikeCode A B s.code.toList s'.code.toList
  depth : s.depth = s'.depth
  peak : s.peak = s'.peak
  labels : s.labels = s'.labels

namespace Like

variable {s s' : Stream}

theorem empty : Like A B .empty .empty := ⟨.nil, rfl, rfl, rfl⟩

theorem mono (h : Like A B s s') (hA : A.Within A') (hB : B.Within B') : Like A' B' s s' :=
  { h with code := h.code.imp fun _ _ hi => hi.mono hA hB }

theorem symm (h : Like A B s s') : Like B A s' s :=
  ⟨(h.code.imp fun _ _ hi => hi.symm).flip, h.depth.symm, h.peak.symm, h.labels.symm⟩

theorem adjust (h : Like A B s s') (d : Int) : Like A B (s.adjust d) (s'.adjust d) where
  code := h.code
  depth := congrArg (· + d) h.depth
  peak := by
    change max s.peak (s.depth + d) = max s'.peak (s'.depth + d)
    rw [h.peak, h.depth]
  labels := h.labels

theorem emit (h : Like A B s s') {i i' : Instr} (hi : Instr.Like A B i i') :
    Like A B (s.emit i) (s'.emit i') := by
  have hadjust := h.adjust i'.delta
  have hcode : LikeCode A B (s.code.push i).toList (s'.code.push i').toList := by
    rw [Array.toList_push, Array.toList_push]
    exact List.rel_append h.code (.cons hi .nil)
  rw [Stream.emit, Stream.emit, hi.delta]
  exact ⟨hcode, hadjust.depth, hadjust.peak, hadjust.labels⟩

theorem emitAll (h : Like A B s s') {code code' : List Instr} (hc : LikeCode A B code code') :
    Like A B (s.emitAll code) (s'.emitAll code') := by
  induction hc generalizing s s' with
  | nil => exact h
  | cons hi _ ih => exact ih (h.emit hi)

theorem newLabel (h : Like A B s s') : Like A B s.newLabel.2 s'.newLabel.2 :=
  { h with labels := congrArg (· + 1) h.labels }

end Like

end Stream

/-! ### Two emissions side by side -/

namespace Emit

variable {α β : Type} {env : Env}

/-- Two states that nothing but the numbers of data and foreign reports tells apart. -/
structure Twin (s s' : State) : Prop where
  stream : s.stream.Like s.blobs s'.blobs s'.stream
  slots : s.slots = s'.slots

/-- From `s` and `s'` on, two emissions have come to the same and have reported the same. -/
structure Together (s s' t t' : State) : Prop where
  twin : Twin t t'
  reports : ∃ r, t.reports.entries.toList = s.reports.entries.toList ++ r ∧
    t'.reports.entries.toList = s'.reports.entries.toList ++ r

/-- Two emissions that started from `s` and `s'` have the same outcome. -/
inductive SameOutcome (s s' : State) :
    EStateM.Result Failure State α → EStateM.Result Failure State α → Prop where
  | ok {a t t'} : Together s s' t t' → SameOutcome s s' (.ok a t) (.ok a t')
  | error {f t t'} : Together s s' t t' → SameOutcome s s' (.error f t) (.error f t')

/-- The emission does the same in all states that nothing but the numbers of data and foreign
reports tells apart. -/
def Blind (m : Emit α) : Prop := ∀ s s', Twin s s' → SameOutcome s s' (m s) (m s')

namespace Together

variable {s s' t t' u u' : State}

theorem silent (h : Twin t t') (hr : t.reports = s.reports) (hr' : t'.reports = s'.reports) :
    Together s s' t t' :=
  ⟨h, [], by rw [hr, List.append_nil], by rw [hr', List.append_nil]⟩

theorem trans (h : Together s s' t t') (h' : Together t t' u u') : Together s s' u u' := by
  obtain ⟨r, hr, hr'⟩ := h.reports
  obtain ⟨q, hq, hq'⟩ := h'.reports
  refine ⟨h'.twin, r ++ q, ?_, ?_⟩
  · rw [hq, hr, List.append_assoc]
  · rw [hq', hr', List.append_assoc]

end Together

theorem SameOutcome.after {s s' t t' : State} (h : Together s s' t t')
    {r r' : EStateM.Result Failure State α} (h' : SameOutcome t t' r r') :
    SameOutcome s s' r r' := by
  cases h' with
  | ok h' => exact .ok (h.trans h')
  | error h' => exact .error (h.trans h')

theorem SameOutcome.of_eq {s s' t t' : State} {a a' : α} (ha : a = a')
    (h : Together s s' t t') : SameOutcome s s' (.ok a t) (.ok a' t') := ha ▸ .ok h

namespace Blind

theorem pure (a : α) : Blind (pure a : Emit α) := fun _ _ h => .ok (.silent h rfl rfl)

theorem fail (fault : Fault) (span : Span) : Blind (fail fault span : Emit α) :=
  fun _ _ h => .error (.silent h rfl rfl)

/-- What comes second need only be blind to what the first part can return. -/
theorem bind_of {m : Emit α} {k : α → Emit β} (hm : Blind m)
    (hk : ∀ s a t, m s = .ok a t → Blind (k a)) : Blind (m >>= k) := by
  intro s s' h
  have hms := hm s s' h
  have hks := hk s
  change SameOutcome s s' (EStateM.bind m k s) (EStateM.bind m k s')
  unfold EStateM.bind
  generalize m s = r at hms hks ⊢
  generalize m s' = r' at hms ⊢
  cases hms with
  | @ok a t t' ht => exact (hks a t rfl t t' ht.twin).after ht
  | error ht => exact .error ht

theorem bind {m : Emit α} {k : α → Emit β} (hm : Blind m) (hk : ∀ a, Blind (k a)) :
    Blind (m >>= k) := hm.bind_of fun _ a _ _ => hk a

theorem when {c : Bool} {m : Emit Unit} (h : Blind m) : Blind (when c m) := by
  unfold Emit.when
  split
  · exact h
  · exact pure ()

theorem instr {i : Instr} (hi : i.token? = none) : Blind (instr i) :=
  fun _ _ h => .ok (.silent ⟨h.stream.emit (.same hi), h.slots⟩ rfl rfl)

theorem adjust (d : Int) : Blind (adjust d) :=
  fun _ _ h => .ok (.silent ⟨h.stream.adjust d, h.slots⟩ rfl rfl)

theorem newLabel : Blind newLabel := by
  intro s s' h
  exact .of_eq (congrArg Label.mk h.stream.labels) (.silent ⟨h.stream.newLabel, h.slots⟩ rfl rfl)

/-- Slots are a body's own, so that asking for one shows nothing of other bodies. -/
theorem onSlots (f : SlotPool → α × SlotPool) :
    Blind (modifyGet fun s : State => ((f s.slots).1, { s with slots := (f s.slots).2 }) :
      Emit α) := by
  intro s s' h
  have hf := congrArg f h.slots
  exact .of_eq (congrArg Prod.fst hf) (.silent ⟨h.stream, congrArg Prod.snd hf⟩ rfl rfl)

theorem report (d : Diagnostic) : Blind (report d) :=
  fun _ _ h => .ok ⟨⟨h.stream, h.slots⟩, [d], Array.toList_push, Array.toList_push⟩

theorem copyBytes (data : List UInt8) : Blind (copyBytes data) := by
  intro s s' h
  rw [copyBytes_eq, copyBytes_eq]
  have hstream := h.stream.mono (s.blobs.intern_within ⟨data, 1⟩) (s'.blobs.intern_within ⟨data, 1⟩)
  have hcode := LikeCode.of_bytesCopy (s.blobs.intern_blob ⟨data, 1⟩)
    (s'.blobs.intern_blob ⟨data, 1⟩) data.length
  exact .ok (.silent ⟨hstream.emitAll hcode, h.slots⟩ rfl rfl)

theorem copyThroughView (v : BlobView) (size : Nat) (data : List UInt8) :
    Blind (copyThroughView v size data) := by
  intro s s' h
  rw [copyThroughView_eq, copyThroughView_eq, h.slots]
  have hstream := h.stream.mono (s.blobs.intern_within ⟨data, size⟩)
    (s'.blobs.intern_within ⟨data, size⟩)
  have hcode := LikeCode.of_viewCopy (s.blobs.intern_blob ⟨data, size⟩)
    (s'.blobs.intern_blob ⟨data, size⟩) v size (s'.slots.allocate v.view false).1 data.length
  exact .ok (.silent ⟨hstream.emitAll hcode, rfl⟩ rfl rfl)

theorem branch {leaves : Bool} {test : Emit Unit} {other taken : Emit α} (ht : Blind test)
    (ho : Blind other) (hk : α → Blind taken) : Blind (branch leaves test other taken) := by
  refine newLabel.bind fun _ => ?_
  refine newLabel.bind fun _ => ?_
  refine ht.bind fun _ => ?_
  refine (instr rfl).bind fun _ => ?_
  refine ho.bind fun a => ?_
  refine (instr rfl).bind fun _ => ?_
  refine (when (adjust _)).bind fun _ => ?_
  refine (instr rfl).bind fun _ => ?_
  refine (hk a).bind fun _ => ?_
  exact (instr rfl).bind fun _ => pure _

end Blind

theorem Emits.blind {given : Prop} {own : List Slot} {c : Script} {m : Emit α}
    {post : α → List Slot} (h : Emits env .any given own c m post) : Blind m := by
  induction h with
  | pure a => exact .pure a
  | bind_of _ _ ih ihk => exact ih.bind_of ihk
  | stand _ _ ih | list _ _ _ ih => exact ih
  | fail _ span => exact .fail _ span
  | instr hi => exact .instr (Instr.isOrdinary_iff.mp hi).2
  | throw counted => exact (Blind.instr rfl).bind fun _ => .when (.adjust 1)
  | adjust d => exact .adjust d
  | @define _ _ l _ => exact .onSlots (·.define l)
  | allocate ty byRef => exact .onSlots (·.allocate ty byRef)
  | free x => exact .onSlots fun p => ((), p.free x)
  | retire x => exact .onSlots fun p => ((), p.retire x)
  | report d => exact .report d
  | keep ty byRef _ ih =>
    refine Blind.bind (.onSlots (·.allocate ty byRef)) fun x => ?_
    exact Blind.bind (.instr rfl) fun _ => ih x
  | copyBytes data => exact .copyBytes data
  | copyThroughView _ size data => exact .copyThroughView _ size data
  | block hblock => exact hblock.elim
  | branch _ _ _ iht iho ihk => exact iht.branch iho ihk

end Emit

/-- The answer of an emission, without the state it leads to. -/
def Emit.answer {α : Type} (m : Emit α) (s : State) : Except Failure α :=
  match m s with
  | .ok a _ => .ok a
  | .error f _ => .error f

namespace Emit.Blind

variable {α : Type} {m : Emit α} {s s' : State}

theorem answer_eq (h : Blind m) (hs : Twin s s') : answer m s = answer m s' := by
  have hout := h s s' hs
  unfold answer
  generalize m s = r at hout ⊢
  generalize m s' = r' at hout ⊢
  cases hout <;> rfl

theorem together (h : Blind m) (hs : Twin s s') : Together s s' (after m s) (after m s') := by
  have hout := h s s' hs
  unfold Emit.after
  generalize m s = r at hout ⊢
  generalize m s' = r' at hout ⊢
  cases hout with
  | ok h | error h => exact h

end Emit.Blind

/-! ### Other numbers for the same data -/

namespace BlobTable

/-- The number in the second table of data that has a number in the first. Numbers without data
are kept apart from all those with data. -/
def translate (A B : BlobTable) (t : BlobToken) : BlobToken :=
  match A.blobs[t.index]? with
  | some blob => (B.intern blob).1
  | none => ⟨B.size + t.index⟩

theorem translate_of_none {t : BlobToken} (h : A.blobs[t.index]? = none) :
    A.translate B t = ⟨B.size + t.index⟩ := by
  rw [translate, h]

theorem translate_blob (hsub : ∀ blob ∈ A.blobs, blob ∈ B.blobs) {t : BlobToken} {blob : Blob}
    (h : A.blobs[t.index]? = some blob) : B.blobs[(A.translate B t).index]? = some blob := by
  rw [translate, h]
  exact blob_of_mem (hsub blob (Array.mem_of_getElem? h))

theorem translate_injective (hA : A.Distinct) (hsub : ∀ blob ∈ A.blobs, blob ∈ B.blobs) :
    Function.Injective (A.translate B) := by
  -- numbers of data are below the size of the second table, all others are not
  have hapart {t u : BlobToken} {blob : Blob} (ht : A.blobs[t.index]? = some blob)
      (hu : A.blobs[u.index]? = none) : A.translate B t ≠ A.translate B u := by
    intro heq
    obtain ⟨hlt, -⟩ := Array.getElem?_eq_some_iff.mp (translate_blob hsub ht)
    rw [heq, translate_of_none hu] at hlt
    exact absurd hlt (Nat.not_lt.mpr (Nat.le_add_right _ _))
  intro t u heq
  cases ht : A.blobs[t.index]? with
  | none =>
    cases hu : A.blobs[u.index]? with
    | none =>
      rw [translate_of_none ht, translate_of_none hu] at heq
      have hindex : t.index = u.index := Nat.add_left_cancel (congrArg BlobToken.index heq)
      exact congrArg BlobToken.mk hindex
    | some blob => exact absurd heq.symm (hapart hu ht)
  | some blob =>
    cases hu : A.blobs[u.index]? with
    | none => exact absurd heq (hapart ht hu)
    | some blob' =>
      have hblob := translate_blob hsub ht
      rw [heq, translate_blob hsub hu] at hblob
      cases hblob
      exact congrArg BlobToken.mk (hA t.index u.index blob ht hu)

end BlobTable

def Instr.rename (ρ : BlobToken → BlobToken) : Instr → Instr
  | .blobAddress t => .blobAddress (ρ t)
  | .blobHandle t => .blobHandle (ρ t)
  | i => i

def Stream.rename (ρ : BlobToken → BlobToken) (s : Stream) : Stream :=
  { s with code := s.code.map (Instr.rename ρ) }

theorem Instr.rename_of_none {i : Instr} (h : i.token? = none) (ρ : BlobToken → BlobToken) :
    i.rename ρ = i := by
  cases i with
  | blobAddress | blobHandle => cases h
  | _ => rfl

section Rename

variable (hA : A.Distinct) (hsub : ∀ blob ∈ B.blobs, blob ∈ A.blobs)

include hA hsub

theorem Instr.Like.eq_rename {i i' : Instr} (h : Instr.Like A B i i') :
    i = i'.rename (B.translate A) := by
  have htoken {t t' : BlobToken} {blob : Blob} (ha : A.blobs[t.index]? = some blob)
      (hb : B.blobs[t'.index]? = some blob) : t = B.translate A t' :=
    congrArg BlobToken.mk (hA _ _ blob ha (BlobTable.translate_blob hsub hb))
  cases h with
  | same hi => exact (Instr.rename_of_none hi _).symm
  | address ha hb => exact congrArg Instr.blobAddress (htoken ha hb)
  | handle ha hb => exact congrArg Instr.blobHandle (htoken ha hb)

theorem Stream.Like.eq_rename {s s' : Stream} (h : Stream.Like A B s s') :
    s = s'.rename (B.translate A) := by
  have hcode : s.code = s'.code.map (Instr.rename (B.translate A)) := by
    apply Array.toList_inj.mp
    rw [Array.toList_map, ← List.forall₂_eq_eq_eq, List.forall₂_map_right_iff]
    exact h.code.imp fun _ _ hi => hi.eq_rename hA hsub
  obtain ⟨code, depth, peak, labels⟩ := s
  obtain ⟨-, rfl, rfl, rfl⟩ := h
  exact congrArg (Stream.mk · _ _ _) hcode

end Rename

end TypedStack
