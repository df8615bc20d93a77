import Mathlib.Algebra.Group.Nat.Defs
import TypedStack.Proofs.Blocks

/-! Slots over a whole body. Slots are only added. One that is there keeps its type and stays
declared or temporary, and a local that has a slot keeps it. -/
namespace TypedStack

structure SlotEntry.Becomes (e e' : SlotEntry) : Prop where
  ty : e'.ty = e.ty
  byRef : e'.byRef = e.byRef
  declared : e'.state = .declared ↔ e.state = .declared
  retired : e.state = .retired → e'.state = .retired

namespace SlotEntry.Becomes

variable {e e' e'' : SlotEntry}

theorem refl (e : SlotEntry) : e.Becomes e := ⟨rfl, rfl, .rfl, id⟩

theorem trans (h : e.Becomes e') (h' : e'.Becomes e'') : e.Becomes e'' :=
  ⟨h'.ty.trans h.ty, h'.byRef.trans h.byRef, h'.declared.trans h.declared,
    fun hr => h'.retired (h.retired hr)⟩

end SlotEntry.Becomes

namespace SlotPool

structure Grows (p q : SlotPool) : Prop where
  slotOf : ∀ id s, p.slotOf? id = some s → q.slotOf? id = some s
  entry : ∀ (i : Nat) e, p.entries[i]? = some e → ∃ e', q.entries[i]? = some e' ∧ e.Becomes e'

variable {p q r : SlotPool}

theorem Grows.refl (p : SlotPool) : p.Grows p := ⟨fun _ _ h => h, fun _ e h => ⟨e, h, .refl e⟩⟩

theorem Grows.trans (h : p.Grows q) (h' : q.Grows r) : p.Grows r := by
  constructor
  · intro id s hs
    exact h'.slotOf id s (h.slotOf id s hs)
  · intro i e he
    obtain ⟨e', he', hb⟩ := h.entry i e he
    obtain ⟨e'', he'', hb'⟩ := h'.entry i e' he'
    exact ⟨e'', he'', hb.trans hb'⟩

theorem push_grows (p : SlotPool) (e : SlotEntry) : p.Grows (p.push e).2 := by
  constructor
  · intro id s hs
    exact hs
  · intro i x hx
    obtain ⟨hi, hx⟩ := Array.getElem?_eq_some_iff.mp hx
    refine ⟨x, ?_, .refl x⟩
    simpa [push, Array.getElem?_push_lt hi] using hx

theorem define_grows (p : SlotPool) (l : Local) : p.Grows (p.define l).2 := by
  unfold define
  split
  · exact .refl p
  · rename_i hn
    constructor
    · intro id s hs
      have hne : l.id ≠ id := by
        rintro rfl
        rw [hn] at hs
        cases hs
      simpa [slotOf?, push, Std.TreeMap.getElem?_insert, hne] using hs
    · exact (push_grows p _).entry

/-- A temporary is one that was free and of the same type, or a new one where there was none. -/
theorem allocate_cases (p : SlotPool) (ty : Ty) (byRef : Bool) :
    (∃ i, p.entries[i]? = some ⟨ty, byRef, .free⟩ ∧ p.allocate ty byRef = (numberOf i,
      { p with entries := p.entries.setIfInBounds i ⟨ty, byRef, .inUse⟩ })) ∨
    (⟨ty, byRef, .free⟩ ∉ p.entries ∧ p.allocate ty byRef = p.push ⟨ty, byRef, .inUse⟩) := by
  unfold allocate
  split
  · rename_i i hi
    obtain ⟨hlt, hfree, -⟩ := Array.findIdx?_eq_some_iff_getElem.mp hi
    refine .inl ⟨i, ?_, rfl⟩
    rw [Array.getElem?_eq_getElem hlt, beq_iff_eq.mp hfree]
  · rename_i hnone
    refine .inr ⟨fun hfree => ?_, rfl⟩
    simpa using Array.findIdx?_eq_none_iff.mp hnone _ hfree

theorem allocate_grows (p : SlotPool) (ty : Ty) (byRef : Bool) :
    p.Grows (p.allocate ty byRef).2 := by
  rcases p.allocate_cases ty byRef with ⟨k, hfree, hp⟩ | ⟨-, hp⟩
  · rw [hp]
    constructor
    · intro id s hs
      exact hs
    · intro i e he
      -- a free entry of this type is taken again, and all others stay
      by_cases hne : k = i
      · subst hne
        obtain ⟨hlt, -⟩ := Array.getElem?_eq_some_iff.mp hfree
        obtain rfl : e = ⟨ty, byRef, .free⟩ := Option.some.inj (he.symm.trans hfree)
        refine ⟨⟨ty, byRef, .inUse⟩, Array.getElem?_setIfInBounds_self_of_lt hlt, ?_⟩
        exact ⟨rfl, rfl, by simp, by simp⟩
      · refine ⟨e, ?_, .refl e⟩
        simpa [Array.getElem?_setIfInBounds_ne hne] using he
  · rw [hp]
    exact push_grows p _

theorem settle_grows (p : SlotPool) (s : Slot) {state : SlotState} (hs : state ≠ .declared) :
    p.Grows (p.settle s state) := by
  constructor
  · intro id s hs
    exact hs
  · intro i e he
    by_cases hi : s.index.toNat = i
    · by_cases hu : e.state = .inUse
      · refine ⟨{ e with state }, ?_, rfl, rfl, ?_, ?_⟩
        · simp [settle, Array.getElem?_modify, hi, he, hu]
        · simp [hs, hu]
        · simp [hu]
      · refine ⟨e, ?_, .refl e⟩
        simp [settle, Array.getElem?_modify, hi, he, hu]
    · refine ⟨e, ?_, .refl e⟩
      simp [settle, Array.getElem?_modify, hi, he]

theorem serve_grows (p : SlotPool) (request : Request) : p.Grows (p.serve request).2 := by
  cases request with
  | define l => exact p.define_grows l
  | allocate ty byRef => exact p.allocate_grows ty byRef
  | free s => exact p.settle_grows s (by simp)
  | retire s => exact p.settle_grows s (by simp)

theorem define_slotOf (p : SlotPool) (l : Local) :
    (p.define l).2.slotOf? l.id = some (p.define l).1 := by
  unfold define
  split
  · assumption
  · simp [slotOf?, push]

theorem numberOf_toNat {i : Nat} (h : i < 2 ^ 16) : (numberOf i).index.toNat = i :=
  UInt16.toNat_ofNat_of_lt' h

/-- As long as numbers are not shared, the number of an entry leads to that entry. -/
theorem entry_of_number {i : Nat} {e : SlotEntry} (he : p.entries[i]? = some e)
    (hp : p.size ≤ 2 ^ 16) : p.entry? (numberOf i) = some e := by
  have hi : i < 2 ^ 16 := Nat.lt_of_lt_of_le (Array.getElem?_eq_some_iff.mp he).1 hp
  exact (congrArg (p.entries[·]?) (numberOf_toNat hi)).trans he

theorem allocate_entry (p : SlotPool) (ty : Ty) (byRef : Bool) :
    ∃ i, (p.allocate ty byRef).1 = numberOf i ∧
      (p.allocate ty byRef).2.entries[i]? = some ⟨ty, byRef, .inUse⟩ := by
  rcases p.allocate_cases ty byRef with ⟨k, hfree, hp⟩ | ⟨-, hp⟩
  · obtain ⟨hlt, -⟩ := Array.getElem?_eq_some_iff.mp hfree
    rw [hp]
    exact ⟨k, rfl, Array.getElem?_setIfInBounds_self_of_lt hlt⟩
  · rw [hp]
    exact ⟨p.size, rfl, by simp [push, size]⟩

/-- The number is not that of a declared local, unless numbers are shared. -/
def Temporary (p : SlotPool) (s : Slot) : Prop :=
  p.size ≤ 2 ^ 16 → ∃ e, p.entry? s = some e ∧ e.state ≠ .declared

theorem allocate_temporary (p : SlotPool) (ty : Ty) (byRef : Bool)
    (h : (p.allocate ty byRef).2.Grows q) : q.Temporary (p.allocate ty byRef).1 := by
  intro hq
  obtain ⟨i, hi, he⟩ := allocate_entry p ty byRef
  obtain ⟨e, he, hb⟩ := h.entry i _ he
  rw [hi]
  exact ⟨e, entry_of_number he hq, fun hd => by simpa using hb.declared.mp hd⟩

end SlotPool

namespace Emit

variable {α : Type} {env : Env} {s t : State}

theorem steady_grows : Steady env fun s t => s.slots.Grows t.slots where
  refl _ := .refl _
  trans := .trans
  code _ _ _ := .refl _
  shift _ _ := .refl _
  label _ := .refl _
  serve s r _ := s.slots.serve_grows r
  report _ _ := .refl _
  copy _ _ _ _ := .refl _

theorem Emits.slots_grow {given : Prop} {own : List Slot} {c : Script} {m : Emit α}
    {post : α → List Slot} (h : Emits env .any given own c m post) {a : α}
    (hm : m s = .ok a t) : s.slots.Grows t.slots := h.along_ok steady_grows hm

end Emit

end TypedStack
