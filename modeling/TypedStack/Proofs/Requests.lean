import Mathlib.Data.Set.Insert
import TypedStack.Proofs.Slots

/-! Pools over time. What a body makes of its pool it makes by requests, and as long as there are
no more slots than numbers, requests keep every declared local apart from all other slots. -/
namespace TypedStack

namespace SlotPool

def stateOf? (p : SlotPool) (s : Slot) : Option SlotState := (p.entry? s).map SlotEntry.state

def inUse (p : SlotPool) : Set Slot := {s | p.stateOf? s = some .inUse}

/-- The temporaries that were set aside for good. -/
def retired (p : SlotPool) : Set Slot := {s | p.stateOf? s = some .retired}

/-- Some requests lead from one pool to the other. -/
def Reaches (p q : SlotPool) : Prop := ∃ requests, (p.serveAll requests).2 = q

/-- Numbers tell slots apart, and each declared local has a slot of its own that is no temporary. -/
structure Coherent (p : SlotPool) : Prop where
  size : p.size ≤ 2 ^ 16
  declared : ∀ id s, p.slotOf? id = some s → p.stateOf? s = some .declared
  apart : ∀ id id' s, p.slotOf? id = some s → p.slotOf? id' = some s → id = id'

variable {p q r : SlotPool}

theorem serveAll_cons (p : SlotPool) (request : Request) (requests : List Request) :
    (p.serveAll (request :: requests)).2 = ((p.serve request).2.serveAll requests).2 := by
  cases requests <;> rfl

theorem serveAll_append (p : SlotPool) (first second : List Request) :
    (p.serveAll (first ++ second)).2 = ((p.serveAll first).2.serveAll second).2 := by
  induction first generalizing p with
  | nil => rfl
  | cons request first ih =>
    rw [List.cons_append, serveAll_cons, serveAll_cons]
    exact ih _

namespace Reaches

theorem refl (p : SlotPool) : p.Reaches p := ⟨[], rfl⟩

theorem trans (h : p.Reaches q) (h' : q.Reaches r) : p.Reaches r := by
  obtain ⟨first, rfl⟩ := h
  obtain ⟨second, rfl⟩ := h'
  exact ⟨first ++ second, serveAll_append p first second⟩

theorem serve (p : SlotPool) (request : Request) : p.Reaches (p.serve request).2 :=
  ⟨[request], rfl⟩

end Reaches

theorem Reaches.grows (h : p.Reaches q) : p.Grows q := by
  obtain ⟨requests, rfl⟩ := h
  induction requests generalizing p with
  | nil => exact .refl p
  | cons request requests ih =>
    rw [serveAll_cons]
    exact (p.serve_grows request).trans ih

namespace Grows

theorem size_le (h : p.Grows q) : p.size ≤ q.size := by
  by_contra hlt
  have hi : q.size < p.entries.size := by
    simpa [size] using hlt
  obtain ⟨e, he, -⟩ := h.entry q.size _ (Array.getElem?_eq_getElem hi)
  have := (Array.getElem?_eq_some_iff.mp he).1
  exact Nat.lt_irrefl _ this

theorem stateOf {s : Slot} {state : SlotState} (h : p.Grows q) (hs : p.stateOf? s = some state) :
    ∃ state', q.stateOf? s = some state' ∧ (state' = .declared ↔ state = .declared) ∧
      (state = .retired → state' = .retired) := by
  obtain ⟨e, he, rfl⟩ := Option.map_eq_some_iff.mp hs
  obtain ⟨e', he', hb⟩ := h.entry _ e he
  exact ⟨e'.state, Option.map_eq_some_iff.mpr ⟨e', he', rfl⟩, hb.declared, hb.retired⟩

theorem retired (h : p.Grows q) : p.retired ⊆ q.retired := by
  intro s hs
  obtain ⟨state, hq, -, hr⟩ := h.stateOf hs
  exact hq.trans (congrArg some (hr rfl))

theorem declared {s : Slot} (h : p.Grows q) (hs : p.stateOf? s = some .declared) :
    q.stateOf? s = some .declared := by
  obtain ⟨state, hq, hd, -⟩ := h.stateOf hs
  exact hq.trans (congrArg some (hd.mpr rfl))

/-- A slot that ends up declared was never a temporary. -/
theorem not_temporary {s : Slot} (h : p.Grows q) (hs : q.stateOf? s = some .declared) :
    s ∉ p.inUse ∧ s ∉ p.retired := by
  constructor
  · intro hu
    obtain ⟨state, hq, hd, -⟩ := h.stateOf hu
    obtain rfl : state = .declared := Option.some.inj (hq.symm.trans hs)
    exact nomatch hd.mp rfl
  · intro hr
    exact nomatch (h.retired hr).symm.trans hs

end Grows

theorem slot_eq {s x : Slot} (h : s.index.toNat = x.index.toNat) : s = x := by
  cases s
  cases x
  exact congrArg Slot.mk (UInt16.toNat_inj.mp h)

theorem slot_lt_size {s : Slot} {state : SlotState} (h : p.stateOf? s = some state) :
    s.index.toNat < p.size := by
  obtain ⟨e, he, -⟩ := Option.map_eq_some_iff.mp h
  exact (Array.getElem?_eq_some_iff.mp he).1

theorem push_size (p : SlotPool) (e : SlotEntry) : (p.push e).2.size = p.size + 1 :=
  Array.size_push _

theorem push_entry (p : SlotPool) (e : SlotEntry) (hp : p.size < 2 ^ 16) (s : Slot) :
    entry? (p.push e).2 s = if s = numberOf p.size then some e else p.entry? s := by
  have hnumber : s.index.toNat = p.entries.size ↔ s = numberOf p.size := by
    constructor
    · intro h
      exact slot_eq (h.trans (numberOf_toNat hp).symm)
    · rintro rfl
      exact numberOf_toNat hp
  simp only [push, entry?, Array.getElem?_push, hnumber]

theorem push_stateOf (p : SlotPool) (e : SlotEntry) (hp : p.size < 2 ^ 16) (s : Slot) :
    (p.push e).2.stateOf? s = if s = numberOf p.size then some e.state else p.stateOf? s := by
  rw [stateOf?, push_entry p e hp]
  split <;> rfl

theorem stateOf_next (hp : p.size < 2 ^ 16) : p.stateOf? (numberOf p.size) = none := by
  rw [stateOf?, entry?, numberOf_toNat hp, size, Array.getElem?_size]
  rfl

theorem define_slotOf_of_ne (p : SlotPool) {l : Local} {id : LocalId} (h : l.id ≠ id) :
    (p.define l).2.slotOf? id = p.slotOf? id := by
  unfold define
  split
  · rfl
  · simp [slotOf?, push, Std.TreeMap.getElem?_insert, h]

theorem define_cases (p : SlotPool) (l : Local) :
    (p.slotOf? l.id = some (p.define l).1 ∧ (p.define l).2 = p) ∨
    (p.slotOf? l.id = none ∧ (p.define l).1 = numberOf p.size ∧
      (p.define l).2.entries = (p.push ⟨l.ty, l.mode.isByRef, .declared⟩).2.entries) := by
  unfold define
  split
  · exact .inl ⟨‹_›, rfl⟩
  · exact .inr ⟨‹_›, rfl, rfl⟩

/-- A local without a slot is given a number that no slot has. -/
theorem define_new {l : Local} (hnew : p.slotOf? l.id = none)
    (hq : (p.define l).2.size ≤ 2 ^ 16) :
    p.stateOf? (p.define l).1 = none ∧ ∀ s, (p.define l).2.stateOf? s =
      if s = (p.define l).1 then some .declared else p.stateOf? s := by
  rcases p.define_cases l with ⟨hold, -⟩ | ⟨-, hs, he⟩
  · cases hnew.symm.trans hold
  · have hlt : p.size < 2 ^ 16 := by
      rwa [SlotPool.size, he, ← SlotPool.size, push_size] at hq
    rw [hs]
    refine ⟨stateOf_next hlt, fun s => ?_⟩
    rw [stateOf?, entry?, he, ← entry?, ← stateOf?, push_stateOf p _ hlt]

theorem allocate_slotOf (p : SlotPool) (ty : Ty) (byRef : Bool) (id : LocalId) :
    (p.allocate ty byRef).2.slotOf? id = p.slotOf? id := by
  rcases p.allocate_cases ty byRef with ⟨i, -, hp⟩ | ⟨-, hp⟩
  · rw [hp]
    rfl
  · rw [hp]
    rfl

/-- What every request of a kind keeps while there are numbers left, all such requests keep. -/
theorem serveAll_keeps {P : SlotPool → Prop} {kind : Request → Prop}
    (hstep : ∀ p r, kind r → P p → (p.serve r).2.size ≤ 2 ^ 16 → P (p.serve r).2)
    {requests : List Request} (hkind : ∀ r ∈ requests, kind r) (h : P p)
    (hq : (p.serveAll requests).2.size ≤ 2 ^ 16) : P (p.serveAll requests).2 := by
  induction requests generalizing p with
  | nil => exact h
  | cons r requests ih =>
    rw [serveAll_cons] at hq ⊢
    have hsize := (Reaches.grows ⟨requests, rfl⟩).size_le.trans hq
    refine ih (fun x hx => hkind x (List.mem_cons_of_mem r hx)) (hstep p r ?_ h hsize) hq
    exact hkind r List.mem_cons_self

namespace Coherent

theorem empty : SlotPool.empty.Coherent where
  size := Nat.zero_le _
  declared := by simp [slotOf?, SlotPool.empty]
  apart := by simp [slotOf?, SlotPool.empty]

theorem of_grows (h : p.Coherent) (hg : p.Grows q) (hq : q.size ≤ 2 ^ 16)
    (hl : ∀ id, q.slotOf? id = p.slotOf? id) : q.Coherent where
  size := hq
  declared id s hs := hg.declared (h.declared id s (hl id ▸ hs))
  apart id id' s hs hs' := h.apart id id' s (hl id ▸ hs) (hl id' ▸ hs')

theorem define (h : p.Coherent) (l : Local) (hq : (p.define l).2.size ≤ 2 ^ 16) :
    (p.define l).2.Coherent := by
  rcases p.define_cases l with ⟨-, hp⟩ | ⟨hnew, -, -⟩
  · exact hp.symm ▸ h
  · obtain ⟨hfresh, hstate⟩ := define_new hnew hq
    have hl := p.define_slotOf l
    -- the new number is no number of a slot that was there
    have hapart : ∀ id s, p.slotOf? id = some s → s ≠ (p.define l).1 := by
      rintro id s hid rfl
      cases hfresh.symm.trans (h.declared id _ hid)
    have hother : ∀ {id s}, l.id ≠ id → (p.define l).2.slotOf? id = some s →
        p.slotOf? id = some s := by
      intro id s hne hid
      rwa [p.define_slotOf_of_ne hne] at hid
    constructor
    · exact hq
    · intro id s hid
      by_cases hne : l.id = id
      · subst hne
        obtain rfl : (p.define l).1 = s := Option.some.inj (hl.symm.trans hid)
        rw [hstate, if_pos rfl]
      · exact (p.define_grows l).declared (h.declared id s (hother hne hid))
    · intro id id' s hid hid'
      by_cases hne : l.id = id
      · by_cases hne' : l.id = id'
        · exact hne.symm.trans hne'
        · subst hne
          obtain rfl : (p.define l).1 = s := Option.some.inj (hl.symm.trans hid)
          exact absurd rfl (hapart id' _ (hother hne' hid'))
      · by_cases hne' : l.id = id'
        · subst hne'
          obtain rfl : (p.define l).1 = s := Option.some.inj (hl.symm.trans hid')
          exact absurd rfl (hapart id _ (hother hne hid))
        · exact h.apart id id' s (hother hne hid) (hother hne' hid')

theorem serve (h : p.Coherent) (request : Request) (hq : (p.serve request).2.size ≤ 2 ^ 16) :
    (p.serve request).2.Coherent := by
  have hg := p.serve_grows request
  cases request with
  | define l => exact h.define l hq
  | allocate ty byRef =>
    exact h.of_grows hg hq (p.allocate_slotOf ty byRef)
  | free s => exact h.of_grows hg hq fun id => rfl
  | retire s => exact h.of_grows hg hq fun id => rfl

theorem reaches (h : p.Coherent) (hr : p.Reaches q) (hq : q.size ≤ 2 ^ 16) : q.Coherent := by
  obtain ⟨requests, rfl⟩ := hr
  exact serveAll_keeps (fun p r _ h hq => h.serve r hq) (fun _ _ => trivial) h hq

end Coherent

/-! ### Slots in use -/

theorem define_inUse (p : SlotPool) (l : Local) : (p.define l).2.inUse = p.inUse := by
  rcases p.define_cases l with ⟨-, hp⟩ | ⟨-, -, he⟩
  · rw [hp]
  · ext s
    simp only [inUse, stateOf?, entry?, he, push, Array.getElem?_push, Set.mem_ofPred_eq]
    split
    · rename_i hs
      simp [hs]
    · rfl

/-- A slot is lent: nobody had it, it is in use now, and all other slots are as they were. -/
structure Lends (p : SlotPool) (ty : Ty) (byRef : Bool) (s : Slot) (q : SlotPool) : Prop where
  idle : p.stateOf? s = none ∨ p.stateOf? s = some .free
  entry : q.entry? s = some ⟨ty, byRef, .inUse⟩
  others : ∀ x, x ≠ s → q.entry? x = p.entry? x

theorem allocate_lends (p : SlotPool) (ty : Ty) (byRef : Bool)
    (h : (p.allocate ty byRef).2.size ≤ 2 ^ 16) :
    p.Lends ty byRef (p.allocate ty byRef).1 (p.allocate ty byRef).2 := by
  rcases p.allocate_cases ty byRef with ⟨k, hfree, hp⟩ | ⟨-, hp⟩
  · obtain ⟨hlt, -⟩ := Array.getElem?_eq_some_iff.mp hfree
    rw [hp] at h ⊢
    have hnumber : (numberOf k).index.toNat = k :=
      numberOf_toNat (hlt.trans_le (by simpa [size] using h))
    refine ⟨.inr ?_, ?_, ?_⟩
    · rw [stateOf?, entry?, hnumber, hfree]
      rfl
    · exact entry_of_number (Array.getElem?_setIfInBounds_self_of_lt hlt) h
    · intro x hx
      have hne : k ≠ x.index.toNat := fun hk => hx (slot_eq (hnumber.trans hk).symm)
      exact Array.getElem?_setIfInBounds_ne hne
  · rw [hp, push_size] at h
    rw [hp]
    refine ⟨.inl ?_, ?_, ?_⟩
    · exact stateOf_next h
    · rw [push_entry p _ h]
      exact if_pos rfl
    · intro x hx
      rw [push_entry p _ h]
      exact if_neg hx

theorem Lends.inUse {ty : Ty} {byRef : Bool} {s : Slot} (h : p.Lends ty byRef s q) :
    q.inUse = insert s p.inUse := by
  ext x
  by_cases hx : x = s
  · subst hx
    simp [SlotPool.inUse, stateOf?, h.entry]
  · simp [SlotPool.inUse, stateOf?, h.others x hx, hx]

theorem allocate_inUse (p : SlotPool) (ty : Ty) (byRef : Bool)
    (h : (p.allocate ty byRef).2.size ≤ 2 ^ 16) :
    (p.allocate ty byRef).1 ∉ p.inUse ∧ (p.allocate ty byRef).1 ∉ p.retired ∧
      (p.allocate ty byRef).2.inUse = insert (p.allocate ty byRef).1 p.inUse := by
  have hlends := p.allocate_lends ty byRef h
  refine ⟨?_, ?_, hlends.inUse⟩
  · rcases hlends.idle with hs | hs <;> simp [inUse, hs]
  · rcases hlends.idle with hs | hs <;> simp [retired, hs]

theorem settle_stateOf (p : SlotPool) (s x : Slot) (state : SlotState) :
    (p.settle s state).stateOf? x =
      if x = s ∧ p.stateOf? s = some .inUse then some state else p.stateOf? x := by
  by_cases hx : x = s
  · subst hx
    simp only [stateOf?, entry?, settle, Array.getElem?_modify, if_true, true_and]
    cases p.entries[x.index.toNat]? with
    | none => rfl
    | some e => by_cases hu : e.state = .inUse <;> simp [hu]
  · have hne : s.index.toNat ≠ x.index.toNat := fun h => hx (slot_eq h).symm
    simp [hx, stateOf?, entry?, settle, Array.getElem?_modify, hne]

theorem settle_inUse (p : SlotPool) (s : Slot) {state : SlotState} (h : state ≠ .inUse) :
    (p.settle s state).inUse = p.inUse \ {s} := by
  ext x
  simp only [inUse, settle_stateOf, Set.mem_sdiff, Set.mem_ofPred_eq, Set.mem_singleton_iff]
  by_cases hx : x = s
  · subst hx
    by_cases hu : p.stateOf? x = some .inUse <;> simp [hu, h]
  · simp [hx]

end SlotPool

namespace Emit

variable {α : Type} {env : Env} {s t : State}

theorem steady_reaches : Steady env fun s t => s.slots.Reaches t.slots where
  refl _ := .refl _
  trans := .trans
  code _ _ _ := .refl _
  shift _ _ := .refl _
  label _ := .refl _
  serve _ r _ := .serve _ r
  report _ _ := .refl _
  copy _ _ _ _ := .refl _

theorem Emits.slots_reach {given : Prop} {own : List Slot} {c : Script} {m : Emit α}
    {post : α → List Slot} (h : Emits env .any given own c m post) {a : α}
    (hm : m s = .ok a t) : s.slots.Reaches t.slots := h.along_ok steady_reaches hm

end Emit

end TypedStack
