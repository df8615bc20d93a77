import TypedStack.Proofs.Requests

/-! Slots over all runs of requests. Requests may be wrong: slots are freed that were never handed
out, or twice, or though they belong to a local. Whatever comes, an entry keeps what it is for, and
entries are numbered in the order in which they are made. As long as no number is used twice, each
declared local has an entry of its own, and no temporary is handed out to two holders. -/
namespace TypedStack.SlotPool

variable {p q : SlotPool}

/-! ### Numbers -/

theorem numberOf_wraps (i : Nat) : (numberOf i).index.toNat = i % 2 ^ 16 := UInt16.toNat_ofNat'

theorem settle_size (p : SlotPool) (s : Slot) (state : SlotState) :
    (p.settle s state).size = p.size := by
  simp [settle, size]

theorem allocate_size (p : SlotPool) (ty : Ty) (byRef : Bool) :
    (p.allocate ty byRef).2.size = p.size ∨
    (p.allocate ty byRef).2.size = p.size + 1 ∧ (p.allocate ty byRef).1 = numberOf p.size := by
  rcases p.allocate_cases ty byRef with ⟨i, -, hp⟩ | ⟨-, hp⟩
  · exact .inl (by simp [hp, size])
  · rw [hp]
    exact .inr ⟨push_size p _, rfl⟩

theorem define_size (p : SlotPool) (l : Local) :
    (p.define l).2.size = p.size ∨
    (p.define l).2.size = p.size + 1 ∧ (p.define l).1 = numberOf p.size := by
  rcases p.define_cases l with ⟨-, hp⟩ | ⟨-, hs, he⟩
  · exact .inl (by rw [hp])
  · refine .inr ⟨?_, hs⟩
    rw [size, he, ← size, push_size]

theorem serve_size (p : SlotPool) (r : Request) :
    (p.serve r).2.size = p.size ∨
    (p.serve r).2.size = p.size + 1 ∧ (p.serve r).1 = some (numberOf p.size) := by
  cases r with
  | define l =>
    rcases p.define_size l with h | ⟨h, hs⟩
    · exact .inl h
    · exact .inr ⟨h, congrArg some hs⟩
  | allocate ty byRef =>
    rcases p.allocate_size ty byRef with h | ⟨h, hs⟩
    · exact .inl h
    · exact .inr ⟨h, congrArg some hs⟩
  | free s => exact .inl (p.settle_size s .free)
  | retire s => exact .inl (p.settle_size s .retired)

/-! ### Declared locals -/

/-- Each declared entry belongs to a local. -/
def Accounted (p : SlotPool) : Prop :=
  ∀ s, p.stateOf? s = some .declared → ∃ id, p.slotOf? id = some s

namespace Accounted

theorem empty : SlotPool.empty.Accounted := by
  intro s hs
  simp [stateOf?, entry?, SlotPool.empty] at hs

theorem of_declared (h : p.Accounted) (hl : ∀ id, q.slotOf? id = p.slotOf? id)
    (hq : ∀ s, q.stateOf? s = some .declared → p.stateOf? s = some .declared) : q.Accounted := by
  intro s hs
  obtain ⟨id, hid⟩ := h s (hq s hs)
  exact ⟨id, (hl id).trans hid⟩

theorem define (h : p.Accounted) (l : Local) (hq : (p.define l).2.size ≤ 2 ^ 16) :
    (p.define l).2.Accounted := by
  rcases p.define_cases l with ⟨-, hp⟩ | ⟨hnew, -, -⟩
  · rw [hp]
    exact h
  · intro s hs
    rw [(define_new hnew hq).2] at hs
    by_cases hsame : s = (p.define l).1
    · rw [hsame]
      exact ⟨l.id, p.define_slotOf l⟩
    · rw [if_neg hsame] at hs
      obtain ⟨id, hid⟩ := h s hs
      have hne : l.id ≠ id := by
        rintro rfl
        cases hnew.symm.trans hid
      exact ⟨id, (p.define_slotOf_of_ne hne).trans hid⟩

theorem allocate (h : p.Accounted) (ty : Ty) (byRef : Bool)
    (hq : (p.allocate ty byRef).2.size ≤ 2 ^ 16) : (p.allocate ty byRef).2.Accounted := by
  have hlends := p.allocate_lends ty byRef hq
  refine h.of_declared (p.allocate_slotOf ty byRef) fun s hs => ?_
  by_cases hsame : s = (p.allocate ty byRef).1
  · rw [hsame, stateOf?, hlends.entry] at hs
    cases hs
  · rw [stateOf?, hlends.others s hsame] at hs
    exact hs

theorem settle (h : p.Accounted) (s : Slot) {state : SlotState} (hstate : state ≠ .declared) :
    (p.settle s state).Accounted := by
  refine h.of_declared (fun _ => rfl) fun x hx => ?_
  rw [settle_stateOf] at hx
  split at hx
  · exact absurd (Option.some.inj hx) hstate
  · exact hx

theorem serve (h : p.Accounted) (r : Request) (hq : (p.serve r).2.size ≤ 2 ^ 16) :
    (p.serve r).2.Accounted := by
  cases r with
  | define l => exact h.define l hq
  | allocate ty byRef => exact h.allocate ty byRef hq
  | free s => exact h.settle s (by decide)
  | retire s => exact h.settle s (by decide)

end Accounted

/-! ### Temporaries -/

/-- Somebody may still go through the slot: it is in use, or was set aside for good. -/
def Held (p : SlotPool) (s : Slot) : Prop := s ∈ p.inUse ∨ s ∈ p.retired

theorem Held.ne_allocate {s : Slot} (h : p.Held s) (ty : Ty) (byRef : Bool)
    (hq : (p.allocate ty byRef).2.size ≤ 2 ^ 16) : (p.allocate ty byRef).1 ≠ s := by
  rintro rfl
  obtain ⟨huse, hretired, -⟩ := p.allocate_inUse ty byRef hq
  exact h.elim huse hretired

/-- Nothing but its release makes a slot free for others. -/
theorem Held.serve {s : Slot} (h : p.Held s) {r : Request} (hr : r ≠ .free s)
    (hq : (p.serve r).2.size ≤ 2 ^ 16) : (p.serve r).2.Held s := by
  rcases h with h | h
  · cases r with
    | define l =>
      left
      rw [SlotPool.serve, define_inUse]
      exact h
    | allocate ty byRef =>
      left
      rw [SlotPool.serve, (p.allocate_inUse ty byRef hq).2.2]
      exact Set.mem_insert_of_mem _ h
    | free x =>
      have hx : s ≠ x := by
        rintro rfl
        exact hr rfl
      left
      rw [SlotPool.serve, free, settle_inUse p x (by decide)]
      exact ⟨h, hx⟩
    | retire x =>
      by_cases hx : s = x
      · subst hx
        right
        change (p.settle s .retired).stateOf? s = some .retired
        rw [settle_stateOf]
        exact if_pos ⟨rfl, h⟩
      · left
        rw [SlotPool.serve, retire, settle_inUse p x (by decide)]
        exact ⟨h, hx⟩
  · exact .inr ((p.serve_grows r).retired h)

theorem Held.serveAll {s : Slot} (h : p.Held s) {requests : List Request}
    (hr : .free s ∉ requests) (hq : (p.serveAll requests).2.size ≤ 2 ^ 16) :
    (p.serveAll requests).2.Held s := by
  have hstep : ∀ p r, r ≠ .free s → Held p s → (p.serve r).2.size ≤ 2 ^ 16 →
      (p.serve r).2.Held s := fun _ _ hr h hq => h.serve hr hq
  refine serveAll_keeps hstep ?_ h hq
  rintro r hmem rfl
  exact hr hmem

/-! ### All runs -/

/-- Whatever requests were made, an entry never changes its type, and one that is declared or set
aside never changes at all. A new entry is given out under the next number, after the last one from
zero again, and a temporary that was free under the number of its entry. A local that has a slot is
given it again and nothing else happens. While numbers tell the entries apart, the locals with a
slot and the declared entries correspond one to one, and a temporary is lent to one holder at a
time: nobody is given it again before it was freed. -/
theorem slots_kept_apart (requests : List Request) :
    let p := (empty.serveAll requests).2
    (∀ later (i : Nat) e, p.entries[i]? = some e →
      ∃ e', (p.serveAll later).2.entries[i]? = some e' ∧ e'.ty = e.ty ∧ e'.byRef = e.byRef ∧
        (e.state = .declared ∨ e.state = .retired → e'.state = e.state)) ∧
    (∀ r, (p.serve r).2.size = p.size ∨ (p.serve r).2.size = p.size + 1 ∧
      ∃ s, (p.serve r).1 = some s ∧ s.index.toNat = p.size % 2 ^ 16) ∧
    (∀ ty byRef, ∃ k, (p.allocate ty byRef).1.index.toNat = k % 2 ^ 16 ∧
      (p.allocate ty byRef).2.entries[k]? = some ⟨ty, byRef, .inUse⟩) ∧
    (∀ l s, p.slotOf? l.id = some s → p.define l = (s, p)) ∧
    (p.size ≤ 2 ^ 16 →
      (∀ id id' s, p.slotOf? id = some s → p.slotOf? id' = some s → id = id') ∧
      ∀ s, (∃ id, p.slotOf? id = some s) ↔ p.stateOf? s = some .declared) ∧
    (∀ ty byRef, (p.allocate ty byRef).2.size ≤ 2 ^ 16 →
      let s := (p.allocate ty byRef).1
      let q := (p.allocate ty byRef).2
      p.Lends ty byRef s q ∧
      ∀ later, .free s ∉ later → ∀ ty' byRef',
        ((q.serveAll later).2.allocate ty' byRef').2.size ≤ 2 ^ 16 →
        ((q.serveAll later).2.allocate ty' byRef').1 ≠ s) := by
  intro p
  refine ⟨?_, ?_, ?_, ?_, ?_, ?_⟩
  · intro later i e he
    obtain ⟨e', he', hb⟩ := (Reaches.grows ⟨later, rfl⟩).entry i e he
    refine ⟨e', he', hb.ty, hb.byRef, ?_⟩
    rintro (hs | hs)
    · rw [hs]
      exact hb.declared.mpr hs
    · rw [hs]
      exact hb.retired hs
  · intro r
    rcases p.serve_size r with h | ⟨h, hs⟩
    · exact .inl h
    · exact .inr ⟨h, _, hs, numberOf_wraps _⟩
  · intro ty byRef
    obtain ⟨k, hk, he⟩ := p.allocate_entry ty byRef
    exact ⟨k, by rw [hk, numberOf_wraps], he⟩
  · intro l s hs
    rw [define, hs]
  · intro hsize
    have hcoherent : p.Coherent := Coherent.empty.reaches ⟨requests, rfl⟩ hsize
    have haccounted : p.Accounted :=
      serveAll_keeps (fun _ r _ h hq => h.serve r hq) (fun _ _ => trivial) .empty hsize
    refine ⟨hcoherent.apart, fun s => ⟨?_, haccounted s⟩⟩
    rintro ⟨id, hid⟩
    exact hcoherent.declared id s hid
  · intro ty byRef hsize s q
    have hlends : p.Lends ty byRef s q := p.allocate_lends ty byRef hsize
    refine ⟨hlends, fun later hlater ty' byRef' hsize' => ?_⟩
    have hheld : q.Held s := by
      left
      rw [hlends.inUse]
      exact Set.mem_insert _ _
    have hbound := ((q.serveAll later).2.allocate_grows ty' byRef').size_le.trans hsize'
    exact (hheld.serveAll hlater hbound).ne_allocate ty' byRef' hsize'

/-- A local and a temporary, and releases that make no sense: of the local's slot, of one that is
not there, and of the temporary after it was freed. -/
def misuse : List Request :=
  let i32 := Ty.ofPrim .i32
  [.define ⟨7, i32, .byValue⟩, .free ⟨0⟩, .allocate i32 false, .retire ⟨9⟩, .free ⟨1⟩, .free ⟨1⟩,
    .retire ⟨1⟩]

/-- The local keeps its slot, and the temporary is lent again. After that it is set aside, and the
next one is another. -/
theorem slots_kept_apart_misuse :
    let i32 := Ty.ofPrim .i32
    let p := (empty.serveAll misuse).2
    let q := (p.allocate i32 false).2
    let later : List Request := [.retire ⟨1⟩, .define ⟨8, i32, .ref⟩, .free ⟨2⟩]
    p.entries[0]? = some ⟨i32, false, .declared⟩ ∧
      (∃ e, (p.serveAll later).2.entries[0]? = some e ∧ e.ty = i32 ∧ e.state = .declared) ∧
      p.slotOf? 7 = some ⟨0⟩ ∧ p.define ⟨7, .object, .ref⟩ = (⟨0⟩, p) ∧
      p.size = 2 ∧ p.stateOf? ⟨0⟩ = some .declared ∧
      q.size = 2 ∧ p.Lends i32 false ⟨1⟩ q ∧
      ((q.serveAll later).2.allocate i32 false).2.size = 4 ∧
      ((q.serveAll later).2.allocate i32 false).1 ≠ ⟨1⟩ := by
  intro i32 p q later
  obtain ⟨hkept, -, -, hagain, hlocals, hlends⟩ := slots_kept_apart misuse
  have hentry : p.entries[0]? = some ⟨i32, false, .declared⟩ := by decide +kernel
  have hslot : p.slotOf? 7 = some ⟨0⟩ := by decide +kernel
  have hsize : p.size = 2 := by decide +kernel
  have hqsize : q.size = 2 := by decide +kernel
  have hlast : ((q.serveAll later).2.allocate i32 false).2.size = 4 := by decide +kernel
  have hnumber : (p.allocate i32 false).1 = ⟨1⟩ := by decide +kernel
  obtain ⟨e, he, hty, -, hstate⟩ := hkept later 0 _ hentry
  obtain ⟨hlend, hapart⟩ := hlends i32 false (show q.size ≤ 2 ^ 16 by omega)
  refine ⟨hentry, ⟨e, he, hty, hstate (.inl rfl)⟩, hslot, hagain ⟨7, .object, .ref⟩ _ hslot, hsize,
    ((hlocals (show p.size ≤ 2 ^ 16 by omega)).2 ⟨0⟩).mp ⟨7, hslot⟩, hqsize, hnumber ▸ hlend, hlast,
    ?_⟩
  have hfree : .free (p.allocate i32 false).1 ∉ later := by
    rw [hnumber]
    simp [later]
  exact hnumber ▸ hapart later hfree i32 false (show _ ≤ 2 ^ 16 from hlast ▸ by decide)

end TypedStack.SlotPool
