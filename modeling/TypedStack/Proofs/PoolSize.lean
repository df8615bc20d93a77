import Mathlib.Data.List.Induction
import Mathlib.Order.Bounds.Defs
import TypedStack.Proofs.SlotRuns

/-! How large a pool gets. A temporary is made only where none of its kind is free, so that there
are never more of a kind than were needed at once. -/
namespace TypedStack

def SlotEntry.isTemporary (ty : Ty) (byRef : Bool) (e : SlotEntry) : Bool :=
  e.state != .declared && e.ty == ty && e.byRef == byRef

/-- It cannot be lent now: it is in use, or was set aside for good. -/
def SlotEntry.isTaken (ty : Ty) (byRef : Bool) (e : SlotEntry) : Bool :=
  (e.state == .inUse || e.state == .retired) && e.ty == ty && e.byRef == byRef

theorem SlotEntry.Becomes.isTemporary {e e' : SlotEntry} (h : e.Becomes e') (ty : Ty)
    (byRef : Bool) : e'.isTemporary ty byRef = e.isTemporary ty byRef := by
  have hstate : (e'.state != .declared) = (e.state != .declared) := by
    rw [Bool.eq_iff_iff, bne_iff_ne, bne_iff_ne, ne_eq, ne_eq, h.declared]
  rw [SlotEntry.isTemporary, SlotEntry.isTemporary, hstate, h.ty, h.byRef]

namespace SlotPool

variable {p q : SlotPool} {ty : Ty} {byRef : Bool}

def temporaries (p : SlotPool) (ty : Ty) (byRef : Bool) : Nat :=
  p.entries.countP (·.isTemporary ty byRef)

def taken (p : SlotPool) (ty : Ty) (byRef : Bool) : Nat := p.entries.countP (·.isTaken ty byRef)

theorem taken_le (p : SlotPool) (ty : Ty) (byRef : Bool) :
    p.taken ty byRef ≤ p.temporaries ty byRef := by
  refine Array.countP_mono_left fun e _ he => ?_
  cases hs : e.state <;> simp_all [SlotEntry.isTaken, SlotEntry.isTemporary]

theorem taken_of_none_free (h : ⟨ty, byRef, .free⟩ ∉ p.entries) :
    p.taken ty byRef = p.temporaries ty byRef := by
  refine Array.countP_congr fun e he => ?_
  obtain ⟨ty', byRef', state⟩ := e
  cases state with
  | free =>
    have hne : ¬ (ty' = ty ∧ byRef' = byRef) := by
      rintro ⟨rfl, rfl⟩
      exact h he
    simpa [SlotEntry.isTaken, SlotEntry.isTemporary] using hne
  | declared | inUse | retired => simp [SlotEntry.isTaken, SlotEntry.isTemporary]

theorem push_temporaries (p : SlotPool) (e : SlotEntry) (ty : Ty) (byRef : Bool) :
    (p.push e).2.temporaries ty byRef =
      p.temporaries ty byRef + if e.isTemporary ty byRef then 1 else 0 := Array.countP_push

theorem push_taken (p : SlotPool) (e : SlotEntry) (ty : Ty) (byRef : Bool) :
    (p.push e).2.taken ty byRef =
      p.taken ty byRef + if e.isTaken ty byRef then 1 else 0 := Array.countP_push

theorem Grows.temporaries (h : p.Grows q) (hsize : q.size = p.size) (ty : Ty) (byRef : Bool) :
    q.temporaries ty byRef = p.temporaries ty byRef := by
  have hsame : q.entries.map (·.isTemporary ty byRef) = p.entries.map (·.isTemporary ty byRef) := by
    refine Array.ext_getElem? fun i => ?_
    rw [Array.getElem?_map, Array.getElem?_map]
    cases hp : p.entries[i]? with
    | none =>
      have hq : q.entries[i]? = none := by
        rw [Array.getElem?_eq_none_iff] at hp ⊢
        exact hsize.trans_le hp
      rw [hq]
    | some e =>
      obtain ⟨e', he', hb⟩ := h.entry i e hp
      rw [he', Option.map_some, Option.map_some, hb.isTemporary]
  have hcount (r : SlotPool) : r.temporaries ty byRef =
      (r.entries.map (·.isTemporary ty byRef)).countP id := by
    rw [Array.countP_map]
    rfl
  rw [hcount q, hcount p, hsame]

/-- A request adds no temporary of a kind, or leaves none of them free. -/
theorem serve_temporaries (p : SlotPool) (r : Request) (ty : Ty) (byRef : Bool) :
    (p.serve r).2.temporaries ty byRef = p.temporaries ty byRef ∨
    p.temporaries ty byRef ≤ (p.serve r).2.temporaries ty byRef ∧
      (p.serve r).2.taken ty byRef = (p.serve r).2.temporaries ty byRef := by
  have hgrows := p.serve_grows r
  cases r with
  | define l =>
    rcases p.define_cases l with ⟨-, hp⟩ | ⟨-, -, he⟩
    · left
      rw [serve, hp]
    · left
      have hpush := p.push_temporaries ⟨l.ty, l.mode.isByRef, .declared⟩ ty byRef
      rw [serve, SlotPool.temporaries, he]
      simpa [SlotPool.temporaries, SlotEntry.isTemporary] using hpush
  | allocate ty' byRef' =>
    rcases p.allocate_cases ty' byRef' with ⟨i, -, hp⟩ | ⟨hnone, hp⟩
    · -- one that was free is lent again
      have hsize : (p.allocate ty' byRef').2.size = p.size := by simp [hp, size]
      exact .inl (hgrows.temporaries hsize ty byRef)
    · rw [serve, hp, push_temporaries, push_taken]
      by_cases hkind : ty' = ty ∧ byRef' = byRef
      · obtain ⟨rfl, rfl⟩ := hkind
        right
        rw [taken_of_none_free hnone]
        simp [SlotEntry.isTaken, SlotEntry.isTemporary]
      · left
        have hother : SlotEntry.isTemporary ty byRef ⟨ty', byRef', .inUse⟩ = false := by
          simpa [SlotEntry.isTemporary] using hkind
        rw [hother]
        rfl
  | free s => exact .inl (hgrows.temporaries (p.settle_size s .free) ty byRef)
  | retire s => exact .inl (hgrows.temporaries (p.settle_size s .retired) ty byRef)

theorem temporaries_le_serve (p : SlotPool) (r : Request) (ty : Ty) (byRef : Bool) :
    p.temporaries ty byRef ≤ (p.serve r).2.temporaries ty byRef := by
  rcases p.serve_temporaries r ty byRef with h | ⟨h, -⟩
  · exact h.ge
  · exact h

theorem temporaries_le_serveAll (p : SlotPool) (requests : List Request) (ty : Ty)
    (byRef : Bool) : p.temporaries ty byRef ≤ (p.serveAll requests).2.temporaries ty byRef := by
  induction requests generalizing p with
  | nil => exact Nat.le_refl _
  | cons r requests ih =>
    rw [serveAll_cons]
    exact (p.temporaries_le_serve r ty byRef).trans (ih _)

/-- At some time all temporaries that there are now were taken. -/
theorem temporaries_attained (requests : List Request) (ty : Ty) (byRef : Bool) :
    ∃ done, done <+: requests ∧ (empty.serveAll done).2.taken ty byRef =
      (empty.serveAll requests).2.temporaries ty byRef := by
  induction requests using List.reverseRecOn with
  | nil => exact ⟨[], List.prefix_refl _, rfl⟩
  | append_singleton requests r ih =>
    obtain ⟨done, hdone, htaken⟩ := ih
    rw [serveAll_append]
    rcases (empty.serveAll requests).2.serve_temporaries r ty byRef with hsame | ⟨-, hfull⟩
    · -- nothing was added, so it was the same time as before
      exact ⟨done, hdone.trans (List.prefix_append _ _), htaken.trans hsame.symm⟩
    · refine ⟨requests ++ [r], List.prefix_refl _, ?_⟩
      rw [serveAll_append]
      exact hfull

/-- There are never more temporaries of a kind than were taken at once at some time: after any
requests their number is the greatest that were in use or set aside in one of the states passed
through. A new one is made only where none of its kind is free. -/
theorem temporaries_at_peak (requests : List Request) (ty : Ty) (byRef : Bool) :
    let p := (empty.serveAll requests).2
    IsGreatest {n | ∃ done, done <+: requests ∧ (empty.serveAll done).2.taken ty byRef = n}
      (p.temporaries ty byRef) ∧
    (p.allocate ty byRef).2.size =
      p.size + if ⟨ty, byRef, .free⟩ ∈ p.entries then 0 else 1 := by
  intro p
  refine ⟨⟨temporaries_attained requests ty byRef, ?_⟩, ?_⟩
  · rintro n ⟨done, ⟨rest, rfl⟩, rfl⟩
    have hmono := (empty.serveAll done).2.temporaries_le_serveAll rest ty byRef
    rw [← serveAll_append] at hmono
    exact (taken_le _ ty byRef).trans hmono
  · rcases p.allocate_cases ty byRef with ⟨i, hfree, hp⟩ | ⟨hnone, hp⟩
    · rw [if_pos (Array.mem_of_getElem? hfree)]
      simp [hp, size]
    · rw [if_neg hnone, hp, push_size]

end SlotPool

end TypedStack
