import Mathlib.Data.List.Induction
import TypedStack.Proofs.Mentions

/-! The slots of locals over a whole session. A local gets a slot at the first mention of it that
is come to, and keeps it, with the type of that mention. One that lives on the stack before it has
a slot never gets one. -/
namespace TypedStack

namespace SlotPool

variable {p q : SlotPool} {l : Local} {k : Nat} {id : LocalId} {ls : List Local}

/-- The entry at this position was made for the local, as it is mentioned here. -/
structure Keeps (p : SlotPool) (l : Local) (k : Nat) : Prop where
  slot : p.slotOf? l.id = some (numberOf k)
  entry : p.entries[k]? = some ⟨l.ty, l.mode.isByRef, .declared⟩

theorem Keeps.grows (h : p.Keeps l k) (hg : p.Grows q) : q.Keeps l k := by
  obtain ⟨⟨ty, byRef, state⟩, he, hb⟩ := hg.entry k _ h.entry
  obtain rfl : ty = l.ty := hb.ty
  obtain rfl : byRef = l.mode.isByRef := hb.byRef
  obtain rfl : state = .declared := hb.declared.mpr rfl
  exact ⟨hg.slotOf _ _ h.slot, he⟩

theorem define_keeps (hnew : p.slotOf? l.id = none) : (p.define l).2.Keeps l p.size := by
  have hslot := p.define_slotOf l
  rcases p.define_cases l with ⟨hold, -⟩ | ⟨-, hnumber, he⟩
  · cases hnew.symm.trans hold
  · refine ⟨hnumber ▸ hslot, ?_⟩
    rw [he]
    exact Array.getElem?_push_size

theorem serve_slotOf_of_ne (p : SlotPool) {r : Request} (h : ∀ l, r = .define l → l.id ≠ id) :
    (p.serve r).2.slotOf? id = p.slotOf? id := by
  cases r with
  | define l => exact p.define_slotOf_of_ne (h l rfl)
  | allocate ty byRef => exact p.allocate_slotOf ty byRef id
  | free s => rfl
  | retire s => rfl

/-- A local that has got a slot has got it as it was first asked for. -/
theorem Declares.first (h : p.Declares ls q) (hp : p.slotOf? id = none) {x : Slot}
    (hq : q.slotOf? id = some x) :
    ∃ l k, ls.find? (·.id == id) = some l ∧ q.Keeps l k ∧ x = numberOf k := by
  obtain ⟨requests, rfl, rfl⟩ := h
  induction requests generalizing p with
  | nil => cases hp.symm.trans hq
  | cons r requests ih =>
    rw [serveAll_cons] at hq ⊢
    by_cases hr : ∃ l, r = .define l ∧ l.id = id
    · obtain ⟨l, rfl, rfl⟩ := hr
      have hkeeps := (define_keeps hp).grows (Reaches.grows ⟨requests, rfl⟩)
      refine ⟨l, p.size, ?_, hkeeps, Option.some.inj (hq.symm.trans hkeeps.slot)⟩
      simp [Request.local?]
    · have hother : ∀ l, r = .define l → l.id ≠ id := fun l hl hid => hr ⟨l, hl, hid⟩
      obtain ⟨l, k, hl, hrest⟩ := ih ((p.serve_slotOf_of_ne hother).trans hp) hq
      refine ⟨l, k, ?_, hrest⟩
      cases r with
      | define l' =>
        have hne : (l'.id == id) = false := beq_eq_false_iff_ne.mpr (hother l' rfl)
        simpa [Request.local?, hne] using hl
      | _ => exact hl

theorem Declares.mentioned (h : p.Declares ls q) (hl : l ∈ ls) :
    (q.slotOf? l.id).isSome = true := by
  obtain ⟨requests, rfl, rfl⟩ := h
  obtain ⟨r, hr, hlocal⟩ := List.mem_filterMap.mp hl
  obtain rfl : r = .define l := by
    cases r <;> cases hlocal
    rfl
  obtain ⟨first, rest, rfl⟩ := List.append_of_mem hr
  have hslot : ((p.serveAll first).2.serve (.define l)).2.slotOf? l.id = some _ :=
    (p.serveAll first).2.define_slotOf l
  rw [serveAll_append, serveAll_cons, (Reaches.grows ⟨rest, rfl⟩).slotOf _ _ hslot]
  rfl

end SlotPool

namespace Emit

/-- Whatever is emitted, locals that live on the stack are given no slot. -/
theorem steady_resident {env : Env} : Steady env fun s t => ∀ id, env.isResident id = true →
    s.slots.slotOf? id = none → t.slots.slotOf? id = none where
  refl _ _ _ h := h
  trans h h' id hid hs := h' id hid (h id hid hs)
  code _ _ _ _ _ h := h
  shift _ _ _ _ h := h
  label _ _ _ h := h
  serve s r hr id hid hs := by
    refine (s.slots.serve_slotOf_of_ne ?_).trans hs
    rintro l hl rfl
    cases hid.symm.trans (hr l hl)
  report _ _ _ _ h := h
  copy _ _ _ _ _ _ h := h

end Emit

def Body.Stacked (b : Body) (id : LocalId) : Prop :=
  id ∈ b.resident ∧ b.slots.slotOf? id = none

namespace Session

variable {s : Session} {m : Nat} {b : Body} {l : Local} {id : LocalId}
  {script : List (Nat × Step)}

theorem run_append (s : Session) (first second : List (Nat × Step)) :
    s.run (first ++ second) = (s.run first).run second := List.foldl_append

/-- What each of its steps keeps of a body, every run keeps. -/
theorem run_body {Q : Body → Prop}
    (hstep : ∀ s b step, Q b → Q (b.next step (reached s b step)))
    (h : s.bodies[m]? = some b) (hb : Q b) (script : List (Nat × Step)) :
    ∃ c, (s.run script).bodies[m]? = some c ∧ Q c := by
  refine run_keeps (P := fun s => ∃ c, s.bodies[m]? = some c ∧ Q c) ?_ ⟨b, h, hb⟩ script
  rintro s n step ⟨c, hc, hQ⟩
  cases hn : s.bodies[n]? with
  | none =>
    rw [step_of_none hn]
    exact ⟨c, hc, hQ⟩
  | some a =>
    rw [step_bodies hn]
    by_cases hsame : m = n
    · subst hsame
      obtain rfl : a = c := Option.some.inj (hn.symm.trans hc)
      exact ⟨_, if_pos rfl, hstep s a step hQ⟩
    · exact ⟨c, (if_neg hsame).trans hc, hQ⟩

theorem run_grows (h : s.bodies[m]? = some b) (script : List (Nat × Step)) :
    ∃ c, (s.run script).bodies[m]? = some c ∧ b.slots.Grows c.slots := by
  refine run_body (Q := fun c => b.slots.Grows c.slots) ?_ h (.refl _) script
  intro s c step hc
  exact hc.trans (s.reached_extends c step).slots.grows

theorem step_ok (h : s.bodies[m]? = some b) {step : Step} {answer : Answer}
    (hok : (s.step m step).1 = .ok answer) :
    step.emit (b.env s.symbols) (s.stateOf b) = .ok answer (s.reached b step) := by
  rw [Session.step, h] at hok
  dsimp only at hok
  unfold reached Emit.after stateOf
  cases hemit : step.emit (b.env s.symbols) ⟨b.stream, b.slots, s.blobs, s.reports⟩ with
  | ok a t =>
    rw [hemit] at hok
    cases hok
    rfl
  | error f t =>
    rw [hemit] at hok
    cases hok

theorem next_stacked (s : Session) (step : Step) (h : b.Stacked id) :
    (b.next step (s.reached b step)).Stacked id := by
  constructor
  · change id ∈ step.residentAfter b.resident
    cases step with
    | keepOnStack id' => exact List.mem_cons_of_mem id' h.1
    | _ => exact h.1
  · have hresident : (b.env s.symbols).isResident id = true := List.contains_iff_mem.mpr h.1
    exact step.along Emit.steady_resident (s.stateOf b) id hresident h.2

/-- A step of the body comes to a mention of the local, which had no slot before, and this mention
is the first of all that name it. -/
def FirstMention (s : Session) (script : List (Nat × Step)) (m : Nat) (l : Local) : Prop :=
  ∃ before step after b, script = before ++ (m, step) :: after ∧
    (s.run before).bodies[m]? = some b ∧ b.slots.slotOf? l.id = none ∧
    (step.mentions (b.env (s.run before).symbols)).find? (·.id == l.id) = some l

theorem FirstMention.append (h : s.FirstMention script m l) (more : List (Nat × Step)) :
    s.FirstMention (script ++ more) m l := by
  obtain ⟨before, step, rest, b, rfl, hb⟩ := h
  exact ⟨before, step, rest ++ more, b, by simp, hb⟩

/-- Every slot of a local goes back to its first mention. -/
theorem run_first (symbols : Symbols) (methods : List (Enclosing × Options))
    (script : List (Nat × Step)) {x : Slot}
    (hb : ((fresh symbols methods).run script).bodies[m]? = some b)
    (hx : b.slots.slotOf? id = some x) :
    ∃ l k, l.id = id ∧ x = SlotPool.numberOf k ∧
      (fresh symbols methods).FirstMention script m l ∧ b.slots.Keeps l k := by
  induction script using List.reverseRecOn generalizing b with
  | nil =>
    obtain ⟨y, -, rfl⟩ := Option.map_eq_some_iff.mp (fresh_body symbols methods m ▸ hb)
    simp [Body.start, SlotPool.empty, SlotPool.slotOf?] at hx
  | append_singleton script y ih =>
    obtain ⟨n, step⟩ := y
    -- a slot that was there already goes back to an earlier step
    have hearlier {a : Body} (ha : ((fresh symbols methods).run script).bodies[m]? = some a)
        (hax : a.slots.slotOf? id = some x) (hg : a.slots.Grows b.slots) :
        ∃ l k, l.id = id ∧ x = SlotPool.numberOf k ∧
          (fresh symbols methods).FirstMention (script ++ [(n, step)]) m l ∧
          b.slots.Keeps l k := by
      obtain ⟨l, k, hid, hk, hfirst, hkeeps⟩ := ih ha hax
      exact ⟨l, k, hid, hk, hfirst.append _, hkeeps.grows hg⟩
    rw [run_append] at hb
    change (((fresh symbols methods).run script).step n step).2.bodies[m]? = some b at hb
    cases hn : ((fresh symbols methods).run script).bodies[n]? with
    | none =>
      rw [step_of_none hn] at hb
      exact hearlier hb hx (.refl _)
    | some a =>
      rw [step_bodies hn] at hb
      by_cases hsame : m = n
      · subst hsame
        rw [if_pos rfl] at hb
        cases hb
        have hgrows := (((fresh symbols methods).run script).reached_extends a step).slots.grows
        cases ha : a.slots.slotOf? id with
        | none =>
          obtain ⟨done, hdone, hd⟩ := (step.visits _).declares _
          obtain ⟨l, k, hl, hkeeps, hk⟩ := hd.first ha hx
          have hid : l.id = id := by simpa using List.find?_some hl
          subst hid
          refine ⟨l, k, rfl, hk, ⟨script, step, [], a, rfl, hn, ha, ?_⟩, hkeeps⟩
          exact hdone.find?_eq_some hl
        | some y =>
          have hy : y = x := Option.some.inj ((hgrows.slotOf id y ha).symm.trans hx)
          exact hearlier hn (hy ▸ ha) hgrows
      · rw [if_neg hsame] at hb
        exact hearlier hb hx (.refl _)

/-- Locals and slots, whatever steps are taken in whichever bodies, failing ones included. A local
that comes to live on the stack while it has no slot never gets one, wherever it is mentioned. Every
other local has a slot once a step that mentions it has gone through. It keeps this slot, and the
entry made for it keeps the type and the flag of its first mention, as the slot shows while numbers
are not shared. -/
theorem locals_keep_slots (symbols : Symbols) (methods : List (Enclosing × Options))
    (script : List (Nat × Step)) (m : Nat) (b : Body)
    (hb : ((fresh symbols methods).run script).bodies[m]? = some b) :
    let s := (fresh symbols methods).run script
    (∀ id, b.slots.slotOf? id = none → ∀ later, ∃ c,
      ((s.step m (.keepOnStack id)).2.run later).bodies[m]? = some c ∧
      c.slots.slotOf? id = none) ∧
    (∀ step answer, (s.step m step).1 = .ok answer → ∀ l ∈ step.mentions (b.env s.symbols), ∃ c,
      (s.step m step).2.bodies[m]? = some c ∧ (c.slots.slotOf? l.id).isSome = true) ∧
    (∀ id x, b.slots.slotOf? id = some x → ∃ l k, l.id = id ∧ x = SlotPool.numberOf k ∧
      (fresh symbols methods).FirstMention script m l ∧
      ∀ later, ∃ c, (s.run later).bodies[m]? = some c ∧ c.slots.slotOf? id = some x ∧
        c.slots.entries[k]? = some ⟨l.ty, l.mode.isByRef, .declared⟩ ∧
        (c.slots.size ≤ 2 ^ 16 →
          c.slots.entry? x = some ⟨l.ty, l.mode.isByRef, .declared⟩)) := by
  intro s
  refine ⟨?_, ?_, ?_⟩
  · intro id hid later
    have hmarked : (s.step m (.keepOnStack id)).2.bodies[m]? =
        some (b.next (.keepOnStack id) (s.reached b (.keepOnStack id))) := by
      rw [step_bodies hb, if_pos rfl]
    have hstacked : (b.next (.keepOnStack id) (s.reached b (.keepOnStack id))).Stacked id :=
      ⟨List.mem_cons_self, hid⟩
    obtain ⟨c, hc, hstays⟩ := run_body (Q := fun c => c.Stacked id)
      (fun s _ step h => next_stacked s step h) hmarked hstacked later
    exact ⟨c, hc, hstays.2⟩
  · intro step answer hok l hl
    refine ⟨_, by rw [step_bodies hb, if_pos rfl], ?_⟩
    exact ((step.visits _).ok (step_ok hb hok)).mentioned hl
  · intro id x hx
    obtain ⟨l, k, rfl, rfl, hfirst, hkeeps⟩ := run_first symbols methods script hb hx
    refine ⟨l, k, rfl, rfl, hfirst, fun later => ?_⟩
    obtain ⟨c, hc, hgrows⟩ := run_grows hb later
    have hlater := hkeeps.grows hgrows
    exact ⟨c, hc, hlater.slot, hlater.entry, SlotPool.entry_of_number hlater.entry⟩

def declareThenFail : Step :=
  let i32 := Ty.ofPrim .i32
  .value (.sequence (.plain i32) [⟨3, i32, .ref⟩] [] (.literal (.plain i32))) true

/-- The same local is mentioned as one of another type, and copied to a second one. -/
def copyLocal : Step :=
  let i64 := Ty.ofPrim .i64
  let copy : Expr := .localVar (.plain i64) ⟨7, i64, .byValue⟩
  let source : Expr := .localVar (.plain i64) ⟨3, i64, .byValue⟩
  .value (.sequence (.plain i64) [⟨7, i64, .byValue⟩] [.assign (.plain i64) copy source false] copy)
    true

theorem locals_keep_slots_copyLocal :
    let start := fresh ⟨[], false⟩ [(Enclosing.ordinary .object, Options.standard)]
    let s := start.run [(0, declareThenFail)]
    let later := [(0, Step.keepOnStack 7), (0, copyLocal)]
    ((s.run later).bodies.map fun c => c.slots.entries) = #[#[⟨.ofPrim .i32, true, .declared⟩]] ∧
    (∃ c, (s.run later).bodies[0]? = some c ∧ c.slots.slotOf? 7 = none) ∧
    (∃ c, (s.step 0 copyLocal).2.bodies[0]? = some c ∧ (c.slots.slotOf? 7).isSome = true) ∧
    ∃ l k, l.id = 3 ∧ (⟨0⟩ : Slot) = SlotPool.numberOf k ∧
      start.FirstMention [(0, declareThenFail)] 0 l ∧
      ∃ c, (s.run later).bodies[0]? = some c ∧ c.slots.slotOf? 3 = some ⟨0⟩ ∧
        c.slots.entries[k]? = some ⟨l.ty, l.mode.isByRef, .declared⟩ := by
  intro start s later
  have hslots : (s.bodies[0]?.map fun b => (b.slots.slotOf? 3, b.slots.slotOf? 7,
      (copyLocal.mentions (b.env s.symbols)).contains ⟨7, .ofPrim .i64, .byValue⟩)) =
      some (some ⟨0⟩, none, true) := by decide +kernel
  obtain ⟨b, hb, hslot⟩ := Option.map_eq_some_iff.mp hslots
  obtain ⟨h3, hrest⟩ := Prod.mk.inj hslot
  obtain ⟨h7, hmention⟩ := Prod.mk.inj hrest
  obtain ⟨hstacked, hmentioned, hkept⟩ := locals_keep_slots ⟨[], false⟩ _ _ 0 b hb
  have hok : (s.step 0 copyLocal).1 = .ok .done := rfl
  refine ⟨by decide +kernel, hstacked 7 h7 [(0, copyLocal)], ?_, ?_⟩
  · exact hmentioned copyLocal .done hok _ (List.contains_iff_mem.mp hmention)
  · obtain ⟨l, k, hid, hk, hfirst, hlater⟩ := hkept 3 ⟨0⟩ h3
    obtain ⟨c, hc, hslot, hentry, -⟩ := hlater later
    exact ⟨l, k, hid, hk, hfirst, c, hc, hslot, hentry⟩

end Session

end TypedStack
