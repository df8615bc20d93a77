import TypedStack.Proofs.Requests

/-! Who owns the temporaries. An emission gives back every temporary that it takes from the pool,
save the one that it hands to its caller, and it lays no hand on those that others hold. -/
namespace TypedStack

def Instr.exposes? : Instr → Option Slot
  | slot .store s | slot .address s => some s
  | _ => none

theorem Instr.slot_of_exposes {i : Instr} {x : Slot} (h : i.exposes? = some x) :
    i.slot? = some x := by
  cases i with
  | slot access s => cases access <;> first | exact h | cases h
  | _ => cases h

/-- The slots in use are those that others have taken and the own ones, all different. -/
structure SlotPool.Holds (p : SlotPool) (taken : Set Slot) (own : List Slot) : Prop where
  nodup : own.Nodup
  foreign : ∀ s ∈ own, s ∉ taken
  inUse : ∀ s, s ∈ p.inUse ↔ s ∈ taken ∨ s ∈ own

namespace SlotPool.Holds

variable {p q : SlotPool} {taken : Set Slot} {own : List Slot}

theorem start (p : SlotPool) : p.Holds p.inUse [] := ⟨.nil, by simp, by simp⟩

theorem taken_subset (h : p.Holds taken own) : taken ⊆ p.inUse := fun s hs =>
  (h.inUse s).mpr (.inl hs)

theorem congr (h : p.Holds taken own) (hq : q.inUse = p.inUse) : q.Holds taken own :=
  ⟨h.nodup, h.foreign, fun s => hq ▸ h.inUse s⟩

theorem perm {own' : List Slot} (h : p.Holds taken own) (hp : own.Perm own') :
    p.Holds taken own' where
  nodup := hp.nodup_iff.mp h.nodup
  foreign s hs := h.foreign s (hp.mem_iff.mpr hs)
  inUse s := (h.inUse s).trans (by rw [hp.mem_iff])

theorem allocate (h : p.Holds taken own) (ty : Ty) (byRef : Bool)
    (hs : (p.allocate ty byRef).2.size ≤ 2 ^ 16) :
    (p.allocate ty byRef).2.Holds taken ((p.allocate ty byRef).1 :: own) := by
  obtain ⟨hnew, -, huse⟩ := p.allocate_inUse ty byRef hs
  have hnew : (p.allocate ty byRef).1 ∉ taken ∧ (p.allocate ty byRef).1 ∉ own :=
    not_or.mp ((h.inUse _).not.mp hnew)
  refine ⟨List.nodup_cons.mpr ⟨hnew.2, h.nodup⟩, ?_, ?_⟩
  · intro s hs
    rcases List.mem_cons.mp hs with rfl | hs
    · exact hnew.1
    · exact h.foreign s hs
  · intro s
    rw [huse, Set.mem_insert_iff, h.inUse s, List.mem_cons, or_left_comm]

theorem settle {s : Slot} (h : p.Holds taken (s :: own)) {state : SlotState}
    (hs : state ≠ .inUse) : (p.settle s state).Holds taken own := by
  have hn := List.nodup_cons.mp h.nodup
  refine ⟨hn.2, fun x hx => h.foreign x (List.mem_cons_of_mem s hx), ?_⟩
  intro x
  rw [p.settle_inUse s hs, Set.mem_sdiff, Set.mem_singleton_iff, h.inUse x, List.mem_cons]
  constructor
  · rintro ⟨hx | rfl | hx, hne⟩
    · exact .inl hx
    · exact absurd rfl hne
    · exact .inr hx
  · rintro (hx | hx)
    · exact ⟨.inl hx, fun he => h.foreign s List.mem_cons_self (he ▸ hx)⟩
    · exact ⟨.inr (.inr hx), fun he => hn.1 (he ▸ hx)⟩

end SlotPool.Holds

namespace Emit

variable {α β : Type} {env : Env} {final : SlotPool} {given : Prop} {own pre : List Slot}

/-- Nothing that others took is touched between the two states, and only slots that are there in
the end are named. -/
structure Spares (final : SlotPool) (taken : Set Slot) (s t : State) : Prop where
  held : taken ⊆ t.slots.inUse
  code : ∀ c, s.stream.Adds t.stream c → ∀ i ∈ c, ∀ x, i.exposes? = some x →
    x ∉ taken ∧ x ∉ s.slots.retired
  named : ∀ c, s.stream.Adds t.stream c → ∀ i ∈ c, ∀ x, i.slot? = some x →
    x.index.toNat < final.size

theorem Spares.trans {taken : Set Slot} {s t u : State} {c c' : List Instr}
    (h : Spares final taken s t) (h' : Spares final taken t u) (hg : s.slots.Grows t.slots)
    (hc : s.stream.Adds t.stream c) (hc' : t.stream.Adds u.stream c') :
    Spares final taken s u := by
  refine ⟨h'.held, ?_, ?_⟩
  · intro code hadd i hi x hx
    obtain rfl := hadd.unique (hc.trans hc')
    rcases List.mem_append.mp hi with hi | hi
    · exact h.code c hc i hi x hx
    · obtain ⟨hx₁, hx₂⟩ := h'.code c' hc' i hi x hx
      exact ⟨hx₁, fun hs => hx₂ (hg.retired hs)⟩
  · intro code hadd i hi x hx
    obtain rfl := hadd.unique (hc.trans hc')
    rcases List.mem_append.mp hi with hi | hi
    · exact h.named c hc i hi x hx
    · exact h'.named c' hc' i hi x hx

/-- Where no code is added, only what is held matters. -/
theorem Spares.of_no_code {taken : Set Slot} {s t : State} (hs : taken ⊆ t.slots.inUse)
    (hc : s.stream.Adds t.stream []) : Spares final taken s t := by
  refine ⟨hs, ?_, ?_⟩
  all_goals
    intro c hadd i hi
    obtain rfl := hadd.unique hc
    cases hi

/-- The emission takes over the temporaries `pre` and leaves those that `post` says of its result,
and spares all others, also when it fails. It makes requests of the pool and adds code, and does
nothing else to either. What is said may refer to the slots as they are in the end. -/
structure Owned (final : SlotPool) (given : Prop) (pre : List Slot) (m : Emit α)
    (post : α → List Slot) : Prop where
  reaches : ∀ s : State, s.slots.Reaches (after m s).slots
  adds : ∀ s : State, ∃ c, s.stream.Adds (after m s).stream c
  spares : final.Coherent → given → ∀ ⦃taken s⦄, (after m s).slots.Grows final →
    s.slots.Holds taken pre → Spares final taken s (after m s)
  leaves : final.Coherent → given → ∀ ⦃taken s a t⦄, m s = .ok a t → t.slots.Grows final →
    s.slots.Holds taken pre → t.slots.Holds taken (post a)

/-- The slots that there are in the end have grown from those that there are now. -/
def Toward (final : SlotPool) (t : State) : Prop := t.slots.Grows final ∧ final.Coherent

namespace Owned

variable {post : α → List Slot} {rest : β → List Slot}

theorem still {m : Emit α} (hs : ∀ s, (after m s).slots = s.slots)
    (hc : ∀ s, (after m s).stream.code = s.stream.code)
    (hp : ∀ {s a t}, m s = .ok a t → post a = pre) : Owned final given pre m post where
  reaches s := hs s ▸ .refl _
  adds s := ⟨[], by rw [Stream.Adds, hc s, List.append_nil]⟩
  spares _ _ taken s _ h := by
    refine .of_no_code (hs s ▸ h.taken_subset) ?_
    rw [Stream.Adds, hc s, List.append_nil]
  leaves _ _ taken s a t hm _ h := by
    have ht : t.slots = s.slots := after_ok hm ▸ hs s
    exact hp hm ▸ ht ▸ h

theorem pure {a : α} (h : post a = pre) : Owned final given pre (pure a : Emit α) post :=
  still (fun _ => rfl) (fun _ => rfl) fun hm => (pure_ok.mp hm).1 ▸ h

theorem fail (fault : Fault) (span : Span) :
    Owned final given pre (Emit.fail fault span : Emit α) post :=
  still (fun _ => rfl) (fun _ => rfl) fun hm => absurd hm fail_not_ok

theorem mono {given' : Prop} {m : Emit α} (h : Owned final given pre m post)
    (hg : given' → given) : Owned final given' pre m post where
  reaches := h.reaches
  adds := h.adds
  spares hfinal hgiven := h.spares hfinal (hg hgiven)
  leaves hfinal hgiven := h.leaves hfinal (hg hgiven)

/-- What is known of the state in between may be used for the second part. -/
theorem bind_of {m : Emit α} {k : α → Emit β} (hm : Owned final given pre m post)
    (hk : ∀ s a t, m s = .ok a t → Owned final (given ∧ Toward final t) (post a) (k a) rest) :
    Owned final given pre (m >>= k) rest := by
  constructor
  · intro s
    rw [after_bind]
    have hr := hm.reaches s
    cases h : m s with
    | ok a t => exact (after_ok h ▸ hr).trans ((hk s a t h).reaches t)
    | error e t => rwa [after, h] at hr
  · intro s
    rw [after_bind]
    obtain ⟨c, hc⟩ := hm.adds s
    cases h : m s with
    | ok a t =>
      obtain ⟨c', hc'⟩ := (hk s a t h).adds t
      exact ⟨c ++ c', (after_ok h ▸ hc).trans hc'⟩
    | error e t => exact ⟨c, by rwa [after, h] at hc⟩
  · intro hfinal hgiven taken s hg h
    rw [after_bind] at hg ⊢
    cases hms : m s with
    | ok a t =>
      simp only [hms] at hg ⊢
      have hk := hk s a t hms
      have ht := after_ok hms
      have hgt : t.slots.Grows final := (hk.reaches t).grows.trans hg
      have hfirst := hm.spares hfinal hgiven (ht ▸ hgt) h
      rw [ht] at hfirst
      have hsecond := hk.spares hfinal ⟨hgiven, hgt, hfinal⟩ hg
        (hm.leaves hfinal hgiven hms hgt h)
      have hgrows : s.slots.Grows t.slots := ht ▸ (hm.reaches s).grows
      obtain ⟨c, hc⟩ := hm.adds s
      obtain ⟨c', hc'⟩ := hk.adds t
      exact hfirst.trans hsecond hgrows (ht ▸ hc) hc'
    | error e t =>
      simp only [hms] at hg ⊢
      have ht : after m s = t := by rw [after, hms]
      exact ht ▸ hm.spares hfinal hgiven (ht ▸ hg) h
  · intro hfinal hgiven taken s b u hbind hg h
    obtain ⟨a, t, hms, hk'⟩ := bind_ok hbind
    have hk := hk s a t hms
    have hgt : t.slots.Grows final := by
      have hr := (hk.reaches t).grows
      rw [after_ok hk'] at hr
      exact hr.trans hg
    exact hk.leaves hfinal ⟨hgiven, hgt, hfinal⟩ hk' hg (hm.leaves hfinal hgiven hms hgt h)

theorem bind {m : Emit α} {k : α → Emit β} (hm : Owned final given pre m post)
    (hk : ∀ a, Owned final given (post a) (k a) rest) : Owned final given pre (m >>= k) rest :=
  hm.bind_of fun _ a _ _ => (hk a).mono And.left

theorem perm {m : Emit α} {pre' : List Slot} {post' : α → List Slot}
    (h : Owned final given pre m post) (hpre : pre'.Perm pre)
    (hpost : ∀ a, (post a).Perm (post' a)) :
    Owned final given pre' m post' where
  reaches := h.reaches
  adds := h.adds
  spares hf hg _ _ hgrow hs := h.spares hf hg hgrow (hs.perm hpre)
  leaves hf hg _ _ a _ hm hgrow hs := (h.leaves hf hg hm hgrow (hs.perm hpre)).perm (hpost a)

/-- An instruction may name own slots and those of declared locals. -/
theorem instr {i : Instr} (h : ∀ x, i.slot? = some x →
    x ∈ own ∨ (given → final.stateOf? x = some .declared)) :
    Owned final given own (Emit.instr i) fun _ => own where
  reaches s := .refl _
  adds s := ⟨[i], .emit _ _⟩
  spares _ hgiven taken s hg hs := by
    have hown {x : Slot} (hx : x ∈ own) : s.slots.stateOf? x = some .inUse :=
      (hs.inUse x).mpr (.inr hx)
    refine ⟨hs.taken_subset, ?_, ?_⟩
    · intro c hadd j hj x hx
      obtain rfl := hadd.unique (.emit _ _)
      obtain rfl := List.mem_singleton.mp hj
      rcases h x (Instr.slot_of_exposes hx) with hx | hdeclared
      · refine ⟨hs.foreign x hx, ?_⟩
        simp [SlotPool.retired, hown hx]
      · obtain ⟨hu, hr⟩ := hg.not_temporary (hdeclared hgiven)
        exact ⟨fun ht => hu (hs.taken_subset ht), hr⟩
    · intro c hadd j hj x hx
      obtain rfl := hadd.unique (.emit _ _)
      obtain rfl := List.mem_singleton.mp hj
      rcases h x hx with hx | hdeclared
      · exact (SlotPool.slot_lt_size (hown hx)).trans_le hg.size_le
      · exact SlotPool.slot_lt_size (hdeclared hgiven)
  leaves _ _ taken s a t hm _ hs := by
    obtain rfl := instr_ok.mp hm
    exact hs

theorem code {i : Instr} (h : i.slot? = none) : Owned final given own (Emit.instr i) fun _ => own :=
  instr fun _ hx => nomatch h.symm.trans hx

theorem request {m : Emit α} {answer : State → α} (r : SlotPool.Request)
    (hm : ∀ s, m s = .ok (answer s) { s with slots := (s.slots.serve r).2 })
    (hp : ∀ {taken : Set Slot} {s : State}, (s.slots.serve r).2.size ≤ 2 ^ 16 →
      s.slots.Holds taken pre → (s.slots.serve r).2.Holds taken (post (answer s))) :
    Owned final given pre m post := by
  have hafter : ∀ s, after m s = { s with slots := (s.slots.serve r).2 } := fun s =>
    after_ok (hm s)
  constructor
  · intro s
    rw [hafter]
    exact .serve _ r
  · intro s
    rw [hafter]
    exact ⟨[], .refl _⟩
  · intro hfinal _ taken s hg hs
    rw [hafter] at hg ⊢
    exact .of_no_code (hp (hg.size_le.trans hfinal.size) hs).taken_subset (.refl _)
  · intro hfinal _ taken s a t hok hg hs
    rw [hm] at hok
    cases hok
    exact hp (hg.size_le.trans hfinal.size) hs

theorem define (l : Local) : Owned final given own (Emit.define l) fun _ => own :=
  request (.define l) (fun _ => rfl) fun {_ s} _ hs => hs.congr (s.slots.define_inUse l)

theorem allocate (ty : Ty) (byRef : Bool) :
    Owned final given own (Emit.allocate ty byRef) fun x => x :: own :=
  request (.allocate ty byRef) (fun _ => rfl) fun hsize hs => hs.allocate ty byRef hsize

theorem free (x : Slot) : Owned final given (x :: own) (Emit.free x) fun _ => own :=
  request (.free x) (fun _ => rfl) fun _ hs => hs.settle (by simp)

theorem retire (x : Slot) : Owned final given (x :: own) (Emit.retire x) fun _ => own :=
  request (.retire x) (fun _ => rfl) fun _ hs => hs.settle (by simp)

/-! ### Steps -/

theorem adjust (d : Int) : Owned final given own (Emit.adjust d) fun _ => own :=
  still (fun _ => rfl) (fun _ => rfl) fun _ => rfl

theorem newLabel : Owned final given own Emit.newLabel fun _ => own :=
  still (fun _ => rfl) (fun _ => rfl) fun _ => rfl

theorem intern (b : Blob) : Owned final given own (Emit.intern b) fun _ => own :=
  still (fun _ => rfl) (fun _ => rfl) fun _ => rfl

theorem report (d : Diagnostic) : Owned final given own (Emit.report d) fun _ => own :=
  still (fun _ => rfl) (fun _ => rfl) fun _ => rfl

theorem atOwn {x : Slot} (access : Access) (h : x ∈ own) :
    Owned final given own (Emit.instr (.slot access x)) fun _ => own := by
  refine instr fun y hy => .inl ?_
  cases hy
  exact h

theorem when {c : Bool} {m : Emit Unit} (h : Owned final given own m fun _ => own) :
    Owned final given own (when c m) fun _ => own := by
  unfold Emit.when
  split
  · exact h
  · exact .pure rfl

theorem copyBytes (data : List UInt8) : Owned final given own (copyBytes data) fun _ => own := by
  refine (intern _).bind fun _ => ?_
  refine (code rfl).bind fun _ => ?_
  refine (code rfl).bind fun _ => ?_
  refine (code rfl).bind fun _ => ?_
  exact code rfl

theorem copyThroughView (v : BlobView) (size : Nat) (data : List UInt8) :
    Owned final given own (copyThroughView v size data) fun _ => own := by
  refine (intern _).bind fun _ => ?_
  refine (code rfl).bind fun _ => ?_
  refine (code rfl).bind fun _ => ?_
  refine (code rfl).bind fun _ => ?_
  refine (allocate _ _).bind fun x => ?_
  refine (atOwn _ List.mem_cons_self).bind fun _ => ?_
  refine (atOwn _ List.mem_cons_self).bind fun _ => ?_
  refine (code rfl).bind fun _ => ?_
  refine (code rfl).bind fun _ => ?_
  refine (code rfl).bind fun _ => ?_
  exact free x

/-- The side that comes second takes over what the first one leaves. -/
theorem branch {leaves : Bool} {test : Emit Unit} {other taken : Emit α}
    {next : α → α → List Slot} (ht : Owned final given own test fun _ => own)
    (ho : Owned final given own other post)
    (hk : ∀ a, Owned final given (post a) taken (next a)) :
    Owned final given own (branch leaves test other taken) fun r => next r.1 r.2 := by
  refine newLabel.bind fun _ => ?_
  refine newLabel.bind fun _ => ?_
  refine ht.bind fun _ => ?_
  refine (code rfl).bind fun _ => ?_
  refine ho.bind fun a => ?_
  refine (code rfl).bind fun _ => ?_
  refine (adjust _).when.bind fun _ => ?_
  refine (code rfl).bind fun _ => ?_
  refine (hk a).bind fun _ => ?_
  refine (code rfl).bind fun _ => ?_
  exact .pure rfl

end Owned

/-- A local's slot is no temporary, now or later. -/
theorem define_declared {l : Local} {s t : State} {x : Slot} (hm : define l s = .ok x t)
    (ht : Toward final t) : final.stateOf? x = some .declared := by
  obtain ⟨rfl, rfl⟩ : (s.slots.define l).1 = x ∧ { s with slots := (s.slots.define l).2 } = t := by
    simpa using (EStateM.Result.ok.injEq ..).mp hm
  exact ht.2.declared l.id _ (ht.1.slotOf _ _ (s.slots.define_slotOf l))

/-- Temporaries are accounted for, where these are the slots that there are in the end. -/
def Allowed.owning (final : SlotPool) : Allowed where
  fault _ := True
  stores := True
  block _ := False
  stands _ _ := True
  lists own own' := own.Perm own'
  known t := Toward final t
  declared x := final.stateOf? x = some .declared
  abstracts _ := trivial
  perm h := h
  defined h ht := define_declared h ht

theorem Emits.owned {c : Script} {m : Emit α} {post : α → List Slot}
    (h : Emits env (.owning final) given own c m post) : Owned final given own m post := by
  induction h with
  | pure a ha => exact .pure ha
  | bind_of _ _ ih ihk => exact ih.bind_of ihk
  | stand _ _ ih => exact ih
  | list hown hpost _ ih => exact ih.perm hown hpost
  | fail _ span => exact .fail _ span
  | instr _ _ hslot => exact .instr hslot
  | throw counted => exact (Owned.code rfl).bind fun _ => .when (.adjust 1)
  | adjust d => exact .adjust d
  | define => exact .define _
  | allocate ty byRef => exact .allocate ty byRef
  | free x => exact .free x
  | retire x => exact .retire x
  | report d => exact .report d
  | keep ty byRef _ ih =>
    refine (Owned.allocate ty byRef).bind fun x => ?_
    exact (Owned.atOwn .store List.mem_cons_self).bind fun _ => ih x
  | copyBytes data => exact .copyBytes data
  | copyThroughView _ size data => exact .copyThroughView _ size data
  | block hblock => exact hblock.elim
  | branch _ _ _ iht iho ihk => exact .branch iht iho ihk

end Emit

end TypedStack
