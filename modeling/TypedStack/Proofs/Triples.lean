import TypedStack.Proofs.Machine
import TypedStack.Proofs.Slots

/-! Triples. What holds of a machine before a run of emitted code, and what holds after it. The
rules follow the way emission is put together, so that code is reasoned about where it is
emitted. -/
namespace TypedStack

namespace Machine

/-- Labels and unconditional jumps only move the machine along. -/
structure Transparent {σ : Type} (M : Machine σ) : Prop where
  label : ∀ {l x y}, M.next (.label l) x y → y = x
  br : ∀ {l x y}, M.jump (.br l) x y → y = x

end Machine

namespace Emit

variable {σ α β : Type} {M : Machine σ} {env : Env} {final : SlotPool}

/-- However the emission goes, every run of its code from a state with `P` ends in a state with
`Q`. What is said may refer to the slots as they are when the whole body is done. -/
structure Triple (M : Machine σ) (env : Env) (final : SlotPool) (P : σ → Prop) (m : Emit α)
    (Q : α → σ → Prop) : Prop where
  emits : Emitted env m
  runs : ∀ ⦃s a t c⦄, m s = .ok a t → t.slots.Grows final → s.stream.Adds t.stream c →
    ∀ ⦃x y⦄, P x → M.Runs c x y → Q a y

namespace Triple

variable {P P' : σ → Prop} {Q Q' : α → σ → Prop} {R : β → σ → Prop}

theorem conseq {m : Emit α} (h : Triple M env final P m Q) (hP : ∀ x, P' x → P x)
    (hQ : ∀ a x, Q a x → Q' a x) : Triple M env final P' m Q' :=
  ⟨h.emits, fun _ _ _ _ hm hg hc _ _ hx hr => hQ _ _ (h.runs hm hg hc (hP _ hx) hr)⟩

theorem skip {c : Script} {m : Emit α} {post : α → List Slot} (h : Runs env .any [] c m post) :
    Triple M env final P m fun _ _ => True := ⟨.of h, fun _ _ _ _ _ _ _ _ _ _ _ => trivial⟩

theorem still (own : List Slot) {c : Script} {m : Emit α} {post : α → List Slot}
    (h : Runs env .any own c m post)
    (hs : ∀ {s a t}, m s = .ok a t → t.slots.Grows final → t.stream.code = s.stream.code)
    (hQ : ∀ {s a t x}, m s = .ok a t → t.slots.Grows final → P x → Q a x) :
    Triple M env final P m Q := by
  constructor
  · exact .of h
  · intro s a t c hm hg hc x y hx hr
    obtain rfl : c = [] := by
      rw [Stream.Adds, hs hm hg] at hc
      simpa using hc
    exact hr.nil ▸ hQ hm hg hx

theorem code (own : List Slot) {c : Script} {m : Emit α} {post : α → List Slot}
    (h : Runs env .any own c m post)
    (hm : ∀ {s a t}, m s = .ok a t → t.slots.Grows final → ∃ code, s.stream.Adds t.stream code ∧
      ∀ i ∈ code, ∀ x y, P x → M.next i x y ∨ M.jump i x y → P y) :
    Triple M env final P m fun _ => P := by
  refine ⟨.of h, fun s a t c hok hg hc x y hx hr => ?_⟩
  obtain ⟨code, hcode, hkeep⟩ := hm hok hg
  obtain rfl := hc.unique hcode
  exact Machine.Reach.keeps hkeep hr hx

theorem frame {m : Emit α} (F : Prop) (h : Triple M env final P m Q) :
    Triple M env final (fun x => P x ∧ F) m fun a x => Q a x ∧ F :=
  ⟨h.emits, fun _ _ _ _ hm hg hc _ _ hx hr => ⟨h.runs hm hg hc hx.1 hr, hx.2⟩⟩

theorem pure {a : α} (h : ∀ x, P x → Q a x) : Triple M env final P (pure a : Emit α) Q := by
  refine still [] (.done a) (fun hm _ => ?_) fun hm _ hx => ?_
  · rw [(pure_ok.mp hm).2]
  · exact (pure_ok.mp hm).1 ▸ h _ hx

theorem fail (fault : Fault) (span : Span) :
    Triple M env final P (fail fault span : Emit α) Q :=
  ⟨Runs.fail trivial span, fun _ _ _ _ hm => absurd hm fail_not_ok⟩

/-- What the first part gives may be used in the second. -/
theorem bind_of {m : Emit α} {k : α → Emit β} (hm : Triple M env final P m Q)
    (hk : ∀ s a t, m s = .ok a t → Triple M env final (Q a) (k a) R) :
    Triple M env final P (m >>= k) R := by
  constructor
  · exact hm.emits.bind_of fun s a t h => (hk s a t h).emits
  · intro s b u c h hg hc x z hx hr
    obtain ⟨a, t, h, h'⟩ := bind_ok h
    have hk := hk s a t h
    obtain ⟨c₁, hc₁, hb₁⟩ := (hm.emits True).adds_block h
    obtain ⟨c₂, hc₂, hb₂⟩ := (hk.emits True).adds_block h'
    obtain rfl := hc.unique (hc₁.trans hc₂)
    obtain ⟨y, hy, hz⟩ := hb₁.runs_append hb₂ hr
    have hgrow := ((hk.emits True).slots_grow h').trans hg
    exact hk.runs h' hg hc₂ (hm.runs h hgrow hc₁ hx hy) hz

theorem bind {m : Emit α} {k : α → Emit β} (hm : Triple M env final P m Q)
    (hk : ∀ a, Triple M env final (Q a) (k a) R) : Triple M env final P (m >>= k) R :=
  hm.bind_of fun _ a _ _ => hk a

theorem returning {m : Emit α} {Q : σ → Prop} (h : Triple M env final P m fun _ => Q) (b : β) :
    Triple M env final P (m >>= fun _ => Pure.pure b) fun _ => Q :=
  h.bind fun _ => .pure fun _ hx => hx

theorem instr {i : Instr} (hi : i.isOrdinary) {Q : Unit → σ → Prop}
    (h : ∀ x y, P x → i.continues → M.next i x y → Q () y) :
    Triple M env final P (instr i) Q := by
  constructor
  · exact .instr hi
  · intro s a t c hm _ hc x y hx hr
    rw [instr_ok.mp hm] at hc
    obtain rfl := hc.unique (.emit s.stream i)
    obtain ⟨hcont, hnext⟩ := hr.single (Instr.isPlain_iff.mp (Instr.isOrdinary_iff.mp hi).1).1
    exact h x y hx hcont hnext

theorem adjust (d : Int) : Triple M env final P (adjust d) fun _ => P :=
  still [] (.adjust d) (by rintro s a t ⟨⟩ -; rfl) fun _ _ hx => hx

theorem free (slot : Slot) : Triple M env final P (free slot) fun _ => P :=
  still [slot] (.free slot) (by rintro s a t ⟨⟩ -; rfl) fun _ _ hx => hx

theorem retire (slot : Slot) : Triple M env final P (retire slot) fun _ => P :=
  still [slot] (.retire slot) (by rintro s a t ⟨⟩ -; rfl) fun _ _ hx => hx

theorem report (d : Diagnostic) : Triple M env final P (report d) fun _ => P :=
  still [] (.report d) (by rintro s a t ⟨⟩ -; rfl) fun _ _ hx => hx

theorem define {l : Local} (hl : env.isResident l.id = false) :
    Triple M env final P (define l) fun s x => P x ∧ final.slotOf? l.id = some s := by
  refine still [] (.define hl) (by rintro s a t ⟨⟩ -; rfl) ?_
  rintro s a t x ⟨⟩ hg hx
  exact ⟨hx, hg.slotOf _ _ (s.slots.define_slotOf l)⟩

theorem allocate (ty : Ty) (byRef : Bool) :
    Triple M env final P (allocate ty byRef) fun s x => P x ∧ final.Temporary s := by
  refine still [] (.allocate ty byRef) (by rintro s a t ⟨⟩ -; rfl) ?_
  rintro s a t x ⟨⟩ hg hx
  exact ⟨hx, SlotPool.allocate_temporary s.slots ty byRef hg⟩

theorem forM_option {f : β → Emit Unit} (o : Option β)
    (h : ∀ b, Triple M env final P (f b) fun _ => P) :
    Triple M env final P (o.forM f) fun _ => P := by
  cases o with
  | none => exact .pure fun _ hx => hx
  | some b => exact h b

theorem ensure (c : Bool) (fault : Fault) (span : Span) :
    Triple M env final P (ensure c fault span) fun _ => P := by
  cases c
  · exact fail fault span
  · exact .pure fun _ hx => hx

theorem when {c : Bool} {m : Emit Unit} {Q : Unit → σ → Prop}
    (h : c = true → Triple M env final P m Q) (hc : c = false → ∀ x, P x → Q () x) :
    Triple M env final P (when c m) Q := by
  cases c with
  | true => exact h rfl
  | false => exact .pure (hc rfl)

theorem discard {m : Emit α} {Q : σ → Prop} (h : Triple M env final P m fun _ => Q) :
    Triple M env final P (discard m) fun _ => Q := by
  rw [discard_eq]
  exact h.returning ()

/-- A choice ends as one of its sides does. -/
theorem branch (hM : M.Transparent) {leaves : Bool} {test : Emit Unit} {other taken : Emit α}
    {T : Unit → σ → Prop} {O K : σ → Prop} (ht : Triple M env final P test T)
    (hfall : ∀ {l x y}, T () x → M.next (.brtrue l) x y → O y)
    (hjump : ∀ {l x y}, T () x → M.jump (.brtrue l) x y → K y)
    (ho : Triple M env final O other Q) (hk : α → Triple M env final K taken Q') :
    Triple M env final P (branch leaves test other taken) fun r x => Q r.1 x ∨ Q' r.2 x := by
  have hchoice : Follows env .any [] _ (Emit.branch leaves test other taken) :=
    .branch ht.emits ho.emits fun a => (hk a).emits
  refine ⟨.of hchoice, ?_⟩
  intro s r t c hm hg hc x z hx hr
  obtain ⟨u, v, w, hu, hv, hw, rfl⟩ := branch_ok hm
  have hk := hk r.1
  obtain ⟨ct, hct, hbt⟩ := (ht.emits True).adds_block hu
  obtain ⟨co, hco, hbo⟩ := (ho.emits True).adds_block hv
  obtain ⟨ck, hck, hbk⟩ := (hk.emits True).adds_block hw
  rw [between_labels] at hbk
  obtain rfl := hc.unique (branch_adds hct hco hck)
  -- the slots of each part grow into those of the whole body
  have hgw : w.slots.Grows final := hg
  have hgv : v.slots.Grows final := by
    have := ((hk.emits True).slots_grow hw).trans hgw
    cases leaves <;> exact this
  have hgu : u.slots.Grows final := ((ho.emits True).slots_grow hv).trans hgv
  obtain ⟨y, hy, ⟨a, b, d, hn, ho', hj, hl⟩ | ⟨a, b, d, hj, hn, hk', hl⟩⟩ :=
    hbt.runs_choice hbo hbk hr
  · obtain rfl := hM.label hl
    obtain rfl := hM.br hj
    exact .inl (ho.runs hv hgv hco (hfall (ht.runs hu hgu hct hx hy) hn) ho')
  · obtain rfl := hM.label hl
    obtain rfl := hM.label hn
    exact .inr (hk.runs hw hgw hck (hjump (ht.runs hu hgu hct hx hy) hj) hk')

end Triple

end Emit

end TypedStack
