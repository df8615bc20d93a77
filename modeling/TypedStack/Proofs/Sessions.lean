import TypedStack.Proofs.Blobs
import TypedStack.Proofs.Temporaries
import TypedStack.Session

/-! Bodies over a whole session. Every step, also one that fails halfway, only adds to what is
there, and what the code of a body names exists: its slots, its labels and the data it copies. -/
namespace TypedStack

namespace Stream

theorem emit_peak (s : Stream) (i : Instr) : s.peak ≤ (s.emit i).peak := Int.le_max_left _ _

theorem emitAll_peak (s : Stream) (c : List Instr) : s.peak ≤ (s.emitAll c).peak := by
  induction c generalizing s with
  | nil => exact Int.le_refl _
  | cons i c ih => exact Int.le_trans (s.emit_peak i) (ih (s.emit i))

end Stream

namespace Emit

variable {env : Env}

/-- What was there stays. Added code copies data as it is stored, and data is added, once each,
only for code that names it. -/
structure Extends (s t : State) : Prop where
  code : ∃ c, s.stream.Adds t.stream c ∧ Sourced t.blobs c
  peak : s.stream.peak ≤ t.stream.peak
  slots : s.slots.Reaches t.slots
  blobs : s.blobs.Within t.blobs
  distinct : s.blobs.Distinct → t.blobs.Distinct
  stored : ∀ blob ∈ t.blobs.blobs,
    blob ∈ s.blobs.blobs ∨ Names t.blobs t.stream.code.toList blob
  reports : s.reports.entries.toList <+: t.reports.entries.toList

namespace Extends

variable {s t u : State}

theorem refl (s : State) : Extends s s where
  code := ⟨[], .refl _, trivial⟩
  peak := Int.le_refl _
  slots := .refl _
  blobs := .refl _
  distinct := id
  stored _ := .inl
  reports := List.prefix_refl _

theorem keeps_code (h : Extends s t) : s.stream.code.toList <+: t.stream.code.toList := by
  obtain ⟨c, hc, -⟩ := h.code
  exact ⟨c, hc.symm⟩

theorem trans (h : Extends s t) (h' : Extends t u) : Extends s u := by
  obtain ⟨c, hc, hs⟩ := h.code
  obtain ⟨c', hc', hs'⟩ := h'.code
  refine ⟨⟨c ++ c', hc.trans hc', (hs.mono h'.blobs).append hs'⟩, Int.le_trans h.peak h'.peak,
    h.slots.trans h'.slots, h.blobs.trans h'.blobs, h'.distinct ∘ h.distinct, ?_,
    h.reports.trans h'.reports⟩
  intro blob hblob
  rcases h'.stored blob hblob with hblob | hblob
  · rcases h.stored blob hblob with hblob | hblob
    · exact .inl hblob
    · exact .inr (hblob.mono h'.blobs h'.keeps_code.subset)
  · exact .inr hblob

end Extends

theorem steady_extends : Steady env Extends where
  refl := .refl
  trans := .trans
  code s i hi := { Extends.refl s with
    code := ⟨[i], .emit _ _, .instr hi⟩
    peak := s.stream.emit_peak i
    stored := fun _ => .inl }
  shift s _ := { Extends.refl s with
    peak := Int.le_max_left _ _ }
  label s := { Extends.refl s with }
  serve s r _ := { Extends.refl s with
    slots := .serve _ r }
  report s d := { Extends.refl s with
    reports := ⟨[d], Array.toList_push.symm⟩ }
  copy s b c hc := { Extends.refl s with
    code := ⟨c, .emitAll _ _, .of_copies (s.blobs.intern_blob b) hc⟩
    peak := s.stream.emitAll_peak c
    blobs := s.blobs.intern_within b
    distinct := fun h => h.intern b
    stored := by
      intro blob hblob
      rcases (s.blobs.mem_intern b blob).mp hblob with hblob | rfl
      · exact .inl hblob
      · refine .inr ((Names.of_copies hc (s.blobs.intern_blob blob)).mono (.refl _) ?_)
        exact Stream.Adds.emitAll s.stream c ▸ List.subset_append_right _ c }

end Emit

def Answer.slots : Answer → List Slot
  | .slot s => s.toList
  | _ => []

namespace Step

open Emit

variable {env : Env} {final : SlotPool}

open Outline in
def script (env : Env) : Step → Script
  | .value e used => (e.outline env).value used
  | .address e kind => (e.outline env).address kind
  | .call receiver m args nonVirtual use _ =>
    ofCall (Expr.outlineOption env receiver) m (Expr.outlineList env args) nonVirtual use
  | .convert _ operand c used => ofConvert (operand.outline env) c used
  | .convertPushed .. => .remake
  | .delegate info receiver m nonVirtual used =>
    ofDelegate env info.ty (Expr.outlineOption env receiver) m nonVirtual used
  | .stackalloc elem count inits used _ =>
    ofBlock env elem (count.outline env) (Expr.outlineList env inits) used
  | .hasHome .. | .keepOnStack _ | .isResident _ | .slotOf _ => ∅

/-- Every step is made of the steps of emission, save the question for a slot, which only looks. -/
theorem runs {ok : Allowed} (hf : ∀ fault, ok.fault fault) (hs : ok.stores) {step : Step}
    (h : ∀ id, step ≠ .slotOf id) :
    Runs env ok [] (step.script env) (step.emit env) Answer.slots := by
  have hplan (e : Expr) := plan_freely env hf hs e
  have hoption (o : Option Expr) := planOption_follows fun e (_ : e ∈ o) => hplan e
  have hlist (es : List Expr) := planList_follows fun e (_ : e ∈ es) => hplan e
  cases step with
  | value e used => exact ((hplan e).value used).returning rfl
  | address e kind =>
    refine ((hplan e).address kind).quietly fun temp => .pure _ ?_
    exact (List.append_nil _).symm
  | hasHome e kind => exact (Runs.ensure (fun _ => hf _) _).returning rfl
  | keepOnStack | isResident => exact .pure _ rfl
  | slotOf id => exact absurd rfl (h id)
  | call receiver m args nonVirtual use span =>
    have hcall {own : List Slot} : Follows env ok own _ (Emit.call _ m _ nonVirtual use span) :=
      .call (hoption receiver) (hlist args) (fun _ _ => hf _) (fun _ => hf _) (fun _ _ => hf _)
        nonVirtual span
    exact hcall.returning rfl
  | convert info operand c used =>
    exact (Runs.convertLoad (hplan operand) (fun _ _ => hf _) used).returning rfl
  | convertPushed info operand c =>
    have hremakes : Remakes ok.fault (Emit.convertPushed info operand.info c) :=
      .convertPushed (fun _ (_ : Expr.Defect env _ _) => hf _) fun _ => hf _
    exact (Runs.remakes hremakes).returning rfl
  | delegate info receiver m nonVirtual used =>
    exact (Runs.delegateLoad info (hoption receiver) m nonVirtual used).returning rfl
  | stackalloc elem count inits used span =>
    have hblock {own : List Slot} : Follows env ok own _ (Emit.stackalloc env elem _ _ used span) :=
      .stackalloc (hplan count) (.inl hs) (hlist inits) (fun _ _ _ _ _ _ _ => hf _) used span
    exact hblock.returning rfl

theorem slotOf_or_emits (env : Env) (step : Step) :
    (∃ id, step = .slotOf id) ∨ Emitted env (step.emit env) := by
  by_cases h : ∃ id, step = .slotOf id
  · exact .inl h
  · exact .inr (.of (runs (fun _ => trivial) trivial fun id hid => h ⟨id, hid⟩))

theorem along {R : State → State → Prop} (hR : Steady env R) (step : Step) (s : State) :
    R s (after (step.emit env) s) := by
  rcases step.slotOf_or_emits env with ⟨id, rfl⟩ | h
  · exact hR.refl s
  · exact (h True).along hR s

theorem labelled (step : Step) (s : State) :
    ∃ c, s.stream.Adds (after (step.emit env) s).stream c ∧
      Labelled s.stream.labels c (after (step.emit env) s).stream.labels := by
  rcases step.slotOf_or_emits env with ⟨id, rfl⟩ | h
  · exact ⟨[], .refl _, .nil _⟩
  · exact (h True).labelled s

theorem owned (step : Step) : ∃ post, Owned final True [] (step.emit env) post := by
  by_cases h : ∃ id, step = .slotOf id
  · obtain ⟨id, rfl⟩ := h
    exact ⟨fun _ => [], .still (fun _ => rfl) (fun _ => rfl) fun _ => rfl⟩
  · have hruns : Runs env (.owning final) [] (step.script env) (step.emit env) Answer.slots :=
      runs (fun _ => trivial) trivial fun id hid => h ⟨id, hid⟩
    exact ⟨Answer.slots, (hruns True).owned⟩

end Step

/-- The body after a step that led to this state. -/
def Body.next (b : Body) (step : Step) (t : State) : Body :=
  { b with
    resident := step.residentAfter b.resident
    stream := t.stream
    slots := t.slots }

namespace Session

/-- All steps in order, each in the body that its number names. -/
def run (s : Session) (script : List (Nat × Step)) : Session :=
  script.foldl (fun s (m, step) => (s.step m step).2) s

def stateOf (s : Session) (b : Body) : State := ⟨b.stream, b.slots, s.blobs, s.reports⟩

def reached (s : Session) (b : Body) (step : Step) : State :=
  Emit.after (step.emit (b.env s.symbols)) (s.stateOf b)

variable {s t : Session} {m : Nat} {b : Body}

theorem fresh_body (symbols : Symbols) (methods : List (Enclosing × Options)) (n : Nat) :
    (fresh symbols methods).bodies[n]? = methods[n]?.map fun x => Body.start x.1 x.2 := by
  simp [fresh]

theorem step_of_none (h : s.bodies[m]? = none) (step : Step) : s.step m step = (.ok .done, s) := by
  rw [Session.step, h]

theorem step_of_some (h : s.bodies[m]? = some b) (step : Step) :
    (s.step m step).2 =
      { s with
        bodies := s.bodies.setIfInBounds m (b.next step (s.reached b step))
        blobs := (s.reached b step).blobs
        reports := (s.reached b step).reports } := by
  unfold Session.step
  rw [h, reached, Emit.after, stateOf]
  dsimp only
  cases step.emit (b.env s.symbols) ⟨b.stream, b.slots, s.blobs, s.reports⟩ <;> rfl

theorem step_blobs (h : s.bodies[m]? = some b) (step : Step) :
    (s.step m step).2.blobs = (s.reached b step).blobs := by
  rw [step_of_some h]

theorem step_reports (h : s.bodies[m]? = some b) (step : Step) :
    (s.step m step).2.reports = (s.reached b step).reports := by
  rw [step_of_some h]

/-- What every step keeps, every run keeps. -/
theorem run_keeps {P : Session → Prop} (hstep : ∀ s m step, P s → P (s.step m step).2)
    (h : P s) (script : List (Nat × Step)) : P (s.run script) := by
  induction script generalizing s with
  | nil => exact h
  | cons x script ih => exact ih (hstep s x.1 x.2 h)

theorem step_bodies (h : s.bodies[m]? = some b) (step : Step) (n : Nat) :
    (s.step m step).2.bodies[n]? =
      if n = m then some (b.next step (s.reached b step)) else s.bodies[n]? := by
  rw [step_of_some h]
  by_cases hn : n = m
  · subst hn
    rw [if_pos rfl, Array.getElem?_setIfInBounds_self_of_lt (Array.getElem?_eq_some_iff.mp h).1]
  · rw [if_neg hn, Array.getElem?_setIfInBounds_ne (Ne.symm hn)]

end Session

/-! ### What stays -/

/-- The body has gone on: its code is longer, its slots are still there, each with its type, and
its peak is no lower. -/
structure Body.Continues (b b' : Body) : Prop where
  code : b.stream.code.toList <+: b'.stream.code.toList
  slots : ∀ (i : Nat) e, b.slots.entries[i]? = some e → ∃ e', b'.slots.entries[i]? = some e' ∧
    e'.ty = e.ty ∧ e'.byRef = e.byRef
  peak : b.stream.peak ≤ b'.stream.peak

/-- Body `m` has gone on, all others are as they were, and data and reports were only added. -/
structure Session.Continues (s : Session) (m : Nat) (t : Session) : Prop where
  others : ∀ n, n ≠ m → t.bodies[n]? = s.bodies[n]?
  body : ∀ b, s.bodies[m]? = some b → ∃ b', t.bodies[m]? = some b' ∧ b.Continues b'
  blobs : s.blobs.Within t.blobs
  reports : s.reports.entries.toList <+: t.reports.entries.toList

theorem Emit.Extends.continues {s t : State} (h : Emit.Extends s t) {b : Body} (step : Step)
    (hs : s.stream = b.stream) (hp : s.slots = b.slots) : b.Continues (b.next step t) := by
  refine ⟨hs ▸ h.keeps_code, ?_, hs ▸ h.peak⟩
  intro i e he
  obtain ⟨e', he', hb⟩ := h.slots.grows.entry i e (hp ▸ he)
  exact ⟨e', he', hb.ty, hb.byRef⟩

namespace Session

theorem reached_extends (s : Session) (b : Body) (step : Step) :
    Emit.Extends (s.stateOf b) (s.reached b step) := step.along Emit.steady_extends _

theorem step_continues (s : Session) (m : Nat) (step : Step) :
    s.Continues m (s.step m step).2 := by
  cases h : s.bodies[m]? with
  | none =>
    rw [step_of_none h]
    refine ⟨fun _ _ => rfl, ?_, .refl _, List.prefix_refl _⟩
    intro b hb
    rw [h] at hb
    cases hb
  | some b =>
    have hext := s.reached_extends b step
    refine ⟨fun n hn => ?_, fun b' hb' => ?_, ?_, ?_⟩
    · rw [step_bodies h, if_neg hn]
    · cases h.symm.trans hb'
      exact ⟨_, by rw [step_bodies h, if_pos rfl], hext.continues step rfl rfl⟩
    · rw [step_blobs h]
      exact hext.blobs
    · rw [step_reports h]
      exact hext.reports

end Session

/-! ### What code names -/

/-- The invariant of a body, beside the data of the module. -/
structure Body.Sound (blobs : BlobTable) (b : Body) : Prop where
  reaches : SlotPool.empty.Reaches b.slots
  named : b.slots.size ≤ 2 ^ 16 → ∀ i ∈ b.stream.code.toList, ∀ x, i.slot? = some x →
    x.index.toNat < b.slots.size
  sourced : Sourced blobs b.stream.code.toList
  labelled : Labelled 0 b.stream.code.toList b.stream.labels

def Session.Sound (s : Session) : Prop := ∀ (n : Nat) b, s.bodies[n]? = some b → b.Sound s.blobs

namespace Body.Sound

variable {b : Body}

theorem start (method : Enclosing) (options : Options) (blobs : BlobTable) :
    (Body.start method options).Sound blobs where
  reaches := .refl _
  named _ _ hi := by cases hi
  sourced := trivial
  labelled := .nil 0

theorem mono {blobs blobs' : BlobTable} (h : b.Sound blobs) (hw : blobs.Within blobs') :
    b.Sound blobs' := { h with sourced := h.sourced.mono hw }

theorem next {s : Session} (h : b.Sound s.blobs) (step : Step) :
    (b.next step (s.reached b step)).Sound (s.reached b step).blobs := by
  have hext := s.reached_extends b step
  obtain ⟨c, hc, hsourced⟩ := hext.code
  obtain ⟨c', hc', hlabelled⟩ := step.labelled (s.stateOf b)
  obtain rfl := hc.unique hc'
  have hcode : (s.reached b step).stream.code.toList = b.stream.code.toList ++ c := hc
  have hreaches := h.reaches.trans hext.slots
  have hsize := hext.slots.grows.size_le
  refine ⟨hreaches, ?_, ?_, ?_⟩
  · intro hbound i hi x hx
    rcases List.mem_append.mp (hcode ▸ hi) with hi | hi
    · exact (h.named (hsize.trans hbound) i hi x hx).trans_le hsize
    · obtain ⟨post, howned⟩ := step.owned
      have hcoherent := SlotPool.Coherent.empty.reaches hreaches hbound
      exact (howned.spares hcoherent trivial (.refl _) (.start _)).named c hc i hi x hx
  · change Sourced _ (s.reached b step).stream.code.toList
    rw [hcode]
    exact (h.sourced.mono hext.blobs).append hsourced
  · change Labelled 0 (s.reached b step).stream.code.toList _
    rw [hcode]
    exact h.labelled.append hlabelled

end Body.Sound

namespace Session

variable {s : Session}

theorem fresh_sound (symbols : Symbols) (methods : List (Enclosing × Options)) :
    (fresh symbols methods).Sound := by
  intro n b hb
  obtain ⟨x, -, rfl⟩ := Option.map_eq_some_iff.mp (fresh_body symbols methods n ▸ hb)
  exact .start x.1 x.2 _

theorem Sound.step (h : s.Sound) (m : Nat) (step : Step) : (s.step m step).2.Sound := by
  intro n b hb
  cases hm : s.bodies[m]? with
  | none =>
    rw [step_of_none hm] at hb ⊢
    exact h n b hb
  | some a =>
    rw [step_bodies hm] at hb
    rw [step_blobs hm]
    by_cases hn : n = m
    · rw [if_pos hn] at hb
      cases hb
      exact (h m a hm).next step
    · rw [if_neg hn] at hb
      exact (h n b hb).mono (s.reached_extends a step).blobs

theorem Sound.run (h : s.Sound) (script : List (Nat × Step)) : (s.run script).Sound :=
  run_keeps (fun _ m step h => h.step m step) h script

end Session

/-- Whatever the code of the body names is there: slots that it has, labels that were made for it,
each marked once at most, and data that is as long as the copy that follows takes it to be. -/
structure Body.Closed (blobs : BlobTable) (b : Body) : Prop where
  slots : ∀ i ∈ b.stream.code.toList, ∀ x, i.slot? = some x → x.index.toNat < b.slots.size
  data : ∀ (p : Nat) i t, b.stream.code.toList[p]? = some i → i.token? = some t →
    ∃ blob n, blobs.blobs[t.index]? = some blob ∧
      copyLength? none (b.stream.code.toList.drop (p + 1)) = some n ∧
      n.toInt = blob.bytes.length
  labels : ∀ l ∈ labels b.stream.code.toList, l.id < b.stream.labels
  marks : (marks b.stream.code.toList).Nodup

theorem Body.Sound.closed {blobs : BlobTable} {b : Body} (h : b.Sound blobs)
    (hslots : b.slots.size ≤ 2 ^ 16)
    (hdata : ∀ blob ∈ blobs.blobs, blob.bytes.length < 2 ^ 31) : b.Closed blobs where
  slots := h.named hslots
  data p i t hi ht := by
    obtain ⟨blob, hblob, hlength⟩ := h.sourced.at_position hi ht
    refine ⟨blob, _, hblob, hlength, ?_⟩
    exact Int32.toInt_ofNat_of_lt (hdata blob (Array.mem_of_getElem? hblob))
  labels l hl := (h.labelled.range l hl).2
  marks := h.labelled.nodup

/-- Whatever steps were taken in whichever bodies, failing ones included, the next one only adds to
what is there, and after it all bodies are closed. -/
theorem Session.steps_append_closed (symbols : Symbols) (methods : List (Enclosing × Options))
    (script : List (Nat × Step)) (m : Nat) (step : Step)
    (hslots : ∀ b ∈ (((fresh symbols methods).run script).step m step).2.bodies,
      b.slots.size ≤ 2 ^ 16)
    (hdata : ∀ blob ∈ (((fresh symbols methods).run script).step m step).2.blobs.blobs,
      blob.bytes.length < 2 ^ 31) :
    let s := (fresh symbols methods).run script
    let t := (s.step m step).2
    s.Continues m t ∧ ∀ b ∈ t.bodies, b.Closed t.blobs := by
  intro s t
  have hsound : t.Sound := ((fresh_sound symbols methods).run script).step m step
  refine ⟨s.step_continues m step, fun b hb => ?_⟩
  obtain ⟨n, hn⟩ := Array.mem_iff_getElem?.mp hb
  exact (hsound n b hn).closed (hslots b hb) hdata

namespace Session

def copyThree : Step :=
  let constant (v : Int64) (ty : Ty) : Expr := .literal ⟨ty, some (.int v), .synthesized⟩
  let u8 := Ty.ofPrim .u8
  .stackalloc u8 (constant 3 (.ofPrim .i32)) [constant 1 u8, constant 2 u8, constant 3 u8] true
    .synthesized

/-- A choice that fails after its first branch was laid. -/
def brokenChoice : Step :=
  let bool := Ty.ofPrim .bool
  .value (.conditional (.plain bool) (.param (.plain bool) ⟨"p", 0, bool, .byValue, .unscoped⟩)
    (.this (.plain bool)) (.literal (.plain bool)) false) true

theorem steps_append_closed_copyThree :
    let body := (Enclosing.ordinary .object, Options.standard)
    let s := (fresh ⟨[], false⟩ [body, body]).run [(0, copyThree), (1, brokenChoice)]
    let t := (s.step 1 copyThree).2
    (t.bodies.map fun b => b.stream.code.size) = #[7, 9] ∧ t.blobs.size = 1 ∧
    s.Continues 1 t ∧ ∀ b ∈ t.bodies, b.Closed t.blobs := by
  refine ⟨by decide +kernel, by decide +kernel, ?_⟩
  exact steps_append_closed ⟨[], false⟩ _ [(0, copyThree), (1, brokenChoice)] 1 copyThree
    (by decide +kernel) (by decide +kernel)

end Session

end TypedStack
