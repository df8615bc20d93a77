import TypedStack.Proofs.Numbering
import TypedStack.Proofs.Sessions

/-! Bodies of one session do not disturb each other. What a body comes to depends on its own steps
alone: when other bodies step in between, nothing changes for it but the numbers of stored data. -/
namespace TypedStack

variable {A A' B B' : BlobTable}

theorem Step.blind (env : Env) (step : Step) : Emit.Blind (step.emit env) := by
  rcases step.slotOf_or_emits env with ⟨id, rfl⟩ | h
  · exact .onSlots fun p => (Answer.slot (p.slotOf? id), p)
  · exact (h True).blind

/-! ### What a session shows of each body -/

/-- What a step in a body shows: its answer, the body after it, and what it reported. -/
structure Turn where
  answer : Except Failure Answer
  body : Option Body
  reports : List Diagnostic

namespace Session

def turn (s : Session) (m : Nat) (step : Step) : Turn :=
  let r := s.step m step
  ⟨r.1, r.2.bodies[m]?, r.2.reports.entries.toList.drop s.reports.size⟩

def trace (s : Session) : List (Nat × Step) → List (Nat × Turn)
  | [] => []
  | (m, step) :: script => (m, s.turn m step) :: (s.step m step).2.trace script

def turns (s : Session) (m : Nat) (script : List (Nat × Step)) : List Turn :=
  ((s.trace script).filter (·.1 = m)).map Prod.snd

def own (m : Nat) (script : List (Nat × Step)) : List (Nat × Step) :=
  (script.filter (·.1 = m)).map fun x => (0, x.2)

theorem own_self (m : Nat) (step : Step) (script : List (Nat × Step)) :
    own m ((m, step) :: script) = (0, step) :: own m script := by
  simp [own]

theorem own_foreign {m n : Nat} (h : n ≠ m) (step : Step) (script : List (Nat × Step)) :
    own m ((n, step) :: script) = own m script := by
  simp [own, h]

theorem turns_self (s : Session) (m : Nat) (step : Step) (script : List (Nat × Step)) :
    s.turns m ((m, step) :: script) = s.turn m step :: (s.step m step).2.turns m script := by
  simp [turns, trace]

theorem turns_foreign {m n : Nat} (h : n ≠ m) (s : Session) (step : Step)
    (script : List (Nat × Step)) :
    s.turns m ((n, step) :: script) = (s.step n step).2.turns m script := by
  simp [turns, trace, h]

theorem turn_reports (s : Session) (m : Nat) (step : Step) :
    (s.step m step).2.reports.entries.toList =
      s.reports.entries.toList ++ (s.turn m step).reports := by
  obtain ⟨r, hr⟩ := (s.step_continues m step).reports
  have hdrop : (s.turn m step).reports = r := by
    change List.drop s.reports.entries.size _ = r
    rw [← hr, ← Array.length_toList, List.drop_left]
  rw [hdrop, hr]

theorem run_reports (s : Session) (script : List (Nat × Step)) :
    (s.run script).reports.entries.toList =
      s.reports.entries.toList ++ (s.trace script).flatMap (·.2.reports) := by
  induction script generalizing s with
  | nil => exact (List.append_nil _).symm
  | cons x script ih =>
    change ((s.step x.1 x.2).2.run script).reports.entries.toList = _
    rw [ih, turn_reports, List.append_assoc]
    rfl

theorem run_within (s : Session) (script : List (Nat × Step)) :
    s.blobs.Within (s.run script).blobs :=
  run_keeps (P := fun t => s.blobs.Within t.blobs)
    (fun t m step h => h.trans (t.step_continues m step).blobs) (.refl _) script

theorem step_symbols (s : Session) (m : Nat) (step : Step) :
    (s.step m step).2.symbols = s.symbols := by
  cases h : s.bodies[m]? with
  | none => rw [step_of_none h]
  | some b => rw [step_of_some h]

theorem step_answer {s : Session} {m : Nat} {b : Body} (h : s.bodies[m]? = some b) (step : Step) :
    (s.step m step).1 = Emit.answer (step.emit (b.env s.symbols)) (s.stateOf b) := by
  unfold Session.step
  rw [h, Emit.answer, stateOf]
  dsimp only
  cases step.emit (b.env s.symbols) ⟨b.stream, b.slots, s.blobs, s.reports⟩ <;> rfl

end Session

/-! ### Every body as if it were alone -/

/-- Bodies that are the same but for the numbers of data. -/
structure Body.Like (A B : BlobTable) (b b' : Body) : Prop where
  method : b.method = b'.method
  options : b.options = b'.options
  resident : b.resident = b'.resident
  stream : b.stream.Like A B b'.stream
  slots : b.slots = b'.slots

theorem Body.Like.mono {b b' : Body} (h : Body.Like A B b b') (hA : A.Within A')
    (hB : B.Within B') : Body.Like A' B' b b' := { h with stream := h.stream.mono hA hB }

theorem Body.Like.rel_mono {o o' : Option Body} (h : Option.Rel (Body.Like A B) o o')
    (hA : A.Within A') (hB : B.Within B') : Option.Rel (Body.Like A' B') o o' := by
  cases h with
  | none => exact .none
  | some hb => exact .some (hb.mono hA hB)

theorem Body.Like.env {b b' : Body} (h : Body.Like A B b b') (symbols : Symbols) :
    b.env symbols = b'.env symbols := by
  unfold Body.env
  rw [h.method, h.options, h.resident]

theorem Body.Like.next {b b' : Body} (h : Body.Like A B b b') (step : Step) {t t' : State}
    (ht : Emit.Twin t t') : Body.Like t.blobs t'.blobs (b.next step t) (b'.next step t') where
  method := h.method
  options := h.options
  resident := congrArg (step.residentAfter ·) h.resident
  stream := ht.stream
  slots := ht.slots

/-- Steps that show the same but for the numbers of data. -/
structure Turn.Like (A B : BlobTable) (x y : Turn) : Prop where
  answer : x.answer = y.answer
  body : Option.Rel (Body.Like A B) x.body y.body
  reports : x.reports = y.reports

theorem Turn.Like.mono {x y : Turn} (h : Turn.Like A B x y) (hA : A.Within A')
    (hB : B.Within B') : Turn.Like A' B' x y := { h with body := Body.Like.rel_mono h.body hA hB }

namespace Session

theorem step_alike {s s' : Session} {b b' : Body} (h : s.symbols = s'.symbols)
    (hb : Body.Like s.blobs s'.blobs b b') (step : Step) :
    Emit.answer (step.emit (b.env s.symbols)) (s.stateOf b) =
        Emit.answer (step.emit (b'.env s'.symbols)) (s'.stateOf b') ∧
      Emit.Together (s.stateOf b) (s'.stateOf b') (s.reached b step) (s'.reached b' step) := by
  have htwin : Emit.Twin (s.stateOf b) (s'.stateOf b') := ⟨hb.stream, hb.slots⟩
  have hblind := step.blind (b'.env s'.symbols)
  rw [reached, reached, h, hb.env]
  exact ⟨hblind.answer_eq htwin, hblind.together htwin⟩

/-- Body `m` of the one session is like the only body of the other. -/
structure Matches (m : Nat) (s s' : Session) : Prop where
  symbols : s.symbols = s'.symbols
  body : Option.Rel (Body.Like s.blobs s'.blobs) s.bodies[m]? s'.bodies[0]?

namespace Matches

variable {m n : Nat} {s s' : Session}

theorem of_left (h : Matches m s s') {b : Body} (hb : s.bodies[m]? = some b) :
    ∃ b', Body.Like s.blobs s'.blobs b b' := by
  have hbody := h.body
  rw [hb] at hbody
  generalize s'.bodies[0]? = o at hbody
  cases hbody with
  | some hlike => exact ⟨_, hlike⟩

theorem of_right (h : Matches m s s') {b' : Body} (hb : s'.bodies[0]? = some b') :
    ∃ b, Body.Like s.blobs s'.blobs b b' := by
  have hbody := h.body
  rw [hb] at hbody
  generalize s.bodies[m]? = o at hbody
  cases hbody with
  | some hlike => exact ⟨_, hlike⟩

theorem turn (h : Matches m s s') (step : Step) :
    Turn.Like (s.step m step).2.blobs (s'.step 0 step).2.blobs (s.turn m step)
      (s'.turn 0 step) := by
  have hreports := s.turn_reports m step
  have hreports' := s'.turn_reports 0 step
  have hbody := h.body
  generalize hm : s.bodies[m]? = o at hbody
  generalize hm' : s'.bodies[0]? = o' at hbody
  cases hbody with
  | none =>
    have hstep := step_of_none hm step
    have hstep' := step_of_none hm' step
    refine ⟨?_, ?_, ?_⟩
    · change (s.step m step).1 = (s'.step 0 step).1
      rw [hstep, hstep']
    · change Option.Rel _ (s.step m step).2.bodies[m]? (s'.step 0 step).2.bodies[0]?
      rw [hstep, hstep', hm, hm']
      exact .none
    · rw [hstep] at hreports
      rw [hstep'] at hreports'
      rw [List.self_eq_append_right.mp hreports, List.self_eq_append_right.mp hreports']
  | some hb =>
    obtain ⟨hanswer, htogether⟩ := step_alike h.symbols hb step
    refine ⟨?_, ?_, ?_⟩
    · change (s.step m step).1 = (s'.step 0 step).1
      rw [step_answer hm, step_answer hm', hanswer]
    · change Option.Rel _ (s.step m step).2.bodies[m]? (s'.step 0 step).2.bodies[0]?
      rw [step_blobs hm, step_blobs hm', step_bodies hm, step_bodies hm', if_pos rfl, if_pos rfl]
      exact .some (hb.next step htogether.twin)
    · obtain ⟨r, hr, hr'⟩ := htogether.reports
      rw [step_reports hm, hr] at hreports
      rw [step_reports hm', hr'] at hreports'
      rw [← List.append_cancel_left hreports, ← List.append_cancel_left hreports']

theorem step (h : Matches m s s') (step : Step) :
    Matches m (s.step m step).2 (s'.step 0 step).2 := by
  refine ⟨?_, (h.turn step).body⟩
  rw [step_symbols, step_symbols, h.symbols]

theorem foreign (h : Matches m s s') (hn : m ≠ n) (step : Step) :
    Matches m (s.step n step).2 s' := by
  have hcontinues := s.step_continues n step
  refine ⟨(s.step_symbols n step).trans h.symbols, ?_⟩
  rw [hcontinues.others m hn]
  exact Body.Like.rel_mono h.body hcontinues.blobs (.refl _)

theorem run (h : Matches m s s') (script : List (Nat × Step)) :
    Matches m (s.run script) (s'.run (own m script)) ∧
      List.Forall₂ (Turn.Like (s.run script).blobs (s'.run (own m script)).blobs)
        (s.turns m script) ((s'.trace (own m script)).map Prod.snd) := by
  induction script generalizing s s' with
  | nil => exact ⟨h, .nil⟩
  | cons x script ih =>
    obtain ⟨n, step⟩ := x
    by_cases hn : n = m
    · subst hn
      obtain ⟨hmatches, hturns⟩ := ih (h.step step)
      rw [own_self, turns_self]
      have hturn := (h.turn step).mono (run_within _ script) (run_within _ (own n script))
      exact ⟨hmatches, .cons hturn hturns⟩
    · obtain ⟨hmatches, hturns⟩ := ih (h.foreign (Ne.symm hn) step)
      rw [own_foreign hn, turns_foreign hn]
      exact ⟨hmatches, hturns⟩

end Matches

/-- Data is stored once, and only for code that names it. -/
structure Stored (s : Session) : Prop where
  distinct : s.blobs.Distinct
  named : ∀ blob ∈ s.blobs.blobs, ∃ (n : Nat) (b : Body), s.bodies[n]? = some b ∧
    Names s.blobs b.stream.code.toList blob

namespace Stored

variable {s : Session}

theorem fresh (symbols : Symbols) (methods : List (Enclosing × Options)) :
    (fresh symbols methods).Stored where
  distinct i j blob hi := by simp [Session.fresh, BlobTable.empty] at hi
  named blob hblob := by simp [Session.fresh, BlobTable.empty] at hblob

theorem step (h : s.Stored) (m : Nat) (step : Step) : (s.step m step).2.Stored := by
  cases hm : s.bodies[m]? with
  | none =>
    rw [step_of_none hm]
    exact h
  | some b =>
    have hext := s.reached_extends b step
    have hself : (s.step m step).2.bodies[m]? = some (b.next step (s.reached b step)) := by
      rw [step_bodies hm, if_pos rfl]
    refine ⟨?_, ?_⟩
    · rw [step_blobs hm]
      exact hext.distinct h.distinct
    · rw [step_blobs hm]
      intro blob hblob
      rcases hext.stored blob hblob with hold | hnew
      · obtain ⟨n, a, ha, hnames⟩ := h.named blob hold
        by_cases hn : n = m
        · subst hn
          cases hm.symm.trans ha
          exact ⟨n, _, hself, hnames.mono hext.blobs hext.keeps_code.subset⟩
        · refine ⟨n, a, ?_, hnames.mono hext.blobs (List.Subset.refl _)⟩
          rw [step_bodies hm, if_neg hn, ha]
      · exact ⟨m, _, hself, hnew⟩

theorem run (h : s.Stored) (script : List (Nat × Step)) : (s.run script).Stored :=
  run_keeps (fun _ m step h => h.step m step) h script

end Stored

theorem run_size (s : Session) (script : List (Nat × Step)) :
    (s.run script).bodies.size = s.bodies.size := by
  refine run_keeps (P := fun t => t.bodies.size = s.bodies.size) ?_ rfl script
  intro t m step ht
  cases hm : t.bodies[m]? with
  | none => rw [step_of_none hm, ht]
  | some b => rw [step_of_some hm, Array.size_setIfInBounds, ht]

end Session

/-! ### One renaming for a whole run -/

def Body.rename (ρ : BlobToken → BlobToken) (b : Body) : Body :=
  { b with stream := b.stream.rename ρ }

def Turn.rename (ρ : BlobToken → BlobToken) (x : Turn) : Turn :=
  { x with body := x.body.map (Body.rename ρ) }

section Rename

variable (hA : A.Distinct) (hsub : ∀ blob ∈ B.blobs, blob ∈ A.blobs)

include hA hsub

theorem Body.Like.eq_rename {b b' : Body} (h : Body.Like A B b b') :
    b = b'.rename (B.translate A) := by
  have hstream := h.stream.eq_rename hA hsub
  obtain ⟨method, options, resident, stream, slots⟩ := b
  obtain ⟨rfl, rfl, rfl, -, rfl⟩ := h
  exact congrArg (Body.mk _ _ _ · _) hstream

theorem Turn.Like.eq_rename {x y : Turn} (h : Turn.Like A B x y) :
    x = y.rename (B.translate A) := by
  obtain ⟨answer, body, reports⟩ := x
  obtain ⟨answer', body', reports'⟩ := y
  obtain ⟨rfl, hbody, rfl⟩ := h
  cases hbody with
  | none => rfl
  | some hb => exact congrArg (Turn.mk _ · _) (congrArg some (hb.eq_rename hA hsub))

end Rename

namespace Session

def solo (symbols : Symbols) (methods : List (Enclosing × Options)) (m : Nat) : Session :=
  fresh symbols methods[m]?.toList

section Solo

variable (symbols : Symbols) (methods : List (Enclosing × Options)) (script : List (Nat × Step))
  (m : Nat)

theorem solo_matches : Matches m (fresh symbols methods) (solo symbols methods m) := by
  refine ⟨rfl, ?_⟩
  rw [solo, fresh_body, fresh_body]
  cases methods[m]? with
  | none => exact .none
  | some x => exact .some ⟨rfl, rfl, rfl, .empty, rfl⟩

theorem solo_size : ((solo symbols methods m).run (own m script)).bodies.size ≤ 1 := by
  rw [run_size, solo, fresh, List.size_toArray, List.length_map]
  cases methods[m]? with
  | none => exact Nat.zero_le 1
  | some x => exact Nat.le_refl 1

/-- What a body stores when it is alone is stored also when it is not. -/
theorem solo_blobs (blob : Blob)
    (h : blob ∈ ((solo symbols methods m).run (own m script)).blobs.blobs) :
    blob ∈ ((fresh symbols methods).run script).blobs.blobs := by
  have hstored := (Stored.fresh symbols methods[m]?.toList).run (own m script)
  obtain ⟨n, b', hb', hnames⟩ := hstored.named blob h
  -- the code that names the data can only be that of the one body
  obtain ⟨hlt, -⟩ := Array.getElem?_eq_some_iff.mp hb'
  obtain rfl : n = 0 := Nat.lt_one_iff.mp (hlt.trans_le (solo_size symbols methods script m))
  obtain ⟨b, hb⟩ := ((solo_matches symbols methods m).run script).1.of_right hb'
  exact hb.stream.symm.code.mem_blobs hnames

/-- All that is stored is stored by some body when it is alone. -/
theorem mem_solo_blobs {blob : Blob} (h : blob ∈ ((fresh symbols methods).run script).blobs.blobs) :
    ∃ m, blob ∈ ((solo symbols methods m).run (own m script)).blobs.blobs := by
  obtain ⟨m, b, hb, hnames⟩ := ((Stored.fresh symbols methods).run script).named blob h
  obtain ⟨b', hbody⟩ := ((solo_matches symbols methods m).run script).1.of_left hb
  exact ⟨m, hbody.stream.code.mem_blobs hnames⟩

/-- The steps of a body show what they show when it is alone, but for the numbers of data. -/
theorem solo_turns :
    (fresh symbols methods).turns m script =
      ((solo symbols methods m).trace (own m script)).map fun x =>
        x.2.rename (((solo symbols methods m).run (own m script)).blobs.translate
          ((fresh symbols methods).run script).blobs) := by
  have hdistinct := ((Stored.fresh symbols methods).run script).distinct
  have hturns := ((solo_matches symbols methods m).run script).2
  rw [← List.forall₂_eq_eq_eq, List.forall₂_map_right_iff]
  refine (List.forall₂_map_right_iff.mp hturns).imp fun x y hxy => ?_
  exact hxy.eq_rename hdistinct (solo_blobs symbols methods script m)

end Solo

/-- Bodies of one session do not disturb each other: whatever the order of their steps, failing
ones included, each step of a body gives the answer, leaves the code, the depth and the slots, and
makes the reports that it does when the body is alone. Only the numbers of data differ, by one
renaming; the data of all is that of each, and the reports of all are those of each in turn. -/
theorem bodies_isolated (symbols : Symbols) (methods : List (Enclosing × Options))
    (script : List (Nat × Step)) :
    let start := fresh symbols methods
    let shared := start.run script
    let alone (m : Nat) := (solo symbols methods m).run (own m script)
    (∀ m, ∃ ρ : BlobToken → BlobToken, Function.Injective ρ ∧
      (∀ t blob, (alone m).blobs.blobs[t.index]? = some blob →
        shared.blobs.blobs[(ρ t).index]? = some blob) ∧
      start.turns m script =
        ((solo symbols methods m).trace (own m script)).map fun x => x.2.rename ρ) ∧
    (∀ blob, blob ∈ shared.blobs.blobs ↔ ∃ m, blob ∈ (alone m).blobs.blobs) ∧
    shared.reports.entries.toList = (start.trace script).flatMap (·.2.reports) ∧
    ∀ m, (alone m).reports.entries.toList = (start.turns m script).flatMap Turn.reports := by
  intro start shared alone
  refine ⟨fun m => ?_, fun blob => ⟨?_, ?_⟩, start.run_reports script, fun m => ?_⟩
  · have hsub := solo_blobs symbols methods script m
    have hdistinct := ((Stored.fresh symbols methods[m]?.toList).run (own m script)).distinct
    refine ⟨(alone m).blobs.translate shared.blobs, ?_, ?_, solo_turns symbols methods script m⟩
    · exact BlobTable.translate_injective hdistinct hsub
    · exact fun t blob h => BlobTable.translate_blob hsub h
  · exact mem_solo_blobs symbols methods script
  · rintro ⟨m, hblob⟩
    exact solo_blobs symbols methods script m blob hblob
  · rw [solo_turns, List.flatMap_map]
    exact (solo symbols methods m).run_reports (own m script)

end Session

end TypedStack
