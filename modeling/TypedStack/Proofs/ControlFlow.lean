import TypedStack.Proofs.Balance
import TypedStack.Proofs.Machine

/-! The depth of the stack along the paths of emitted code: it depends on the place in the code
only, never falls below where the code started, and never exceeds the peak on record. -/
namespace TypedStack

namespace Leveled

variable {floor ceil a b d : Int} {code : List (Int × Instr)} {p : Nat} {i : Instr}

/-- The depths at all places of the code, its end included. -/
def levels (code : List (Int × Instr)) (b : Int) : List Int := code.map Prod.fst ++ [b]

theorem levels_start (h : Leveled floor ceil a code b) : (levels code b)[0]? = some a := by
  cases h <;> rfl

theorem levels_next (h : Leveled floor ceil a code b) (hi : code[p]? = some (d, i))
    (hn : i.continues) : (levels code b)[p + 1]? = some (d + i.delta) := by
  induction h generalizing p with
  | nil => simp at hi
  | cons _ _ _ he hrest ih =>
    cases p with
    | zero =>
      cases hi
      exact he hn ▸ hrest.levels_start
    | succ p => exact ih hi

theorem levels_jump (h : Leveled floor ceil a code b) (hi : code[p]? = some (d, i)) {l : Label}
    (hl : i.target? = some l) : ∃ q : Nat, code[q]? = some (d + i.delta, .label l) := by
  induction h generalizing p with
  | nil => simp at hi
  | cons _ _ ht _ _ ih =>
    cases p with
    | zero =>
      cases hi
      obtain ⟨q, hq⟩ := List.mem_iff_getElem?.mp (ht l hl)
      exact ⟨q + 1, hq⟩
    | succ p =>
      obtain ⟨q, hq⟩ := ih hi
      exact ⟨q + 1, hq⟩

theorem bounds (h : Leveled floor ceil a code b) (hi : code[p]? = some (d, i)) :
    floor ≤ d - i.pops ∧ d + i.delta ≤ ceil := by
  induction h generalizing p with
  | nil => simp at hi
  | cons hp hd _ _ _ ih =>
    cases p with
    | zero =>
      cases hi
      exact ⟨hp, hd⟩
    | succ p => exact ih hi

end Leveled

def counter : Machine Int where
  next i h h' := h' = h - i.pops + i.pushes
  jump i h h' := h' = h - i.pops + i.pushes

namespace Leveled

variable {floor ceil a b h : Int} {code : List (Int × Instr)} {p : Nat}

theorem levels_instr {i : Instr} (hl : (levels code b)[p]? = some h)
    (hi : (code.map Prod.snd)[p]? = some i) : code[p]? = some (h, i) := by
  obtain ⟨⟨d, j⟩, hc, rfl⟩ : ∃ x, code[p]? = some x ∧ x.2 = i := by simpa using hi
  have hp : p < (code.map Prod.fst).length := by
    simpa using (List.getElem?_eq_some_iff.mp hc).1
  rw [levels, List.getElem?_append_left hp] at hl
  obtain rfl : d = h := by simpa [hc] using hl
  exact hc

theorem step_level (hc : Leveled floor ceil a code b) (hu : (marks (code.map Prod.snd)).Nodup)
    {q : Nat} {h' : Int} (hs : counter.Step (code.map Prod.snd) (p, h) (q, h'))
    (hl : (levels code b)[p]? = some h) : (levels code b)[q]? = some h' ∧ h' ≤ ceil := by
  have delta (i : Instr) : h - i.pops + i.pushes = h + i.delta := by
    rw [i.delta_eq]
    omega
  cases hs with
  | @next _ i _ _ hi hn hm =>
    obtain rfl : h' = h + i.delta := hm.trans (delta i)
    have hi := levels_instr hl hi
    exact ⟨hc.levels_next hi hn, (hc.bounds hi).2⟩
  | @jump _ i l _ _ _ hi ht hq hm =>
    obtain rfl : h' = h + i.delta := hm.trans (delta i)
    have hi := levels_instr hl hi
    obtain ⟨k, hk⟩ := hc.levels_jump hi ht
    -- the label stands at one place only, so that is where the jump leads
    obtain rfl : q = k := mark_unique hu hq (by simp [hk])
    have hlt : q < (code.map Prod.fst).length := by simpa using (List.getElem?_eq_some_iff.mp hk).1
    refine ⟨?_, (hc.bounds hi).2⟩
    rw [levels, List.getElem?_append_left hlt]
    simp [hk]

theorem reach_level (hc : Leveled floor ceil a code b) (hu : (marks (code.map Prod.snd)).Nodup)
    (ha : a ≤ ceil) (hr : counter.Reach (code.map Prod.snd) (0, a) (p, h)) :
    (levels code b)[p]? = some h ∧ h ≤ ceil := by
  generalize hx : (p, h) = x at hr
  induction hr generalizing p h with
  | refl =>
    cases hx
    exact ⟨hc.levels_start, ha⟩
  | @tail y _ _ hstep ih =>
    obtain ⟨hl, -⟩ := ih (p := y.1) (h := y.2) rfl
    exact hc.step_level hu (hx ▸ hstep) hl

end Leveled

/-- The streams that can be built up from nothing. -/
inductive Stream.Built : Stream → Prop where
  | empty : Built .empty
  | adjust {s} (d) : Built s → Built (s.adjust d)
  | emit {s} (i) : Built s → Built (s.emit i)
  | newLabel {s} : Built s → Built s.newLabel.2

theorem Stream.Built.depth_le_peak {s : Stream} (h : s.Built) : s.depth ≤ s.peak := by
  induction h with
  | empty => exact Int.le_refl _
  | adjust | emit => exact Int.le_max_right _ _
  | newLabel _ ih => exact ih

theorem Stream.Built.emitAll {s : Stream} (h : s.Built) (c : List Instr) :
    (s.emitAll c).Built := by
  induction c generalizing s with
  | nil => exact h
  | cons i c ih => exact ih (.emit i h)

namespace Emit

variable {env : Env}

theorem steady_built : Steady env fun s t => s.stream.Built → t.stream.Built where
  refl _ hs := hs
  trans h h' hs := h' (h hs)
  code _ i _ hs := .emit i hs
  shift _ d hs := .adjust d hs
  label _ hs := .newLabel hs
  serve _ _ _ hs := hs
  report _ _ hs := hs
  copy _ _ c _ hs := hs.emitAll c

theorem Emits.built {α : Type} {given : Prop} {own : List Slot} {c : Script} {m : Emit α}
    {post : α → List Slot} (h : Emits env .any given own c m post) {s t : State} {a : α}
    (hm : m s = .ok a t) (hs : s.stream.Built) : t.stream.Built :=
  h.along_ok steady_built hm hs

/-- A stream stays one that can be built up, and every branch in the code of `e` leads to the one
place later in that code where its label is marked. On every path through that code the depth
depends on the place alone, stays between the depth at the start and the peak on record, and is at
the end as `e` is used. -/
theorem control_flow_consistent {e : Expr} {used : Bool} {s t : State} (hs : s.stream.Built)
    (he : e.Every (fun n u => Countable env n u ∧ SelfContained env n u) used)
    (h : value env e used s = .ok () t) :
    t.stream.Built ∧ ∃ code : List Instr, s.stream.Adds t.stream code ∧
      (∀ (p : Nat) i l, code[p]? = some i → i.target? = some l → ∃ q : Nat, p < q ∧
        code[q]? = some (.label l) ∧ ∀ q' : Nat, code[q']? = some (.label l) → q' = q) ∧
      ∀ p d, counter.Reach code (0, s.stream.depth) (p, d) →
        (∀ d', counter.Reach code (0, s.stream.depth) (p, d') → d' = d) ∧
        (∀ i, code[p]? = some i → s.stream.depth ≤ d - i.pops) ∧
        d ≤ t.stream.peak ∧
        (p = code.length → d = s.stream.depth + if used then 1 else 0) := by
  have sound : e.Every (Sound true env) used :=
    fun n u hn => ⟨(he n u hn).1, fun _ => (he n u hn).2⟩
  have hgains := ((plan_outlined env e).emits_value used).gains
    ((Outline.balanced true env e).value_of sound) h
  obtain ⟨c, hadds, hc⟩ := hgains.code rfl
  obtain ⟨code, hcode, hblock⟩ := ((plan_emits env e).emits_value used).adds_block h
  obtain rfl := hadds.unique hcode
  have hu := hblock.marks_nodup
  have ha : s.stream.depth ≤ t.stream.peak := Int.le_trans hs.depth_le_peak hgains.peak
  have hlevel {p : Nat} {d : Int}
      (hr : counter.Reach (c.map Prod.snd) (0, s.stream.depth) (p, d)) := hc.reach_level hu ha hr
  refine ⟨((plan_emits env e).emits_value used).built h hs, _, hadds, ?_, ?_⟩
  · intro p i l hi hl
    obtain ⟨q, hpq, hq⟩ := hblock.forward.target_later hi hl
    exact ⟨q, hpq, hq, fun q' hq' => mark_unique hu hq' hq⟩
  · intro p d hr
    obtain ⟨hd, hpeak⟩ := hlevel hr
    refine ⟨?_, ?_, hpeak, ?_⟩
    · intro d' hr'
      exact Option.some.inj ((hlevel hr').1.symm.trans hd)
    · intro i hi
      simpa using (hc.bounds (Leveled.levels_instr hd hi)).1
    · rintro rfl
      have hend : t.stream.depth = d := by simpa [Leveled.levels] using hd
      have hdepth := hgains.depth
      rw [← hend, hdepth]
      cases used <;> simp

theorem bindOrThrow_selfContained : bindOrThrow.Every (SelfContained env) true := by
  simp [bindOrThrow, Expr.every_iff (e := .conditional ..), Expr.every_iff (e := .assign ..),
    Expr.every_iff (e := .throw ..), Expr.every_iff (e := .param ..),
    Expr.every_iff (e := .localVar ..), Expr.parts, SelfContained]

theorem control_flow_consistent_bindOrThrow :
    ∃ t, value (.bare (.ordinary .object)) bindOrThrow true .empty = .ok () t ∧
      ∃ code, State.empty.stream.Adds t.stream code ∧ code.length = 11 ∧
        ∀ d, counter.Reach code (0, 0) (code.length, d) → d = 1 := by
  have he : bindOrThrow.Every (fun n u => Countable (.bare (.ordinary .object)) n u ∧
      SelfContained (.bare (.ordinary .object)) n u) true :=
    fun n u hn => ⟨bindOrThrow_countable rfl n u hn, bindOrThrow_selfContained n u hn⟩
  refine ⟨_, rfl, ?_⟩
  obtain ⟨-, code, hcode, -, hpaths⟩ := control_flow_consistent (s := .empty) .empty he rfl
  refine ⟨code, hcode, ?_, fun d hd => (hpaths _ d hd).2.2.2 rfl⟩
  rw [← hcode.since_eq]
  rfl

end Emit

end TypedStack
