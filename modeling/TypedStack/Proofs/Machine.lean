import Mathlib.Logic.Relation
import TypedStack.Proofs.StackEffect

/-! Machines that run code. What a machine makes of one instruction is left open; how it goes
from one to the next is not. A run through code put together from parts is put together from
runs through the parts. -/
namespace TypedStack

/-- What each instruction makes of a state: when the code goes on after it, and when it jumps. -/
structure Machine (σ : Type) where
  next : Instr → σ → σ → Prop
  jump : Instr → σ → σ → Prop

namespace Machine

variable {σ : Type} {M : Machine σ}

/-- One instruction of the code. States are paired with the position of the next instruction. -/
inductive Step (M : Machine σ) (code : List Instr) : Nat × σ → Nat × σ → Prop where
  | next {p i x y} : code[p]? = some i → i.continues → M.next i x y → Step M code (p, x) (p + 1, y)
  | jump {p i l q x y} : code[p]? = some i → i.target? = some l → code[q]? = some (.label l) →
    M.jump i x y → Step M code (p, x) (q, y)

def Reach (M : Machine σ) (code : List Instr) : Nat × σ → Nat × σ → Prop :=
  Relation.ReflTransGen (M.Step code)

def Runs (M : Machine σ) (code : List Instr) (x y : σ) : Prop :=
  M.Reach code (0, x) (code.length, y)

/-- No branch leads from the first piece of code into the second. -/
def KeepsOut (c c' : List Instr) : Prop := ∀ l ∈ targets c, l ∉ marks c'

variable {c c' : List Instr} {x y z : σ} {p n : Nat}

theorem keepsOut_label {l : Label} (h : l ∉ targets c) : KeepsOut c [.label l] := by
  intro k hk hm
  obtain rfl : k = l := by simpa using hm
  exact h hk

theorem label_left {code : List Instr} (h : KeepsOut code c') {i : Instr} {l : Label} {q : Nat}
    (hi : code[p]? = some i) (hl : i.target? = some l) (hq : (code ++ c')[q]? = some (.label l)) :
    code[q]? = some (.label l) := by
  have hn : l ∉ marks c' := h l (mem_targets (List.mem_of_getElem? hi) hl)
  rcases Nat.lt_or_ge q code.length with hlt | hge
  · rwa [List.getElem?_append_left hlt] at hq
  · rw [List.getElem?_append_right hge] at hq
    exact absurd (mem_marks.mpr (List.mem_of_getElem? hq)) hn

theorem label_right (h : KeepsOut c' c) {i : Instr} {l : Label} {q : Nat} (hi : c'[p]? = some i)
    (hl : i.target? = some l) (hq : (c ++ c')[q]? = some (.label l)) :
    ∃ k, q = c.length + k ∧ c'[k]? = some (.label l) := by
  have hn : l ∉ marks c := h l (mem_targets (List.mem_of_getElem? hi) hl)
  rcases Nat.lt_or_ge q c.length with hlt | hge
  · rw [List.getElem?_append_left hlt] at hq
    exact absurd (mem_marks.mpr (List.mem_of_getElem? hq)) hn
  · rw [List.getElem?_append_right hge] at hq
    exact ⟨q - c.length, by omega, hq⟩

/-- A run that starts in the first part and ends after it passes the end of that part. -/
theorem Reach.through (h : KeepsOut c c') (hr : M.Reach (c ++ c') (p, x) (n, z))
    (hp : p ≤ c.length) (hn : c.length ≤ n) :
    ∃ y, M.Reach c (p, x) (c.length, y) ∧ M.Reach (c ++ c') (c.length, y) (n, z) := by
  -- from the front, as only the start of the run is known to lie in the first part
  generalize hs : (p, x) = s at hr
  generalize ht : (n, z) = t at hr
  induction hr using Relation.ReflTransGen.head_induction_on generalizing p x with
  | refl =>
    cases hs.trans ht.symm
    cases ht
    obtain rfl : n = c.length := by omega
    exact ⟨z, .refl, .refl⟩
  | head hstep hrest ih =>
    subst hs
    rcases Nat.lt_or_ge p c.length with hlt | hge
    · cases hstep with
      | next hi hc hm =>
        rw [List.getElem?_append_left hlt] at hi
        obtain ⟨y, hy, hz⟩ := ih hlt rfl
        exact ⟨y, .head (.next hi hc hm) hy, hz⟩
      | jump hi hl hq hm =>
        rw [List.getElem?_append_left hlt] at hi
        have hq := label_left h hi hl hq
        obtain ⟨hqlt, -⟩ := List.getElem?_eq_some_iff.mp hq
        obtain ⟨y, hy, hz⟩ := ih (Nat.le_of_lt hqlt) rfl
        exact ⟨y, .head (.jump hi hl hq hm) hy, hz⟩
    · obtain rfl : p = c.length := by omega
      subst ht
      exact ⟨x, .refl, .head hstep hrest⟩

theorem Reach.drop (h : KeepsOut c' c) (hr : M.Reach (c ++ c') (c.length + p, x) (n, z)) :
    ∃ k, n = c.length + k ∧ M.Reach c' (p, x) (k, z) := by
  generalize hs : (c.length + p, x) = s at hr
  generalize ht : (n, z) = t at hr
  induction hr using Relation.ReflTransGen.head_induction_on generalizing p x with
  | refl =>
    cases hs.trans ht.symm
    exact ⟨p, rfl, .refl⟩
  | head hstep _ ih =>
    subst hs
    cases hstep with
    | next hi hc hm =>
      rw [List.getElem?_append_right (by omega), Nat.add_sub_cancel_left] at hi
      obtain ⟨k, hk, hr⟩ := ih (p := p + 1) (by rw [Nat.add_assoc])
      exact ⟨k, hk, .head (.next hi hc hm) hr⟩
    | jump hi hl hq hm =>
      rw [List.getElem?_append_right (by omega), Nat.add_sub_cancel_left] at hi
      obtain ⟨j, rfl, hj⟩ := label_right h hi hl hq
      obtain ⟨k, hk, hr⟩ := ih rfl
      exact ⟨k, hk, .head (.jump hi hl hj hm) hr⟩

theorem Reach.drop_runs (h : KeepsOut c' c)
    (hr : M.Reach (c ++ c') (c.length, x) ((c ++ c').length, z)) : M.Runs c' x z := by
  obtain ⟨k, hk, hr⟩ := Reach.drop (p := 0) h hr
  rw [List.length_append, Nat.add_left_cancel_iff] at hk
  rwa [Runs, hk]

theorem Runs.append (h : KeepsOut c c') (h' : KeepsOut c' c) (hr : M.Runs (c ++ c') x z) :
    ∃ y, M.Runs c x y ∧ M.Runs c' y z := by
  obtain ⟨y, hy, hz⟩ := Reach.through h hr (Nat.zero_le _) (by simp)
  exact ⟨y, hy, Reach.drop_runs h' hz⟩

theorem Reach.keeps {code : List Instr} {P : σ → Prop}
    (h : ∀ i ∈ code, ∀ x y, P x → M.next i x y ∨ M.jump i x y → P y) {a b : Nat × σ}
    (hr : M.Reach code a b) (ha : P a.2) : P b.2 := by
  induction hr with
  | refl => exact ha
  | tail _ hs ih =>
    cases hs with
    | next hi _ hm => exact h _ (List.mem_of_getElem? hi) _ _ ih (.inl hm)
    | jump hi _ _ hm => exact h _ (List.mem_of_getElem? hi) _ _ ih (.inr hm)

theorem Runs.nil (hr : M.Runs [] x z) : x = z := by
  rcases Relation.ReflTransGen.cases_head hr with h | ⟨s, hs, -⟩
  · exact congrArg Prod.snd h
  · cases hs <;> simp_all

theorem Runs.head {i : Instr} (hr : M.Runs (i :: c) x z) :
    (i.continues ∧ ∃ y, M.next i x y ∧ M.Reach (i :: c) (1, y) (c.length + 1, z)) ∨
    ∃ l q y, i.target? = some l ∧ (i :: c)[q]? = some (.label l) ∧ M.jump i x y ∧
      M.Reach (i :: c) (q, y) (c.length + 1, z) := by
  rcases Relation.ReflTransGen.cases_head hr with h | ⟨s, hs, hr⟩
  · simp at h
  · cases hs with
    | next hi hc hm =>
      obtain rfl : i = _ := by simpa using hi
      exact .inl ⟨hc, _, hm, hr⟩
    | jump hi hl hq hm =>
      obtain rfl : i = _ := by simpa using hi
      exact .inr ⟨_, _, _, hl, hq, hm, hr⟩

/-- Past its first instruction a run is a run of the rest, unless the rest leads back to it. -/
theorem Reach.tail_runs {i : Instr} (h : KeepsOut c [i])
    (hr : M.Reach (i :: c) (1, y) (c.length + 1, z)) : M.Runs c y z :=
  Reach.drop_runs (c := [i]) h (by simpa [Nat.add_comm] using hr)

theorem Runs.single {i : Instr} (hi : i.target? = none) (hr : M.Runs [i] x z) :
    i.continues ∧ M.next i x z := by
  rcases hr.head with ⟨hc, y, hm, hr⟩ | ⟨l, q, y, hl, -⟩
  · rw [← (Reach.tail_runs (by simp [KeepsOut]) hr).nil]
    exact ⟨hc, hm⟩
  · simp [hi] at hl

theorem Reach.landing {l : Label} {q : Nat} (hu : (marks (c ++ Instr.label l :: c')).Nodup)
    (h : KeepsOut c' c) (hq : (c ++ Instr.label l :: c')[q]? = some (.label l))
    (hr : M.Reach (c ++ Instr.label l :: c') (q, x) ((c ++ Instr.label l :: c').length, z)) :
    M.Runs (.label l :: c') x z := by
  obtain rfl : q = c.length := mark_unique hu hq (by simp)
  exact Reach.drop_runs h hr

theorem Runs.leave {l done : Label} {taken : List Instr}
    (hu : (marks (.br done :: .label l :: (taken ++ [Instr.label done]))).Nodup)
    (hr : M.Runs (.br done :: .label l :: (taken ++ [Instr.label done])) x z) :
    ∃ y, M.jump (.br done) x y ∧ M.next (.label done) y z := by
  rcases hr.head with ⟨hc, -⟩ | ⟨k, q, y, hk, hq, hm, hr⟩
  · cases hc
  · obtain rfl : done = k := Option.some.inj hk
    have hr : M.Runs [.label done] y z :=
      Reach.landing (c := .br done :: .label l :: taken) hu (by simp [KeepsOut]) hq
        (by simpa using hr)
    exact ⟨y, hm, (hr.single rfl).2⟩

theorem Runs.enter {l done : Label} {taken : List Instr} (hl : l ∉ targets taken)
    (hd : done ∉ targets taken) (hr : M.Runs (.label l :: (taken ++ [Instr.label done])) x z) :
    ∃ y w, M.next (.label l) x y ∧ M.Runs taken y w ∧ M.next (.label done) w z := by
  rcases hr.head with ⟨-, y, hm, hr⟩ | ⟨k, q, y, hk, -⟩
  · have hr := Reach.tail_runs (keepsOut_label (by simpa using hl)) hr
    obtain ⟨w, hw, hz⟩ := Runs.append (keepsOut_label hd) (by simp [KeepsOut]) hr
    exact ⟨y, w, hm, hw, (hz.single rfl).2⟩
  · cases hk

/-! ### Runs put together -/

section Composition

variable {s t : Nat × σ} {u v w : σ} {l done : Label} {test other taken : List Instr} {k : Nat}

theorem Step.left {code : List Instr} (h : M.Step code s t) (c' : List Instr) :
    M.Step (code ++ c') s t := by
  have keep {p : Nat} {i : Instr} (hi : code[p]? = some i) : (code ++ c')[p]? = some i := by
    rwa [List.getElem?_append_left (List.getElem?_eq_some_iff.mp hi).1]
  cases h with
  | next hi hc hm => exact .next (keep hi) hc hm
  | jump hi hl hq hm => exact .jump (keep hi) hl (keep hq) hm

theorem Step.right (c : List Instr) (h : M.Step c' s t) :
    M.Step (c ++ c') (c.length + s.1, s.2) (c.length + t.1, t.2) := by
  have keep {p : Nat} {i : Instr} (hi : c'[p]? = some i) :
      (c ++ c')[c.length + p]? = some i := by
    rwa [List.getElem?_append_right (Nat.le_add_right _ _), Nat.add_sub_cancel_left]
  cases h with
  | next hi hc hm => exact .next (keep hi) hc hm
  | jump hi hl hq hm => exact .jump (keep hi) hl (keep hq) hm

theorem Reach.left (h : M.Reach c s t) (c' : List Instr) : M.Reach (c ++ c') s t :=
  Relation.ReflTransGen.mono (fun _ _ hstep => Step.left hstep c') _ _ h

theorem Reach.right (c : List Instr) (h : M.Reach c' s t) :
    M.Reach (c ++ c') (c.length + s.1, s.2) (c.length + t.1, t.2) := by
  induction h with
  | refl => exact .refl
  | tail _ hstep ih => exact ih.tail (Step.right c hstep)

/-- What is reached in the second part is reached after a run through the first. -/
theorem Reach.after (hr : M.Runs c x y) (h : M.Reach c' (0, y) (k, z)) :
    M.Reach (c ++ c') (0, x) (c.length + k, z) := (hr.left c').trans (h.right c)

theorem Runs.refl (M : Machine σ) (x : σ) : M.Runs [] x x := Relation.ReflTransGen.refl

theorem Runs.concat (hr : M.Runs c x y) (h : M.Runs c' y z) : M.Runs (c ++ c') x z := by
  rw [Runs, List.length_append]
  exact Reach.after hr h

theorem Runs.one {i : Instr} (hc : i.continues) (hm : M.next i x y) : M.Runs [i] x y :=
  Relation.ReflTransGen.single (.next rfl hc hm)

theorem Runs.choice_other (ht : M.Runs test x y) (hn : M.next (.brtrue l) y u)
    (ho : M.Runs other u v) (hj : M.jump (.br done) v w) (hd : M.next (.label done) w z) :
    M.Runs (choice l done test other taken) x z := by
  have hpast : M.Runs (.br done :: .label l :: (taken ++ [Instr.label done])) v z := by
    have hmark : (Instr.br done :: .label l :: (taken ++ [Instr.label done]))[taken.length + 2]? =
        some (.label done) := by simp
    have hreach : M.Reach (.br done :: .label l :: (taken ++ [Instr.label done])) (0, v)
        (taken.length + 3, z) := .head (.jump rfl rfl hmark hj) (.single (.next hmark rfl hd))
    simpa [Runs, Nat.add_assoc] using hreach
  exact ht.concat (Runs.concat (c := [_]) (.one rfl hn) (ho.concat hpast))

theorem Reach.choice_enter (ht : M.Runs test x y) (hj : M.jump (.brtrue l) y u)
    (hl : M.next (.label l) u v) :
    M.Reach (choice l done test other taken) (0, x)
      ((test ++ Instr.brtrue l :: (other ++ [Instr.br done, Instr.label l])).length, v) := by
  have hrest : M.Reach
      (.brtrue l :: (other ++ Instr.br done :: .label l :: (taken ++ [Instr.label done])))
      (0, y) (other.length + 3, v) := by
    have hmark : (Instr.brtrue l :: (other ++ Instr.br done :: .label l ::
        (taken ++ [Instr.label done])))[other.length + 2]? = some (.label l) := by simp
    exact .head (.jump rfl rfl hmark hj) (.single (.next hmark rfl hl))
  simpa [choice, Nat.add_assoc] using Reach.after ht hrest

theorem choice_eq (l done : Label) (test other taken : List Instr) :
    choice l done test other taken =
      (test ++ Instr.brtrue l :: (other ++ [Instr.br done, .label l])) ++
        (taken ++ [Instr.label done]) := by
  simp [choice]

theorem Runs.choice_taken (ht : M.Runs test x y) (hj : M.jump (.brtrue l) y u)
    (hl : M.next (.label l) u v) (hk : M.Runs taken v w) (hd : M.next (.label done) w z) :
    M.Runs (choice l done test other taken) x z := by
  have henter : M.Reach (choice l done test other taken) (0, x) _ := .choice_enter ht hj hl
  have hside := Reach.right (test ++ Instr.brtrue l :: (other ++ [Instr.br done, .label l]))
    (hk.concat (.one rfl hd))
  rw [choice_eq] at henter
  rw [choice_eq, Runs, List.length_append]
  exact henter.trans hside

/-- A run comes to an instruction that the machine cannot make its next step from. -/
def Faults (M : Machine σ) (bad : Instr → σ → Prop) (code : List Instr) (x y : σ) : Prop :=
  ∃ k i, code[k]? = some i ∧ bad i y ∧ M.Reach code (0, x) (k, y)

variable {bad : Instr → σ → Prop}

theorem Faults.left (h : M.Faults bad c x y) (c' : List Instr) : M.Faults bad (c ++ c') x y := by
  obtain ⟨k, i, hi, hb, hr⟩ := h
  refine ⟨k, i, ?_, hb, hr.left c'⟩
  rwa [List.getElem?_append_left (List.getElem?_eq_some_iff.mp hi).1]

theorem Faults.right (c : List Instr) {p : Nat} (hp : p = c.length)
    (hr : M.Reach (c ++ c') (0, x) (p, y)) (h : M.Faults bad c' y z) :
    M.Faults bad (c ++ c') x z := by
  obtain ⟨k, i, hi, hb, hk⟩ := h
  refine ⟨c.length + k, i, ?_, hb, ?_⟩
  · rwa [List.getElem?_append_right (Nat.le_add_right _ _), Nat.add_sub_cancel_left]
  · exact (hp ▸ hr).trans (hk.right c)

theorem Faults.after (hr : M.Runs c x y) (h : M.Faults bad c' y z) :
    M.Faults bad (c ++ c') x z := h.right c rfl (hr.left c')

theorem Faults.choice_test (h : M.Faults bad test x y) :
    M.Faults bad (choice l done test other taken) x y := h.left _

theorem Faults.choice_other (ht : M.Runs test x y) (hn : M.next (.brtrue l) y u)
    (h : M.Faults bad other u v) : M.Faults bad (choice l done test other taken) x v :=
  .after ht (.after (c := [_]) (.one rfl hn) (h.left _))

theorem Faults.choice_taken (ht : M.Runs test x y) (hj : M.jump (.brtrue l) y u)
    (hl : M.next (.label l) u v) (h : M.Faults bad taken v w) :
    M.Faults bad (choice l done test other taken) x w := by
  have henter : M.Reach (choice l done test other taken) (0, x) _ := .choice_enter ht hj hl
  rw [choice_eq] at henter ⊢
  exact .right _ rfl henter (h.left _)

end Composition

/-! ### Where runs end -/

/-- However the code is run from a state on, the run ends, and ends there. -/
inductive Ends (M : Machine σ) (code : List Instr) (t : Nat × σ) : Nat × σ → Prop where
  | stop : (∀ u, ¬M.Step code t u) → Ends M code t t
  | step {s u} : M.Step code s u → (∀ v, M.Step code s v → Ends M code t v) → Ends M code t s

/-- In each state an instruction does one thing at most. -/
structure Deterministic (M : Machine σ) : Prop where
  next : ∀ {i x y z}, M.next i x y → M.next i x z → y = z
  jump : ∀ {i x y z}, M.jump i x y → M.jump i x z → y = z
  either : ∀ {i x y z}, M.next i x y → ¬M.jump i x z

/-- With one place for each label there is one way to go on. -/
theorem Deterministic.step (hM : M.Deterministic) {code : List Instr} (hu : (marks code).Nodup)
    {s t t' : Nat × σ} (h : M.Step code s t) (h' : M.Step code s t') : t = t' := by
  cases h with
  | next hi hc hm =>
    cases h' with
    | next hi' hc' hm' =>
      obtain rfl := Option.some.inj (hi.symm.trans hi')
      rw [hM.next hm hm']
    | jump hi' hl hq hm' =>
      obtain rfl := Option.some.inj (hi.symm.trans hi')
      exact absurd hm' (hM.either hm)
  | jump hi hl hq hm =>
    cases h' with
    | next hi' hc' hm' =>
      obtain rfl := Option.some.inj (hi.symm.trans hi')
      exact absurd hm (hM.either hm')
    | jump hi' hl' hq' hm' =>
      obtain rfl := Option.some.inj (hi.symm.trans hi')
      obtain rfl := Option.some.inj (hl.symm.trans hl')
      rw [hM.jump hm hm', mark_unique hu hq hq']

theorem Reach.ends (hM : M.Deterministic) {code : List Instr} (hu : (marks code).Nodup)
    {s t : Nat × σ} (h : M.Reach code s t) (ht : ∀ u, ¬M.Step code t u) : M.Ends code t s := by
  induction h using Relation.ReflTransGen.head_induction_on with
  | refl => exact .stop ht
  | head hstep _ ih =>
    refine .step hstep fun v hv => ?_
    rwa [← hM.step hu hstep hv]

end Machine

namespace Block

open Machine

variable {σ : Type} {M : Machine σ} {a b d : Nat} {c c' : List Instr}

theorem mark_range (h : Block a c b) : ∀ l ∈ marks c, a ≤ l.id ∧ l.id < b :=
  fun _ hl => h.label_range (mem_labels_of_mark hl)

theorem target_range (h : Block a c b) : ∀ l ∈ targets c, a ≤ l.id ∧ l.id < b :=
  fun _ hl => h.label_range (mem_labels_of_target hl)

/-- Code with labels of its own has no branches to elsewhere. -/
theorem keepsOut_of_lt (h : Block a c b) (hl : ∀ l ∈ marks c', l.id < a ∨ b ≤ l.id) :
    KeepsOut c c' := by
  intro l ht hm
  have hr := h.label_range (mem_labels_of_target ht)
  have := hl l hm
  omega

theorem runs_append (h : Block a c b) (h' : Block b c' d) {x z : σ} (hr : M.Runs (c ++ c') x z) :
    ∃ y, M.Runs c x y ∧ M.Runs c' y z := by
  have hright : KeepsOut c c' := by
    apply h.keepsOut_of_lt
    intro l hl
    exact .inr (h'.label_range (mem_labels_of_mark hl)).1
  have hleft : KeepsOut c' c := by
    apply h'.keepsOut_of_lt
    intro l hl
    exact .inl (h.label_range (mem_labels_of_mark hl)).2
  exact Runs.append hright hleft hr

/-- A run through a choice runs the test and then one of the two sides. -/
theorem runs_choice {e f g : Nat} {test other taken : List Instr} (ht : Block (a + 2) test e)
    (ho : Block e other f) (hk : Block f taken g) {x z : σ}
    (hr : M.Runs (choice ⟨a⟩ ⟨a + 1⟩ test other taken) x z) :
    ∃ y, M.Runs test x y ∧
      ((∃ u v w, M.next (.brtrue ⟨a⟩) y u ∧ M.Runs other u v ∧ M.jump (.br ⟨a + 1⟩) v w ∧
        M.next (.label ⟨a + 1⟩) w z) ∨
      (∃ u v w, M.jump (.brtrue ⟨a⟩) y u ∧ M.next (.label ⟨a⟩) u v ∧ M.Runs taken v w ∧
        M.next (.label ⟨a + 1⟩) w z)) := by
  have hte := ht.le
  have hof := ho.le
  have htm := ht.mark_range
  have htt := ht.target_range
  have hom := ho.mark_range
  have hot := ho.target_range
  have hkm := hk.mark_range
  have hkt := hk.target_range
  have hu := (Block.branch ht ho hk).marks_nodup
  unfold choice at hr hu
  obtain ⟨y, hy, hr⟩ := Runs.append (by simp [KeepsOut]; grind) (by simp [KeepsOut]; grind) hr
  refine ⟨y, hy, ?_⟩
  rw [marks_append, List.nodup_append] at hu
  have hu := hu.2.1
  -- the test falls through to the first side or jumps to the second
  rcases hr.head with ⟨-, u, hm, hr⟩ | ⟨l, q, u, hl, hq, hm, hr⟩
  · have hr := Reach.tail_runs (by simp [KeepsOut]) hr
    obtain ⟨v, hv, hr⟩ := Runs.append (by simp [KeepsOut]; grind) (by simp [KeepsOut]; grind) hr
    rw [marks_brtrue, marks_append, List.nodup_append] at hu
    obtain ⟨w, hw, hz⟩ := hr.leave hu.2.1
    exact .inl ⟨u, v, w, hm, hv, hw, hz⟩
  · obtain rfl : ⟨a⟩ = l := Option.some.inj hl
    have hr : M.Runs (.label ⟨a⟩ :: (taken ++ [Instr.label ⟨a + 1⟩])) u z :=
      Reach.landing (c := .brtrue ⟨a⟩ :: (other ++ [Instr.br ⟨a + 1⟩])) (by simpa using hu)
        (by simp [KeepsOut]; grind) (by simpa using hq) (by simpa using hr)
    obtain ⟨v, w, hv, hw, hz⟩ := hr.enter (by grind) (by grind)
    exact .inr ⟨u, v, w, hm, hv, hw, hz⟩

end Block

end TypedStack
