import TypedStack.Proofs.Balance
import TypedStack.Proofs.Evaluation

/-! Emitted code means what the expression means. Evaluation and code are compared step by step:
where the one returns, the other runs to its end, and where the one overflows, so does the other,
with the same variables written. -/
namespace TypedStack

variable {W : WordSize} {α β γ δ ε : Type} {L : Layout} {inp : List (Word W)}

/-- Run on top of these words, the code does what the evaluation does, and leaves words as said. -/
structure Layout.Realizes (L : Layout) (inp : List (Word W)) (code : List Instr) (n : Eval γ)
    (post : γ → List (Word W) → Prop) : Prop where
  returns : ∀ ⦃σ σ' a x st⦄, n σ = .ok a σ' → L.Reflects σ x → x.stack = inp ++ st →
    ∃ y out, (Cpu.machine W).Runs code x y ∧ y.stack = out ++ st ∧ post a out ∧
      L.Follows σ x σ' y
  stops : ∀ ⦃σ σ' halt x st⦄, n σ = .error halt σ' → L.Reflects σ x → x.stack = inp ++ st →
    halt = .overflow ∧ ∃ y, (Cpu.machine W).Faults Cpu.Overflows code x y ∧ L.Follows σ x σ' y

namespace Layout.Realizes

variable {c c' : List Instr} {n : Eval γ} {k : γ → Eval δ} {mid : γ → List (Word W) → Prop}
  {post : δ → List (Word W) → Prop}

theorem append (h : L.Realizes inp c n mid)
    (h' : ∀ a out, mid a out → L.Realizes out c' (k a) post) :
    L.Realizes inp (c ++ c') (n >>= k) post := by
  constructor
  · intro σ σ' b x st hn hx hst
    cases hσ : n σ with
    | ok a τ =>
      rw [Eval.bind_of_ok hσ] at hn
      obtain ⟨y, out, hy, hout, hmid, hxy⟩ := h.returns hσ hx hst
      obtain ⟨z, out', hz, hout', hpost, hyz⟩ := (h' a out hmid).returns hn hxy.toReflects hout
      exact ⟨z, out', hy.concat hz, hout', hpost, hxy.trans hyz⟩
    | error halt τ =>
      rw [Eval.bind_of_error hσ] at hn
      cases hn
  · intro σ σ' halt x st hn hx hst
    cases hσ : n σ with
    | ok a τ =>
      rw [Eval.bind_of_ok hσ] at hn
      obtain ⟨y, out, hy, hout, hmid, hxy⟩ := h.returns hσ hx hst
      obtain ⟨ho, z, hz, hyz⟩ := (h' a out hmid).stops hn hxy.toReflects hout
      exact ⟨ho, z, .after hy hz, hxy.trans hyz⟩
    | error halt' τ =>
      rw [Eval.bind_of_error hσ] at hn
      cases hn
      obtain ⟨ho, y, hy, hxy⟩ := h.stops hσ hx hst
      exact ⟨ho, y, hy.left c', hxy⟩

end Layout.Realizes

/-- A number of the type, on the stack if it is used. -/
def Prim.Leaves (p : Prim) (used : Bool) (z : Int) (out : List (Word W)) : Prop :=
  p.InRange W z ∧ out = if used then [.ofInt p z] else []

namespace Layout.Realizes

variable {test other taken : List Instr} {nt : Eval Int} {no nk : Eval γ}
  {post : γ → List (Word W) → Prop} {l done : Label}

theorem bool_cases {z : Int} (h : Prim.bool.InRange W z) :
    (z = 0 ∧ ((Word.ofInt .bool z : Word W).value != 0) = false) ∨
    (z ≠ 0 ∧ ((Word.ofInt .bool z : Word W).value != 0) = true) := by
  obtain rfl | rfl : z = 0 ∨ z = 1 := by
    have hlow : 0 ≤ z := h.1
    have hhigh : z < 0 + 2 := h.2
    omega
  · exact .inl ⟨rfl, rfl⟩
  · exact .inr ⟨by decide, rfl⟩

theorem fork (ht : L.Realizes ([] : List (Word W)) test nt (Prim.Leaves .bool true)) {σ τ : Store}
    {z : Int} {x : Cpu W} (hσ : nt σ = .ok z τ) (hx : L.Reflects σ x) (l : Label) :
    ∃ y u, (Cpu.machine W).Runs test x y ∧ u.stack = x.stack ∧ L.Follows σ x τ u ∧
      ((z = 0 ∧ (Cpu.machine W).next (.brtrue l) y u) ∨
        (z ≠ 0 ∧ (Cpu.machine W).jump (.brtrue l) y u)) := by
  obtain ⟨y, out, hy, hout, ⟨hz, rfl⟩, hxy⟩ := ht.returns hσ hx rfl
  have hbr := Cpu.exec_brtrue l hout
  refine ⟨y, { y with stack := x.stack }, hy, rfl, hxy.trans (hxy.toReflects.follows rfl), ?_⟩
  rcases bool_cases hz with ⟨h, hv⟩ | ⟨h, hv⟩
  · rw [hv] at hbr
    exact .inl ⟨h, hbr⟩
  · rw [hv] at hbr
    exact .inr ⟨h, hbr⟩

/-- A choice does what the side does that the test is for. -/
theorem choice (ht : L.Realizes ([] : List (Word W)) test nt (Prim.Leaves .bool true))
    (ho : L.Realizes [] other no post) (hk : L.Realizes [] taken nk post) :
    L.Realizes [] (choice l done test other taken)
      (nt >>= fun z => if z = 0 then no else nk) post := by
  constructor
  · intro σ σ' a x st hn hx hst
    cases hσ : nt σ with
    | error halt τ =>
      rw [Eval.bind_of_error hσ] at hn
      cases hn
    | ok z τ =>
      rw [Eval.bind_of_ok hσ] at hn
      obtain ⟨y, u, hy, hu, hxu, ⟨hz, hnext⟩ | ⟨hz, hjump⟩⟩ := ht.fork hσ hx l
      · rw [if_pos hz] at hn
        obtain ⟨w, out, hw, hout, hpost, huw⟩ := ho.returns hn hxu.toReflects (hu.trans hst)
        exact ⟨w, out, .choice_other hy hnext hw rfl rfl, hout, hpost, hxu.trans huw⟩
      · rw [if_neg hz] at hn
        obtain ⟨w, out, hw, hout, hpost, huw⟩ := hk.returns hn hxu.toReflects (hu.trans hst)
        exact ⟨w, out, .choice_taken hy hjump rfl hw rfl, hout, hpost, hxu.trans huw⟩
  · intro σ σ' halt x st hn hx hst
    cases hσ : nt σ with
    | error halt' τ =>
      rw [Eval.bind_of_error hσ] at hn
      cases hn
      obtain ⟨hov, y, hy, hxy⟩ := ht.stops hσ hx hst
      exact ⟨hov, y, .choice_test hy, hxy⟩
    | ok z τ =>
      rw [Eval.bind_of_ok hσ] at hn
      obtain ⟨y, u, hy, hu, hxu, ⟨hz, hnext⟩ | ⟨hz, hjump⟩⟩ := ht.fork hσ hx l
      · rw [if_pos hz] at hn
        obtain ⟨hov, w, hw, huw⟩ := ho.stops hn hxu.toReflects (hu.trans hst)
        exact ⟨hov, w, .choice_other hy hnext hw, hxu.trans huw⟩
      · rw [if_neg hz] at hn
        obtain ⟨hov, w, hw, huw⟩ := hk.stops hn hxu.toReflects (hu.trans hst)
        exact ⟨hov, w, .choice_taken hy hjump rfl hw, hxu.trans huw⟩

end Layout.Realizes

namespace Emit

variable {env : Env}

/-- Emission and evaluation side by side. The evaluation starts from something known about the
words on top, which are from the steps before; the code that is emitted does not depend on it. -/
structure Performs (env : Env) (L : Layout) (pre : γ → List (Word W) → Prop) (m : Emit α)
    (n : γ → Eval δ) (post : α → δ → List (Word W) → Prop) : Prop where
  emits : Emitted env m
  realizes : ∀ ⦃s a t c⦄, m s = .ok a t → t.slots.Grows L.slots → s.stream.Adds t.stream c →
    ∀ ⦃g inp⦄, pre g inp → L.Realizes inp c (n g) (post a)

namespace Performs

variable {pre : γ → List (Word W) → Prop} {n : γ → Eval δ} {post : α → δ → List (Word W) → Prop}

theorem conseq {m : Emit α} (h : Performs env L pre m n post) {pre' : ε → List (Word W) → Prop}
    {n' : ε → Eval δ} {f : ε → γ} {post' : α → δ → List (Word W) → Prop}
    (hpre : ∀ g out, pre' g out → pre (f g) out) (hn : ∀ g, n' g = n (f g))
    (hpost : ∀ a d out, post a d out → post' a d out) : Performs env L pre' m n' post' := by
  refine ⟨h.emits, fun s a t c hm hg hc g inp hp => ?_⟩
  have hr := h.realizes hm hg hc (hpre g inp hp)
  rw [hn]
  constructor
  · intro σ σ' d x st hd hx hst
    obtain ⟨y, out, hy, hout, hq, hf⟩ := hr.returns hd hx hst
    exact ⟨y, out, hy, hout, hpost a d out hq, hf⟩
  · exact hr.stops

theorem still (own : List Slot) {c : Script} {m : Emit α} {left : α → List Slot}
    (he : Runs env .any own c m left)
    (hs : ∀ {s a t}, m s = .ok a t → t.stream.code = s.stream.code)
    (h : ∀ {s a t}, m s = .ok a t → t.slots.Grows L.slots → ∀ {g inp σ} {x : Cpu W}, pre g inp →
      L.Reflects σ x → ∃ d, n g σ = .ok d σ ∧ post a d inp) :
    Performs env L pre m n post := by
  refine ⟨.of he, fun s a t c hm hg hc g inp hp => ?_⟩
  obtain rfl : c = [] := by
    rw [Stream.Adds, hs hm] at hc
    simpa using hc
  constructor
  · intro σ σ' d x st hd hx hst
    obtain ⟨d', hd', hq⟩ := h hm hg hp hx
    cases hd'.symm.trans hd
    exact ⟨x, inp, .refl _ x, hst, hq, hx.follows rfl⟩
  · intro σ σ' halt x st hd hx _
    obtain ⟨d', hd', -⟩ := h hm hg hp hx
    cases hd'.symm.trans hd

theorem fail (fault : Fault) (span : Span) :
    Performs env L pre (fail fault span : Emit α) n post :=
  ⟨Runs.fail trivial span, fun _ _ _ _ hm => absurd hm fail_not_ok⟩

theorem bind {m : Emit α} {k : α → Emit β} {l : δ → Eval ε}
    {post' : β → ε → List (Word W) → Prop} (hm : Performs env L pre m n post)
    (hk : ∀ a, Performs env L (post a) (k a) l post') :
    Performs env L pre (m >>= k) (fun g => n g >>= l) post' := by
  refine ⟨hm.emits.bind_of fun _ a _ _ => (hk a).emits, fun s b u c h hg hc g inp hp => ?_⟩
  obtain ⟨a, t, hmt, hkt⟩ := bind_ok h
  obtain ⟨c₁, hc₁, -⟩ := (hm.emits True).adds_block hmt
  obtain ⟨c₂, hc₂, -⟩ := ((hk a).emits True).adds_block hkt
  obtain rfl := hc.unique (hc₁.trans hc₂)
  have hgrow := (((hk a).emits True).slots_grow hkt).trans hg
  exact (hm.realizes hmt hgrow hc₁ hp).append fun d out hq => (hk a).realizes hkt hg hc₂ hq

/-- What comes first is no step of the evaluation. -/
theorem before {m : Emit α} {k : α → Emit β} {mid : α → γ → List (Word W) → Prop}
    {post' : β → δ → List (Word W) → Prop} (hm : Performs env L pre m Pure.pure mid)
    (hk : ∀ a, Performs env L (mid a) (k a) n post') : Performs env L pre (m >>= k) n post' :=
  (hm.bind hk).conseq (f := id) (fun _ _ h => h) (fun _ => (pure_bind _ _).symm)
    fun _ _ _ h => h

/-- What comes last is no step of the evaluation. -/
theorem after {m : Emit α} {k : α → Emit β} {post' : β → δ → List (Word W) → Prop}
    (hm : Performs env L pre m n post) (hk : ∀ a, Performs env L (post a) (k a) Pure.pure post') :
    Performs env L pre (m >>= k) n post' :=
  (hm.bind hk).conseq (f := id) (fun _ _ h => h) (fun _ => (bind_pure _).symm) fun _ _ _ h => h

theorem pure {a : α} {f : γ → δ} (h : ∀ g inp, pre g inp → post a (f g) inp) :
    Performs env L pre (Pure.pure a : Emit α) (fun g => Pure.pure (f g)) post := by
  refine still [] (.done a) (fun hm => ?_) fun hm _ g inp σ x hp _ => ⟨f g, rfl, ?_⟩
  · rw [(pure_ok.mp hm).2]
  · obtain ⟨rfl, -⟩ := pure_ok.mp hm
    exact h g inp hp

theorem ensure (c : Bool) (fault : Fault) (span : Span) :
    Performs env L pre (ensure c fault span) Pure.pure fun _ => pre := by
  cases c with
  | false => exact .fail fault span
  | true => exact .pure (f := id) fun _ _ hp => hp

theorem forM_list {f : β → Emit Unit} {xs : List β}
    (h : ∀ x ∈ xs, Performs env L pre (f x) Pure.pure fun _ => pre) :
    Performs env L pre (xs.forM f) Pure.pure fun _ => pre := by
  induction xs with
  | nil => exact .pure (f := id) fun _ _ hp => hp
  | cons x xs ih =>
    refine (h x List.mem_cons_self).before fun _ => ?_
    exact ih fun y hy => h y (List.mem_cons_of_mem x hy)

/-- Something known about the emission alone. -/
theorem assuming {m : Emit α} {φ : Prop} (he : Emitted env m)
    (h : φ → Performs env L pre m n post) :
    Performs env L (fun g inp => pre g inp ∧ φ) m n post :=
  ⟨he, fun _ _ _ _ hm hg hc _ _ hp => (h hp.2).realizes hm hg hc hp.1⟩

theorem instr {i : Instr} (hi : i.isOrdinary) (hc : i.continues)
    {post : Unit → δ → List (Word W) → Prop}
    (h : ∀ {g inp σ} {x : Cpu W} {st}, pre g inp → L.Reflects σ x → x.stack = inp ++ st →
      ∃ d σ' y out, n g σ = .ok d σ' ∧ x.exec i = .ok (y, false) ∧ y.stack = out ++ st ∧
        post () d out ∧ L.Follows σ x σ' y) : Performs env L pre (Emit.instr i) n post := by
  refine ⟨.instr hi, fun s a t c hm _ hadds g inp hp => ?_⟩
  obtain rfl := instr_ok.mp hm
  obtain rfl := hadds.unique (.emit s.stream i)
  constructor
  · intro σ σ' d x st hd hx hst
    obtain ⟨d', τ, y, out, hd', hexec, hout, hq, hf⟩ := h hp hx hst
    cases hd'.symm.trans hd
    exact ⟨y, out, .one hc hexec, hout, hq, hf⟩
  · intro σ σ' halt x st hd hx hst
    obtain ⟨d', τ, y, out, hd', -⟩ := h hp hx hst
    exact nomatch hd'.symm.trans hd

theorem shuffle {i : Instr} (hi : i.isOrdinary) (hc : i.continues)
    {post : Unit → γ → List (Word W) → Prop}
    (h : ∀ {g inp} {x : Cpu W} {st}, pre g inp → x.stack = inp ++ st →
      ∃ y out, x.exec i = .ok (y, false) ∧ y.cells = x.cells ∧ y.stack = out ++ st ∧
        post () g out) : Performs env L pre (Emit.instr i) Pure.pure post := by
  refine instr hi hc fun {g inp σ x st} hp hx hst => ?_
  obtain ⟨y, out, hexec, hcells, hout, hq⟩ := h hp hst
  exact ⟨g, σ, y, out, rfl, hexec, hout, hq, hx.follows hcells⟩

theorem define {l : Local} (hl : env.isResident l.id = false) :
    Performs env L pre (define l) Pure.pure fun s g inp =>
      pre g inp ∧ L.cell? (.localVar l.id) = some (.slot s) := by
  refine still [] (.define hl) (by rintro s a t ⟨⟩; rfl) ?_
  rintro s a t ⟨⟩ hg g inp σ x hp -
  refine ⟨g, rfl, hp, ?_⟩
  rw [Layout.cell?, hg.slotOf _ _ (s.slots.define_slotOf l)]
  rfl

end Performs

/-- There is nothing from before. -/
def Alone (_ : Unit) (inp : List (Word W)) : Prop := inp = []

/-- The value of an expression of this type, emitted with or without a use for it. -/
def Computes (W : WordSize) (env : Env) (L : Layout) (p : Prim) (value : Bool → Emit Unit)
    (n : Eval Int) : Prop :=
  ∀ used, Performs env L (Alone (W := W)) (value used) (fun _ => n) fun _ => p.Leaves used

namespace Performs

variable {p q : Prim} {n : Eval Int}

/-! ### Constants and variables -/

/-- What only reads is left out where it is not used. -/
theorem when {m : Emit Unit}
    (h : Performs env L Alone m (fun _ => n) fun _ => p.Leaves (W := W) true)
    (hn : ∀ {σ} {x : Cpu W}, L.Reflects σ x → ∃ z, n σ = .ok z σ ∧ p.InRange W z) :
    Computes W env L p (fun used => when used m) n := by
  intro used
  cases used with
  | true => exact h
  | false =>
    refine still [] (.done ()) (fun hm => by rw [(pure_ok.mp hm).2]) fun _ _ g inp σ x hp hx => ?_
    obtain ⟨z, hz, hr⟩ := hn hx
    exact ⟨z, hz, hr, hp⟩

theorem push {i : Instr} (hi : i.isOrdinary) (hc : i.continues) {z : Int} (hz : p.InRange W z)
    (h : ∀ x : Cpu W, x.exec i = .ok ({ x with stack := .ofInt p z :: x.stack }, false)) :
    Performs env L (Alone (W := W)) (Emit.instr i) (fun _ => Pure.pure z) fun _ =>
      p.Leaves true := by
  refine instr hi hc fun {g inp σ x st} hp hx hst => ?_
  obtain rfl : inp = [] := hp
  exact ⟨z, σ, _, [.ofInt p z], rfl, h x, by simpa using hst, ⟨hz, rfl⟩, hx.follows rfl⟩

theorem constant {c : Constant} {ty : Ty} {z : Int} (hz : c.number? = some z)
    (hty : ty.primitive? = some p) (hf : p.isFixed = true) (hr : p.InRange W z) (span : Span) :
    Performs env L (Alone (W := W)) (constant c ty span) (fun _ => Pure.pure z) fun _ =>
      p.Leaves true := by
  have hc : Emit.constant c ty span = integral c (c.integral?.getD 0) ty span := by
    cases c <;> first | rfl | cases hz
  obtain ⟨v, hv, hvz⟩ := Constant.integral_number hz
  have wide (hk : p.kind = .int64) :
      Performs env L (Alone (W := W)) (Emit.instr (.ldcI8 v)) (fun _ => Pure.pure z) fun _ =>
        p.Leaves true := by
    refine push rfl rfl hr fun x => ?_
    rw [Word.ofInt_eq_mk hk (v := v.toBitVec) hvz]
    rfl
  have narrow (hk : p.kind = .int32) {v : Int32} (hv : c.immediate? = some v) :
      Performs env L (Alone (W := W)) (Emit.int v) (fun _ => Pure.pure z) fun _ =>
        p.Leaves true := by
    refine push rfl rfl hr fun x => ?_
    rw [Word.ofInt_eq_mk hk (v := v.toBitVec) (Constant.immediate_number hz hv)]
    rfl
  rw [hc, hv, Option.getD_some]
  unfold integral
  rw [hty, Option.getD_some]
  cases p with
  | nint | nuint | f32 | f64 => cases hf
  | i64 | u64 => exact wide rfl
  | _ =>
    dsimp only
    split
    · exact narrow rfl ‹_›
    · exact fail _ _

variable {v : Variable} {cell : Cell}

theorem load (cell : Cell) (ht : L.types v = some p) (hc : L.cell? v = some cell) :
    Performs env L (Alone (W := W)) (Emit.instr (cell.access .load)) (fun _ => .read (some v))
      fun _ => p.Leaves true := by
  refine instr (by cases cell <;> rfl) (by cases cell <;> rfl) fun {g inp σ x st} hp hx hst => ?_
  obtain rfl : inp = [] := hp
  refine ⟨σ v, σ, x.load cell, [.ofInt p (σ v)], rfl, x.exec_load cell, ?_,
    ⟨hx.inRange v p ht, rfl⟩, hx.follows rfl⟩
  rw [Cpu.load, hst, hx.cells v p cell ht hc]
  rfl

theorem named {e : Expr} (hv : e.names? env = some v) (ht : L.types v = some p)
    (hc : e.constant = none) : Computes W env L p (e.plan env).value (.read (some v)) := by
  have reads {σ : Store} {x : Cpu W} (hx : L.Reflects σ x) :
      ∃ z, Eval.read (some v) σ = .ok z σ ∧ p.InRange W z := ⟨σ v, rfl, hx.inRange v p ht⟩
  rcases Expr.names_cases hv with
    ⟨i, l, rfl, hm, hres, rfl⟩ | ⟨i, a, rfl, hm, rfl⟩ | ⟨i, r, f, b, rfl, hs, hm, rfl⟩
  · have hvalue : ((Expr.localVar i l).plan env).value = fun used =>
        Emit.when used (Emit.define l >>= fun s => Emit.instr (.slot .load s)) := by
      funext used
      have hc : i.constant = none := hc
      simp [Expr.plan, Plan.assignable, Plan.make, valueOf, Expr.info, hc, localLoad, pushLocal,
        hres, hm, Emit.when]
    rw [hvalue]
    refine when ((define hres).before fun s => ?_) reads
    exact assuming (.instr rfl) fun hcell => load (.slot s) ht hcell
  · have hvalue : ((Expr.param i a).plan env).value = fun used =>
        Emit.when used (numbered env a >>= fun _ =>
          Emit.instr (.arg .load (env.method.argument a))) := by
      funext used
      have hc : i.constant = none := hc
      simp [Expr.plan, Plan.assignable, Plan.make, valueOf, Expr.info, hc, paramLoad, hm, Emit.when]
    rw [hvalue]
    exact when ((ensure _ _ _).before fun _ => load (.arg _) ht rfl) reads
  · have hvalue : ((Expr.field i r f b).plan env).value = fun used =>
        Emit.when used (Emit.instr (.staticField .load f)) := by
      funext used
      have hc : i.constant = none := hc
      simp [Expr.plan, Plan.assignable, Plan.make, valueOf, Expr.info, hc, fieldLoad, hs,
        staticFieldLoad, hm, Emit.when]
    rw [hvalue]
    exact when (load (.static f) ht rfl) reads

/-! ### Assignments -/

theorem target {pre : γ → List (Word W) → Prop} {e : Expr} (hv : e.names? env = some v) :
    Performs env L pre ((e.plan env).target false) Pure.pure fun t g inp =>
      pre g inp ∧ ∃ cell, L.cell? v = some cell ∧ t = ⟨cell.place, none⟩ := by
  rcases Expr.names_cases hv with
    ⟨i, l, rfl, hm, hres, rfl⟩ | ⟨i, a, rfl, hm, rfl⟩ | ⟨i, r, f, b, rfl, hs, hm, rfl⟩
  · have htarget : ((Expr.localVar i l).plan env).target false =
        (Emit.define l >>= fun s => Pure.pure ⟨.slot s, none⟩) := by
      simp [Expr.plan, Plan.assignable, localTarget, hm, hres]
    rw [htarget]
    refine (define hres).before fun s => .pure (f := id) fun g inp hp => ?_
    exact ⟨hp.1, _, hp.2, rfl⟩
  · have htarget : ((Expr.param i a).plan env).target false =
        (numbered env a >>= fun _ => Pure.pure ⟨.arg (env.method.argument a), none⟩) := by
      simp [Expr.plan, Plan.assignable, paramTarget, hm]
    rw [htarget]
    refine (ensure _ _ _).before fun _ => .pure (f := id) fun g inp hp => ?_
    exact ⟨hp, .arg _, rfl, rfl⟩
  · have htarget : ((Expr.field i r f b).plan env).target false =
        Pure.pure ⟨.staticField f, none⟩ := by
      simp [Expr.plan, Plan.assignable, fieldTarget, hm, hs, Emit.when]
    rw [htarget]
    exact .pure (f := id) fun g inp hp => ⟨hp, .static f, rfl, rfl⟩

theorem store (hL : L.slots.Coherent) (ht : L.types v = some p) (hc : L.cell? v = some cell)
    (used : Bool) :
    Performs env L (fun z (inp : List (Word W)) => p.InRange W z ∧
        inp = .ofInt p z :: if used then [.ofInt p z] else [])
      (Emit.instr (cell.access .store)) (.write (some v)) fun _ => p.Leaves used := by
  refine instr (by cases cell <;> rfl) (by cases cell <;> rfl) fun {z inp σ x st} hp hx hst => ?_
  obtain ⟨hz, rfl⟩ := hp
  exact ⟨z, _, _, _, rfl, Cpu.exec_store cell hst, rfl, ⟨hz, rfl⟩, hx.store hL ht hc hz _⟩

theorem keep (used : Bool) :
    Performs env L (p.Leaves true) (Emit.when used (Emit.instr .dup)) Pure.pure
      fun _ z (inp : List (Word W)) => p.InRange W z ∧
        inp = .ofInt p z :: if used then [.ofInt p z] else [] := by
  cases used with
  | false => exact .pure (f := id) fun z inp hp => hp
  | true =>
    refine shuffle rfl rfl fun {z inp x st} hp hst => ?_
    obtain ⟨hz, rfl⟩ := hp
    exact ⟨_, _, Cpu.exec_dup hst, rfl, rfl, hz, rfl⟩

/-- What an assignment of a value does once it has its target. -/
def assignAt (left right : Plan) (used : Bool) (t : Target) : Emit Unit := do
  right.value true
  let copy ← keepCopy t.place left.ty false (.ofUsed used)
  t.place.store
  copy.forM takeCopy
  t.temp.forM Emit.free

theorem assignLoad_eq (i : Info) (left right : Plan) (used : Bool) :
    assignLoad i left right false used = left.target false >>= assignAt left right used := by
  cases used <;> simp [assignLoad, Emit.assign, Use.ofUsed, Emit.ensure, pushAssigned,
    Emit.when] <;> rfl

theorem assignAt_cell (left right : Plan) (used : Bool) (cell : Cell) :
    assignAt left right used ⟨cell.place, none⟩ = right.value true >>= fun _ =>
      Emit.when used (Emit.instr .dup) >>= fun _ => Emit.instr (cell.access .store) := by
  have htakes : cell.place.takesOperands = false := by
    cases cell <;> rfl
  cases used <;> simp [assignAt, keepCopy, Use.ofUsed, htakes, cell.store_place, Emit.when]

theorem assign (hL : L.slots.Coherent) {i : Info} {left right : Expr} {n : Eval Int}
    (hv : left.names? env = some v) (ht : L.types v = some p)
    (hr : Computes W env L p (right.plan env).value n) :
    Computes W env L p (assignLoad i (left.plan env) (right.plan env) false)
      (n >>= .write (some v)) := by
  intro used
  have hemits (t : Target) : Emitted env (assignAt (left.plan env) (right.plan env) used t) := by
    have hplace : t.place.OfLocal Allowed.any.declared := by
      cases t.place <;> trivial
    have hfree : Runs env .any (t.temp.toList ++ []) ∅ (t.temp.forM Emit.free) fun _ => [] :=
      .forM_option (fun x _ => .free x) t.temp
    refine (hr true).emits.bind_of fun _ _ _ _ => ?_
    exact .of fun given => Runs.storeKeeping trivial (fun _ => hplace) _ _ _ hfree
  rw [assignLoad_eq]
  refine (target hv).before fun t => assuming (hemits t) ?_
  rintro ⟨cell, hc, rfl⟩
  rw [assignAt_cell]
  exact (hr true).bind fun _ => (keep used).before fun _ => store hL ht hc used

/-! ### Conversions -/

theorem numeric (hp : p.isFixed = true) (hq : q.isFixed = true) (checked : Bool) (span : Span) :
    Performs env L (p.Leaves (W := W) true) (numeric p q checked span)
      (fun z => .ofResult (q.convert W checked z)) fun _ => q.Leaves true := by
  have nonfloat {r : Prim} (hr : r.isFixed = true) : r.isFloating = false := by
    simp_all [Prim.isFixed]
  have hemits : Follows env .any [] .remake (Emit.numeric p q checked span) :=
    .remakes (.numeric (fun _ => trivial) checked span)
  refine ⟨.of hemits, fun s a t c hm _ hadds z inp hz => ?_⟩
  obtain ⟨hz, rfl⟩ := hz
  cases hcode : Numeric.conversion p q checked with
  | none =>
    rw [Emit.numeric, hcode] at hm
    exact absurd hm fail_not_ok
  | some code =>
    rw [Emit.numeric, hcode] at hm
    obtain rfl := hadds.unique (instrs_adds hm)
    have hword := Numeric.convertAll_conversion (nonfloat hp) (nonfloat hq) hcode hz
    cases hconv : q.convert W checked z with
    | some z' =>
      rw [hconv] at hword
      constructor
      · intro σ σ' d x st hd hx hst
        cases hd
        exact ⟨_, [.ofInt q z'], Cpu.runs_convertAll hst hword, rfl,
          ⟨Prim.convert_inRange hconv, rfl⟩, hx.follows rfl⟩
      · intro σ σ' halt x st hd _ _
        cases hd
    | none =>
      rw [hconv] at hword
      constructor
      · intro σ σ' d x st hd _ _
        cases hd
      · intro σ σ' halt x st hd hx hst
        cases hd
        obtain ⟨y, hy, hcells⟩ := Cpu.faults_convertAll hst hword
        exact ⟨rfl, y, hy, hx.follows hcells⟩

theorem popUnless (used : Bool) :
    Performs env L (p.Leaves (W := W) true) (popUnless used) Pure.pure fun _ => p.Leaves used := by
  cases used with
  | true => exact .pure (f := id) fun z inp hp => hp
  | false =>
    refine shuffle rfl rfl fun {z inp x st} hp hst => ?_
    obtain ⟨hz, rfl⟩ := hp
    exact ⟨_, [], Cpu.exec_pop hst, rfl, rfl, hz, rfl⟩

variable {i : Info} {operand : Expr} {c : Conversion}

theorem convertLoad_eq (operand : Plan) (used : Bool) (h : c.kind ≠ .methodGroup)
    (h' : c.kind ≠ .nullToPointer) :
    convertLoad i operand c used = if !used && !c.hasEffect then operand.value false
      else operand.value true >>= fun _ => convertPushed i operand.expr.info c >>= fun _ =>
        Emit.popUnless used := by
  unfold convertLoad
  split
  · exact absurd ‹_› h
  · exact absurd ‹_› h'
  · rfl

/-- A conversion is left out only where nothing can be seen of it. -/
theorem convert {l : Int → Eval Int} (hop : Computes W env L p (operand.plan env).value n)
    (h : c.kind ≠ .methodGroup) (h' : c.kind ≠ .nullToPointer)
    (hpushed : Performs env L (p.Leaves (W := W) true) (convertPushed i operand.info c) l fun _ =>
      q.Leaves true)
    (hquiet : c.hasEffect = false → ∀ {z}, p.InRange W z →
      ∃ z', (∀ σ, l z σ = .ok z' σ) ∧ q.InRange W z') :
    Computes W env L q (convertLoad i (operand.plan env) c) (n >>= l) := by
  intro used
  rw [convertLoad_eq _ _ h h', Expr.plan_expr]
  split
  · rename_i hout
    obtain ⟨rfl, heffect⟩ : used = false ∧ c.hasEffect = false := by simpa using hout
    rw [← bind_pure_unit (x := (operand.plan env).value false)]
    refine (hop false).bind fun _ => still [] (.done ()) (fun hm => by rw [(pure_ok.mp hm).2])
      fun _ _ z inp σ x hp _ => ?_
    obtain ⟨z', hz', hr⟩ := hquiet heffect hp.1
    exact ⟨z', hz' σ, hr, hp.2⟩
  · exact (hop true).bind fun _ => hpushed.after fun _ => popUnless used

theorem identity (hop : Computes W env L p (operand.plan env).value n) (hk : c.kind = .identity)
    (hty : i.ty.primitive? = some p) (hf : p.isFixed = true) :
    Computes W env L p (convertLoad i (operand.plan env) c) (n >>= .convert W c i.ty) := by
  have hpushed : convertPushed i operand.info c = Pure.pure () := by
    simp only [convertPushed, hk, hty]
    split
    · split <;> first | rfl | simp_all [Prim.isFixed, Prim.isFloating]
    · rfl
  rw [Eval.convert_identity hk]
  refine convert hop (by simp [hk]) (by simp [hk]) ?_ fun _ z hz => ⟨z, fun _ => rfl, hz⟩
  rw [hpushed]
  exact .pure (f := id) fun z inp hz => hz

theorem convertNumeric (hop : Computes W env L p (operand.plan env).value n)
    (hk : c.kind = .implicitNumeric ∨ c.kind = .explicitNumeric)
    (hsource : operand.ty.primitive? = some p) (htarget : i.ty.primitive? = some q)
    (hp : p.isFixed = true) (hq : q.isFixed = true)
    (hquiet : c.hasEffect = false → c.checked = false ∨ p.Within W q) :
    Computes W env L q (convertLoad i (operand.plan env) c) (n >>= .convert W c i.ty) := by
  have hsource : operand.info.ty.primitive? = some p := hsource
  have hpushed : convertPushed i operand.info c = Emit.numeric p q c.checked i.span := by
    rcases hk with hk | hk <;> simp only [convertPushed, hk, hsource, htarget]
  rw [Eval.convert_numeric hk htarget]
  refine convert hop (by rcases hk with hk | hk <;> simp [hk])
    (by rcases hk with hk | hk <;> simp [hk]) ?_ fun heffect z hz => ?_
  · rw [hpushed]
    exact numeric hp hq c.checked i.span
  · rcases hquiet heffect with hc | hw
    · refine ⟨q.wrap W z, fun σ => ?_, q.wrap_inRange z⟩
      rw [hc]
      rfl
    · have hin := hw.inRange hz
      refine ⟨z, fun σ => ?_, hin⟩
      rw [Prim.convert_of_inRange c.checked hin]
      rfl

/-! ### Sequences and choices -/

theorem effects {es : List Expr}
    (h : ∀ e ∈ es, ∃ p, Computes W env L p (e.plan env).value (e.eval W env)) :
    Performs env L (Alone (W := W)) ((es.map (Expr.plan env)).forM fun p => p.value false)
      (fun _ => Expr.evalAll W env es) fun _ _ out => out = [] := by
  induction es with
  | nil => exact .pure (f := id) fun _ inp hp => hp
  | cons e es ih =>
    obtain ⟨p, hp⟩ := h e List.mem_cons_self
    have hrest := ih fun x hx => h x (List.mem_cons_of_mem e hx)
    rw [Expr.evalAll]
    refine (hp false).bind fun _ => ?_
    exact hrest.conseq (f := fun _ => ()) (fun z out hz => hz.2) (fun _ => rfl) fun _ _ _ h => h

theorem sequence {locals : List Local} {es : List Expr} {value : Expr}
    (hes : ∀ e ∈ es, ∃ p, Computes W env L p (e.plan env).value (e.eval W env))
    (hv : Computes W env L p (value.plan env).value n) :
    Computes W env L p
      (sequenceLoad env locals (Expr.planList env es) (value.plan env))
      (Expr.evalAll W env es >>= fun _ => n) := by
  intro used
  rw [Expr.planList_eq]
  have hstart : Performs env L (Alone (W := W))
      (sequenceStart env locals (es.map (Expr.plan env))) (fun _ => Expr.evalAll W env es)
      fun _ _ out => out = [] := by
    have hlocals : Performs env L (Alone (W := W))
        ((locals.filter fun l => !env.isResident l.id).forM fun l => discard (Emit.define l))
        Pure.pure fun _ => Alone := by
      refine forM_list fun l hl => ?_
      have hl : env.isResident l.id = false := by simpa using (List.mem_filter.mp hl).2
      rw [discard_eq]
      exact (define hl).before fun _ => .pure (f := id) fun _ _ hp => hp.1
    exact hlocals.before fun _ => effects hes
  exact hstart.bind fun _ =>
    (hv used).conseq (f := id) (fun _ _ h => h) (fun _ => rfl) fun _ _ _ h => h

theorem branch {leaves : Bool} {test : Emit Unit} {other taken : Emit α} {no nk : Eval δ}
    {post : δ → List (Word W) → Prop}
    (ht : Performs env L (Alone (W := W)) test (fun _ => n) fun _ => Prim.Leaves .bool true)
    (ho : Performs env L Alone other (fun _ => no) fun _ => post)
    (hk : Performs env L Alone taken (fun _ => nk) fun _ => post) :
    Performs env L Alone (branch leaves test other taken)
      (fun _ => n >>= fun z => if z = 0 then no else nk) fun _ => post := by
  have hchoice : Follows env .any [] _ (Emit.branch leaves test other taken) :=
    .branch ht.emits ho.emits fun _ => hk.emits
  refine ⟨.of hchoice, fun s r t c hm hg hc g inp hp => ?_⟩
  obtain ⟨u, v, w, hu, hv, hw, rfl⟩ := branch_ok hm
  obtain ⟨ct, hct, -⟩ := (ht.emits True).adds_block hu
  obtain ⟨co, hco, -⟩ := (ho.emits True).adds_block hv
  obtain ⟨ck, hck, -⟩ := (hk.emits True).adds_block hw
  obtain rfl := hc.unique (branch_adds hct hco hck)
  -- the slots of each part grow into those of the whole body
  have hgw : w.slots.Grows L.slots := hg
  have hgv : v.slots.Grows L.slots := by
    have := ((hk.emits True).slots_grow hw).trans hgw
    cases leaves <;> exact this
  have hgu : u.slots.Grows L.slots := ((ho.emits True).slots_grow hv).trans hgv
  obtain rfl : inp = [] := hp
  exact .choice (ht.realizes hu hgu hct (g := ()) rfl) (ho.realizes hv hgv hco (g := ()) rfl)
    (hk.realizes hw hgw hck (g := ()) rfl)

theorem conditional {t a b : Expr} {nt na nb : Eval Int}
    (ht : Computes W env L .bool (t.plan env).value nt)
    (ha : Computes W env L p (a.plan env).value na)
    (hb : Computes W env L p (b.plan env).value nb) :
    Computes W env L p (conditionalLoad (t.plan env) (a.plan env) (b.plan env))
      (nt >>= fun z => if z = 0 then nb else na) := by
  intro used
  unfold conditionalLoad
  rw [discard_eq]
  exact (branch (ht true) (hb used) (ha used)).after fun _ =>
    .pure (f := id) fun _ _ h => h

end Performs

theorem computes (hL : L.slots.Coherent) {e : Expr} (he : e.Typed W env L.types) {p : Prim}
    (hp : e.ty.primitive? = some p) : Computes W env L p (e.plan env).value (e.eval W env) := by
  induction he generalizing p with
  | @constant e c z q hc hz hq hf hr =>
    obtain rfl := Option.some.inj (hq.symm.trans hp)
    rw [Expr.plan_value_constant hc, Expr.eval_of_constant hc hz]
    exact .when (.constant hz hq hf hr _) fun _ => ⟨z, rfl, hr⟩
  | @named e v q hc hv ht hq =>
    obtain rfl := Option.some.inj (hq.symm.trans hp)
    rw [Expr.eval_of_names hv, Eval.folded_none hc]
    exact .named hv ht hc
  | @sequence i locals es value hc hes hv hty ihes ihv =>
    rw [Expr.eval, Eval.folded_none hc]
    change Computes W env L p (valueOf i _) _
    rw [valueOf_none hc]
    refine .sequence (fun e he => ?_) (ihv (hty.symm.trans hp))
    obtain ⟨q, hq, -⟩ := (hes e he).fixed
    exact ⟨q, ihes e he hq⟩
  | @conditional i t a b hc ht ha hb hbool hta htb iht iha ihb =>
    rw [Expr.eval, Eval.folded_none hc]
    change Computes W env L p (valueOf i _) _
    rw [valueOf_none hc]
    exact .conditional (iht hbool) (iha (hta.symm.trans hp)) (ihb (htb.symm.trans hp))
  | @assign i left right v q hc hv ht hr hrty hty ih =>
    obtain rfl := Option.some.inj (hty.symm.trans hp)
    rw [Expr.eval, Eval.folded_none hc, hv]
    change Computes W env L q (valueOf i _) _
    rw [valueOf_none hc]
    exact .assign hL hv ht (ih hrty)
  | @identity i operand c hc hk ho hty ih =>
    obtain ⟨q, hq, hf⟩ := ho.fixed
    obtain rfl := Option.some.inj (hq.symm.trans (hty.symm.trans hp))
    rw [Expr.eval, Eval.folded_none hc]
    change Computes W env L q (valueOf i _) _
    rw [valueOf_none hc]
    exact .identity (ih hq) hk hp hf
  | @implicitNumeric i operand c q r hc hk ho hq hr hf hw ih =>
    obtain ⟨q', hq', hf'⟩ := ho.fixed
    obtain rfl := Option.some.inj (hq'.symm.trans hq)
    obtain rfl := Option.some.inj (hr.symm.trans hp)
    rw [Expr.eval, Eval.folded_none hc]
    change Computes W env L r (valueOf i _) _
    rw [valueOf_none hc]
    exact .convertNumeric (ih hq) (.inl hk) hq hr hf' hf fun _ => .inr hw
  | @explicitNumeric i operand c r hc hk ho hr hf ih =>
    obtain ⟨q, hq, hf'⟩ := ho.fixed
    obtain rfl := Option.some.inj (hr.symm.trans hp)
    rw [Expr.eval, Eval.folded_none hc]
    change Computes W env L r (valueOf i _) _
    rw [valueOf_none hc]
    refine .convertNumeric (ih hq) (.inr hk) hq hr hf' hf fun heffect => .inl ?_
    simpa [Conversion.hasEffect, hk] using heffect

/-- The code of an expression does what the expression means. From any state that has the variables
as a store has them, every run of the code ends. Where the expression has a value, the run goes to
the end of the code, and leaves the value on the stack just if it is used; where its evaluation
overflows, the run stops at the check of a conversion. Either way it leaves the variables as the
evaluation does, and everything else as it was. -/
theorem meaning_preserved {types : Variable → Option Prim} {e : Expr} (he : e.Typed W env types)
    {used : Bool} {s t : State} (hs : SlotPool.empty.Reaches s.slots)
    (h : value env e used s = .ok () t) (hsize : t.slots.size ≤ 2 ^ 16) {σ : Store} {x : Cpu W}
    (hx : Layout.Reflects ⟨types, t.slots⟩ σ x) :
    ∃ code p, s.stream.Adds t.stream code ∧ e.ty.primitive? = some p ∧
      match e.eval W env σ with
      | .ok z σ' => p.InRange W z ∧ ∃ y, (Cpu.machine W).Ends code (code.length, y) (0, x) ∧
          y.stack = (if used then [.ofInt p z] else []) ++ x.stack ∧
          Layout.Follows ⟨types, t.slots⟩ σ x σ' y
      | .error halt σ' => halt = .overflow ∧ ∃ k i y, code[k]? = some i ∧
          y.exec i = .error .overflow ∧ (Cpu.machine W).Ends code (k, y) (0, x) ∧
          Layout.Follows ⟨types, t.slots⟩ σ x σ' y := by
  have hemits := (plan_emits env e).emits_value used
  have hcoherent : t.slots.Coherent := .reaches .empty (hs.trans (hemits.slots_reach h)) hsize
  obtain ⟨code, hadds, hblock⟩ := hemits.adds_block h
  obtain ⟨p, hp, -⟩ := he.fixed
  have hcode := (computes (L := ⟨types, t.slots⟩) hcoherent he hp used).realizes h (.refl _) hadds
    (g := ()) rfl
  have hend {k : Nat} {y : Cpu W} (hr : (Cpu.machine W).Reach code (0, x) (k, y))
      (hstop : ∀ u, ¬(Cpu.machine W).Step code (k, y) u) :
      (Cpu.machine W).Ends code (k, y) (0, x) :=
    hr.ends (Cpu.machine_deterministic W) hblock.marks_nodup hstop
  refine ⟨code, p, hadds, hp, ?_⟩
  split
  · rename_i z σ' hz
    obtain ⟨y, out, hruns, hstack, ⟨hr, rfl⟩, hfollows⟩ := hcode.returns hz hx rfl
    exact ⟨hr, y, hend hruns Cpu.not_step_at_end, hstack, hfollows⟩
  · rename_i halt σ' hz
    obtain ⟨hov, y, ⟨k, i, hi, hbad, hreach⟩, hfollows⟩ := hcode.stops hz hx rfl
    exact ⟨hov, k, i, y, hi, hbad, hend hreach (Cpu.not_step_of_overflows hi hbad), hfollows⟩

/-- Narrow an argument with a check and keep it in a local, then choose by a second argument between
the local, widened, and a constant. -/
def keepNarrowed : Expr :=
  let x : Local := ⟨0, .ofPrim .u8, .byValue⟩
  let argument (ordinal : UInt16) (p : Prim) : Expr :=
    .param (.plain (.ofPrim p)) ⟨"a", ordinal, .ofPrim p, .byValue, .unscoped⟩
  let kept : Expr := .localVar (.plain (.ofPrim .u8)) x
  .sequence (.plain (.ofPrim .i64)) [x]
    [.assign (.plain (.ofPrim .u8)) kept
      (.convert (.plain (.ofPrim .u8)) (argument 0 .i32) ⟨.explicitNumeric, true, true⟩) false]
    (.conditional (.plain (.ofPrim .i64)) (argument 1 .bool)
      (.convert (.plain (.ofPrim .i64)) kept ⟨.implicitNumeric, false, false⟩)
      (.literal ⟨.ofPrim .i64, some (.int 7), .synthesized⟩) false)

def keepNarrowedTypes : Variable → Option Prim
  | .localVar 0 => some .u8
  | .arg 1 => some .i32
  | .arg 2 => some .bool
  | _ => none

def keepNarrowedStore (a : Int) : Store
  | .arg 1 => a
  | .arg 2 => 1
  | _ => 0

def keepNarrowedStart (W : WordSize) (a : Int) : Cpu W where
  stack := []
  cells
    | .arg 1 => .ofInt .i32 a
    | .arg 2 => .ofInt .bool 1
    | _ => .ofInt .u8 0

theorem keepNarrowed_typed (W : WordSize) :
    keepNarrowed.Typed W (.bare (.ordinary .object)) keepNarrowedTypes := by
  have hkept : (Expr.localVar (.plain (.ofPrim .u8)) ⟨0, .ofPrim .u8, .byValue⟩).Typed W
      (.bare (.ordinary .object)) keepNarrowedTypes := .named rfl rfl rfl rfl rfl
  refine .sequence rfl ?_ ?_ rfl
  · simp only [List.mem_singleton, forall_eq]
    refine .assign rfl rfl rfl ?_ rfl rfl
    exact .explicitNumeric rfl rfl (.named rfl rfl rfl rfl rfl) rfl rfl
  · refine .conditional rfl (.named rfl rfl rfl rfl rfl) ?_ ?_ rfl rfl rfl
    · exact .implicitNumeric rfl rfl hkept rfl rfl rfl (by cases W <;> decide)
    · exact .constant rfl rfl rfl rfl (by cases W <;> decide)

theorem keepNarrowed_reflects {W : WordSize} {a : Int} (ha : Prim.i32.InRange W a)
    (slots : SlotPool) : Layout.Reflects ⟨keepNarrowedTypes, slots⟩ (keepNarrowedStore a)
      (keepNarrowedStart W a) := by
  constructor
  · intro v p hp
    simp only [keepNarrowedTypes] at hp
    split at hp <;> cases hp
    · change Prim.u8.InRange W 0
      cases W <;> decide
    · exact ha
    · change Prim.bool.InRange W 1
      cases W <;> decide
  · intro v p c hp hc
    simp only [keepNarrowedTypes] at hp
    split at hp <;> cases hp
    · obtain ⟨s, -, rfl⟩ := Option.map_eq_some_iff.mp hc
      rfl
    · cases hc
      rfl
    · cases hc
      rfl

theorem meaning_preserved_keepNarrowed :
    ∃ t, value (.bare (.ordinary .object)) keepNarrowed true .empty = .ok () t ∧
      ∃ code, State.empty.stream.Adds t.stream code ∧
        (∃ y, (Cpu.machine .w32).Ends code (code.length, y) (0, keepNarrowedStart .w32 200) ∧
          y.stack = [.ofInt .i64 200]) ∧
        ∃ k i y, code[k]? = some i ∧ y.exec i = .error .overflow ∧
          (Cpu.machine .w32).Ends code (k, y) (0, keepNarrowedStart .w32 300) := by
  have hy : yields (value (.bare (.ordinary .object)) keepNarrowed true) .empty
      (fun _ t => t.slots.size == 1) = true := by decide +kernel
  obtain ⟨⟨⟩, t, ht, hsize⟩ := ok_of_yields hy
  have hsize : t.slots.size ≤ 2 ^ 16 := by
    have : t.slots.size = 1 := by simpa using hsize
    omega
  obtain ⟨code, p, hcode, hp, hfits⟩ := meaning_preserved (keepNarrowed_typed .w32) (.refl _) ht
    hsize (keepNarrowed_reflects (a := 200) (by decide) t.slots)
  obtain ⟨code', q, hcode', hq, hover⟩ := meaning_preserved (keepNarrowed_typed .w32) (.refl _) ht
    hsize (keepNarrowed_reflects (a := 300) (by decide) t.slots)
  obtain rfl := hcode.unique hcode'
  cases hp
  obtain ⟨-, y, hends, hstack, -⟩ := hfits
  obtain ⟨-, k, i, z, hi, hexec, hstops, -⟩ := hover
  exact ⟨t, ht, code, hcode, ⟨y, hends, hstack⟩, k, i, z, hi, hexec, hstops⟩

end Emit

end TypedStack
