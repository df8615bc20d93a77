import TypedStack.Proofs.Blobs
import TypedStack.Proofs.Memory
import TypedStack.Proofs.Outlines

/-! Filling of blocks. Whatever way a block is filled, each entry ends up where it belongs as the
bytes of its number, and the code of the entries that are not constant runs once each, in order. -/
namespace TypedStack

/-! ### Code in pieces -/

/-- The number of an entry: that of its constant, or the one it turns out to be. -/
def entryNumber (numbers : Nat → Int) (k : Nat) (e : Expr) : Int :=
  match e.constant with
  | some c => c.number?.getD 0
  | none => numbers k

/-- The positions of the entries that are not constant, counted from some number on. -/
def openEntries (k : Nat) (es : List Expr) : List Nat :=
  ((es.zipIdx k).filter fun e => !e.1.isConstant).map Prod.snd

structure Filling where
  env : Env
  runtime : Runtime
  elem : Ty
  prim : Prim
  size : Nat
  inits : List Expr
  numbers : Nat → Int

namespace Filling

variable (f : Filling)

def values (k : Nat) : Value := .ofNumber f.size (f.numbers k)

/-- The element is an integer of some size, or an enum over one. -/
structure Integral : Prop where
  prim : f.elem.primitive? = some f.prim
  size : f.prim.size? = some f.size
  notFloating : f.prim.isFloating = false

def IsEntry (k : Nat) (code : List Instr) : Prop :=
  ∃ e s t, f.inits[k]? = some e ∧ Emit.value f.env e true s = .ok () t ∧
    s.stream.Adds t.stream code

/-- The emission lays pieces, among them the code of these entries, and the pieces take every
memory with `P` to one with `Q`. What is said may refer to the memory at the start. -/
structure Does {α : Type} (P : Memory → Memory → Prop) (m : Emit α) (ks : List Nat)
    (Q : α → Memory → Memory → Prop) : Prop where
  within : ∀ ⦃s a t⦄, m s = .ok a t → s.blobs.Within t.blobs
  lays : ∀ ⦃s a t⦄, m s = .ok a t → t.blobs.Within f.runtime.blobs → ∃ ps : List Piece,
    s.stream.Adds t.stream (ps.flatMap Piece.code) ∧ ps.filterMap Piece.index? = ks ∧
    (∀ k code, .entry k code ∈ ps → f.IsEntry k code) ∧
    ∀ x₀ x, P x₀ x → ∃ y, Piece.runAll f.runtime f.values ps x = some y ∧ Q a x₀ y

namespace Does

variable {f} {α β : Type} {P : Memory → Memory → Prop} {Q : α → Memory → Memory → Prop}
  {R : β → Memory → Memory → Prop} {ks ls : List Nat}

theorem conseq {Q' : α → Memory → Memory → Prop} {m : Emit α} (h : f.Does P m ks Q)
    (hQ : ∀ a x₀ x, Q a x₀ x → Q' a x₀ x) : f.Does P m ks Q' := by
  refine ⟨h.within, ?_⟩
  intro s a t hm hw
  obtain ⟨ps, hadds, hks, hent, hrun⟩ := h.lays hm hw
  refine ⟨ps, hadds, hks, hent, ?_⟩
  intro x₀ x hx
  obtain ⟨y, hy, hq⟩ := hrun x₀ x hx
  exact ⟨y, hy, hQ a x₀ y hq⟩

theorem frame {m : Emit α} (h : f.Does P m ks Q) (φ : Prop) :
    f.Does (fun x₀ x => P x₀ x ∧ φ) m ks fun a x₀ x => Q a x₀ x ∧ φ := by
  refine ⟨h.within, ?_⟩
  intro s a t hm hw
  obtain ⟨ps, hadds, hks, hent, hrun⟩ := h.lays hm hw
  refine ⟨ps, hadds, hks, hent, ?_⟩
  intro x₀ x hx
  obtain ⟨y, hy, hq⟩ := hrun x₀ x hx.1
  exact ⟨y, hy, hq, hx.2⟩

theorem still {m : Emit α} (hs : ∀ {s a t}, m s = .ok a t →
      t.stream.code = s.stream.code ∧ s.blobs.Within t.blobs)
    (hQ : ∀ {s a t x₀ x}, m s = .ok a t → t.blobs.Within f.runtime.blobs → P x₀ x → Q a x₀ x) :
    f.Does P m [] Q := by
  constructor
  · intro s a t hm
    exact (hs hm).2
  · intro s a t hm hw
    refine ⟨[], ?_, rfl, by simp, ?_⟩
    · simp [Stream.Adds, (hs hm).1]
    · intro x₀ x hx
      exact ⟨x, rfl, hQ hm hw hx⟩

theorem pure {a : α} (h : ∀ x₀ x, P x₀ x → Q a x₀ x) : f.Does P (pure a : Emit α) [] Q := by
  apply still
  · intro s b t hm
    obtain ⟨-, rfl⟩ := Emit.pure_ok.mp hm
    exact ⟨rfl, .refl _⟩
  · intro s b t x₀ x hm _ hx
    exact (Emit.pure_ok.mp hm).1 ▸ h x₀ x hx

theorem fail (fault : Fault) (span : Span) : f.Does P (Emit.fail fault span : Emit α) ks Q :=
  ⟨fun _ _ _ hm => absurd hm Emit.fail_not_ok, fun _ _ _ hm => absurd hm Emit.fail_not_ok⟩

theorem bind {m : Emit α} {k : α → Emit β} (hm : f.Does P m ks Q)
    (hk : ∀ a, f.Does (Q a) (k a) ls R) : f.Does P (m >>= k) (ks ++ ls) R := by
  constructor
  · intro s b u h
    obtain ⟨a, t, h, h'⟩ := Emit.bind_ok h
    exact (hm.within h).trans ((hk a).within h')
  · intro s b u h hw
    obtain ⟨a, t, h, h'⟩ := Emit.bind_ok h
    obtain ⟨ps, hadds, hks, hent, hrun⟩ := hm.lays h (((hk a).within h').trans hw)
    obtain ⟨qs, hadds', hls, hent', hrun'⟩ := (hk a).lays h' hw
    refine ⟨ps ++ qs, ?_, ?_, ?_, ?_⟩
    · simpa using hadds.trans hadds'
    · simp [hks, hls]
    · intro k code hc
      rcases List.mem_append.mp hc with hc | hc
      · exact hent k code hc
      · exact hent' k code hc
    · intro x₀ x hx
      obtain ⟨y, hy, hq⟩ := hrun x₀ x hx
      obtain ⟨z, hz, hr⟩ := hrun' x₀ y hq
      refine ⟨z, ?_, hr⟩
      rw [Piece.runAll, List.foldlM_append]
      exact (congrArg (· >>= _) hy).trans hz

theorem instr {i : Instr} {Q : Unit → Memory → Memory → Prop}
    (h : ∀ x₀ x, P x₀ x → ∃ y, f.runtime.exec i x = some y ∧ Q () x₀ y) :
    f.Does P (Emit.instr i) [] Q := by
  constructor
  · intro s a t hm
    rw [Emit.instr_ok.mp hm]
    exact .refl _
  · intro s a t hm _
    refine ⟨[.instr i], ?_, rfl, by simp, ?_⟩
    · rw [Emit.instr_ok.mp hm]
      exact .emit _ _
    · intro x₀ x hx
      obtain ⟨y, hy, hq⟩ := h x₀ x hx
      exact ⟨y, by simp [Piece.runAll, Piece.run, hy], hq⟩

theorem report (d : Diagnostic) : f.Does P (Emit.report d) [] fun _ => P :=
  still (by rintro s a t ⟨⟩; exact ⟨rfl, .refl _⟩) fun _ _ hx => hx

theorem free (slot : Slot) : f.Does P (Emit.free slot) [] fun _ => P :=
  still (by rintro s a t ⟨⟩; exact ⟨rfl, .refl _⟩) fun _ _ hx => hx

theorem allocate (ty : Ty) (byRef : Bool) : f.Does P (Emit.allocate ty byRef) [] fun _ => P :=
  still (by rintro s a t ⟨⟩; exact ⟨rfl, .refl _⟩) fun _ _ hx => hx

theorem intern (b : Blob) : f.Does P (Emit.intern b) [] fun token x₀ x =>
    P x₀ x ∧ f.runtime.blobs.blobs[token.index]? = some b := by
  refine still ?_ ?_
  · rintro s a t ⟨⟩
    exact ⟨rfl, s.blobs.intern_within b⟩
  · rintro s a t x₀ x ⟨⟩ hw hx
    exact ⟨hx, hw _ _ (s.blobs.intern_blob b)⟩

theorem entry {e : Expr} {k : Nat} (hk : f.inits[k]? = some e) {Q : Memory → Memory → Prop}
    (h : ∀ x₀ x, P x₀ x → Q x₀ (x.push (f.values k))) :
    f.Does P ((e.plan f.env).value true) [k] fun _ => Q := by
  have hemits := (Emit.plan_emits f.env e).emits_value true
  constructor
  · intro s a t hm
    exact hemits.blobs_within hm
  · intro s a t hm _
    obtain ⟨code, hadds, -⟩ := hemits.adds_block hm
    refine ⟨[.entry k code], ?_, rfl, ?_, ?_⟩
    · simpa [Piece.code] using hadds
    · intro j c hc
      obtain ⟨rfl, rfl⟩ : j = k ∧ c = code := by simpa using hc
      exact ⟨e, s, t, hk, hm, hadds⟩
    · intro x₀ x hx
      exact ⟨_, rfl, h x₀ x hx⟩

end Does

/-! ### The block while it is filled -/

/-- The new block lies after all others. On what was on the stack at the start lie addresses in the
new block, and on these some values. -/
structure Stands (vs : List Value) (os : List Nat) (block : List (Option UInt8)) (x₀ x : Memory) :
    Prop where
  stack : x.stack =
    vs ++ (os.map (fun o : Nat => .pointer ⟨.block x₀.blocks.length, o⟩) ++ x₀.stack)
  blocks : x.blocks = x₀.blocks ++ [block]

end Filling

theorem Memory.write_last {x x₀ : Memory} {block : List (Option UInt8)} {offset : Nat}
    {bytes : List UInt8} (hb : x.blocks = x₀.blocks ++ [block])
    (ho : offset + bytes.length ≤ block.length) :
    x.write ⟨.block x₀.blocks.length, offset⟩ bytes =
      some { x with blocks := x₀.blocks ++ [overwrite block offset bytes] } := by
  have hfits : (0 : Int) ≤ offset ∧ (offset : Int) + bytes.length ≤ block.length := by omega
  simp [write, hb, hfits]

namespace Filling

variable {f : Filling} {vs : List Value} {o : Nat} {os : List Nat} {block : List (Option UInt8)}

theorem Does.step {i : Instr} {vs' : List Value}
    (h : ∀ x st, x.stack = vs ++ st → f.runtime.exec i x = some { x with stack := vs' ++ st }) :
    f.Does (Stands vs os block) (Emit.instr i) [] fun _ => Stands vs' os block :=
  .instr fun _ x hx => ⟨_, h x _ hx.stack, rfl, hx.blocks⟩

theorem Does.push {i : Instr} {v : Value} (h : ∀ x, f.runtime.exec i x = some (x.push v)) :
    f.Does (Stands vs os block) (Emit.instr i) [] fun _ => Stands (v :: vs) os block :=
  .instr fun _ x hx => ⟨_, h x, congrArg (v :: ·) hx.stack, hx.blocks⟩

theorem Does.int (v : Int32) :
    f.Does (Stands vs os block) (Emit.int v) [] fun _ => Stands (.int32 v :: vs) os block :=
  .push fun _ => rfl

theorem Does.dup :
    f.Does (Stands [] (o :: os) block) (Emit.instr .dup) [] fun _ =>
      Stands [] (o :: o :: os) block :=
  .instr fun _ _ hx => ⟨_, Runtime.exec_dup hx.stack, rfl, hx.blocks⟩

theorem Does.add {n : Nat} {v : Value}
    (hv : (v = .int32 (Int32.ofNat n) ∧ n < 2 ^ 31) ∨ v = .native n) :
    f.Does (Stands [v] (o :: os) block) (Emit.instr .add) [] fun _ =>
      Stands [] ((o + n) :: os) block := by
  refine .instr fun x₀ x hx => ?_
  rcases hv with ⟨rfl, hn⟩ | rfl
  · refine ⟨_, Runtime.exec_add_int32 hx.stack, ?_, hx.blocks⟩
    simp [Int32.toInt_ofNat_of_lt hn]
  · refine ⟨_, Runtime.exec_add_native hx.stack, ?_, hx.blocks⟩
    simp

theorem Does.write {i : Instr} {bytes : List UInt8} (ho : o + bytes.length ≤ block.length)
    (h : ∀ x p st, x.stack = vs ++ .pointer p :: st →
      f.runtime.exec i x = { x with stack := st }.write p bytes) :
    f.Does (Stands vs (o :: os) block) (Emit.instr i) [] fun _ =>
      Stands [] os (Memory.overwrite block o bytes) := by
  refine .instr fun x₀ x hx => ?_
  rw [h x _ _ hx.stack]
  exact ⟨_, Memory.write_last hx.blocks ho, rfl, rfl⟩

/-! ### Entries -/

theorem Integral.elem_size (h : f.Integral) : f.elem.size? = some f.size := by
  simp [Ty.size?, h.prim, h.size]

theorem Integral.width (h : f.Integral) :
    (f.size = 1 ∧ Width.store f.elem = .i1) ∨ (f.size = 2 ∧ Width.store f.elem = .i2) ∨
      (f.size = 4 ∧ Width.store f.elem = .i4) ∨ (f.size = 8 ∧ Width.store f.elem = .i8) := by
  obtain ⟨hp, hs, hf⟩ := h
  simp only [Width.store, Width.load, hp]
  cases hq : f.prim <;> simp_all [Prim.size?, Prim.isFloating, Width.ofPrim]

theorem Integral.size_bounds (h : f.Integral) : 0 < f.size ∧ f.size < 2 ^ 31 := by
  rcases h.width with ⟨hs, -⟩ | ⟨hs, -⟩ | ⟨hs, -⟩ | ⟨hs, -⟩ <;> omega

/-- A store takes the bytes of the number from a value that agrees with it in all its bits. -/
theorem Integral.stored_int32 (h : f.Integral) (h8 : f.size ≠ 8) {v : Int32} {z : Int}
    (hv : v.toInt % 2 ^ 32 = z % 2 ^ 32) :
    (Value.int32 v).stored? (.store f.elem) = some (lowBytes f.size z) := by
  rcases h.width with ⟨hs, hw⟩ | ⟨hs, hw⟩ | ⟨hs, hw⟩ | ⟨hs, -⟩
  · rw [hs, hw]
    exact congrArg some (lowBytes_of_emod (by decide) hv)
  · rw [hs, hw]
    exact congrArg some (lowBytes_of_emod (by decide) hv)
  · rw [hs, hw]
    exact congrArg some (lowBytes_of_emod (by decide) hv)
  · exact absurd hs h8

theorem Integral.stored_int64 (h : f.Integral) (h8 : f.size = 8) {v : Int64} {z : Int}
    (hv : v.toInt % 2 ^ 64 = z % 2 ^ 64) :
    (Value.int64 v).stored? (.store f.elem) = some (lowBytes f.size z) := by
  have hw : Width.store f.elem = .i8 := by
    have := h.width
    grind
  rw [h8, hw]
  exact congrArg some (lowBytes_of_emod (by decide) hv)

theorem Integral.stored_ofNumber (h : f.Integral) (z : Int) :
    (Value.ofNumber f.size z).stored? (.store f.elem) = some (lowBytes f.size z) := by
  unfold Value.ofNumber
  split
  · rename_i h8
    refine h.stored_int64 h8 ?_
    rw [Int64.toInt_ofInt]
    exact_mod_cast Int.bmod_emod
  · rename_i h8
    refine h.stored_int32 h8 ?_
    rw [Int32.toInt_ofInt]
    exact_mod_cast Int.bmod_emod

def Pushed (f : Filling) (vs : List Value) (os : List Nat) (block : List (Option UInt8)) (z : Int)
    (x₀ x : Memory) : Prop :=
  ∃ v, v.stored? (.store f.elem) = some (lowBytes f.size z) ∧ Stands (v :: vs) os block x₀ x

theorem Integral.integral_wide (h : f.Integral) (h8 : f.size = 8) (c : Constant) (w : Int64)
    (span : Span) : Emit.integral c w f.elem span = Emit.instr (.ldcI8 w) := by
  obtain ⟨hp, hs, hf⟩ := h
  simp only [Emit.integral, hp, Option.getD_some]
  cases hq : f.prim <;> first | rfl | simp_all [Prim.size?, Prim.isFloating]

theorem Integral.integral_narrow (h : f.Integral) (h8 : f.size ≠ 8) (c : Constant) (w : Int64)
    (span : Span) : Emit.integral c w f.elem span = match c.immediate? with
      | some v => Emit.int v
      | none => Emit.fail (.immediateTooWide c f.elem) span := by
  obtain ⟨hp, hs, hf⟩ := h
  simp only [Emit.integral, hp, Option.getD_some]
  cases hq : f.prim <;> first | rfl | simp_all [Prim.size?, Prim.isFloating]

theorem Does.constant (h : f.Integral) {c : Constant} {z : Int} (hz : c.number? = some z)
    (span : Span) :
    f.Does (Stands vs os block) (Emit.constant c f.elem span) [] fun _ =>
      f.Pushed vs os block z := by
  obtain ⟨w, hw, hwz⟩ := Constant.integral_number hz
  have hc : Emit.constant c f.elem span = Emit.integral c w f.elem span := by
    cases c <;> simp_all [Emit.constant, Constant.integral?, Constant.number?]
  rw [hc]
  by_cases h8 : f.size = 8
  · rw [h.integral_wide h8]
    have hpush : f.Does (Stands vs os block) (Emit.instr (.ldcI8 w)) [] fun _ =>
        Stands (.int64 w :: vs) os block :=
      .push fun _ => rfl
    exact hpush.conseq fun _ _ _ hx => ⟨_, h.stored_int64 h8 hwz, hx⟩
  · rw [h.integral_narrow h8]
    split
    · rename_i v hv
      exact (Does.int v).conseq fun _ _ _ hx =>
        ⟨_, h.stored_int32 h8 (Constant.immediate_number hz hv), hx⟩
    · exact .fail _ _

/-- What is asked of an entry: its type is that of the elements, and a constant is a number. -/
def Fits (f : Filling) (e : Expr) : Prop :=
  e.ty = f.elem ∧ ∀ c, e.constant = some c → c.number?.isSome

theorem Does.entryValue (h : f.Integral) {e : Expr} {k : Nat} (hk : f.inits[k]? = some e)
    (he : f.Fits e) :
    f.Does (Stands vs os block) ((e.plan f.env).value true) (if e.isConstant then [] else [k])
      fun _ => f.Pushed vs os block (entryNumber f.numbers k e) := by
  unfold Expr.isConstant entryNumber
  cases hc : e.constant with
  | some c =>
    obtain ⟨z, hz⟩ := Option.isSome_iff_exists.mp (he.2 c hc)
    rw [Expr.plan_value_constant hc, he.1]
    simpa [Emit.when, hz] using Does.constant h hz e.span
  | none =>
    exact .entry hk fun _ x hx =>
      ⟨_, h.stored_ofNumber _, congrArg (_ :: ·) hx.stack, hx.blocks⟩

theorem Does.elementSize (h : f.Integral) :
    f.Does (Stands vs os block) (Emit.elementSize f.elem) [] fun _ =>
      Stands (.int32 (Int32.ofNat f.size) :: vs) os block := by
  unfold Emit.elementSize
  rw [h.elem_size]
  exact .int _

theorem Does.product {k : Nat} (hs : f.size < 2 ^ 31) (hk : k * f.size < 2 ^ 31) :
    f.Does (Stands [.int32 (Int32.ofNat f.size), .native k] os block) (Emit.instr .mul) [] fun _ =>
      Stands [.native (k * f.size : Nat)] os block := by
  refine .step fun x st hx => ?_
  have hmul : (k : Int) * (Int32.ofNat f.size).toInt = (k * f.size : Nat) := by
    rw [Int32.toInt_ofNat_of_lt hs, Int.natCast_mul]
  rw [Runtime.exec_mul hx (by omega), hmul]
  rfl

theorem Does.elementOffset (h : f.Integral) {k : Nat} (hk : k * f.size < 2 ^ 31) :
    f.Does (Stands [] (0 :: os) block) (Emit.elementOffset f.elem k) [] fun _ =>
      Stands [] (k * f.size :: os) block := by
  have hsize := h.size_bounds
  have hk' : k < 2 ^ 31 := Nat.lt_of_le_of_lt (Nat.le_mul_of_pos_right k hsize.1) hk
  rw [← Nat.zero_add (k * f.size)]
  unfold Emit.elementOffset
  rw [h.elem_size]
  split
  · rename_i h0
    subst h0
    exact .pure fun _ x hx => by simpa using hx
  · split
    · rename_i h1
      obtain h1 : f.size = 1 := by simpa using h1
      rw [h1, Nat.mul_one]
      exact (Does.int _).bind fun _ => .add (.inl ⟨rfl, hk'⟩)
    · split
      · rename_i h1
        subst h1
        rw [Nat.one_mul]
        exact (Does.elementSize h).bind fun _ => .add (.inl ⟨rfl, hsize.2⟩)
      · have hconv : f.Does (Stands [.int32 (Int32.ofNat k)] (0 :: os) block)
            (Emit.instr (.conv .i .unchecked)) [] fun _ => Stands [.native k] (0 :: os) block := by
          refine .step fun x st hx => ?_
          rw [Runtime.exec_conv hx, Int32.toInt_ofNat_of_lt hk']
          rfl
        refine (Does.int _).bind fun _ => ?_
        refine hconv.bind fun _ => ?_
        refine (Does.elementSize h).bind fun _ => ?_
        refine (Does.product hsize.2 hk).bind fun _ => ?_
        exact .add (.inr rfl)

theorem Does.fillElement (h : f.Integral) {e : Expr} {k : Nat} (hk : f.inits[k]? = some e)
    (he : f.Fits e) (hb : k * f.size + f.size ≤ block.length) (hlen : block.length < 2 ^ 31) :
    f.Does (Stands [] [0] block) (Emit.fillElement f.elem k (e.plan f.env))
      (if e.isConstant then [] else [k]) fun _ =>
        Stands [] [0] (Memory.overwrite block (k * f.size)
          (lowBytes f.size (entryNumber f.numbers k e))) := by
  have hstore : f.Does (f.Pushed [] [k * f.size, 0] block (entryNumber f.numbers k e))
      (Emit.instr (.stind (.store f.elem))) [] fun _ =>
        Stands [] [0] (Memory.overwrite block (k * f.size)
          (lowBytes f.size (entryNumber f.numbers k e))) := by
    refine .instr ?_
    rintro x₀ x ⟨v, hv, hx⟩
    rw [Runtime.exec_stind hx.stack hv]
    exact ⟨_, Memory.write_last hx.blocks (by simpa using hb), rfl, rfl⟩
  have hvalue := (Does.entryValue h hk he).bind fun _ => hstore
  rw [List.append_nil] at hvalue
  refine Does.dup.bind fun _ => ?_
  refine (Does.elementOffset h (by omega)).bind fun _ => ?_
  exact hvalue

/-! ### All entries -/

def chunk (f : Filling) (k : Nat) (e : Expr) : List (Option UInt8) :=
  (lowBytes f.size (entryNumber f.numbers k e)).map some

def chunks (f : Filling) (k : Nat) (es : List Expr) : List (List (Option UInt8)) :=
  (es.zipIdx k).map fun e => f.chunk e.2 e.1

/-- Each entry has its place, and the entries that will not be filled are there. -/
inductive Ready (f : Filling) (constants : Bool) :
    Nat → List Expr → List (List (Option UInt8)) → Prop where
  | nil {k} : Ready f constants k [] []
  | cons {k e es c cs} : c.length = f.size →
    ((constants || !e.isConstant) = false → c = f.chunk k e) → Ready f constants (k + 1) es cs →
    Ready f constants k (e :: es) (c :: cs)

theorem length_chunk (k : Nat) (e : Expr) : (f.chunk k e).length = f.size := by
  simp [chunk]

theorem chunks_cons (k : Nat) (e : Expr) (es : List Expr) :
    f.chunks k (e :: es) = f.chunk k e :: f.chunks (k + 1) es := by
  simp [chunks, List.zipIdx_cons]

theorem openEntries_cons (k : Nat) (e : Expr) (es : List Expr) :
    openEntries k (e :: es) = (if e.isConstant then [] else [k]) ++ openEntries (k + 1) es := by
  cases h : e.isConstant <;> simp [openEntries, List.zipIdx_cons, h]

theorem overwrite_append {a b c : List (Option UInt8)} {bytes : List UInt8}
    (h : b.length = bytes.length) :
    Memory.overwrite (a ++ (b ++ c)) a.length bytes = a ++ (bytes.map some ++ c) := by
  simp [Memory.overwrite, ← h, List.drop_append]

theorem Does.fillElements (h : f.Integral) (hfits : ∀ e ∈ f.inits, f.Fits e) {constants : Bool}
    {k : Nat} {es : List Expr} {cs : List (List (Option UInt8))} (hr : f.Ready constants k es cs)
    (hes : f.inits.drop k = es) {before : List (Option UInt8)} (hb : before.length = k * f.size)
    (hlen : (before ++ cs.flatten).length < 2 ^ 31) :
    f.Does (Stands [] [0] (before ++ cs.flatten))
      (Emit.fillElements f.elem constants k (es.map (Expr.plan f.env))) (openEntries k es)
      fun _ => Stands [] [0] (before ++ (f.chunks k es).flatten) := by
  -- what the entries up to this one have filled is all in `before`
  induction hr generalizing before with
  | nil => exact .pure fun _ x hx => hx
  | @cons k e es c cs hc hkeep hr ih =>
    have hk : f.inits[k]? = some e := by
      have := congrArg (·[0]?) hes
      simpa using this
    have hnext : f.inits.drop (k + 1) = es := by
      rw [← List.drop_drop, hes]
      rfl
    rw [List.flatten_cons] at hlen ⊢
    have hfirst : f.Does (Stands [] [0] (before ++ (c ++ cs.flatten)))
        (Emit.when (constants || !e.isConstant) (Emit.fillElement f.elem k (e.plan f.env)))
        (if e.isConstant then [] else [k])
        fun _ => Stands [] [0] (before ++ (f.chunk k e ++ cs.flatten)) := by
      cases hw : constants || !e.isConstant with
      | true =>
        refine (Does.fillElement h hk (hfits e (List.mem_of_getElem? hk)) ?_ hlen).conseq
          fun _ _ x hx => ?_
        · simp [hb, hc]
        · rwa [← hb, overwrite_append (by simp [hc])] at hx
      | false =>
        obtain ⟨-, hconst⟩ : constants = false ∧ e.isConstant = true := by simpa using hw
        rw [hkeep hw, hconst]
        exact .pure fun _ x hx => hx
    rw [openEntries_cons, chunks_cons, List.flatten_cons, List.map_cons, Emit.fillElements,
      Expr.plan_expr]
    simp only [← List.append_assoc before] at hfirst ⊢
    refine hfirst.bind fun _ => ih hnext ?_ ?_
    · simp [hb, length_chunk, Nat.succ_mul]
    · simpa [length_chunk, hc] using hlen

theorem Does.fillAll (h : f.Integral) (hfits : ∀ e ∈ f.inits, f.Fits e) {constants : Bool}
    {cs : List (List (Option UInt8))} (hr : f.Ready constants 0 f.inits cs)
    (hlen : cs.flatten.length < 2 ^ 31) :
    f.Does (Stands [] [0] cs.flatten)
      (Emit.fillElements f.elem constants 0 (f.inits.map (Expr.plan f.env))) (openEntries 0 f.inits)
      fun _ => Stands [] [0] (f.chunks 0 f.inits).flatten := by
  have hzero : ([] : List (Option UInt8)).length = 0 * f.size := by simp
  exact Does.fillElements h hfits hr rfl hzero hlen

/-! ### From data -/

theorem toNat_ofNat_of_lt {n : Nat} (h : n < 2 ^ 31) : (Int32.ofNat n).toUInt32.toNat = n :=
  Nat.mod_eq_of_lt (by omega)

theorem overwrite_all {data : List UInt8} (h : block.length = data.length) :
    Memory.overwrite block 0 data = data.map some := by
  simp [Memory.overwrite, ← h]

theorem Does.copyRepeated {byte : UInt8} {data : List UInt8}
    (hd : data = List.replicate data.length byte) (hb : block.length = data.length)
    (hl : data.length < 2 ^ 31) :
    f.Does (Stands [] [0] block) (Emit.copyRepeated byte data.length) [] fun _ =>
      Stands [] [0] (data.map some) := by
  have hinit : f.Does (Stands [.int32 (Int32.ofNat data.length), .int32 (Int32.ofNat byte.toNat)]
      [0, 0] block) (Emit.instr .initblk) [] fun _ =>
        Stands [] [0] (Memory.overwrite block 0 data) := by
    refine .write (by simp [hb]) fun x p st hx => ?_
    have hbyte : (Int32.ofNat byte.toNat).toUInt32.toUInt8 = byte := by simp
    rw [Runtime.exec_initblk hx, toNat_ofNat_of_lt hl, hbyte, ← hd]
  rw [← overwrite_all hb]
  refine Does.dup.bind fun _ => ?_
  refine (Does.int _).bind fun _ => ?_
  refine (Does.int _).bind fun _ => ?_
  exact hinit

theorem Does.copyData {data : List UInt8} {t : BlobToken} {alignment : Nat} {unaligned : Option Nat}
    (hb : block.length = data.length) (hl : data.length < 2 ^ 31) :
    f.Does (fun x₀ x =>
        Stands [.int32 (Int32.ofNat data.length), .pointer ⟨.data t, 0⟩] [0, 0] block x₀ x ∧
          f.runtime.blobs.blobs[t.index]? = some ⟨data, alignment⟩)
      (Emit.instr (.cpblk unaligned)) [] fun _ => Stands [] [0] (data.map some) := by
  refine .instr fun x₀ x hx => ?_
  have hread : f.runtime.read ⟨.data t, 0⟩ (Int32.ofNat data.length).toUInt32.toNat =
      some data := by
    rw [toNat_ofNat_of_lt hl]
    simp [Runtime.read, hx.2]
  rw [Runtime.exec_cpblk hx.1.stack hread]
  have hfits : 0 + data.length ≤ block.length := by simp [hb]
  refine ⟨_, Memory.write_last hx.1.blocks hfits, rfl, ?_⟩
  rw [← overwrite_all hb]

theorem Does.copyBytes {data : List UInt8} (hb : block.length = data.length)
    (hl : data.length < 2 ^ 31) :
    f.Does (Stands [] [0] block) (Emit.copyBytes data) [] fun _ =>
      Stands [] [0] (data.map some) := by
  have haddress (t : BlobToken) : f.Does (Stands [] [0, 0] block) (Emit.instr (.blobAddress t)) []
      fun _ => Stands [.pointer ⟨.data t, 0⟩] [0, 0] block :=
    .push fun _ => rfl
  refine (Does.intern _).bind fun t => ?_
  refine (Does.dup.frame _).bind fun _ => ?_
  refine ((haddress t).frame _).bind fun _ => ?_
  refine ((Does.int _).frame _).bind fun _ => ?_
  exact .copyData hb hl

theorem Does.copyThroughView {v : BlobView} (hv : f.runtime.view? = some v) {data : List UInt8}
    (hb : block.length = data.length) (hl : data.length < 2 ^ 31) :
    f.Does (Stands [] [0] block) (Emit.copyThroughView v f.size data) [] fun _ =>
      Stands [] [0] (data.map some) := by
  have hhandle (t : BlobToken) : f.Does (Stands [] [0, 0] block) (Emit.instr (.blobHandle t)) []
      fun _ => Stands [.handle t] [0, 0] block :=
    .push fun _ => rfl
  have hcreate (t : BlobToken) : f.Does (Stands [.handle t] [0, 0] block)
      (Emit.instr (.call v.create)) [] fun _ => Stands [.view t] [0, 0] block :=
    .step fun _ _ hx => Runtime.exec_create hv hx
  have hstore (t : BlobToken) (s : Slot) : f.Does (Stands [.view t] [0, 0] block)
      (Emit.instr (.slot .store s)) [] fun _ x₀ x =>
        Stands [] [0, 0] block x₀ x ∧ x.slots s = some (.view t) :=
    .instr fun _ _ hx => ⟨_, Runtime.exec_store hx.stack, ⟨rfl, hx.blocks⟩, if_pos rfl⟩
  have haddress (t : BlobToken) (s : Slot) : f.Does (fun x₀ x => Stands [] [0, 0] block x₀ x ∧
      x.slots s = some (.view t)) (Emit.instr (.slot .address s)) [] fun _ x₀ x =>
        Stands [.slotAddress s] [0, 0] block x₀ x ∧ x.slots s = some (.view t) :=
    .instr fun _ x hx => ⟨_, rfl, ⟨congrArg (_ :: ·) hx.1.stack, hx.1.blocks⟩, hx.2⟩
  have hpin (t : BlobToken) (s : Slot) : f.Does (fun x₀ x =>
      Stands [.slotAddress s] [0, 0] block x₀ x ∧ x.slots s = some (.view t))
      (Emit.instr (.call v.pin)) [] fun _ => Stands [.pointer ⟨.data t, 0⟩] [0, 0] block :=
    .instr fun _ _ hx => ⟨_, Runtime.exec_pin hv hx.1.stack hx.2, rfl, hx.1.blocks⟩
  refine (Does.intern _).bind fun t => ?_
  refine (Does.dup.frame _).bind fun _ => ?_
  refine ((hhandle t).frame _).bind fun _ => ?_
  refine ((hcreate t).frame _).bind fun _ => ?_
  refine (Does.allocate _ _).bind fun s => ?_
  refine ((hstore t s).frame _).bind fun _ => ?_
  refine ((haddress t s).frame _).bind fun _ => ?_
  refine ((hpin t s).frame _).bind fun _ => ?_
  refine ((Does.int _).frame _).bind fun _ => ?_
  refine (Does.copyData hb hl).bind fun _ => ?_
  exact .free s

/-! ### Every way to fill -/

theorem ready_fresh (k : Nat) (es : List Expr) :
    f.Ready true k es (List.replicate es.length (List.replicate f.size none)) := by
  induction es generalizing k with
  | nil => exact .nil
  | cons e es ih => exact .cons (by simp) (by simp) (ih (k + 1))

theorem entryBytes_chunk (h : f.Integral) {e : Expr} (he : f.Fits e) {bytes : List UInt8}
    (hb : Emit.entryBytes f.prim e = .ok bytes) (k : Nat) :
    bytes.length = f.size ∧ (e.isConstant = true → bytes.map some = f.chunk k e) := by
  unfold Emit.entryBytes at hb
  unfold Expr.isConstant chunk entryNumber
  cases hc : e.constant with
  | none =>
    rw [hc] at hb
    cases hb
    simp [h.size]
  | some c =>
    obtain ⟨z, hz⟩ := Option.isSome_iff_exists.mp (he.2 c hc)
    rw [hc] at hb
    simp only [Constant.layout_number h.size h.notFloating hz] at hb
    cases hb
    simp [hz]

/-- Data is what is to be there but for the entries that are not constant. -/
theorem blockBytes_ready (h : f.Integral) {es : List Expr} (hfits : ∀ e ∈ es, f.Fits e)
    {data : List UInt8} (hd : Emit.blockBytes f.prim es = .ok data) (k : Nat) :
    ∃ cs, f.Ready false k es cs ∧ cs.flatten = data.map some := by
  induction es generalizing data k with
  | nil =>
    cases hd
    exact ⟨[], .nil, rfl⟩
  | cons e es ih =>
    cases hfirst : Emit.entryBytes f.prim e with
    | error fault =>
      rw [Emit.blockBytes, hfirst] at hd
      cases hd
    | ok first =>
      cases hothers : Emit.blockBytes f.prim es with
      | error fault =>
        rw [Emit.blockBytes, hfirst, hothers] at hd
        cases hd
      | ok others =>
        rw [Emit.blockBytes, hfirst, hothers] at hd
        cases hd
        obtain ⟨cs, hcs, hflat⟩ :=
          ih (fun d hd => hfits d (List.mem_cons_of_mem _ hd)) hothers (k + 1)
        obtain ⟨hlen, hchunk⟩ := entryBytes_chunk h (hfits e List.mem_cons_self) hfirst k
        refine ⟨first.map some :: cs, .cons ?_ ?_ hcs, ?_⟩
        · simpa using hlen
        · intro hw
          exact hchunk (by simpa using hw)
        · simp [hflat]

theorem Ready.of_constant {k : Nat} {es : List Expr} {cs : List (List (Option UInt8))}
    (hr : f.Ready false k es cs) (hc : ∀ e ∈ es, e.isConstant = true) :
    cs = f.chunks k es ∧ openEntries k es = [] := by
  induction hr with
  | nil => exact ⟨rfl, rfl⟩
  | @cons k e es c cs _ hkeep _ ih =>
    have he : e.isConstant = true := hc e List.mem_cons_self
    obtain ⟨rfl, ho⟩ := ih fun d hd => hc d (List.mem_cons_of_mem _ hd)
    rw [chunks_cons, openEntries_cons, ho, hkeep (by simp [he])]
    simp [he]

theorem dataCopy_repeated {env : Env} {elem : Ty} {size : Nat} {data : List UInt8} {b : UInt8}
    (h : Emit.dataCopy env elem size data = .repeated b) : data = List.replicate data.length b := by
  have hwide : Emit.dataCopy.wide env elem size ≠ .repeated b := by
    unfold Emit.dataCopy.wide
    split
    · simp
    · split <;> simp
  unfold Emit.dataCopy at h
  split at h
  · split at h
    · rename_i hall
      cases h
      simpa [List.eq_replicate_iff] using hall
    · exact absurd h hwide
  · exact absurd h hwide

/-- After the data is there, only the entries that are not constant are left. -/
theorem Does.others (h : f.Integral) (hfits : ∀ e ∈ f.inits, f.Fits e) {data : List UInt8}
    {cs : List (List (Option UInt8))} (hr : f.Ready false 0 f.inits cs)
    (hflat : cs.flatten = data.map some) (hl : data.length < 2 ^ 31) {style : FillStyle}
    (hs : style = .mixed ∨ ∀ e ∈ f.inits, e.isConstant = true) :
    f.Does (Stands [] [0] (data.map some)) (Emit.when (style == .mixed)
        (Emit.fillElements f.elem false 0 (f.inits.map (Expr.plan f.env)))) (openEntries 0 f.inits)
      fun _ => Stands [] [0] (f.chunks 0 f.inits).flatten := by
  rw [← hflat]
  cases hm : style == .mixed with
  | true => exact .fillAll h hfits hr (by simpa [hflat] using hl)
  | false =>
    obtain ⟨hcs, hopen⟩ := hr.of_constant (hs.resolve_left (by simpa using hm))
    rw [hopen, ← hcs]
    exact .pure fun _ x hx => hx

theorem Does.fillFresh (h : f.Integral) (hfits : ∀ e ∈ f.inits, f.Fits e)
    (hb : f.inits.length * f.size < 2 ^ 31) :
    f.Does (Stands [] [0] (List.replicate (f.inits.length * f.size) none))
      (Emit.fillElements f.elem true 0 (f.inits.map (Expr.plan f.env))) (openEntries 0 f.inits)
      fun _ => Stands [] [0] (f.chunks 0 f.inits).flatten := by
  rw [← List.flatten_replicate_replicate]
  exact .fillAll h hfits (f.ready_fresh 0 f.inits) (by simpa using hb)

theorem Ready.length_flatten {constants : Bool} {k : Nat} {es : List Expr}
    {cs : List (List (Option UInt8))} (hr : f.Ready constants k es cs) :
    cs.flatten.length = es.length * f.size := by
  induction hr with
  | nil => simp
  | cons hc _ _ ih => simp [hc, ih, Nat.succ_mul, Nat.add_comm]

theorem Does.fillFromData (h : f.Integral) (hfits : ∀ e ∈ f.inits, f.Fits e)
    (hv : f.runtime.view? = f.env.symbols.blobView? f.elem)
    (hb : f.inits.length * f.size < 2 ^ 31) {data : List UInt8}
    (hd : Emit.blockBytes f.prim f.inits = .ok data) {style : FillStyle}
    (hs : style = .mixed ∨ ∀ e ∈ f.inits, e.isConstant = true) (span : Span) :
    f.Does (Stands [] [0] (List.replicate (f.inits.length * f.size) none))
      (Emit.fillFromData f.env f.elem (f.inits.map (Expr.plan f.env)) f.size data style span)
      (openEntries 0 f.inits) fun _ => Stands [] [0] (f.chunks 0 f.inits).flatten := by
  obtain ⟨cs, hr, hflat⟩ := blockBytes_ready h hfits hd 0
  have hlen : f.inits.length * f.size = data.length := by
    simpa [hflat] using hr.length_flatten.symm
  have hl : data.length < 2 ^ 31 := hlen ▸ hb
  have hothers := Does.others h hfits hr hflat hl hs
  rw [hlen]
  unfold Emit.fillFromData
  dsimp only
  split
  · rename_i byte hcopy
    exact (Does.copyRepeated (dataCopy_repeated hcopy) (by simp) hl).bind fun _ => hothers
  · exact (Does.copyBytes (by simp) hl).bind fun _ => hothers
  · rename_i v hcopy
    have hview : f.runtime.view? = some v := hv.trans (Emit.dataCopy_view hcopy)
    exact (Does.copyThroughView hview (by simp) hl).bind fun _ => hothers
  · rw [← hlen]
    exact (Does.report _).bind fun _ => .fillFresh h hfits hb

/-- Whatever the style, every entry ends up in its place. -/
theorem Does.fill (h : f.Integral) (hfits : ∀ e ∈ f.inits, f.Fits e)
    (hv : f.runtime.view? = f.env.symbols.blobView? f.elem)
    (hb : f.inits.length * f.size < 2 ^ 31) (span : Span) :
    f.Does (Stands [] [0] (List.replicate (f.inits.length * f.size) none))
      (Emit.fill f.env f.elem (f.inits.map (Expr.plan f.env)) span) (openEntries 0 f.inits)
      fun _ => Stands [] [0] (f.chunks 0 f.inits).flatten := by
  have hblit : Emit.blittable? f.elem = some f.prim := by
    simp [Emit.blittable?, h.prim, Prim.isBlittable, h.size]
  unfold Emit.fill
  rw [Expr.map_plan_expr, hblit]
  dsimp only
  split
  · exact .fillFresh h hfits hb
  · rename_i hstyle
    split
    · exact .fail _ _
    · rename_i data hd
      rw [h.size, Option.getD_some]
      exact .fillFromData h hfits hv hb hd (Emit.fillStyle_cases hstyle) span

/-! ### The block as a whole -/

theorem Integral.foldedSize (h : f.Integral) {count : Expr} {c : Constant}
    (hc : count.constant = some c) {n : Nat} (hn : c.number? = some (n : Int))
    (hb : n * f.size < 2 ^ 31) :
    ∃ v, Emit.foldedSize? f.elem count = some v ∧ v.toUInt32.toNat = n * f.size := by
  obtain ⟨v, hv, hvn⟩ := c.immediate_of_lt hn
    (Nat.lt_of_le_of_lt (Nat.le_mul_of_pos_right n h.size_bounds.1) hb)
  refine ⟨(UInt32.ofNat (n * f.size)).toInt32, ?_, ?_⟩
  · change (f.elem.size?.bind fun size => (count.constant.bind Constant.immediate?).bind fun v =>
      if v.toUInt32.toNat * size < UInt32.size - 1 then
        some (UInt32.ofNat (v.toUInt32.toNat * size)).toInt32 else none) = _
    rw [h.elem_size, hc, Option.bind_some, Option.bind_some, hv, Option.bind_some, hvn]
    exact if_pos (Nat.lt_trans hb (by decide))
  · exact Nat.mod_eq_of_lt (Nat.lt_trans hb (by decide))

theorem Does.blockSize (h : f.Integral) {count : Expr} {c : Constant}
    (hc : count.constant = some c) {n : Nat} (hn : c.number? = some (n : Int))
    (hb : n * f.size < 2 ^ 31) :
    f.Does (fun x₀ x => x = x₀) (Emit.blockSize f.elem (count.plan f.env)) [] fun _ x₀ x =>
      x = x₀.push (.native (n * f.size : Nat)) := by
  obtain ⟨v, hv, hvn⟩ := h.foldedSize hc hn hb
  have hint : f.Does (fun x₀ x => x = x₀) (Emit.int v) [] fun _ x₀ x => x = x₀.push (.int32 v) :=
    .instr fun _ x hx => ⟨_, rfl, hx ▸ rfl⟩
  unfold Emit.blockSize
  rw [Expr.plan_expr, hv]
  refine hint.bind fun _ => .instr ?_
  rintro x₀ x rfl
  exact ⟨_, rfl, by rw [hvn]; rfl⟩

theorem Does.localloc {n : Nat} :
    f.Does (fun x₀ x => x = x₀.push (.native n)) (Emit.instr .localloc) [] fun _ =>
      Stands [] [0] (List.replicate n none) := by
  refine .instr ?_
  rintro x₀ x rfl
  exact ⟨_, Runtime.exec_localloc rfl, rfl, rfl⟩

theorem Does.stackalloc (h : f.Integral) (hfits : ∀ e ∈ f.inits, f.Fits e)
    (hv : f.runtime.view? = f.env.symbols.blobView? f.elem) {count : Expr} {c : Constant}
    (hc : count.constant = some c) (hn : c.number? = some (f.inits.length : Int))
    (hb : f.inits.length * f.size < 2 ^ 31) (span : Span) :
    f.Does (fun x₀ x => x = x₀) (Emit.stackalloc f.env f.elem (count.plan f.env)
        (f.inits.map (Expr.plan f.env)) true span) (openEntries 0 f.inits)
      fun _ => Stands [] [0] (f.chunks 0 f.inits).flatten :=
  (Does.blockSize h hc hn hb).bind fun _ => Does.localloc.bind fun _ => .fill h hfits hv hb span

theorem take_drop_chunks {k i : Nat} {es : List Expr} {e : Expr} (hi : es[i]? = some e) :
    ((f.chunks k es).flatten.drop (i * f.size)).take f.size = f.chunk (k + i) e := by
  induction es generalizing k i with
  | nil => cases hi
  | cons d es ih =>
    rw [chunks_cons, List.flatten_cons]
    cases i with
    | zero =>
      cases hi
      simp [List.take_left' (length_chunk k e)]
    | succ i =>
      rw [Nat.succ_mul, Nat.add_comm (i * f.size), ← List.drop_drop,
        List.drop_left' (length_chunk k d), ih hi, Nat.add_right_comm, Nat.add_assoc]

theorem ready_chunks (k : Nat) (es : List Expr) : f.Ready false k es (f.chunks k es) := by
  induction es generalizing k with
  | nil => exact .nil
  | cons e es ih =>
    rw [chunks_cons]
    exact .cons (length_chunk k e) (fun _ => rfl) (ih (k + 1))

end Filling

namespace Emit

/-- However a block of integers is filled, its code leaves the address of a new block on the stack
in which each entry is the bytes of its number, no other memory is written, and the code of the
entries that are not constant is there once each, in order. -/
theorem stackalloc_fills_block {env : Env} {elem : Ty} {p : Prim} {size : Nat} {count : Expr}
    {c : Constant} {inits : List Expr} {span : Span} {s t : State} (numbers : Nat → Int)
    (he : elem.primitive? = some p) (hs : p.size? = some size) (hf : p.isFloating = false)
    (hc : count.constant = some c) (hn : c.number? = some (inits.length : Int))
    (hi : ∀ e ∈ inits, e.ty = elem ∧ ∀ c, e.constant = some c → c.number?.isSome)
    (hb : inits.length * size < 2 ^ 31)
    (h : stackalloc env elem (count.plan env) (Expr.planList env inits) true span s = .ok () t) :
    ∃ pieces : List Piece, s.stream.Adds t.stream (pieces.flatMap Piece.code) ∧
      pieces.filterMap Piece.index? = openEntries 0 inits ∧
      (∀ k code, .entry k code ∈ pieces → ∃ e s t, inits[k]? = some e ∧
        value env e true s = .ok () t ∧ s.stream.Adds t.stream code) ∧
      ∀ x, ∃ y block, Piece.runAll ⟨t.blobs, env.symbols.blobView? elem⟩
          (fun k => .ofNumber size (numbers k)) pieces x = some y ∧
        y.stack = .pointer ⟨.block x.blocks.length, 0⟩ :: x.stack ∧
        y.blocks = x.blocks ++ [block] ∧ block.length = inits.length * size ∧
        ∀ (k : Nat) e, inits[k]? = some e → (block.drop (k * size)).take size =
          (lowBytes size (entryNumber numbers k e)).map some := by
  let f : Filling := ⟨env, ⟨t.blobs, env.symbols.blobView? elem⟩, elem, p, size, inits, numbers⟩
  have hfills := Filling.Does.stackalloc (f := f) ⟨he, hs, hf⟩ hi rfl hc hn hb span
  rw [Expr.planList_eq] at h
  obtain ⟨pieces, hadds, hopen, hent, hrun⟩ := hfills.lays h (.refl _)
  refine ⟨pieces, hadds, hopen, hent, ?_⟩
  intro x
  obtain ⟨y, hy, hstack, hblocks⟩ := hrun x x rfl
  refine ⟨y, _, hy, hstack, hblocks, (f.ready_chunks 0 inits).length_flatten, ?_⟩
  intro k e hk
  rw [Filling.take_drop_chunks (f := f) hk, Nat.zero_add]
  rfl

/-- Three constants of two bytes, and an argument among them. -/
def mixedEntries : List Expr :=
  let i16 := Ty.ofPrim .i16
  let constant (v : Int64) : Expr := .literal ⟨i16, some (.int v), .synthesized⟩
  [constant 258, .param (.plain i16) ⟨"p", 0, i16, .byValue, .unscoped⟩, constant (-1), constant 7]

theorem stackalloc_fills_block_mixedEntries :
    let env := { Env.bare (.ordinary .object) with symbols := ⟨[], true⟩ }
    let count := Expr.literal ⟨.ofPrim .i32, some (.int 4), .synthesized⟩
    ∃ t pieces, stackalloc env (.ofPrim .i16) (count.plan env) (Expr.planList env mixedEntries) true
        .synthesized .empty = .ok () t ∧ t.blobs.size = 1 ∧
      State.empty.stream.Adds t.stream (pieces.flatMap Piece.code) ∧
      pieces.filterMap Piece.index? = [1] ∧
      ∃ y block, Piece.runAll ⟨t.blobs, env.symbols.blobView? (.ofPrim .i16)⟩
          (fun _ => .ofNumber 2 (-2)) pieces ⟨[], fun _ => none, []⟩ = some y ∧
        y.stack = [.pointer ⟨.block 0, 0⟩] ∧ y.blocks = [block] ∧ block.length = 8 ∧
        (block.drop 0).take 2 = [some 2, some 1] ∧
        (block.drop 2).take 2 = [some 254, some 255] := by
  intro env count
  have hy : yields (stackalloc env (.ofPrim .i16) (count.plan env)
      (Expr.planList env mixedEntries) true .synthesized) .empty
      (fun _ t => t.blobs.size == 1) = true := by decide +kernel
  obtain ⟨_, t, ht, hsize⟩ := ok_of_yields hy
  have hi : ∀ e ∈ mixedEntries, e.ty = .ofPrim .i16 ∧
      ∀ c, e.constant = some c → c.number?.isSome := by
    simp [mixedEntries, Expr.ty, Expr.constant, Expr.info, Info.plain, Constant.number?]
  obtain ⟨pieces, hadds, hopen, -, hrun⟩ := stackalloc_fills_block (fun _ => -2)
    rfl rfl rfl rfl rfl hi (by decide) ht
  obtain ⟨y, block, hy, hstack, hblocks, hlen, hentry⟩ := hrun ⟨[], fun _ => none, []⟩
  exact ⟨t, pieces, ht, by simpa using hsize, hadds, hopen, y, block, hy, hstack, hblocks, hlen,
    hentry 0 _ rfl, hentry 1 _ rfl⟩

end Emit

end TypedStack
