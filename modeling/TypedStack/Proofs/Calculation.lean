import TypedStack.Proofs.Processor

/-! Calculation. Code without branches runs one instruction after the other up to the first that
halts, so that a run of it is a function of the state at its start. The table of conversions and
the ways to load a constant are measured by what such a run leaves on the stack. -/
namespace TypedStack

namespace Prim

variable {W : WordSize} {p : Prim} {z : Int}

/-- Integers of whatever width; a truth value is none. -/
def isInteger (p : Prim) : Bool := p.isNumeric && !p.isFloating

theorem isInteger_iff : p.isInteger = true ↔ p ≠ bool ∧ p.isFloating = false := by
  simp [isInteger, isNumeric]

theorem wrap_unsigned (h : p.isUnsigned = true) : p.wrap W z = z % 2 ^ p.bits W := by
  have hb : p ≠ bool := by
    rintro rfl
    cases h
  have hlow : p.low W = 0 := if_pos (.inl h)
  rw [wrap, count_eq hb, hlow, Int.sub_zero, Int.add_zero]

theorem wrap_signed (hb : p ≠ bool) (h : p.isUnsigned = false) :
    p.wrap W z = z.bmod (2 ^ p.bits W) := by
  have hhalf : (2 : Int) ^ p.bits W = 2 * 2 ^ (p.bits W - 1) := by
    cases W <;> cases p <;> rfl
  have hlow : p.low W = -2 ^ (p.bits W - 1) := if_neg (by simp [h, hb])
  obtain ⟨hle, hlt⟩ := p.wrap_inRange (W := W) z
  rw [hlow] at hle hlt
  rw [count_eq hb] at hlt
  have hsame : (p.wrap W z).bmod (2 ^ p.bits W) = z.bmod (2 ^ p.bits W) := by
    have hmod := wrap_emod (W := W) hb z
    rw [← Int.emod_bmod, ← Int.emod_bmod z]
    push_cast
    rw [hmod]
  rw [← hsame, Int.bmod_eq_of_le]
  · push_cast
    omega
  · push_cast
    omega

end Prim

namespace Word

variable {W : WordSize}

theorem convert_wraps {t : ConvTarget} {q : Prim} (h : t.prim? = some q) (w : Word W) :
    w.convert t .unchecked = .ok (.ofInt q (q.wrap W (w.read q.isUnsigned))) := by
  rw [convert, h]
  rfl

/-- In bits, a conversion without a check cuts the word to the width of the target, or extends it to
that, and extends the result to a word of the stack, each time as the target is signed. -/
theorem convert_bits {t : ConvTarget} {q : Prim} (h : t.prim? = some q) (w : Word W) :
    w.convert t .unchecked = .ok ⟨q.kind,
      if q.isUnsigned then (w.value.setWidth (q.bits W)).setWidth _
      else (w.value.signExtend (q.bits W)).signExtend _⟩ := by
  have hb : q ≠ .bool := by
    rintro rfl
    cases t <;> cases h
  rw [convert_wraps h, ofInt]
  congr 2
  cases hu : q.isUnsigned with
  | true =>
    rw [Prim.wrap_unsigned hu, if_pos rfl]
    apply BitVec.eq_of_toNat_eq
    rw [BitVec.toNat_ofInt, BitVec.toNat_setWidth, BitVec.toNat_setWidth]
    exact_mod_cast Int.toNat_natCast _
  | false =>
    rw [Prim.wrap_signed hb hu, if_neg Bool.false_ne_true]
    simp [read, BitVec.signExtend]

/-- The product of an address-sized integer and a 32-bit one, both without a sign. Machines do not
agree on how a negative 32-bit integer is made address-sized, so it has no product. -/
def times (a b : Word W) : Except Halt (Word W) :=
  match a, b with
  | ⟨.native, m⟩, ⟨.int32, n⟩ =>
    if n.msb then .error .undefined
    else if m.toNat * n.toNat < 2 ^ W.bits then .ok (.ofInt .nuint (m.toNat * n.toNat))
    else .error .overflow
  | _, _ => .error .undefined

end Word

namespace Cpu

variable {W : WordSize} {x y : Cpu W} {w : Word W} {st : List (Word W)}

def calculate (x : Cpu W) (i : Instr) : Except Halt (Cpu W) :=
  match i, x.stack with
  | .mulOvfUn, b :: a :: st => (a.times b).map fun w => { x with stack := w :: st }
  | _, _ => do
    let (y, jumps) ← x.exec i
    if jumps then .error .undefined else .ok y

def calculateAll (x : Cpu W) (code : List Instr) : Except Halt (Cpu W) :=
  code.foldlM calculate x

theorem calculate_conv (t : ConvTarget) (o : Overflow) (h : x.stack = w :: st) :
    x.calculate (.conv t o) = (w.convert t o).map fun v => { x with stack := v :: st } := by
  change (x.exec (.conv t o) >>= fun r => if r.2 then .error .undefined else .ok r.1) = _
  rw [exec_conv t o h]
  cases w.convert t o <;> rfl

theorem calculate_mulOvfUn {a b : Word W} (h : x.stack = b :: a :: st) :
    x.calculate .mulOvfUn = (a.times b).map fun w => { x with stack := w :: st } := by
  unfold calculate
  rw [h]

theorem calculateAll_cons (x : Cpu W) (i : Instr) (code : List Instr) :
    x.calculateAll (i :: code) = x.calculate i >>= fun y => y.calculateAll code := rfl

theorem calculateAll_append (x : Cpu W) (code code' : List Instr) :
    x.calculateAll (code ++ code') = x.calculateAll code >>= fun y => y.calculateAll code' :=
  List.foldlM_append

/-- Code that converts the word on top does nothing else. -/
theorem calculateAll_conv {code : List Instr} (hx : x.stack = w :: st)
    (h : w.convertAll code ≠ .error .undefined) :
    x.calculateAll code = (w.convertAll code).map fun v => { x with stack := v :: st } := by
  induction code generalizing x w with
  | nil =>
    change Except.ok x = .ok { x with stack := w :: st }
    rw [← hx]
  | cons i code ih =>
    cases i with
    | conv t o =>
      rw [convertAll_cons] at h ⊢
      rw [calculateAll_cons, calculate_conv t o hx]
      cases hw : w.convert t o with
      | error fault => rfl
      | ok u =>
        rw [hw] at h
        exact ih (x := { x with stack := u :: st }) rfl h
    | _ => exact absurd rfl h

/-- From whatever state it is run, the code puts this word on the stack and changes nothing else. -/
def Loads (code : List Instr) (w : Word W) : Prop :=
  ∀ x : Cpu W, x.calculateAll code = .ok { x with stack := w :: x.stack }

namespace Loads

variable {code code' : List Instr} {a b v : Word W}

theorem ldcI4 (v : Int32) : Loads [.ldcI4 v] (⟨.int32, v.toBitVec⟩ : Word W) := fun _ => rfl

theorem ldcI8 (v : Int64) : Loads [.ldcI8 v] (⟨.int64, v.toBitVec⟩ : Word W) := fun _ => rfl

theorem conv {t : ConvTarget} {o : Overflow} (h : Loads code w) (hw : w.convert t o = .ok v) :
    Loads (code ++ [.conv t o]) v := by
  intro x
  have hlast : (⟨w :: x.stack, x.cells⟩ : Cpu W).calculateAll [.conv t o] =
      .ok { x with stack := v :: x.stack } := by
    rw [calculateAll_cons, calculate_conv t o rfl, hw]
    rfl
  rw [calculateAll_append, h x]
  exact hlast

theorem factors (ha : Loads code a) (hb : Loads code' b) (x : Cpu W) :
    x.calculateAll (code ++ code') = .ok { x with stack := b :: a :: x.stack } := by
  rw [calculateAll_append, ha x]
  exact hb _

theorem times (ha : Loads code a) (hb : Loads code' b) (h : a.times b = .ok w) :
    Loads (code ++ code' ++ [.mulOvfUn]) w := by
  intro x
  have hlast : (⟨b :: a :: x.stack, x.cells⟩ : Cpu W).calculateAll [.mulOvfUn] =
      .ok { x with stack := w :: x.stack } := by
    rw [calculateAll_cons, calculate_mulOvfUn rfl, h]
    rfl
  rw [calculateAll_append, factors ha hb x]
  exact hlast

end Loads

end Cpu

namespace Numeric

variable {W : WordSize} {p q : Prim}

theorem conversion_of_integers (hp : p ≠ .bool) (hq : q ≠ .bool) (checked : Bool) :
    ∃ code, conversion p q checked = some code := by
  cases q with
  | bool => exact absurd rfl hq
  | _ => exact ⟨_, if_neg hp⟩

/-- The table of conversions is right for every number of the source. Without a check, the code
makes the number of the target that differs by a multiple of how many there are. With a check, it
makes the number itself where the target has it, and overflows where not. -/
theorem conversion_exact (hp : p.isInteger = true) (hq : q.isInteger = true) {z : Int}
    (hz : p.InRange W z) {x : Cpu W} {st : List (Word W)} (hx : x.stack = .ofInt p z :: st) :
    (∃ code r, conversion p q false = some code ∧ q.InRange W r ∧
      r % 2 ^ q.bits W = z % 2 ^ q.bits W ∧
      x.calculateAll code = .ok { x with stack := .ofInt q r :: st }) ∧
    ∃ code, conversion p q true = some code ∧ x.calculateAll code =
      if q.InRange W z then .ok { x with stack := .ofInt q z :: st } else .error .overflow := by
  obtain ⟨hpb, hpf⟩ := Prim.isInteger_iff.mp hp
  obtain ⟨hqb, hqf⟩ := Prim.isInteger_iff.mp hq
  -- what the run makes of the word on top is what the table is checked against
  have hrun (checked : Bool) {code : List Instr} (h : conversion p q checked = some code) :
      x.calculateAll code = (Word.ofResult q (q.convert W checked z)).map
        fun v => { x with stack := v :: st } := by
    have hword := convertAll_conversion hpf hqf h hz
    rw [← hword]
    refine Cpu.calculateAll_conv hx ?_
    rw [hword]
    cases q.convert W checked z <;> simp [Word.ofResult]
  obtain ⟨code, hcode⟩ := conversion_of_integers hpb hqb false
  obtain ⟨code', hcode'⟩ := conversion_of_integers hpb hqb true
  refine ⟨⟨code, q.wrap W z, hcode, q.wrap_inRange z, Prim.wrap_emod hqb z, hrun false hcode⟩,
    code', hcode', ?_⟩
  rw [hrun true hcode']
  split
  · rename_i hin
    rw [Prim.convert_of_inRange true hin]
    rfl
  · rename_i hout
    simp [Prim.convert, hout, Word.ofResult]
    rfl

/-- A negative number becomes the greatest addresses, or an overflow. -/
theorem conversion_exact_minusOne :
    let x : Cpu .w64 := ⟨[.ofInt .i32 (-1)], fun _ => .ofInt .i32 0⟩
    (∃ code, conversion .i32 .nuint false = some code ∧
      x.calculateAll code = .ok { x with stack := [.ofInt .nuint (2 ^ 64 - 1)] }) ∧
    ∃ code, conversion .i32 .nuint true = some code ∧ x.calculateAll code = .error .overflow := by
  intro x
  have hx : x.stack = [.ofInt .i32 (-1)] := rfl
  have hz : Prim.i32.InRange .w64 (-1) := by decide
  obtain ⟨⟨code, r, hcode, hr, hsame, hrun⟩, code', hcode', hrun'⟩ :=
    conversion_exact (p := .i32) (q := .nuint) rfl rfl hz hx
  have hhigh : r < 2 ^ 64 := Int.lt_of_lt_of_le hr.2 (by decide)
  have hlow : 0 ≤ r := hr.1
  obtain rfl : r = 2 ^ 64 - 1 := by
    change r % 2 ^ 64 = -1 % 2 ^ 64 at hsame
    omega
  rw [if_neg (by decide)] at hrun'
  exact ⟨⟨code, hcode, hrun⟩, code', hcode', hrun'⟩

end Numeric

/-! ### Constants -/

namespace Prim

variable {W : WordSize} {p : Prim} {z : Int}

/-- Of what lies on the stack in 32 bits, only the numbers of one type need the highest bit for
more than a sign. -/
theorem InRange.narrow (h : p.InRange W z) (hk : p.kind = .int32) :
    (-2 ^ 31 ≤ z ∧ z < 2 ^ 31) ∨ (p = u32 ∧ 0 ≤ z ∧ z < 2 ^ 32) := by
  by_cases hp : p = u32
  · subst hp
    exact .inr ⟨rfl, h.unsigned rfl⟩
  · have hin : p.Within W i32 := by
      cases W <;> cases p <;> first | decide | exact absurd rfl hp | cases hk
    exact .inl ((hin.inRange h).signed rfl)

end Prim

namespace Constant

variable {W : WordSize} {c : Constant} {p : Prim} {z : Int}

def isSigned : Constant → Bool
  | int _ => true
  | _ => false

/-- An immediate has room for all numbers of a narrow type, but a constant with a sign keeps one bit
for it. -/
theorem immediate_isSome (hz : c.number? = some z) (hr : p.InRange W z) (hk : p.kind = .int32) :
    c.immediate?.isSome = true ↔ ¬(c.isSigned = true ∧ p = .u32 ∧ 2 ^ 31 ≤ z) := by
  have hrange := hr.narrow hk
  cases c with
  | null | float32 _ | float64 _ => cases hz
  | bool b => simp [immediate?, isSigned]
  | char u => simp [immediate?, isSigned]
  | int v =>
    obtain rfl : v.toInt = z := Option.some.inj hz
    have hsome : (int v).immediate?.isSome = true ↔ fitsInt32 v = true := by
      simp [immediate?]
    rw [hsome, fitsInt32_iff]
    simp only [isSigned, true_and]
    rcases hrange with hrange | ⟨rfl, hrange⟩
    · omega
    · simp
      omega
  | uint v =>
    obtain rfl : (v.toNat : Int) = z := Option.some.inj hz
    have hlt : v.toNat < UInt32.size := by
      have : UInt32.size = 2 ^ 32 := rfl
      omega
    simp [immediate?, isSigned, hlt]

end Constant

namespace Word

variable {W : WordSize} {z : Int}

theorem read_emod_toInt (u : Bool) (w : Word W) :
    w.read u % 2 ^ w.kind.bits W = w.value.toInt % 2 ^ w.kind.bits W := by
  cases u with
  | true => exact (toInt_emod_word w.value).symm
  | false => rfl

/-- A conversion to a type that fills its word keeps what is the same up to a multiple of the
type's range. -/
theorem convert_full {t : ConvTarget} {q : Prim} (h : t.prim? = some q) (hq : q ≠ .bool)
    (hfull : q.bits W = q.kind.bits W) {w : Word W}
    (hz : w.read q.isUnsigned % 2 ^ q.bits W = z % 2 ^ q.bits W) :
    w.convert t .unchecked = .ok (.ofInt q z) := by
  rw [convert_wraps h]
  refine congrArg _ (ofInt_congr rfl ?_)
  rw [← hfull, Prim.wrap_emod hq, hz]

/-- A number that goes through 32 bits is itself again, if it is extended by its sign, if no more
bits are asked for, or if it has none. -/
theorem read_int32 {v : Int64} (hv : Constant.fitsInt32 v = true) {u : Bool}
    (h : u = false ∨ W = .w32 ∨ 0 ≤ v.toInt) :
    (⟨.int32, v.toInt32.toBitVec⟩ : Word W).read u % 2 ^ W.bits = v.toInt % 2 ^ W.bits := by
  have hbounds := Constant.fitsInt32_iff.mp hv
  have hsame : v.toInt32.toBitVec.toInt = v.toInt := by
    change v.toInt32.toInt = _
    rw [Int64.toInt_toInt32]
    exact Int.bmod_eq_of_le (by omega) (by omega)
  have hread := read_emod_toInt u (⟨.int32, v.toInt32.toBitVec⟩ : Word W)
  change _ % 2 ^ 32 = v.toInt32.toBitVec.toInt % 2 ^ 32 at hread
  rw [hsame] at hread
  rcases h with rfl | rfl | hpos
  · exact congrArg (· % _) hsame
  · exact hread
  · cases u with
    | false => exact congrArg (· % _) hsame
    | true =>
      have hlt := v.toInt32.toBitVec.isLt
      change (v.toInt32.toBitVec.toNat : Int) % 2 ^ 32 = _ at hread
      change (v.toInt32.toBitVec.toNat : Int) % _ = _
      congr 1
      omega

end Word

namespace Emit

variable {W : WordSize} {c : Constant} {p : Prim} {z : Int} {ty : Ty}

/-- The code of an address-sized constant. Through 32 bits a number comes out as itself only if it
is extended as it is signed. -/
theorem addressSized_loads {v : Int64} (hv : v.toInt % 2 ^ 64 = z % 2 ^ 64) {t : ConvTarget}
    (ht : t.prim? = some p) (hp : p.kind = .native)
    (hsmall : Constant.fitsInt32 v = true → p.isUnsigned = false ∨ W = .w32 ∨ 0 ≤ v.toInt) :
    ∃ code, addressSized v t = instrs code ∧ Cpu.Loads code (.ofInt p z : Word W) := by
  have hbits : p.bits W = W.bits ∧ p.kind.bits W = W.bits ∧ p ≠ .bool := by
    cases p <;> cases hp <;> simp [Prim.bits, Prim.kind, Prim.size?, WordKind.bits]
  have hdvd : (2 : Int) ^ W.bits ∣ 2 ^ 64 := by
    cases W <;> decide
  have hz : v.toInt % 2 ^ W.bits = z % 2 ^ W.bits := by
    rw [← Int.emod_emod_of_dvd _ hdvd, hv, Int.emod_emod_of_dvd _ hdvd]
  -- what is loaded has to be the number only up to a multiple of the range of addresses
  have hconv {w : Word W} (hw : w.read p.isUnsigned % 2 ^ W.bits = v.toInt % 2 ^ W.bits) :
      w.convert t .unchecked = .ok (.ofInt p z) := by
    refine Word.convert_full ht hbits.2.2 (hbits.1.trans hbits.2.1.symm) ?_
    rw [hbits.1, hw, hz]
  unfold addressSized
  split
  · rename_i hfits
    exact ⟨[_, _], rfl, (Cpu.Loads.ldcI4 _).conv (hconv (Word.read_int32 hfits (hsmall hfits)))⟩
  · have hread : (⟨.int64, v.toBitVec⟩ : Word W).read p.isUnsigned % 2 ^ 64 = v.toInt % 2 ^ 64 :=
      Word.read_emod_toInt _ _
    refine ⟨[_, _], rfl, (Cpu.Loads.ldcI8 v).conv (hconv ?_)⟩
    rw [← Int.emod_emod_of_dvd _ hdvd, hread, Int.emod_emod_of_dvd _ hdvd]

/-- An integral constant is loaded as the word of its number, whether or not its type has that
number, if the immediate or the extension has room for it. -/
theorem constant_loads (hz : c.number? = some z) (hp : ty.primitive? = some p)
    (hf : p.isFloating = false) (himm : p.kind = .int32 → c.immediate?.isSome = true)
    (hsmall : p = .nuint → W = .w64 → 0 ≤ z ∧ z < 2 ^ 64 - 2 ^ 31) (span : Span) :
    ∃ code, constant c ty span = instrs code ∧ Cpu.Loads code (.ofInt p z : Word W) := by
  obtain ⟨v, hv, hvz⟩ := Constant.integral_number hz
  have hc : constant c ty span = integral c (c.integral?.getD 0) ty span := by
    cases c <;> first | rfl | cases hz
  have wide (hk : p.kind = .int64) : Cpu.Loads [.ldcI8 v] (.ofInt p z : Word W) := by
    rw [Word.ofInt_eq_mk hk (v := v.toBitVec) hvz]
    exact .ldcI8 v
  have narrow (hk : p.kind = .int32) {i : Int32} (hi : c.immediate? = some i) :
      Cpu.Loads [.ldcI4 i] (.ofInt p z : Word W) := by
    rw [Word.ofInt_eq_mk hk (v := i.toBitVec) (Constant.immediate_number hz hi)]
    exact .ldcI4 i
  -- a word that fits 32 bits only with its sign stands for one of the numbers left out
  have hnuint (h : p = .nuint) (hfits : Constant.fitsInt32 v = true) : W = .w32 ∨ 0 ≤ v.toInt := by
    cases W with
    | w32 => exact .inl rfl
    | w64 =>
      have := Constant.fitsInt32_iff.mp hfits
      have := hsmall h rfl
      exact .inr (by omega)
  rw [hc, hv, Option.getD_some]
  unfold integral
  rw [hp, Option.getD_some]
  cases p with
  | f32 | f64 => cases hf
  | i64 | u64 => exact ⟨[_], rfl, wide rfl⟩
  | nint => exact addressSized_loads hvz rfl rfl fun _ => .inl rfl
  | nuint => exact addressSized_loads hvz rfl rfl fun hfits => .inr (hnuint rfl hfits)
  | _ =>
    obtain ⟨i, hi⟩ := Option.isSome_iff_exists.mp (himm rfl)
    dsimp only
    rw [hi]
    exact ⟨[_], rfl, narrow rfl hi⟩

theorem plan_constant {env : Env} {e : Expr} (h : e.constant = some c) :
    (e.plan env).value true = constant c e.ty e.span := by
  rw [Expr.plan_value_constant h]
  rfl

/-- Every integral constant whose number its type has is loaded as that number. A signed constant
that needs all 32 bits of an unsigned type is refused instead. Nothing is said of the greatest
unsigned addresses of 64 bits. -/
theorem constant_loads_itself {env : Env} {e : Expr} (hc : e.constant = some c)
    (hz : c.number? = some z) (hp : e.ty.primitive? = some p) (hf : p.isFloating = false)
    (hr : p.InRange W z) (hsmall : p = .nuint → W = .w64 → z < 2 ^ 64 - 2 ^ 31) (s : State) :
    (¬(c.isSigned = true ∧ p = .u32 ∧ 2 ^ 31 ≤ z) → ∃ t code, value env e true s = .ok () t ∧
      s.stream.Adds t.stream code ∧ Cpu.Loads code (.ofInt p z : Word W)) ∧
    (c.isSigned = true ∧ p = .u32 ∧ 2 ^ 31 ≤ z →
      value env e true s = .error ⟨.immediateTooWide c e.ty, e.span⟩ s) := by
  rw [value, plan_constant hc]
  constructor
  · intro hfits
    have hpos (h : p = .nuint) : 0 ≤ z := by
      subst h
      exact (hr.unsigned rfl).1
    obtain ⟨code, hcode, hloads⟩ := constant_loads (W := W) hz hp hf
      (fun hk => (Constant.immediate_isSome hz hr hk).mpr hfits)
      (fun h hW => ⟨hpos h, hsmall h hW⟩) e.span
    obtain ⟨t, ht, hadds⟩ := instrs_ok code s
    exact ⟨t, code, hcode ▸ ht, hadds, hloads⟩
  · intro hwide
    obtain ⟨hs, rfl, hbig⟩ := hwide
    have hnone : c.immediate? = none := by
      have := mt (Constant.immediate_isSome hz hr rfl).mp (not_not.mpr ⟨hs, rfl, hbig⟩)
      simpa using this
    cases c with
    | int v =>
      change integral (.int v) v e.ty e.span s = _
      rw [integral, hp, hnone]
      rfl
    | _ => cases hs

/-- A mask of all bits, in an enum over unsigned 32-bit integers. -/
theorem constant_loads_itself_mask :
    let mask : Ty := .simple "Mask" (.enumType .u32)
    let e : Expr := .literal ⟨mask, some (.uint 4294967295), .synthesized⟩
    ∃ t code, value (.bare (.ordinary .object)) e true .empty = .ok () t ∧
      State.empty.stream.Adds t.stream code ∧
      Cpu.Loads code (.ofInt .u32 4294967295 : Word .w64) := by
  intro mask e
  have hr : Prim.u32.InRange .w64 4294967295 := by decide
  exact (constant_loads_itself (e := e) rfl rfl rfl rfl hr nofun .empty).1 fun h => nomatch h.1

/-- A number of the type that is not loaded, and one that is loaded as another. -/
theorem wide_constants_missed :
    let env := Env.bare (.ordinary .object)
    let signed : Expr := .literal ⟨.ofPrim .u32, some (.int 3000000000), .synthesized⟩
    let address : Expr := .literal ⟨.ofPrim .nuint, some (.uint 18446744073709551615), .synthesized⟩
    (∀ W, Prim.u32.InRange W 3000000000) ∧
      value env signed true .empty =
        .error ⟨.immediateTooWide (.int 3000000000) (.ofPrim .u32), .synthesized⟩ .empty ∧
      Prim.nuint.InRange .w64 18446744073709551615 ∧
      ∃ t code, value env address true .empty = .ok () t ∧ State.empty.stream.Adds t.stream code ∧
        Cpu.Loads code (.ofInt .nuint 4294967295 : Word .w64) ∧
        (.ofInt .nuint 4294967295 : Word .w64) ≠ .ofInt .nuint 18446744073709551615 := by
  intro env signed address
  refine ⟨fun W => by cases W <;> decide, rfl, by decide, ?_⟩
  have hcode : value env address true = instrs [.ldcI4 (-1), .conv .u .unchecked] := rfl
  obtain ⟨t, ht, hadds⟩ := instrs_ok [.ldcI4 (-1), .conv .u .unchecked] .empty
  have hword : (⟨.int32, (-1 : Int32).toBitVec⟩ : Word .w64).convert .u .unchecked =
      .ok (.ofInt .nuint 4294967295) := Word.convert_bits rfl _
  exact ⟨t, _, hcode ▸ ht, hadds, (Cpu.Loads.ldcI4 (-1)).conv hword, by decide⟩

end Emit

end TypedStack
