import TypedStack.Numeric
import TypedStack.Proofs.Bytes

/-! Numbers on the stack. Every integral type has a range of numbers, and on the stack a number is
a word of one of three kinds. Reading a word back gives the number only if it is read with the sign
it was made with, and the table of conversions is checked against that. -/
namespace TypedStack

inductive WordSize where
  | w32
  | w64
  deriving DecidableEq, Repr

def WordSize.bits : WordSize → Nat
  | w32 => 32
  | w64 => 64

/-- The integers that the stack tells apart. -/
inductive WordKind where
  | int32
  | int64
  | native
  deriving DecidableEq, Repr

def WordKind.bits (W : WordSize) : WordKind → Nat
  | int32 => 32
  | int64 => 64
  | native => W.bits

namespace Prim

/-- Integers of the same width on every machine. -/
def isFixed (p : Prim) : Bool := p.isBlittable && !p.isFloating

def kind (p : Prim) : WordKind :=
  match p.size? with
  | none => .native
  | some 8 => .int64
  | some _ => .int32

variable (W : WordSize)

def bits (p : Prim) : Nat := p.size?.elim W.bits (8 * ·)

def low (p : Prim) : Int := if p.isUnsigned ∨ p = bool then 0 else -2 ^ (p.bits W - 1)

/-- How many numbers an integral type has. -/
def count (p : Prim) : Int := if p = bool then 2 else 2 ^ p.bits W

def InRange (p : Prim) (z : Int) : Prop := p.low W ≤ z ∧ z < p.low W + p.count W

instance (p : Prim) (z : Int) : Decidable (p.InRange W z) := inferInstanceAs (Decidable (_ ∧ _))

def Within (p q : Prim) : Prop := q.low W ≤ p.low W ∧ p.low W + p.count W ≤ q.low W + q.count W

instance (p q : Prim) : Decidable (p.Within W q) := inferInstanceAs (Decidable (_ ∧ _))

/-- The number of the type that differs by a multiple of how many there are. -/
def wrap (p : Prim) (z : Int) : Int := (z - p.low W) % p.count W + p.low W

/-- A number made one of the type; none if that is an overflow. -/
def convert (p : Prim) (checked : Bool) (z : Int) : Option Int :=
  if checked ∧ ¬p.InRange W z then none else some (p.wrap W z)

variable {W} {p q : Prim} {z w : Int}

theorem count_pos (p : Prim) : 0 < p.count W := by
  unfold count
  split
  · decide
  · exact Int.pow_pos (by decide)

theorem Within.inRange (h : p.Within W q) (hz : p.InRange W z) : q.InRange W z :=
  ⟨Int.le_trans h.1 hz.1, Int.lt_of_lt_of_le hz.2 h.2⟩

theorem wrap_inRange (p : Prim) (z : Int) : p.InRange W (p.wrap W z) := by
  have hpos := p.count_pos (W := W)
  have := Int.emod_nonneg (z - p.low W) (Int.ne_of_gt hpos)
  have := Int.emod_lt_of_pos (z - p.low W) hpos
  constructor <;> unfold wrap <;> omega

theorem wrap_of_inRange (h : p.InRange W z) : p.wrap W z = z := by
  have := h.1
  have := h.2
  unfold wrap
  rw [Int.emod_eq_of_lt (by omega) (by omega)]
  omega

theorem convert_of_inRange (checked : Bool) (h : p.InRange W z) :
    p.convert W checked z = some z := by
  simp [convert, h, wrap_of_inRange h]

theorem convert_inRange {checked : Bool} (h : p.convert W checked z = some w) :
    p.InRange W w := by
  unfold convert at h
  split at h
  · cases h
  · cases h
    exact p.wrap_inRange z

theorem count_eq (h : p ≠ bool) : p.count W = 2 ^ p.bits W := if_neg h

theorem wrap_emod (h : p ≠ bool) (z : Int) : p.wrap W z % 2 ^ p.bits W = z % 2 ^ p.bits W := by
  rw [wrap, count_eq h, Int.emod_add_emod, Int.sub_add_cancel]

/-- Wrapping looks at a number up to how many numbers there are. -/
theorem wrap_congr (hlow : p.low W = q.low W) (hcount : p.count W = q.count W)
    (h : z % p.count W = w % p.count W) : p.wrap W z = q.wrap W w := by
  rw [wrap, wrap, ← hlow, ← hcount, Int.sub_emod, h, ← Int.sub_emod]

theorem bits_le (p : Prim) : p.bits W ≤ p.kind.bits W := by
  cases W <;> cases p <;> decide

theorem mem_all (p : Prim) : p ∈ all := by
  cases p <;> decide

/-- An unsigned number fits in its word as it is. -/
theorem InRange.unsigned (h : p.InRange W z) (hu : p.isUnsigned = true) :
    0 ≤ z ∧ z < 2 ^ p.kind.bits W := by
  have hb : p ≠ bool := by
    rintro rfl
    cases hu
  have hlow : p.low W = 0 := if_pos (.inl hu)
  have hle : (2 : Int) ^ p.bits W ≤ 2 ^ p.kind.bits W := by
    exact_mod_cast Nat.pow_le_pow_right (by decide) p.bits_le
  have := h.1
  have := h.2
  rw [count_eq hb] at this
  omega

theorem InRange.signed (h : p.InRange W z) (hu : p.isUnsigned = false) :
    -2 ^ (p.kind.bits W - 1) ≤ z ∧ z < 2 ^ (p.kind.bits W - 1) := by
  have hle : (2 : Int) ^ (p.bits W - 1) ≤ 2 ^ (p.kind.bits W - 1) := by
    exact_mod_cast Nat.pow_le_pow_right (by decide) (Nat.sub_le_sub_right p.bits_le 1)
  obtain ⟨hlow, hhigh⟩ := h
  by_cases hb : p = bool
  · subst hb
    have : (1 : Int) < 2 ^ (bool.kind.bits W - 1) := by
      cases W <;> decide
    simp only [low, count, or_true, if_true] at hlow hhigh
    omega
  · have hbits : (2 : Int) ^ p.bits W = 2 * 2 ^ (p.bits W - 1) := by
      cases W <;> cases p <;> rfl
    simp only [low, hu, hb, count_eq hb, Bool.false_eq_true, or_self, if_false] at hlow hhigh
    omega

end Prim

/-- Why a machine does not go on. -/
inductive Halt where
  | overflow
  /-- The machine has no meaning for what it is to do. -/
  | undefined
  deriving DecidableEq, Repr

structure Word (W : WordSize) where
  kind : WordKind
  value : BitVec (kind.bits W)
  deriving DecidableEq

namespace Word

variable {W : WordSize} {p q : Prim} {z w : Int}

def ofInt (p : Prim) (z : Int) : Word W := ⟨p.kind, .ofInt _ z⟩

/-- The number that a word is, with or without a sign. -/
def read (unsigned : Bool) (w : Word W) : Int := if unsigned then w.value.toNat else w.value.toInt

theorem ofInt_eq (n : Nat) (h : z % 2 ^ n = w % 2 ^ n) : BitVec.ofInt n z = BitVec.ofInt n w := by
  apply BitVec.eq_of_toNat_eq
  rw [BitVec.toNat_ofInt, BitVec.toNat_ofInt]
  exact_mod_cast congrArg Int.toNat h

theorem ofInt_congr (hk : p.kind = q.kind)
    (h : z % 2 ^ p.kind.bits W = w % 2 ^ p.kind.bits W) : (ofInt p z : Word W) = ofInt q w := by
  unfold ofInt
  rw [ofInt_eq _ h, hk]

theorem ofInt_eq_mk {k : WordKind} (hk : p.kind = k) {v : BitVec (k.bits W)}
    (h : v.toInt % 2 ^ k.bits W = z % 2 ^ k.bits W) : (ofInt p z : Word W) = ⟨k, v⟩ := by
  subst hk
  rw [ofInt, ← ofInt_eq _ h, BitVec.ofInt_toInt]

theorem read_emod (u : Bool) : (ofInt p z : Word W).read u % 2 ^ p.kind.bits W =
    z % 2 ^ p.kind.bits W := by
  have hnat : ((BitVec.ofInt (p.kind.bits W) z).toNat : Int) = z % 2 ^ p.kind.bits W := by
    rw [BitVec.toNat_ofInt]
    have := Int.emod_nonneg z (b := 2 ^ p.kind.bits W) (Int.pow_ne_zero (by decide))
    push_cast
    exact Int.toNat_of_nonneg this
  cases u with
  | true =>
    change ((BitVec.ofInt (p.kind.bits W) z).toNat : Int) % _ = _
    rw [hnat, Int.emod_emod]
  | false =>
    change (BitVec.ofInt (p.kind.bits W) z).toInt % _ = _
    rw [toInt_emod_word, hnat, Int.emod_emod]

/-- A number is read back with the sign of its type. -/
theorem read_own (h : p.InRange W z) : (ofInt p z : Word W).read p.isUnsigned = z := by
  cases hu : p.isUnsigned with
  | true =>
    obtain ⟨hlow, hhigh⟩ := h.unsigned hu
    change ((BitVec.ofInt (p.kind.bits W) z).toNat : Int) = z
    rw [BitVec.toNat_ofInt]
    push_cast
    rw [Int.emod_eq_of_lt hlow hhigh, Int.toNat_of_nonneg hlow]
  | false =>
    obtain ⟨hlow, hhigh⟩ := h.signed hu
    have hpos : 0 < p.kind.bits W := by
      cases W <;> cases p <;> decide
    exact BitVec.toInt_ofInt_eq_self hpos hlow hhigh

end Word

/-- The type of what a conversion makes; none if that is no integer. -/
def ConvTarget.prim? : ConvTarget → Option Prim
  | i1 => some .i8
  | i2 => some .i16
  | i4 => some .i32
  | i8 => some .i64
  | u1 => some .u8
  | u2 => some .u16
  | u4 => some .u32
  | u8 => some .u64
  | i => some .nint
  | u => some .nuint
  | r4 | r8 | rUn => none

/-- How the source of a conversion is read: without a check, as the target is signed. -/
def Overflow.readsUnsigned (target : Prim) : Overflow → Bool
  | unchecked => target.isUnsigned
  | checked => false
  | checkedUnsigned => true

namespace Word

variable {W : WordSize} {p q r : Prim} {z : Int}

def ofResult (q : Prim) : Option Int → Except Halt (Word W)
  | some z => .ok (.ofInt q z)
  | none => .error .overflow

def convert (t : ConvTarget) (o : Overflow) (w : Word W) : Except Halt (Word W) :=
  match t.prim? with
  | none => .error .undefined
  | some q => ofResult q (q.convert W (o != .unchecked) (w.read (o.readsUnsigned q)))

def convertAll (code : List Instr) (w : Word W) : Except Halt (Word W) :=
  code.foldlM (fun w i => match i with
    | .conv t o => w.convert t o
    | _ => .error .undefined) w

theorem ofResult_keep {checked : Bool} (hq : q ≠ .bool) (hz : p.InRange W z)
    (hk : p.kind = q.kind)
    (h : p.Within W q ∨ checked = false ∧ q.bits W = q.kind.bits W) :
    (.ok (ofInt p z) : Except Halt (Word W)) = ofResult q (q.convert W checked z) := by
  rcases h with h | ⟨rfl, hbits⟩
  · rw [Prim.convert_of_inRange checked (h.inRange hz)]
    exact congrArg _ (ofInt_congr hk rfl)
  · refine congrArg _ (ofInt_congr hk ?_)
    rw [hk, ← hbits, Prim.wrap_emod hq]

/-- A conversion without a check: the source is wide enough for what is kept of it, or is read as
the number it is. -/
theorem convert_unchecked {checked : Bool} {t : ConvTarget} (hr : t.prim? = some r)
    (hrb : r ≠ .bool) (hq : q ≠ .bool) (hz : p.InRange W z) (hk : r.kind = q.kind)
    (hbits : r.bits W = q.bits W) (hlow : r.low W = q.low W ∨ q.bits W = q.kind.bits W)
    (hread : q.bits W ≤ p.kind.bits W ∨ r.isUnsigned = p.isUnsigned)
    (hc : checked = false ∨ p.Within W q) :
    (ofInt p z : Word W).convert t .unchecked = ofResult q (q.convert W checked z) := by
  have hresult : q.convert W checked z = some (q.wrap W z) := by
    rcases hc with rfl | hc
    · rfl
    · have hin := hc.inRange hz
      rw [Prim.convert_of_inRange checked hin, Prim.wrap_of_inRange hin]
  have hsame : (ofInt p z : Word W).read r.isUnsigned % 2 ^ q.bits W = z % 2 ^ q.bits W := by
    rcases hread with hle | hu
    · have hdvd : (2 : Int) ^ q.bits W ∣ 2 ^ p.kind.bits W := pow_dvd_pow 2 hle
      rw [← Int.emod_emod_of_dvd _ hdvd, read_emod, Int.emod_emod_of_dvd _ hdvd]
    · rw [hu, read_own hz]
  have hword : (ofInt r (r.wrap W ((ofInt p z : Word W).read r.isUnsigned)) : Word W) =
      ofInt q (q.wrap W z) := by
    rcases hlow with hlow | hfull
    · have hcount : r.count W = q.count W := by
        rw [Prim.count_eq hrb, Prim.count_eq hq, hbits]
      refine ofInt_congr hk (congrArg (· % _) (Prim.wrap_congr hlow hcount ?_))
      rw [hcount, Prim.count_eq hq, hsame]
    · refine ofInt_congr hk ?_
      rw [hk, ← hfull, Prim.wrap_emod hq, ← hbits, Prim.wrap_emod hrb, hbits, hsame]
  rw [hresult, convert, hr]
  exact congrArg _ hword

/-- A conversion with a check reads the number as it is. -/
theorem convert_checked {t : ConvTarget} {o : Overflow} (hr : t.prim? = some r)
    (hrb : r ≠ .bool) (hq : q ≠ .bool) (hz : p.InRange W z) (hk : r.kind = q.kind)
    (hbits : r.bits W = q.bits W) (hlow : r.low W = q.low W) (ho : o ≠ .unchecked)
    (hread : o.readsUnsigned r = p.isUnsigned) :
    (ofInt p z : Word W).convert t o = ofResult q (q.convert W true z) := by
  have hcount : r.count W = q.count W := by
    rw [Prim.count_eq hrb, Prim.count_eq hq, hbits]
  have hsame : r.convert W true z = q.convert W true z := by
    simp only [Prim.convert, Prim.InRange, Prim.wrap, hlow, hcount]
  have hchecked : (o != .unchecked) = true := bne_iff_ne.mpr ho
  rw [convert, hr]
  simp only [hread, read_own hz, hchecked, hsame]
  cases q.convert W true z with
  | none => rfl
  | some v => exact congrArg _ (ofInt_congr hk rfl)

end Word

namespace Numeric

/-- What is asked of code that takes numbers of one type to another. -/
def fits (W : WordSize) (p q : Prim) (checked : Bool) : List Instr → Bool
  | [] => p.kind = q.kind ∧ (p.Within W q ∨ checked = false ∧ q.bits W = q.kind.bits W)
  | [.conv t o] => t.prim?.any fun r => r ≠ .bool ∧ r.kind = q.kind ∧ r.bits W = q.bits W ∧
      if o = .unchecked then
        (r.low W = q.low W ∨ q.bits W = q.kind.bits W) ∧
          (q.bits W ≤ p.kind.bits W ∨ r.isUnsigned = p.isUnsigned) ∧
          (checked = false ∨ p.Within W q)
      else checked = true ∧ r.low W = q.low W ∧ o.readsUnsigned r = p.isUnsigned
  | _ => false

theorem conversion_fits : ∀ W ∈ [WordSize.w32, .w64], ∀ p ∈ Prim.all, ∀ q ∈ Prim.all,
    p.isFloating = false → q.isFloating = false → ∀ checked,
      (conversion p q checked).all (fits W p q checked) = true := by
  decide +kernel

theorem not_bool_of_conversion {p q : Prim} {checked : Bool} {code : List Instr}
    (h : conversion p q checked = some code) : q ≠ .bool := by
  rintro rfl
  simp [conversion] at h

/-- Run on the word of a number, the code of a conversion makes the word of the converted number,
and overflows where the number has none. -/
theorem convertAll_conversion {W : WordSize} {p q : Prim} {checked : Bool} {code : List Instr}
    (hp : p.isFloating = false) (hq : q.isFloating = false)
    (h : conversion p q checked = some code) {z : Int} (hz : p.InRange W z) :
    (Word.ofInt p z : Word W).convertAll code = Word.ofResult q (q.convert W checked z) := by
  have hbool := not_bool_of_conversion h
  have hfits : fits W p q checked code = true := by
    have hW : W ∈ [WordSize.w32, .w64] := by
      cases W <;> decide
    simpa [h] using conversion_fits W hW p p.mem_all q q.mem_all hp hq checked
  unfold fits at hfits
  split at hfits
  · obtain ⟨hk, hkeep⟩ := of_decide_eq_true hfits
    exact Word.ofResult_keep hbool hz hk hkeep
  · rename_i t o
    obtain ⟨r, hr, hone⟩ : ∃ r, t.prim? = some r ∧ _ := (Option.any_eq_true _ _).mp hfits
    obtain ⟨hrb, hk, hbits, hcase⟩ := of_decide_eq_true hone
    have hsingle : (Word.ofInt p z : Word W).convertAll [.conv t o] =
        (Word.ofInt p z : Word W).convert t o := bind_pure _
    rw [hsingle]
    by_cases ho : o = .unchecked
    · rw [if_pos ho] at hcase
      subst ho
      obtain ⟨hlow, hread, hc⟩ := hcase
      exact Word.convert_unchecked hr hrb hbool hz hk hbits hlow hread hc
    · rw [if_neg ho] at hcase
      obtain ⟨rfl, hlow, hread⟩ := hcase
      exact Word.convert_checked hr hrb hbool hz hk hbits hlow ho hread
  · cases hfits

end Numeric

end TypedStack
