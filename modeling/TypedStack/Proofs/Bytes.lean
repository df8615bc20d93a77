import Mathlib.Algebra.Divisibility.Basic
import Mathlib.Algebra.Group.Int.Defs
import Mathlib.Algebra.Group.Nat.Defs
import TypedStack.Constant

/-! The bytes of integers. What a constant is as a number, and what each way of loading or storing
it keeps of that number. -/
namespace TypedStack

/-- The lowest bytes of an integer in two's complement, least significant first. -/
def lowBytes (count : Nat) (z : Int) : List UInt8 :=
  (List.range count).map fun j => UInt8.ofNat (z / 256 ^ j % 256).toNat

@[simp] theorem length_lowBytes (count : Nat) (z : Int) : (lowBytes count z).length = count := by
  simp [lowBytes]

/-- A byte depends on the bits up to it only. -/
theorem byte_congr {z w : Int} {j count : Nat} (hj : j < count)
    (h : z % 256 ^ count = w % 256 ^ count) : z / 256 ^ j % 256 = w / 256 ^ j % 256 := by
  have hdvd : (256 : Int) ^ (j + 1) ∣ 256 ^ count := pow_dvd_pow 256 hj
  have hpos : (256 : Int) ^ j ≠ 0 := Int.pow_ne_zero (by decide)
  -- whole multiples of the next power leave the byte as it is
  have low (x : Int) : x / 256 ^ j % 256 = x % 256 ^ (j + 1) / 256 ^ j % 256 := by
    have hx : x = x % 256 ^ (j + 1) + 256 ^ j * (256 * (x / 256 ^ (j + 1))) := by
      rw [← Int.mul_assoc, ← Int.pow_succ, Int.emod_add_mul_ediv]
    conv => lhs; rw [hx, Int.add_mul_ediv_left _ _ hpos, Int.add_mul_emod_self_left]
  rw [low z, low w, ← Int.emod_emod_of_dvd z hdvd, h, Int.emod_emod_of_dvd w hdvd]

theorem lowBytes_congr {count : Nat} {z w : Int} (h : z % 256 ^ count = w % 256 ^ count) :
    lowBytes count z = lowBytes count w := by
  refine List.map_congr_left fun j hj => ?_
  rw [byte_congr (List.mem_range.mp hj) h]

/-- Integers that agree in more bits than asked for have the same bytes. -/
theorem lowBytes_of_emod {count bits : Nat} {z w : Int} (hc : 8 * count ≤ bits)
    (h : z % 2 ^ bits = w % 2 ^ bits) : lowBytes count z = lowBytes count w := by
  have hpow : (256 : Int) ^ count = 2 ^ (8 * count) := by
    rw [Int.pow_mul]
    rfl
  have hdvd : (2 : Int) ^ (8 * count) ∣ 2 ^ bits := pow_dvd_pow 2 hc
  refine lowBytes_congr ?_
  rw [hpow, ← Int.emod_emod_of_dvd z hdvd, h, Int.emod_emod_of_dvd w hdvd]

theorem littleEndian_eq (count n : Nat) : littleEndian count n = lowBytes count n := by
  refine List.map_congr_left fun j _ => ?_
  have hshift : n >>> (8 * j) = n / 256 ^ j := by
    rw [Nat.shiftRight_eq_div_pow, Nat.pow_mul]
  have h : (n : Int) / 256 ^ j % 256 = (n / 256 ^ j % 256 : Nat) := by
    rw [Int.natCast_emod, Int.natCast_ediv, Int.natCast_pow]
    rfl
  rw [h, hshift, Int.toNat_natCast]
  exact UInt8.toNat_inj.mp (by simp)

theorem toInt_emod_word {w : Nat} (v : BitVec w) : v.toInt % 2 ^ w = (v.toNat : Int) % 2 ^ w := by
  rw [BitVec.toInt_eq_toNat_bmod]
  exact_mod_cast Int.bmod_emod

namespace Constant

def number? : Constant → Option Int
  | bool b => some (if b then 1 else 0)
  | char c => some c.toNat
  | int v => some v.toInt
  | uint v => some v.toNat
  | null | float32 _ | float64 _ => none

theorem fitsInt32_iff {v : Int64} :
    fitsInt32 v = true ↔ -2 ^ 31 ≤ v.toInt ∧ v.toInt < 2 ^ 31 := by
  simp only [fitsInt32, Bool.and_eq_true, decide_eq_true_iff, Int32.toInt_minValue,
    Int32.toInt_maxValue]
  omega

variable {c : Constant} {z : Int}

/-- As a signed word the number is kept up to a multiple of the word's range. -/
theorem integral_number (h : c.number? = some z) :
    ∃ v, c.integral? = some v ∧ v.toInt % 2 ^ 64 = z % 2 ^ 64 := by
  cases c with
  | null | float32 _ | float64 _ => cases h
  | bool b =>
    cases h
    exact ⟨_, rfl, by cases b <;> rfl⟩
  | char c =>
    cases h
    have hc : c.toNat < 2 ^ 63 := Nat.lt_trans c.toNat_lt (by decide)
    exact ⟨_, rfl, by rw [Int64.toInt_ofNat_of_lt hc]⟩
  | int v =>
    cases h
    exact ⟨_, rfl, rfl⟩
  | uint v =>
    cases h
    exact ⟨_, rfl, toInt_emod_word v.toBitVec⟩

/-- As an immediate it is kept up to a multiple of the immediate's range. -/
theorem immediate_number {v : Int32} (h : c.number? = some z) (hv : c.immediate? = some v) :
    v.toInt % 2 ^ 32 = z % 2 ^ 32 := by
  cases c with
  | null | float32 _ | float64 _ => cases h
  | bool b =>
    cases h
    cases hv
    cases b <;> rfl
  | char c =>
    cases h
    cases hv
    have hc : c.toNat < 2 ^ 31 := Nat.lt_trans c.toNat_lt (by decide)
    rw [Int32.toInt_ofNat_of_lt hc]
  | int w =>
    cases h
    obtain ⟨-, rfl⟩ : _ ∧ w.toInt32 = v := by simpa [immediate?] using hv
    rw [Int64.toInt_toInt32]
    exact_mod_cast Int.bmod_emod
  | uint w =>
    cases h
    obtain ⟨hw, rfl⟩ : w.toNat < 2 ^ 32 ∧ w.toUInt32.toInt32 = v := by
      simpa [immediate?] using hv
    refine (toInt_emod_word w.toUInt32.toBitVec).trans ?_
    have hn : w.toUInt32.toBitVec.toNat = w.toNat := by
      have := w.toNat_toUInt32
      rw [Nat.mod_eq_of_lt hw] at this
      exact this
    rw [hn]

theorem number_lt_of_immediate {v : Int32} (h : c.number? = some z) (hv : c.immediate? = some v) :
    z < 2 ^ 32 := by
  cases c with
  | null | float32 _ | float64 _ => cases h
  | bool b =>
    cases h
    cases b <;> decide
  | char c =>
    cases h
    have := c.toNat_lt
    omega
  | int w =>
    cases h
    obtain ⟨hw, -⟩ : fitsInt32 w = true ∧ _ := by simpa [immediate?] using hv
    have := fitsInt32_iff.mp hw
    omega
  | uint w =>
    cases h
    obtain ⟨hw, -⟩ : w.toNat < 2 ^ 32 ∧ _ := by simpa [immediate?] using hv
    omega

theorem immediate_toNat {n : Nat} {v : Int32} (h : c.number? = some (n : Int))
    (hv : c.immediate? = some v) : v.toUInt32.toNat = n := by
  have hword := (toInt_emod_word v.toBitVec).symm.trans (immediate_number h hv)
  have hlt := v.toUInt32.toNat_lt
  have hn := number_lt_of_immediate h hv
  change (v.toUInt32.toNat : Int) % 2 ^ 32 = n % 2 ^ 32 at hword
  omega

theorem immediate_of_lt {n : Nat} (h : c.number? = some (n : Int)) (hn : n < 2 ^ 31) :
    ∃ v, c.immediate? = some v ∧ v.toUInt32.toNat = n := by
  obtain ⟨v, hv⟩ : ∃ v, c.immediate? = some v := by
    cases c with
    | null | float32 _ | float64 _ => cases h
    | bool b => exact ⟨_, rfl⟩
    | char c => exact ⟨_, rfl⟩
    | int w =>
      have hw : w.toInt = n := by simpa [number?] using h
      exact ⟨_, if_pos (fitsInt32_iff.mpr ⟨by omega, by omega⟩)⟩
    | uint w =>
      have hw : (w.toNat : Int) = n := by simpa [number?] using h
      exact ⟨_, if_pos (Nat.lt_trans (by omega : w.toNat < 2 ^ 31) (by decide))⟩
  exact ⟨v, hv, immediate_toNat h hv⟩

theorem layout_number {p : Prim} {size : Nat} (hs : p.size? = some size)
    (hf : p.isFloating = false) (h : c.number? = some z) :
    c.layout? p = some (lowBytes size z) := by
  obtain ⟨v, hv, hz⟩ := integral_number h
  have hsize : 8 * size ≤ 64 := by
    cases p <;> cases hs <;> decide
  have hbytes : littleEndian size v.toUInt64.toNat = lowBytes size z := by
    rw [littleEndian_eq]
    exact lowBytes_of_emod hsize ((toInt_emod_word v.toBitVec).symm.trans hz)
  unfold layout?
  split
  · cases hf
  · cases hf
  · simp [hs, hv, hbytes]

end Constant

end TypedStack
