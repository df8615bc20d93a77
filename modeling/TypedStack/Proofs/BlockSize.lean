import TypedStack.Proofs.Calculation

/-! The size of a block. Where the count is constant the size is worked out in advance if it fits in
32 bits, and by a product at run time if not. Both come to the same number of bytes, and the product
stops where an address has no room for it. -/
namespace TypedStack

theorem WordSize.two_pow_le (W : WordSize) : 2 ^ 32 ≤ 2 ^ W.bits := by
  cases W <;> decide

namespace Word

variable {W : WordSize} {p : Prim} {n size : Nat}

theorem read_natCast (h : n < 2 ^ p.kind.bits W) : (ofInt p n : Word W).read true = n := by
  change ((BitVec.ofInt (p.kind.bits W) n).toNat : Int) = n
  rw [BitVec.ofInt_natCast, BitVec.toNat_ofNat, Nat.mod_eq_of_lt h]

/-- A count that fits in 32 bits becomes address-sized as it is. -/
theorem convert_natCast (p : Prim) (h : n < 2 ^ 32) :
    (ofInt p n : Word W).convert .u .unchecked = .ok (.ofInt .nuint n) := by
  have hroom : 2 ^ 32 ≤ 2 ^ p.kind.bits W := by
    cases W <;> cases p <;> decide
  refine convert_full rfl (by decide) rfl ?_
  exact congrArg (· % _) (read_natCast (Nat.lt_of_lt_of_le h hroom))

theorem times_size (hn : n < 2 ^ W.bits) (hs : size < 2 ^ 31) :
    (ofInt .nuint n : Word W).times ⟨.int32, (Int32.ofNat size).toBitVec⟩ =
      if n * size < 2 ^ W.bits then .ok (.ofInt .nuint (n * size : Nat)) else .error .overflow := by
  have hleft : (BitVec.ofInt W.bits n).toNat = n := by
    rw [BitVec.ofInt_natCast, BitVec.toNat_ofNat, Nat.mod_eq_of_lt hn]
  have hright : (Int32.ofNat size).toBitVec.toNat = size := Nat.mod_eq_of_lt (by omega)
  have hmsb : (Int32.ofNat size).toBitVec.msb = false := by
    rw [BitVec.msb_eq_false_iff_two_mul_lt, hright]
    omega
  change (if (Int32.ofNat size).toBitVec.msb = true then _ else
    if (BitVec.ofInt W.bits n).toNat * (Int32.ofNat size).toBitVec.toNat < 2 ^ W.bits then
      Except.ok (ofInt .nuint ((BitVec.ofInt W.bits n).toNat * (Int32.ofNat size).toBitVec.toNat))
    else _) = _
  rw [hmsb, hleft, hright, Int.natCast_mul]
  rfl

end Word

/-- The code leaves the number as an unsigned integer of the size of an address. Where that has no
room for the number, the code ends with a product, and every run stops there with an overflow. -/
structure Measures (W : WordSize) (code : List Instr) (n : Nat) : Prop where
  loads : n < 2 ^ W.bits → Cpu.Loads code (.ofInt .nuint n : Word W)
  overflows : 2 ^ W.bits ≤ n → ∃ factors, code = factors ++ [.mulOvfUn] ∧
    ∀ x : Cpu W, ∃ y, x.calculateAll factors = .ok y ∧ y.calculate .mulOvfUn = .error .overflow

namespace Emit

variable {W : WordSize} {elem : Ty} {count : Expr} {c : Constant} {n size : Nat}

def countedSize (elem : Ty) (count : Plan) : Emit Unit := do
  count.value true
  instr (.conv .u .unchecked)
  when (elem.size? != some 1) do
    elementSize elem
    instr .mulOvfUn

theorem blockSize_counted {count : Plan} (h : foldedSize? elem count.expr = none) :
    blockSize elem count = countedSize elem count := by
  unfold blockSize
  rw [h]
  rfl

theorem blockSize_folded {count : Plan} {v : Int32} (h : foldedSize? elem count.expr = some v) :
    blockSize elem count = instrs [.ldcI4 v, .conv .u .unchecked] := by
  unfold blockSize
  rw [h]
  rfl

theorem foldedSize_eq (hs : elem.size? = some size) (hc : count.constant = some c)
    (hn : c.number? = some (n : Int)) {i : Int32} (hi : c.immediate? = some i) :
    foldedSize? elem count = if n * size < UInt32.size - 1 then
      some (UInt32.ofNat (n * size)).toInt32 else none := by
  unfold foldedSize?
  rw [hs, hc, Option.bind_some, hi, ← Constant.immediate_toNat hn hi]
  rfl

theorem folded_measures {bytes : Nat} (h : bytes < 2 ^ 32) :
    Measures W [.ldcI4 (UInt32.ofNat bytes).toInt32, .conv .u .unchecked] bytes := by
  have hload : Cpu.Loads [.ldcI4 (UInt32.ofNat bytes).toInt32] (.ofInt .u32 bytes : Word W) := by
    have hword : (UInt32.ofNat bytes).toInt32.toBitVec.toInt % 2 ^ 32 = (bytes : Int) % 2 ^ 32 := by
      rw [toInt_emod_word]
      exact congrArg (fun k : Nat => (k : Int) % _) (Nat.mod_eq_of_lt h)
    rw [Word.ofInt_eq_mk (k := .int32) rfl hword]
    exact .ldcI4 _
  have hbits := W.two_pow_le
  exact ⟨fun _ => hload.conv (Word.convert_natCast .u32 h), fun hout => by omega⟩

theorem countedSize_eq {count : Plan} {code : List Instr} (hs : elem.size? = some size)
    (hcode : count.value true = instrs code) :
    countedSize elem count = instrs (code ++ ([.conv .u .unchecked] ++
      if size = 1 then [] else [.ldcI4 (Int32.ofNat size), .mulOvfUn])) := by
  unfold countedSize elementSize
  rw [hcode, hs, instrs_append]
  by_cases h1 : size = 1
  · rw [if_pos h1, h1]
    rfl
  · have hne : (some size != some 1) = true := by simpa using h1
    rw [if_neg h1, hne]
    rfl

theorem size_bounds (h : elem.size? = some size) : 0 < size ∧ size < 2 ^ 31 := by
  obtain ⟨p, -, hp⟩ := Option.bind_eq_some_iff.mp h
  cases p <;> cases hp <;> decide

theorem counted_measures (env : Env) (hs : elem.size? = some size) (hc : count.constant = some c)
    (hn : c.number? = some (n : Int)) (hi : c.immediate?.isSome = true) {q : Prim}
    (hq : count.ty.primitive? = some q) (hf : q.isFloating = false) :
    ∃ code, countedSize elem (count.plan env) = instrs code ∧ Measures W code (n * size) := by
  have hlt : n < 2 ^ 32 := by
    obtain ⟨i, hi⟩ := Option.isSome_iff_exists.mp hi
    have := Constant.number_lt_of_immediate hn hi
    omega
  have hbits := W.two_pow_le
  obtain ⟨code, hcode, hload⟩ := constant_loads (W := W) hn hq hf (fun _ => hi)
    (fun _ _ => ⟨by omega, by omega⟩) count.span
  have hcount := hload.conv (Word.convert_natCast q hlt)
  refine ⟨_, countedSize_eq hs ((plan_constant hc).trans hcode), ?_⟩
  by_cases h1 : size = 1
  · rw [if_pos h1, h1, Nat.mul_one, List.append_nil]
    exact ⟨fun _ => hcount, fun hout => by omega⟩
  · have hsize : Cpu.Loads [.ldcI4 (Int32.ofNat size)]
        (⟨.int32, (Int32.ofNat size).toBitVec⟩ : Word W) := .ldcI4 _
    have htimes := Word.times_size (W := W) (Nat.lt_of_lt_of_le hlt hbits) (size_bounds hs).2
    have hparts : code ++ ([.conv .u .unchecked] ++ [.ldcI4 (Int32.ofNat size), .mulOvfUn]) =
        code ++ [.conv .u .unchecked] ++ [.ldcI4 (Int32.ofNat size)] ++ [.mulOvfUn] := by simp
    rw [if_neg h1, hparts]
    constructor
    · intro hroom
      rw [if_pos hroom] at htimes
      exact hcount.times hsize htimes
    · intro hout
      rw [if_neg (by omega)] at htimes
      refine ⟨_, rfl, fun x => ⟨_, hcount.factors hsize x, ?_⟩⟩
      rw [Cpu.calculate_mulOvfUn rfl, htimes]
      rfl

/-- The size of a block is exact. However large the count, the code leaves the count times the size
of an element as an unsigned address-sized integer, or stops at the product where there is no room
for it; and the product at run time comes to the same wherever the size is worked out in advance. -/
theorem block_size_exact (env : Env) (hs : elem.size? = some size) {q : Prim}
    (hq : count.ty.primitive? = some q) (hf : q.isFloating = false) (hc : count.constant = some c)
    (hn : c.number? = some (n : Int)) (hi : c.immediate?.isSome = true) (s : State) :
    (∃ t code, blockSize elem (count.plan env) s = .ok () t ∧ s.stream.Adds t.stream code ∧
      Measures W code (n * size)) ∧
    ∃ t code, countedSize elem (count.plan env) s = .ok () t ∧ s.stream.Adds t.stream code ∧
      Measures W code (n * size) := by
  obtain ⟨counted, hcounted, hmeasures⟩ := counted_measures (W := W) env hs hc hn hi hq hf
  have hlays {m : Emit Unit} {code : List Instr} (hm : m = instrs code)
      (h : Measures W code (n * size)) :
      ∃ t code, m s = .ok () t ∧ s.stream.Adds t.stream code ∧ Measures W code (n * size) := by
    obtain ⟨t, ht, hadds⟩ := instrs_ok code s
    exact ⟨t, code, hm ▸ ht, hadds, h⟩
  refine ⟨?_, hlays hcounted hmeasures⟩
  obtain ⟨i, hi⟩ := Option.isSome_iff_exists.mp hi
  have hfolded := foldedSize_eq hs hc hn hi
  rw [← Expr.plan_expr env count] at hfolded
  split at hfolded
  · rename_i hfits
    exact hlays (blockSize_folded hfolded) (folded_measures (Nat.lt_trans hfits (by decide)))
  · exact hlays ((blockSize_counted hfolded).trans hcounted) hmeasures

/-- As many elements of eight bytes as a count of 32 bits can ask for. -/
theorem block_size_exact_greatestCount :
    let env := Env.bare (.ordinary .object)
    let count : Expr := .literal ⟨.ofPrim .u32, some (.uint 4294967295), .synthesized⟩
    ∃ t code, blockSize (.ofPrim .i64) (count.plan env) .empty = .ok () t ∧
      State.empty.stream.Adds t.stream code ∧
      Cpu.Loads code (.ofInt .nuint 34359738360 : Word .w64) ∧
      ∃ factors, code = factors ++ [.mulOvfUn] ∧ ∀ x : Cpu .w32, ∃ y,
        x.calculateAll factors = .ok y ∧ y.calculate .mulOvfUn = .error .overflow := by
  intro env count
  have hs : (Ty.ofPrim .i64).size? = some 8 := rfl
  have hq : count.ty.primitive? = some .u32 := rfl
  have exact (W : WordSize) :=
    (block_size_exact (W := W) (n := 4294967295) env hs hq rfl rfl rfl rfl .empty).1
  obtain ⟨t, code, ht, hadds, hwide⟩ := exact .w64
  obtain ⟨t', code', ht', hadds', hnarrow⟩ := exact .w32
  obtain ⟨-, rfl⟩ := EStateM.Result.ok.inj (ht.symm.trans ht')
  obtain rfl := hadds.unique hadds'
  exact ⟨t, code, ht, hadds, hwide.loads (by decide), hnarrow.overflows (by decide)⟩

end Emit

end TypedStack
