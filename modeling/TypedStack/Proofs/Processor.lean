import TypedStack.Proofs.Machine
import TypedStack.Proofs.Words

/-! A processor for code over integers. It knows constants, variables, conversions, copies and
branches, and stops at all other instructions. -/
namespace TypedStack

inductive Cell where
  | slot (s : Slot)
  | arg (index : Nat)
  | static (f : Field)
  deriving DecidableEq

namespace Cell

def access (a : Access) : Cell → Instr
  | slot s => .slot a s
  | arg n => .arg a n
  | static f => .staticField a f

def place : Cell → Place
  | slot s => .slot s
  | arg n => .arg n
  | static f => .staticField f

theorem store_place (c : Cell) : c.place.store = Emit.instr (c.access .store) := by
  cases c <;> rfl

end Cell

structure Cpu (W : WordSize) where
  stack : List (Word W)
  cells : Cell → Word W

namespace Cpu

variable {W : WordSize} {x y : Cpu W} {w v : Word W} {st : List (Word W)}

def load (x : Cpu W) (c : Cell) : Cpu W := { x with stack := x.cells c :: x.stack }

def store (x : Cpu W) (c : Cell) (w : Word W) (st : List (Word W)) : Cpu W :=
  ⟨st, fun d => if d = c then w else x.cells d⟩

/-- One instruction: what it makes of the state, and whether it jumps. -/
def exec (x : Cpu W) (i : Instr) : Except Halt (Cpu W × Bool) :=
  match i, x.stack with
  | .ldcI4 v, st => .ok ({ x with stack := ⟨.int32, v.toBitVec⟩ :: st }, false)
  | .ldcI8 v, st => .ok ({ x with stack := ⟨.int64, v.toBitVec⟩ :: st }, false)
  | .slot .load s, _ => .ok (x.load (.slot s), false)
  | .arg .load n, _ => .ok (x.load (.arg n), false)
  | .staticField .load f, _ => .ok (x.load (.static f), false)
  | .slot .store s, w :: st => .ok (x.store (.slot s) w st, false)
  | .arg .store n, w :: st => .ok (x.store (.arg n) w st, false)
  | .staticField .store f, w :: st => .ok (x.store (.static f) w st, false)
  | .dup, w :: st => .ok ({ x with stack := w :: w :: st }, false)
  | .pop, _ :: st => .ok ({ x with stack := st }, false)
  | .conv t o, w :: st => (w.convert t o).map fun v => ({ x with stack := v :: st }, false)
  | .brtrue _, w :: st => .ok ({ x with stack := st }, w.value != 0)
  | .br _, _ => .ok (x, true)
  | .label _, _ => .ok (x, false)
  | _, _ => .error .undefined

theorem exec_load (x : Cpu W) (c : Cell) : x.exec (c.access .load) = .ok (x.load c, false) := by
  cases c <;> rfl

theorem exec_store (c : Cell) (h : x.stack = w :: st) :
    x.exec (c.access .store) = .ok (x.store c w st, false) := by
  unfold exec
  rw [h]
  cases c <;> rfl

theorem exec_dup (h : x.stack = w :: st) :
    x.exec .dup = .ok ({ x with stack := w :: w :: st }, false) := by
  unfold exec
  rw [h]

theorem exec_pop (h : x.stack = w :: st) : x.exec .pop = .ok ({ x with stack := st }, false) := by
  unfold exec
  rw [h]

theorem exec_conv (t : ConvTarget) (o : Overflow) (h : x.stack = w :: st) :
    x.exec (.conv t o) =
      (w.convert t o).map fun v => ({ x with stack := v :: st }, false) := by
  unfold exec
  rw [h]

theorem exec_brtrue (l : Label) (h : x.stack = w :: st) :
    x.exec (.brtrue l) = .ok ({ x with stack := st }, w.value != 0) := by
  unfold exec
  rw [h]

/-- The check of an instruction fails here. -/
def Overflows (i : Instr) (x : Cpu W) : Prop := x.exec i = .error .overflow

def machine (W : WordSize) : Machine (Cpu W) where
  next i x y := x.exec i = .ok (y, false)
  jump i x y := x.exec i = .ok (y, true)

theorem machine_deterministic (W : WordSize) : (machine W).Deterministic where
  next h h' := congrArg Prod.fst (Except.ok.inj (h.symm.trans h'))
  jump h h' := congrArg Prod.fst (Except.ok.inj (h.symm.trans h'))
  either h h' := nomatch congrArg Prod.snd (Except.ok.inj (h.symm.trans h'))

theorem not_step_of_overflows {code : List Instr} {k : Nat} {i : Instr} (hi : code[k]? = some i)
    (h : Overflows i x) (u : Nat × Cpu W) : ¬(machine W).Step code (k, x) u := by
  intro hstep
  cases hstep with
  | next hi' _ hm =>
    obtain rfl := Option.some.inj (hi.symm.trans hi')
    exact nomatch h.symm.trans hm
  | jump hi' _ _ hm =>
    obtain rfl := Option.some.inj (hi.symm.trans hi')
    exact nomatch h.symm.trans hm

theorem not_step_at_end {code : List Instr} (u : Nat × Cpu W) :
    ¬(machine W).Step code (code.length, x) u := by
  intro hstep
  cases hstep with
  | next hi | jump hi => simp at hi

/-! ### Conversions -/

theorem convertAll_cons (t : ConvTarget) (o : Overflow) (code : List Instr) (w : Word W) :
    w.convertAll (.conv t o :: code) = w.convert t o >>= fun v => v.convertAll code := rfl

theorem runs_convertAll {code : List Instr} (hx : x.stack = w :: st)
    (h : w.convertAll code = .ok v) :
    (machine W).Runs code x { x with stack := v :: st } := by
  induction code generalizing x w with
  | nil =>
    obtain rfl := Except.ok.inj h
    rw [← hx]
    exact .refl _ x
  | cons i code ih =>
    cases i with
    | conv t o =>
      rw [convertAll_cons] at h
      cases hw : w.convert t o with
      | error fault =>
        rw [hw] at h
        cases h
      | ok u =>
        rw [hw] at h
        have hstep : x.exec (.conv t o) = .ok ({ x with stack := u :: st }, false) := by
          rw [exec_conv t o hx, hw]
          rfl
        exact Machine.Runs.concat (c := [_]) (.one rfl hstep)
          (ih (x := { x with stack := u :: st }) rfl h)
    | _ => cases h

theorem faults_convertAll {code : List Instr} (hx : x.stack = w :: st)
    (h : w.convertAll code = .error .overflow) :
    ∃ y, (machine W).Faults Overflows code x y ∧ y.cells = x.cells := by
  induction code generalizing x w with
  | nil => cases h
  | cons i code ih =>
    cases i with
    | conv t o =>
      rw [convertAll_cons] at h
      cases hw : w.convert t o with
      | error fault =>
        rw [hw] at h
        obtain rfl : fault = .overflow := Except.error.inj h
        refine ⟨x, ⟨0, _, rfl, ?_, .refl⟩, rfl⟩
        rw [Overflows, exec_conv t o hx, hw]
        rfl
      | ok u =>
        rw [hw] at h
        have hstep : x.exec (.conv t o) = .ok ({ x with stack := u :: st }, false) := by
          rw [exec_conv t o hx, hw]
          rfl
        obtain ⟨y, hy, hcells⟩ := ih (x := { x with stack := u :: st }) rfl h
        exact ⟨y, .after (c := [_]) (.one rfl hstep) hy, hcells⟩
    | _ => cases h

end Cpu

end TypedStack
