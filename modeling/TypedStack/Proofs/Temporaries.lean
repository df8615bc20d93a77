import TypedStack.Proofs.Outlines
import TypedStack.Proofs.Ownership

/-! The temporaries of a tree. What the walk over the tree says of all emissions accounts for them,
so that none leaks and none that others hold is touched. -/
namespace TypedStack

namespace Emit

variable {α : Type}

theorem plan_owns (final : SlotPool) (env : Env) (e : Expr) :
    PlanFollows env (.owning final) (e.outline env) (e.plan env) :=
  plan_freely env (fun _ => trivial) trivial e

/-- The temporaries that hold something, or were set aside, stay so, and the code that is added
stores to none of them and gives the address of none away. -/
structure Unharmed (s t : State) : Prop where
  inUse : s.slots.inUse ⊆ t.slots.inUse
  retired : s.slots.retired ⊆ t.slots.retired
  code : ∃ c, s.stream.Adds t.stream c ∧
    ∀ i ∈ c, ∀ x, i.exposes? = some x → x ∉ s.slots.inUse ∧ x ∉ s.slots.retired

theorem Owned.unharmed {m : Emit α} {post : α → List Slot} {s : State}
    (h : Owned (after m s).slots True [] m post) (hf : (after m s).slots.Coherent) :
    Unharmed s (after m s) := by
  have hspares := h.spares hf trivial (.refl _) (.start s.slots)
  obtain ⟨c, hc⟩ := h.adds s
  exact ⟨hspares.held, (h.reaches s).grows.retired, c, hc, hspares.code c hc⟩

/-- Temporaries neither leak nor get clobbered. A value leaves those in use that were in use, an
address adds the one that it hands over, if any, and nothing that was in use or set aside before
is touched, whether emission goes through or fails. -/
theorem temporaries_conserved {s : State} (hs : SlotPool.empty.Reaches s.slots) (env : Env)
    (e : Expr) :
    (∀ used, (after (value env e used) s).slots.size ≤ 2 ^ 16 →
      Unharmed s (after (value env e used) s) ∧
      ∀ t, value env e used s = .ok () t → t.slots.inUse = s.slots.inUse) ∧
    (∀ kind, (after (address env e kind) s).slots.size ≤ 2 ^ 16 →
      Unharmed s (after (address env e kind) s) ∧
      (∀ t, address env e kind s = .ok none t → t.slots.inUse = s.slots.inUse) ∧
      ∀ x t, address env e kind s = .ok (some x) t →
        x ∉ s.slots.inUse ∧ t.slots.inUse = insert x s.slots.inUse) := by
  have hcoherent {α : Type} {m : Emit α} {post : α → List Slot}
      (h : Owned (after m s).slots True [] m post) (hsize : (after m s).slots.size ≤ 2 ^ 16) :
      (after m s).slots.Coherent :=
    SlotPool.Coherent.empty.reaches (hs.trans (h.reaches s)) hsize
  constructor
  · intro used hsize
    have howned := ((plan_owns (after (value env e used) s).slots env e).emits_value used).owned
    have hf := hcoherent howned hsize
    refine ⟨howned.unharmed hf, fun t ht => ?_⟩
    have hholds := howned.leaves hf trivial ht (after_ok ht ▸ .refl _) (.start s.slots)
    ext x
    simpa using hholds.inUse x
  · intro kind hsize
    have howned := ((plan_owns (after (address env e kind) s).slots env e).emits_address kind).owned
    have hf := hcoherent howned hsize
    have hholds {temp : Option Slot} {t : State} (ht : address env e kind s = .ok temp t) :
        t.slots.Holds s.slots.inUse temp.toList :=
      howned.leaves hf trivial ht (after_ok ht ▸ .refl _) (.start s.slots)
    refine ⟨howned.unharmed hf, fun t ht => ?_, fun x t ht => ⟨?_, ?_⟩⟩
    · ext x
      simpa using (hholds ht).inUse x
    · exact (hholds ht).foreign x (by simp)
    · ext y
      rw [(hholds ht).inUse y, Set.mem_insert_iff, or_comm]
      simp

/-- Store an argument to a field of the receiver and go on with what was stored. -/
def storeMember : Expr :=
  let i32 := Ty.ofPrim .i32
  let owner := Ty.classNamed "Counter"
  .assign (.plain i32)
    (.field (.plain i32) (some (.this (.plain owner)))
      ⟨"count", owner, i32, false, false, false, .byValue⟩ false)
    (.param (.plain i32) ⟨"p", 0, i32, .byValue, .unscoped⟩) false

def twoTemporaries : State :=
  let i32 := Ty.ofPrim .i32
  { State.empty with
    slots := (SlotPool.empty.serveAll [.allocate i32 false, .allocate i32 false, .retire ⟨1⟩]).2 }

theorem temporaries_conserved_storeMember :
    let env := Env.bare (.ordinary (.classNamed "Counter"))
    (∃ t, value env storeMember true twoTemporaries = .ok () t ∧ t.slots.size = 3 ∧
      t.slots.inUse = twoTemporaries.slots.inUse ∧ Unharmed twoTemporaries t) ∧
    ∃ x t, address env storeMember .readonly twoTemporaries = .ok (some x) t ∧
      t.slots.size = 3 ∧ x ∉ twoTemporaries.slots.inUse ∧
      t.slots.inUse = insert x twoTemporaries.slots.inUse ∧ Unharmed twoTemporaries t := by
  intro env
  have h := temporaries_conserved (s := twoTemporaries) ⟨_, rfl⟩ env storeMember
  constructor
  · have hy : yields (value env storeMember true) twoTemporaries
        (fun _ t => t.slots.size == 3) = true := by decide +kernel
    obtain ⟨⟨⟩, t, ht, hsize⟩ := ok_of_yields hy
    have hsize : t.slots.size = 3 := by simpa using hsize
    have hv := h.1 true
    rw [after_ok ht] at hv
    obtain ⟨hun, huse⟩ := hv (by omega)
    exact ⟨t, ht, hsize, huse t ht, hun⟩
  · have hy : yields (address env storeMember .readonly) twoTemporaries
        (fun temp t => temp.isSome && t.slots.size == 3) = true := by decide +kernel
    obtain ⟨temp, t, ht, htest⟩ := ok_of_yields hy
    obtain ⟨htemp, hsize⟩ : temp.isSome ∧ t.slots.size = 3 := by simpa using htest
    obtain ⟨x, rfl⟩ := Option.isSome_iff_exists.mp htemp
    have ha := h.2 .readonly
    rw [after_ok ht] at ha
    obtain ⟨hun, -, hsome⟩ := ha (by omega)
    obtain ⟨hx, huse⟩ := hsome x t ht
    exact ⟨x, t, ht, hsize, hx, huse, hun⟩

end Emit

end TypedStack
