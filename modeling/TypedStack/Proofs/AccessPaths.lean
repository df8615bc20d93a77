import TypedStack.Proofs.Homes
import TypedStack.Proofs.Requests

/-! Addresses along a path. Where the rules see a home, the address that is emitted is that of the
place itself; where they see none, it is that of a fresh copy. -/
namespace TypedStack

def SlotPool.Numbers (p : SlotPool) (s : Slot) (e : SlotEntry) : Prop :=
  ∃ i, s = numberOf i ∧ p.entries[i]? = some e

theorem SlotPool.Numbers.entry {p : SlotPool} {s : Slot} {e : SlotEntry} (h : p.Numbers s e)
    (hp : p.size ≤ 2 ^ 16) : p.entry? s = some e := by
  obtain ⟨i, rfl, he⟩ := h
  exact entry_of_number he hp

namespace Emit

variable {k : Scope}

end Emit

end TypedStack
