import TypedStack.Proofs.Blocks

/-! Constant data of a module. Data is only added, and code that names data copies as many bytes
of it as there are. -/
namespace TypedStack

/-- Data stays where it is when more is added. -/
def BlobTable.Within (a b : BlobTable) : Prop :=
  ∀ (i : Nat) blob, a.blobs[i]? = some blob → b.blobs[i]? = some blob

def BlobTable.Distinct (a : BlobTable) : Prop :=
  ∀ (i j : Nat) blob, a.blobs[i]? = some blob → a.blobs[j]? = some blob → i = j

namespace BlobTable

theorem Within.refl (a : BlobTable) : a.Within a := fun _ _ h => h

theorem Within.size_le {a b : BlobTable} (h : a.Within b) : a.size ≤ b.size := by
  refine Nat.le_of_not_lt fun hlt => ?_
  have hlast := h b.blobs.size _ (Array.getElem?_eq_getElem hlt)
  rw [Array.getElem?_size] at hlast
  cases hlast

theorem Within.trans {a b c : BlobTable} (h : a.Within b) (h' : b.Within c) : a.Within c :=
  fun i blob hb => h' i blob (h i blob hb)

theorem intern_cases (t : BlobTable) (b : Blob) :
    b ∈ t.blobs ∧ (t.intern b).2 = t ∨ b ∉ t.blobs ∧ (t.intern b).2.blobs = t.blobs.push b := by
  unfold intern
  split
  · rename_i i hi
    obtain ⟨hlt, hb, -⟩ := Array.findIdx?_eq_some_iff_getElem.mp hi
    exact .inl ⟨eq_of_beq hb ▸ Array.getElem_mem hlt, rfl⟩
  · rename_i hnone
    refine .inr ⟨fun hb => ?_, rfl⟩
    exact absurd rfl (beq_eq_false_iff_ne.mp (Array.findIdx?_eq_none_iff.mp hnone b hb))

theorem intern_of_new {t : BlobTable} {b : Blob} (h : b ∉ t.blobs) :
    (t.intern b).1 = ⟨t.size⟩ ∧ (t.intern b).2.blobs = t.blobs.push b := by
  have hnone : t.blobs.findIdx? (· == b) = none := by
    rw [Array.findIdx?_eq_none_iff]
    intro x hx
    rw [beq_eq_false_iff_ne]
    exact fun hxb => h (hxb ▸ hx)
  simp [intern, hnone]

theorem intern_within (t : BlobTable) (b : Blob) : t.Within (t.intern b).2 := by
  rcases t.intern_cases b with ⟨-, h⟩ | ⟨-, h⟩
  · rw [h]
    exact .refl t
  · intro i blob hi
    obtain ⟨hlt, -⟩ := Array.getElem?_eq_some_iff.mp hi
    rw [h, Array.getElem?_push_lt hlt, ← hi, Array.getElem?_eq_getElem hlt]

theorem mem_intern (t : BlobTable) (b blob : Blob) :
    blob ∈ (t.intern b).2.blobs ↔ blob ∈ t.blobs ∨ blob = b := by
  rcases t.intern_cases b with ⟨hb, h⟩ | ⟨-, h⟩
  · rw [h]
    exact ⟨.inl, fun hblob => hblob.elim id (· ▸ hb)⟩
  · rw [h]
    exact Array.mem_push

theorem Distinct.intern {t : BlobTable} (ht : t.Distinct) (b : Blob) :
    (t.intern b).2.Distinct := by
  rcases t.intern_cases b with ⟨-, h⟩ | ⟨hb, h⟩
  · rw [h]
    exact ht
  · intro i j blob hi hj
    rw [h, Array.getElem?_push] at hi hj
    split at hi <;> split at hj
    · omega
    · cases hi
      exact absurd (Array.mem_of_getElem? hj) hb
    · cases hj
      exact absurd (Array.mem_of_getElem? hi) hb
    · exact ht i j blob hi hj

theorem intern_blob (t : BlobTable) (b : Blob) :
    (t.intern b).2.blobs[(t.intern b).1.index]? = some b := by
  unfold intern
  split
  · rename_i i hi
    obtain ⟨hlt, hb, -⟩ := Array.findIdx?_eq_some_iff_getElem.mp hi
    rw [Array.getElem?_eq_getElem hlt, eq_of_beq hb]
  · simp [size]

theorem blob_of_mem {t : BlobTable} {b : Blob} (hb : b ∈ t.blobs) :
    t.blobs[(t.intern b).1.index]? = some b := by
  rcases t.intern_cases b with ⟨-, h⟩ | ⟨hn, -⟩
  · have hfound := t.intern_blob b
    rwa [h] at hfound
  · exact absurd hb hn

end BlobTable

def Names (blobs : BlobTable) (code : List Instr) (blob : Blob) : Prop :=
  ∃ i ∈ code, ∃ t, i.token? = some t ∧ blobs.blobs[t.index]? = some blob

namespace Names

variable {blobs blobs' : BlobTable} {code code' : List Instr} {blob : Blob}

theorem mono (h : Names blobs code blob) (hw : blobs.Within blobs') (hc : code ⊆ code') :
    Names blobs' code' blob := by
  obtain ⟨i, hi, t, ht, hb⟩ := h
  exact ⟨i, hc hi, t, ht, hw _ blob hb⟩

theorem of_copies {token : BlobToken} {length : Nat} (h : Copies token length code)
    (hb : blobs.blobs[token.index]? = some blob) : Names blobs code blob := by
  cases h with
  | bytes => exact ⟨.blobAddress token, by simp [bytesCopy], token, rfl, hb⟩
  | view => exact ⟨.blobHandle token, by simp [viewCopy], token, rfl, hb⟩

end Names

/-- The constant on top of the stack when the next copy is reached, where it was pushed right
before; `last` is the constant pushed right before this code. -/
def copyLength? (last : Option Int32) : List Instr → Option Int32
  | [] => none
  | .cpblk _ :: _ => last
  | .ldcI4 n :: rest => copyLength? (some n) rest
  | _ :: rest => copyLength? none rest

/-- Every token names data, and the copy that follows is given the length of that data. -/
def Sourced (blobs : BlobTable) : List Instr → Prop
  | [] => True
  | i :: rest => (∀ t, i.token? = some t → ∃ b, blobs.blobs[t.index]? = some b ∧
      copyLength? none rest = some (Int32.ofNat b.bytes.length)) ∧ Sourced blobs rest

theorem copyLength_append {last : Option Int32} {c : List Instr} {n : Int32}
    (h : copyLength? last c = some n) (c' : List Instr) : copyLength? last (c ++ c') = some n := by
  induction c generalizing last with
  | nil => cases h
  | cons i c ih =>
    cases i with
    | cpblk => exact h
    | _ => exact ih h

namespace Sourced

variable {blobs blobs' : BlobTable} {c c' : List Instr}

theorem instr {i : Instr} (h : i.token? = none) : Sourced blobs [i] :=
  ⟨fun _ ht => (nomatch h.symm.trans ht), trivial⟩

theorem append (h : Sourced blobs c) (h' : Sourced blobs c') : Sourced blobs (c ++ c') := by
  induction c with
  | nil => exact h'
  | cons i c ih =>
    refine ⟨fun t ht => ?_, ih h.2⟩
    obtain ⟨b, hb, hlength⟩ := h.1 t ht
    exact ⟨b, hb, copyLength_append hlength c'⟩

theorem mono (h : Sourced blobs c) (hw : blobs.Within blobs') : Sourced blobs' c := by
  induction c with
  | nil => trivial
  | cons i c ih =>
    refine ⟨fun t ht => ?_, ih h.2⟩
    obtain ⟨b, hb, hlength⟩ := h.1 t ht
    exact ⟨b, hw _ b hb, hlength⟩

theorem of_copies {token : BlobToken} {b : Blob} (hb : blobs.blobs[token.index]? = some b)
    (h : Copies token b.bytes.length c) : Sourced blobs c := by
  cases h with
  | bytes =>
    refine ⟨nofun, ?_, nofun, nofun, trivial⟩
    rintro _ ⟨⟩
    exact ⟨b, hb, rfl⟩
  | view =>
    refine ⟨nofun, ?_, nofun, nofun, nofun, nofun, nofun, nofun, trivial⟩
    rintro _ ⟨⟩
    exact ⟨b, hb, rfl⟩

theorem at_position {code : List Instr} (h : Sourced blobs code) {p : Nat} {i : Instr}
    {t : BlobToken} (hi : code[p]? = some i) (ht : i.token? = some t) :
    ∃ b, blobs.blobs[t.index]? = some b ∧
      copyLength? none (code.drop (p + 1)) = some (Int32.ofNat b.bytes.length) := by
  induction code generalizing p with
  | nil => simp at hi
  | cons j code ih =>
    cases p with
    | zero =>
      obtain rfl : j = i := Option.some.inj hi
      exact h.1 t ht
    | succ p => exact ih h.2 hi

end Sourced

namespace Emit

theorem steady_within {env : Env} : Steady env fun s t => s.blobs.Within t.blobs where
  refl _ := .refl _
  trans := .trans
  code _ _ _ := .refl _
  shift _ _ := .refl _
  label _ := .refl _
  serve _ _ _ := .refl _
  report _ _ := .refl _
  copy s b _ _ := s.blobs.intern_within b

theorem Emits.blobs_within {α : Type} {env : Env} {given : Prop} {own : List Slot} {c : Script}
    {m : Emit α} {post : α → List Slot} (h : Emits env .any given own c m post) {s t : State}
    {a : α} (hm : m s = .ok a t) :
    s.blobs.Within t.blobs := h.along_ok steady_within hm

end Emit

end TypedStack
