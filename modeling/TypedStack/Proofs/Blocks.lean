import TypedStack.Proofs.Emission

/-! The shape of emitted code. Branches come only in pairs that choose between two pieces of
code, each with labels of its own, so that every branch leads forward to the one place where its
label is marked. -/
namespace TypedStack

def choice (takenLabel done : Label) (test other taken : List Instr) : List Instr :=
  test ++ Instr.brtrue takenLabel ::
    (other ++ Instr.br done :: .label takenLabel :: (taken ++ [Instr.label done]))

/-- Code built from plain instructions and choices whose labels are numbered from the first
number up to the second. -/
inductive Block : Nat → List Instr → Nat → Prop where
  | nil (a) : Block a [] a
  | instr {a i} : i.isPlain → Block a [i] a
  | append {a b d c c'} : Block a c b → Block b c' d → Block a (c ++ c') d
  | branch {a x y z test other taken} : Block (a + 2) test x → Block x other y →
    Block y taken z → Block a (choice ⟨a⟩ ⟨a + 1⟩ test other taken) z

def marks (c : List Instr) : List Label := c.filterMap Instr.mark?

def targets (c : List Instr) : List Label := c.filterMap Instr.target?

def labels (c : List Instr) : List Label := c.filterMap fun i => i.mark? <|> i.target?

/-- Every branch leads to a label that is marked later on. -/
def Forward : List Instr → Prop
  | [] => True
  | i :: rest => (∀ l, i.target? = some l → l ∈ marks rest) ∧ Forward rest

@[simp] theorem marks_append (c c' : List Instr) : marks (c ++ c') = marks c ++ marks c' :=
  List.filterMap_append

@[simp] theorem targets_append (c c' : List Instr) :
    targets (c ++ c') = targets c ++ targets c' := List.filterMap_append

@[simp] theorem labels_append (c c' : List Instr) : labels (c ++ c') = labels c ++ labels c' :=
  List.filterMap_append

@[simp] theorem marks_nil : marks [] = [] := rfl

@[simp] theorem marks_label (l : Label) (c : List Instr) :
    marks (.label l :: c) = l :: marks c := rfl

@[simp] theorem marks_br (l : Label) (c : List Instr) : marks (.br l :: c) = marks c := rfl

@[simp] theorem marks_brtrue (l : Label) (c : List Instr) :
    marks (.brtrue l :: c) = marks c := rfl

@[simp] theorem targets_nil : targets [] = [] := rfl

@[simp] theorem targets_label (l : Label) (c : List Instr) :
    targets (.label l :: c) = targets c := rfl

@[simp] theorem targets_br (l : Label) (c : List Instr) :
    targets (.br l :: c) = l :: targets c := rfl

@[simp] theorem targets_brtrue (l : Label) (c : List Instr) :
    targets (.brtrue l :: c) = l :: targets c := rfl

theorem mem_marks {c : List Instr} {l : Label} : l ∈ marks c ↔ .label l ∈ c := by
  simp only [marks, List.mem_filterMap]
  constructor
  · rintro ⟨i, hi, h⟩
    exact Instr.mark_eq_some.mp h ▸ hi
  · exact fun h => ⟨_, h, rfl⟩

theorem mem_targets {c : List Instr} {i : Instr} {l : Label} (hi : i ∈ c)
    (h : i.target? = some l) : l ∈ targets c := List.mem_filterMap.mpr ⟨i, hi, h⟩

theorem mem_labels_of_mark {c : List Instr} {l : Label} (h : l ∈ marks c) : l ∈ labels c :=
  List.mem_filterMap.mpr ⟨_, mem_marks.mp h, rfl⟩

theorem mem_labels_of_target {c : List Instr} {l : Label} (h : l ∈ targets c) : l ∈ labels c := by
  obtain ⟨i, hi, h⟩ := List.mem_filterMap.mp h
  refine List.mem_filterMap.mpr ⟨i, hi, ?_⟩
  cases i <;> simp_all [Instr.target?, Instr.mark?]

theorem mem_labels_choice {l done x : Label} {test other taken : List Instr} :
    x ∈ labels (choice l done test other taken) ↔
      x ∈ labels test ∨ x ∈ labels other ∨ x ∈ labels taken ∨ x = l ∨ x = done := by
  simp [choice, labels, Instr.mark?, Instr.target?]
  grind

theorem labels_plain {i : Instr} (h : i.isPlain) : labels [i] = [] := by
  obtain ⟨ht, hm⟩ := Instr.isPlain_iff.mp h
  simp [labels, ht, hm]

theorem marks_plain {i : Instr} (h : i.isPlain) : marks [i] = [] := by
  simp [marks, (Instr.isPlain_iff.mp h).2]

theorem Forward.append {c c' : List Instr} (h : Forward c) (h' : Forward c') :
    Forward (c ++ c') := by
  induction c with
  | nil => exact h'
  | cons i c ih =>
    constructor
    · intro l hl
      simp [h.1 l hl]
    · exact ih h.2

theorem forward_choice {l done : Label} {test other taken : List Instr} (ht : Forward test)
    (ho : Forward other) (hk : Forward taken) : Forward (choice l done test other taken) := by
  have hend : Forward [Instr.label done] := ⟨by simp [Instr.target?], trivial⟩
  have htaken : Forward (.label l :: (taken ++ [Instr.label done])) :=
    ⟨by simp [Instr.target?], hk.append hend⟩
  have hother : Forward (.br done :: .label l :: (taken ++ [Instr.label done])) :=
    ⟨by simp [Instr.target?], htaken⟩
  exact ht.append ⟨by simp [Instr.target?], ho.append hother⟩

def bytesCopy (token : BlobToken) (length : Nat) : List Instr :=
  [.dup, .blobAddress token, .ldcI4 (Int32.ofNat length), .cpblk none]

/-- The same through a view that is kept in a temporary. -/
def viewCopy (v : BlobView) (size : Nat) (token : BlobToken) (temp : Slot) (length : Nat) :
    List Instr :=
  [.dup, .blobHandle token, .call v.create, .slot .store temp, .slot .address temp, .call v.pin,
    .ldcI4 (Int32.ofNat length), .cpblk (some size)]

inductive Copies (token : BlobToken) (length : Nat) : List Instr → Prop where
  | bytes : Copies token length (bytesCopy token length)
  | view (v size temp) : Copies token length (viewCopy v size token temp length)

/-- The labels that the code names are from a range, and none is marked twice. -/
structure Labelled (a : Nat) (c : List Instr) (b : Nat) : Prop where
  le : a ≤ b
  range : ∀ l ∈ labels c, a ≤ l.id ∧ l.id < b
  nodup : (marks c).Nodup

namespace Labelled

variable {a b d : Nat} {c c' : List Instr}

theorem nil (a : Nat) : Labelled a [] a := ⟨Nat.le_refl a, nofun, .nil⟩

theorem instr {i : Instr} (h : i.isPlain) (a : Nat) : Labelled a [i] a := by
  refine ⟨Nat.le_refl a, ?_, ?_⟩
  · rw [labels_plain h]
    exact nofun
  · rw [marks_plain h]
    exact .nil

theorem append (h : Labelled a c b) (h' : Labelled b c' d) : Labelled a (c ++ c') d := by
  have hle := h.le
  have hle' := h'.le
  refine ⟨Nat.le_trans hle hle', ?_, ?_⟩
  · intro l hl
    rcases List.mem_append.mp (labels_append _ _ ▸ hl) with hl | hl
    · have := h.range l hl
      omega
    · have := h'.range l hl
      omega
  · rw [marks_append, List.nodup_append]
    refine ⟨h.nodup, h'.nodup, ?_⟩
    rintro l hl _ hl' rfl
    have := h.range l (mem_labels_of_mark hl)
    have := h'.range l (mem_labels_of_mark hl')
    omega

theorem choice {x y z : Nat} {test other taken : List Instr} (ht : Labelled (a + 2) test x)
    (ho : Labelled x other y) (hk : Labelled y taken z) :
    Labelled a (choice ⟨a⟩ ⟨a + 1⟩ test other taken) z := by
  have hlet := ht.le
  have hleo := ho.le
  have hlek := hk.le
  refine ⟨by omega, ?_, ?_⟩
  · intro l hl
    rcases mem_labels_choice.mp hl with hl | hl | hl | rfl | rfl
    · have := ht.range l hl
      omega
    · have := ho.range l hl
      omega
    · have := hk.range l hl
      omega
    · simp only
      omega
    · simp only
      omega
  · have htest : ∀ l ∈ marks test, a + 2 ≤ l.id ∧ l.id < x :=
      fun l hl => ht.range l (mem_labels_of_mark hl)
    have hother : ∀ l ∈ marks other, x ≤ l.id ∧ l.id < y :=
      fun l hl => ho.range l (mem_labels_of_mark hl)
    have htaken : ∀ l ∈ marks taken, y ≤ l.id ∧ l.id < z :=
      fun l hl => hk.range l (mem_labels_of_mark hl)
    have hnt := ht.nodup
    have hno := ho.nodup
    have hnk := hk.nodup
    -- the labels of the parts are from ranges that do not meet
    simp only [TypedStack.choice, marks_append, marks_brtrue, marks_br, marks_label, marks_nil,
      List.nodup_append, List.nodup_cons]
    grind

theorem cut (h : Labelled a c' b) (hc : c <+: c') : Labelled a c b where
  le := h.le
  range l hl := h.range l ((hc.sublist.filterMap _).subset hl)
  nodup := h.nodup.sublist (hc.sublist.filterMap _)

end Labelled

namespace Block

variable {a b : Nat} {c : List Instr}

theorem plain (h : c.all Instr.isPlain) : Block a c a := by
  induction c with
  | nil => exact .nil a
  | cons i c ih =>
    obtain ⟨hi, hc⟩ : i.isPlain = true ∧ c.all Instr.isPlain = true := by simpa using h
    exact .append (.instr hi) (ih hc)

theorem labelled (h : Block a c b) : Labelled a c b := by
  induction h with
  | nil a => exact .nil a
  | instr hi => exact .instr hi _
  | append _ _ ih ih' => exact ih.append ih'
  | branch _ _ _ iht iho ihk => exact .choice iht iho ihk

theorem le (h : Block a c b) : a ≤ b := h.labelled.le

theorem label_range (h : Block a c b) {l : Label} (hl : l ∈ labels c) : a ≤ l.id ∧ l.id < b :=
  h.labelled.range l hl

theorem marks_nodup (h : Block a c b) : (marks c).Nodup := h.labelled.nodup

theorem forward (h : Block a c b) : Forward c := by
  induction h with
  | nil => trivial
  | instr hi =>
    constructor
    · intro l hl
      simp [(Instr.isPlain_iff.mp hi).1] at hl
    · trivial
  | append _ _ ih ih' => exact ih.append ih'
  | branch _ _ _ iht iho ihk => exact forward_choice iht iho ihk

end Block

theorem mark_unique {code : List Instr} (h : (marks code).Nodup) {l : Label} {p q : Nat}
    (hp : code[p]? = some (.label l)) (hq : code[q]? = some (.label l)) : p = q := by
  induction code generalizing p q with
  | nil => simp at hp
  | cons i code ih =>
    have hn : (marks code).Nodup :=
      h.sublist (List.Sublist.filterMap _ (List.sublist_cons_self i code))
    have later : ∀ {k : Nat}, code[k]? = some (.label l) → i ≠ .label l := by
      rintro k hk rfl
      rw [marks_label, List.nodup_cons] at h
      exact h.1 (mem_marks.mpr (List.mem_of_getElem? hk))
    cases p with
    | zero =>
      cases q with
      | zero => rfl
      | succ q => exact absurd (Option.some.inj hp) (later hq)
    | succ p =>
      cases q with
      | zero => exact absurd (Option.some.inj hq) (later hp)
      | succ q => exact congrArg _ (ih hn hp hq)

theorem Forward.target_later {code : List Instr} (h : Forward code) {p : Nat} {i : Instr}
    {l : Label} (hi : code[p]? = some i) (hl : i.target? = some l) :
    ∃ q, p < q ∧ code[q]? = some (.label l) := by
  induction code generalizing p with
  | nil => simp at hi
  | cons j code ih =>
    cases p with
    | zero =>
      obtain rfl : j = i := Option.some.inj hi
      obtain ⟨q, hq⟩ := List.mem_iff_getElem?.mp (mem_marks.mp (h.1 l hl))
      exact ⟨q + 1, Nat.succ_pos q, hq⟩
    | succ p =>
      obtain ⟨q, hpq, hq⟩ := ih h.2 hi
      exact ⟨q + 1, Nat.succ_lt_succ hpq, hq⟩

def Stream.emitAll (s : Stream) (c : List Instr) : Stream := c.foldl emit s

def Stream.Adds (s t : Stream) (c : List Instr) : Prop := t.code.toList = s.code.toList ++ c

namespace Stream.Adds

variable {s t u : Stream} {c c' : List Instr}

theorem refl (s : Stream) : s.Adds s [] := (List.append_nil _).symm

theorem trans (h : s.Adds t c) (h' : t.Adds u c') : s.Adds u (c ++ c') := by
  rw [Adds, h', h, List.append_assoc]

theorem emit (s : Stream) (i : Instr) : s.Adds (s.emit i) [i] := Array.toList_push

theorem emitAll (s : Stream) (c : List Instr) : s.Adds (s.emitAll c) c := by
  induction c generalizing s with
  | nil => exact .refl s
  | cons i c ih => exact (emit s i).trans (ih (s.emit i))

theorem unique (h : s.Adds t c) (h' : s.Adds t c') : c = c' :=
  List.append_cancel_left (h.symm.trans h')

theorem since_eq (h : s.Adds t c) : t.since s.code.size = c := by
  rw [since, h, List.drop_append_of_le_length (by simp)]
  simp

end Stream.Adds

namespace State

def lay (s : State) (i : Instr) : State := { s with stream := s.stream.emit i }

def shift (s : State) (d : Int) : State := { s with stream := s.stream.adjust d }

def takeLabels (s : State) : State :=
  { s with stream := { s.stream with labels := s.stream.labels + 2 } }

/-- The state between the two sides of a choice. Where both leave a value, the second side
starts without the value of the first. -/
def between (s : State) (leaves : Bool) (l done : Label) : State :=
  (if leaves then (s.lay (.br done)).shift (-1) else s.lay (.br done)).lay (.label l)

end State

namespace Emit

variable {α β : Type} {env : Env} {given : Prop} {own : List Slot} {script : Script}
  {post : α → List Slot} {s t : State}

theorem instr_ok {i : Instr} {u : Unit} : instr i s = .ok u t ↔ t = s.lay i := by
  change EStateM.Result.ok () (s.lay i) = _ ↔ _
  simp [eq_comm]

theorem instrs_ok (code : List Instr) (s : State) :
    ∃ t, instrs code s = .ok () t ∧ s.stream.Adds t.stream code := by
  induction code generalizing s with
  | nil => exact ⟨s, rfl, .refl _⟩
  | cons i code ih =>
    obtain ⟨t, ht, hadds⟩ := ih (s.lay i)
    exact ⟨t, ht, .trans (c := [i]) (.emit _ _) hadds⟩

theorem instrs_adds {code : List Instr} {u : Unit} (h : instrs code s = .ok u t) :
    s.stream.Adds t.stream code := by
  obtain ⟨t', ht', hadds⟩ := instrs_ok code s
  cases ht'.symm.trans h
  exact hadds

theorem instrs_append (code code' : List Instr) :
    instrs (code ++ code') = instrs code >>= fun _ => instrs code' := List.forM_append

theorem when_ok {c : Bool} {m : Emit Unit} {u : Unit} :
    when c m s = .ok u t ↔ (c = true ∧ m s = .ok u t) ∨ (c = false ∧ s = t) := by
  cases c
  · change EStateM.Result.ok () s = _ ↔ _
    simp
  · simp [when]

theorem ensure_ok {c : Bool} {fault : Fault} {span : Span} {u : Unit} :
    ensure c fault span s = .ok u t ↔ c = true ∧ s = t := by
  cases c
  · change EStateM.Result.error _ s = _ ↔ _
    simp
  · change EStateM.Result.ok () s = _ ↔ _
    simp

theorem copyBytes_eq (data : List UInt8) (s : State) :
    copyBytes data s = .ok ()
      { s with
        stream := s.stream.emitAll (bytesCopy (s.blobs.intern ⟨data, 1⟩).1 data.length)
        blobs := (s.blobs.intern ⟨data, 1⟩).2 } := rfl

theorem copyThroughView_eq (v : BlobView) (size : Nat) (data : List UInt8) (s : State) :
    copyThroughView v size data s = .ok ()
      { s with
        stream := s.stream.emitAll (viewCopy v size (s.blobs.intern ⟨data, size⟩).1
          (s.slots.allocate v.view false).1 data.length)
        slots := (s.slots.allocate v.view false).2.free (s.slots.allocate v.view false).1
        blobs := (s.blobs.intern ⟨data, size⟩).2 } := rfl

theorem branch_ok {leaves : Bool} {test : Emit Unit} {other taken : Emit α} {r : α × α}
    (h : branch leaves test other taken s = .ok r t) :
    ∃ u v w, test s.takeLabels = .ok () u ∧
      other (u.lay (.brtrue ⟨s.stream.labels⟩)) = .ok r.1 v ∧
      taken (v.between leaves ⟨s.stream.labels⟩ ⟨s.stream.labels + 1⟩) = .ok r.2 w ∧
      t = w.lay (.label ⟨s.stream.labels + 1⟩) := by
  obtain ⟨_, _, ⟨⟩, h⟩ := bind_ok h
  obtain ⟨_, _, ⟨⟩, h⟩ := bind_ok h
  obtain ⟨_, u, ht, h⟩ := bind_ok h
  obtain ⟨_, _, h1, h⟩ := bind_ok h
  obtain ⟨a, v, ho, h⟩ := bind_ok h
  obtain ⟨_, _, h2, h⟩ := bind_ok h
  obtain ⟨_, x, h3, h⟩ := bind_ok h
  obtain ⟨_, _, h4, h⟩ := bind_ok h
  obtain ⟨b, w, hk, h⟩ := bind_ok h
  obtain ⟨_, _, h5, h⟩ := bind_ok h
  rw [instr_ok] at h1 h2 h4 h5
  obtain ⟨rfl, rfl⟩ := pure_ok.mp h
  have hx : x = if leaves then (v.lay (.br ⟨s.stream.labels + 1⟩)).shift (-1)
      else v.lay (.br ⟨s.stream.labels + 1⟩) := by
    subst h2
    rcases when_ok.mp h3 with ⟨rfl, hx⟩ | ⟨rfl, hx⟩
    · cases hx
      rfl
    · exact hx.symm
  subst h1 h4 h5 hx
  exact ⟨u, v, w, ht, ho, hk, rfl⟩

theorem branch_error {leaves : Bool} {test : Emit Unit} {other taken : Emit α} {f : Failure}
    (h : branch leaves test other taken s = .error f t) :
    test s.takeLabels = .error f t ∨
    (∃ u, test s.takeLabels = .ok () u ∧
      other (u.lay (.brtrue ⟨s.stream.labels⟩)) = .error f t) ∨
    ∃ u a v, test s.takeLabels = .ok () u ∧
      other (u.lay (.brtrue ⟨s.stream.labels⟩)) = .ok a v ∧
      taken (v.between leaves ⟨s.stream.labels⟩ ⟨s.stream.labels + 1⟩) = .error f t := by
  obtain ⟨⟨⟩⟩ | ⟨_, _, ⟨⟩, h⟩ := bind_error h
  obtain ⟨⟨⟩⟩ | ⟨_, _, ⟨⟩, h⟩ := bind_error h
  obtain ht | ⟨⟨⟩, u, ht, h⟩ := bind_error h
  · exact .inl ht
  obtain ⟨⟨⟩⟩ | ⟨_, _, ⟨⟩, h⟩ := bind_error h
  obtain ho | ⟨a, v, ho, h⟩ := bind_error h
  · exact .inr (.inl ⟨u, ht, ho⟩)
  obtain ⟨⟨⟩⟩ | ⟨_, _, ⟨⟩, h⟩ := bind_error h
  refine .inr (.inr ⟨u, a, v, ht, ho, ?_⟩)
  cases leaves
  all_goals
    obtain ⟨⟨⟩⟩ | ⟨_, _, ⟨⟩, h⟩ := bind_error h
    obtain ⟨⟨⟩⟩ | ⟨_, _, ⟨⟩, h⟩ := bind_error h
    obtain hk | ⟨_, _, -, h⟩ := bind_error h
    · exact hk
    obtain ⟨⟨⟩⟩ | ⟨_, _, ⟨⟩, ⟨⟩⟩ := bind_error h

theorem between_labels (leaves : Bool) (l done : Label) :
    (s.between leaves l done).stream.labels = s.stream.labels := by
  cases leaves <;> rfl

theorem between_adds (leaves : Bool) (l done : Label) :
    s.stream.Adds (s.between leaves l done).stream [.br done, .label l] := by
  unfold State.between
  split <;> exact (Stream.Adds.emit s.stream (.br done)).trans (.emit _ _)

theorem branch_adds {leaves : Bool} {l done : Label} {u v w : State} {test other taken : List Instr}
    (ht : s.takeLabels.stream.Adds u.stream test)
    (ho : (u.lay (.brtrue l)).stream.Adds v.stream other)
    (hk : (v.between leaves l done).stream.Adds w.stream taken) :
    s.stream.Adds (w.lay (.label done)).stream (choice l done test other taken) := by
  have hall := ((((ht.trans (.emit _ _)).trans ho).trans (between_adds leaves l done)).trans
    hk).trans (Stream.Adds.emit w.stream (.label done))
  have hc : choice l done test other taken = test ++ [Instr.brtrue l] ++ other ++
      [Instr.br done, .label l] ++ taken ++ [Instr.label done] := by simp [choice]
  rw [hc]
  exact hall

/-- Every emission that succeeds adds a block, with labels made for it. -/
theorem Emits.adds_block {m : Emit α} (h : Emits env .any given own script m post) {a : α}
    (hm : m s = .ok a t) :
    ∃ c, s.stream.Adds t.stream c ∧ Block s.stream.labels c t.stream.labels := by
  induction h generalizing s t with
  | pure b =>
    obtain ⟨-, rfl⟩ := pure_ok.mp hm
    exact ⟨[], .refl _, .nil _⟩
  | bind_of _ _ ih ihk =>
    obtain ⟨b, u, hm, hk⟩ := bind_ok hm
    obtain ⟨c, hc, hb⟩ := ih hm
    obtain ⟨c', hc', hb'⟩ := ihk _ b u hm hk
    exact ⟨c ++ c', hc.trans hc', hb.append hb'⟩
  | stand _ _ ih | list _ _ _ ih => exact ih hm
  | fail => exact absurd hm fail_not_ok
  | instr hi =>
    obtain rfl := instr_ok.mp hm
    exact ⟨[_], .emit _ _, .instr (Instr.isOrdinary_iff.mp hi).1⟩
  | throw counted =>
    cases counted <;>
    · cases hm
      exact ⟨[.throw], .emit _ _, .instr rfl⟩
  | keep ty byRef _ ih =>
    obtain ⟨_, _, ⟨⟩, hm⟩ := bind_ok hm
    obtain ⟨_, _, ⟨⟩, hm⟩ := bind_ok hm
    obtain ⟨c, hc, hb⟩ := ih _ hm
    refine ⟨[_] ++ c, .trans (.emit _ _) hc, .append (.instr ?_) hb⟩
    rfl
  | copyBytes data =>
    rw [copyBytes_eq] at hm
    cases hm
    exact ⟨_, .emitAll _ _, .plain rfl⟩
  | copyThroughView _ size data =>
    rw [copyThroughView_eq] at hm
    cases hm
    exact ⟨_, .emitAll _ _, .plain rfl⟩
  | block hblock => exact hblock.elim
  | branch _ _ _ iht iho ihk =>
    obtain ⟨u, v, w, ht, ho, hk, rfl⟩ := branch_ok hm
    obtain ⟨ct, hct, hbt⟩ := iht ht
    obtain ⟨co, hco, hbo⟩ := iho ho
    obtain ⟨ck, hck, hbk⟩ := ihk a.1 hk
    refine ⟨choice _ _ ct co ck, branch_adds hct hco hck, ?_⟩
    rw [between_labels] at hbk
    exact .branch hbt hbo hbk
  | _ =>
    cases hm
    exact ⟨[], .refl _, .nil _⟩

/-- What is laid before a failure names only labels made for it, and marks none twice. -/
theorem Emits.labelled_error {m : Emit α} (h : Emits env .any given own script m post) {f : Failure}
    (hm : m s = .error f t) :
    ∃ c, s.stream.Adds t.stream c ∧ Labelled s.stream.labels c t.stream.labels := by
  induction h generalizing s t with
  | bind_of hfirst _ ih ihk =>
    obtain hm | ⟨a, u, hm, hk⟩ := bind_error hm
    · exact ih hm
    · obtain ⟨c, hc, hb⟩ := hfirst.adds_block hm
      obtain ⟨c', hc', hl⟩ := ihk _ a u hm hk
      exact ⟨c ++ c', hc.trans hc', hb.labelled.append hl⟩
  | stand _ _ ih | list _ _ _ ih => exact ih hm
  | fail =>
    cases hm
    exact ⟨[], .refl _, .nil _⟩
  | throw counted => cases counted <;> cases hm
  | keep ty byRef _ ih =>
    obtain ⟨⟨⟩⟩ | ⟨_, _, ⟨⟩, hm⟩ := bind_error hm
    obtain ⟨⟨⟩⟩ | ⟨_, _, ⟨⟩, hm⟩ := bind_error hm
    obtain ⟨c, hc, hl⟩ := ih _ hm
    refine ⟨[_] ++ c, .trans (.emit _ _) hc, .append (.instr ?_ _) hl⟩
    rfl
  | block hblock => exact hblock.elim
  | branch htest hother _ iht iho ihk =>
    -- the code so far is the start of a choice whose later parts are still empty
    obtain ht | ⟨u, ht, ho⟩ | ⟨u, a, v, ht, ho, hk⟩ := branch_error hm
    · obtain ⟨ct, hct, hlt⟩ := iht ht
      refine ⟨ct, hct, (hlt.choice (.nil _) (.nil _)).cut ?_⟩
      exact List.prefix_append _ _
    · obtain ⟨ct, hct, hbt⟩ := htest.adds_block ht
      obtain ⟨co, hco, hlo⟩ := iho ho
      refine ⟨_, (hct.trans (.emit _ _)).trans hco,
        (hbt.labelled.choice hlo (.nil _)).cut ?_⟩
      simp [choice]
    · obtain ⟨ct, hct, hbt⟩ := htest.adds_block ht
      obtain ⟨co, hco, hbo⟩ := hother.adds_block ho
      obtain ⟨ck, hck, hlk⟩ := ihk a hk
      rw [between_labels] at hlk
      refine ⟨_, (((hct.trans (.emit _ _)).trans hco).trans (between_adds _ _ _)).trans hck,
        (hbt.labelled.choice hbo.labelled hlk).cut ?_⟩
      simp [choice]
  | _ => cases hm

theorem Emits.labelled {m : Emit α} (h : Emits env .any given own script m post) (s : State) :
    ∃ c, s.stream.Adds (after m s).stream c ∧
      Labelled s.stream.labels c (after m s).stream.labels := by
  unfold after
  cases hm : m s with
  | ok a t =>
    obtain ⟨c, hc, hb⟩ := h.adds_block hm
    exact ⟨c, hc, hb.labelled⟩
  | error f t => exact h.labelled_error hm

/-- A relation between states that holds across every step that emission is made of. -/
structure Steady (env : Env) (R : State → State → Prop) : Prop where
  refl : ∀ s, R s s
  trans : ∀ {s t u}, R s t → R t u → R s u
  code : ∀ s i, i.token? = none → R s (s.lay i)
  shift : ∀ s d, R s (s.shift d)
  label : ∀ s, R s { s with stream := s.stream.newLabel.2 }
  serve : ∀ s r, (∀ l, r = .define l → env.isResident l.id = false) →
    R s { s with slots := (s.slots.serve r).2 }
  report : ∀ s d, R s { s with reports := s.reports.push d }
  copy : ∀ s b c, Copies (s.blobs.intern b).1 b.bytes.length c →
    R s { s with stream := s.stream.emitAll c, blobs := (s.blobs.intern b).2 }

namespace Steady

variable {R : State → State → Prop} (hR : Steady env R)

include hR

theorem bind {m : Emit α} {k : α → Emit β} (hm : ∀ s, R s (after m s))
    (hk : ∀ s a t, m s = .ok a t → R t (after (k a) t)) (s : State) : R s (after (m >>= k) s) := by
  have h := hm s
  rw [after_bind]
  cases hms : m s with
  | ok a t => exact hR.trans (after_ok hms ▸ h) (hk s a t hms)
  | error f t => rwa [after, hms] at h

theorem when {c : Bool} {m : Emit Unit} (h : ∀ s, R s (after m s)) (s : State) :
    R s (after (when c m) s) := by
  unfold Emit.when
  split
  · exact h s
  · exact hR.refl s

theorem branch {leaves : Bool} {test : Emit Unit} {other taken : Emit α}
    (ht : ∀ s, R s (after test s)) (ho : ∀ s, R s (after other s))
    (hk : α → ∀ s, R s (after taken s)) (s : State) :
    R s (after (branch leaves test other taken) s) := by
  have hlabel : ∀ s, R s (after newLabel s) := hR.label
  have hcode {i : Instr} (hi : i.token? = none) : ∀ s, R s (after (instr i) s) :=
    fun s => hR.code s i hi
  have hshift : ∀ s, R s (after (Emit.when leaves (adjust (-1))) s) :=
    hR.when fun s => hR.shift s (-1)
  refine hR.bind hlabel (fun _ _ u _ => ?_) s
  refine hR.bind hlabel (fun _ _ u _ => ?_) u
  refine hR.bind ht (fun _ _ u _ => ?_) u
  refine hR.bind (hcode rfl) (fun _ _ u _ => ?_) u
  refine hR.bind ho (fun _ a u _ => ?_) u
  refine hR.bind (hcode rfl) (fun _ _ u _ => ?_) u
  refine hR.bind hshift (fun _ _ u _ => ?_) u
  refine hR.bind (hcode rfl) (fun _ _ u _ => ?_) u
  refine hR.bind (hk a) (fun _ _ u _ => ?_) u
  refine hR.bind (hcode rfl) (fun _ _ u _ => ?_) u
  exact hR.refl u

end Steady

/-- What holds across every step holds across every emission, whether it goes through or fails. -/
theorem Emits.along {m : Emit α} (h : Emits env .any given own script m post)
    {R : State → State → Prop}
    (hR : Steady env R) (s : State) : R s (after m s) := by
  induction h generalizing s with
  | pure | fail => exact hR.refl s
  | bind_of _ _ ih ihk => exact hR.bind ih (fun s a t hm => ihk s a t hm t) s
  | stand _ _ ih | list _ _ _ ih => exact ih s
  | instr hi => exact hR.code s _ (Instr.isOrdinary_iff.mp hi).2
  | throw counted =>
    have hthrow : R s (s.lay .throw) := hR.code s .throw rfl
    cases counted with
    | false => exact hthrow
    | true => exact hR.trans hthrow (hR.shift _ 1)
  | adjust d => exact hR.shift s d
  | @define _ _ l hl =>
    refine hR.serve s (.define l) ?_
    rintro _ ⟨⟩
    exact hl
  | allocate ty byRef => exact hR.serve s (.allocate ty byRef) nofun
  | free x => exact hR.serve s (.free x) nofun
  | retire x => exact hR.serve s (.retire x) nofun
  | report d => exact hR.report s d
  | keep ty byRef _ ih =>
    have hslot := hR.serve s (.allocate ty byRef) nofun
    exact hR.trans hslot (hR.trans (hR.code _ _ rfl) (ih _ _))
  | copyBytes data => exact hR.copy s ⟨data, 1⟩ _ .bytes
  | @copyThroughView _ _ elem v _ size data =>
    have hcopy := hR.copy { s with slots := (s.slots.serve (.allocate v.view false)).2 }
      ⟨data, size⟩ _ (.view v size (s.slots.allocate v.view false).1)
    exact hR.trans (hR.serve s (.allocate v.view false) nofun)
      (hR.trans hcopy (hR.serve _ (.free _) nofun))
  | block hblock => exact hblock.elim
  | branch _ _ _ iht iho ihk => exact hR.branch iht iho ihk s

theorem Emits.along_ok {m : Emit α} (h : Emits env .any given own script m post)
    {R : State → State → Prop}
    (hR : Steady env R) {a : α} (hm : m s = .ok a t) : R s t := by
  have hst := h.along hR s
  rwa [after_ok hm] at hst

end Emit

end TypedStack
