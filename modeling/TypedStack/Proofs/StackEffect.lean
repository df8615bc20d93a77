import TypedStack.Proofs.Blocks

/-! Stack effects. An emission takes so many entries from the stack and leaves so many, and the
code it adds keeps to that on every path. -/
namespace TypedStack

namespace Instr

def pops : Instr → Nat
  | ldcI4 _ | ldcI8 _ | ldcR4 _ | ldcR8 _ | ldnull | blobAddress _ | blobHandle _ | ldftn _
  | sizeof _ | constrained _ | br _ | label _ => 0
  | arg .store _ | slot .store _ | staticField .store _ => 1
  | arg .. | slot .. | staticField .. => 0
  | field .store _ => 2
  | field .. => 1
  | dup | pop | ldind _ | initobj _ | box _ | unboxAny _ | castclass _ | conv .. | ldvirtftn _
  | localloc | refanyval _ | throw | brtrue _ | brfalse _ => 1
  | ldelem _ | ldelema .. | stind _ | add | mul | mulOvfUn => 2
  | stelem _ | initblk | cpblk _ => 3
  | call m | callvirt m => m.inputs
  | newobj m => m.params.length

def pushes : Instr → Nat
  | dup => 2
  | ldcI4 _ | ldcI8 _ | ldcR4 _ | ldcR8 _ | ldnull | blobAddress _ | blobHandle _ | ldftn _
  | sizeof _ | ldelem _ | ldelema .. | ldind _ | box _ | unboxAny _ | castclass _ | conv ..
  | ldvirtftn _ | localloc | refanyval _ | add | mul | mulOvfUn | newobj _ => 1
  | arg .store _ | slot .store _ | staticField .store _ | field .store _ => 0
  | arg .. | slot .. | staticField .. | field .. => 1
  | pop | stelem _ | stind _ | initobj _ | constrained _ | initblk | cpblk _ | throw | br _
  | brtrue _ | brfalse _ | label _ => 0
  | call m | callvirt m => m.returnsValue.toNat

/-- What comes next in the code may run next. -/
def continues : Instr → Bool
  | throw | br _ => false
  | _ => true

theorem delta_eq (i : Instr) : i.delta = i.pushes - i.pops := by
  cases i with
  | arg access | slot access | field access | staticField access => cases access <;> rfl
  | call m | callvirt m => cases h : m.returnsValue <;> simp [delta, pushes, pops, h]
  | newobj m => simp [delta, pushes, pops]
  | _ => rfl

end Instr

/-- Code at known depths. Every instruction stands at a depth, takes nothing from below `floor`
and leaves no more than `ceil`; what may run next stands at the depth it leaves. -/
inductive Leveled (floor ceil : Int) : Int → List (Int × Instr) → Int → Prop where
  | nil (d) : Leveled floor ceil d [] d
  | cons {d e b i rest} : floor ≤ d - i.pops → d + i.delta ≤ ceil →
    (∀ l, i.target? = some l → (d + i.delta, .label l) ∈ rest) →
    (i.continues → e = d + i.delta) → Leveled floor ceil e rest b →
    Leveled floor ceil d ((d, i) :: rest) b

namespace Leveled

variable {floor ceil a b d : Int} {c c' : List (Int × Instr)}

theorem mono {floor' ceil' : Int} (hf : floor' ≤ floor) (hc : ceil ≤ ceil')
    (h : Leveled floor ceil a c b) : Leveled floor' ceil' a c b := by
  induction h with
  | nil => exact .nil _
  | cons hp hd ht hn _ ih => exact .cons (by omega) (by omega) ht hn ih

theorem single {i : Instr} (hi : i.isPlain) (hp : floor ≤ a - i.pops) (hd : a + i.delta ≤ ceil)
    (hn : i.continues → b = a + i.delta) : Leveled floor ceil a [(a, i)] b := by
  refine .cons hp hd (fun l hl => ?_) hn (.nil b)
  simp [(Instr.isPlain_iff.mp hi).1] at hl

theorem append (h : Leveled floor ceil a c b) (h' : Leveled floor ceil b c' d) :
    Leveled floor ceil a (c ++ c') d := by
  induction h with
  | nil => exact h'
  | cons hp hd ht hn _ ih =>
    exact .cons hp hd (fun l hl => List.mem_append_left _ (ht l hl)) hn (ih h')

/-- Both sides of a choice start where the test leaves off and end at one depth. -/
theorem choice {test other taken : List (Int × Instr)} {t : Int} (l done : Label)
    (ht : Leveled floor ceil a test (t + 1)) (ho : Leveled floor ceil t other b)
    (hk : Leveled floor ceil t taken b) (htf : floor ≤ t) (hbf : floor ≤ b) (htc : t ≤ ceil)
    (hbc : b ≤ ceil) :
    Leveled floor ceil a (test ++ (t + 1, Instr.brtrue l) ::
      (other ++ (b, Instr.br done) :: (t, .label l) :: (taken ++ [(b, Instr.label done)]))) b := by
  have hend : Leveled floor ceil b [(b, Instr.label done)] b :=
    .cons (by simpa [Instr.pops] using hbf) (by simpa [Instr.delta] using hbc)
      (by simp [Instr.target?]) (by simp [Instr.delta]) (.nil b)
  have htaken : Leveled floor ceil t ((t, .label l) :: (taken ++ [(b, Instr.label done)])) b :=
    .cons (by simpa [Instr.pops] using htf) (by simpa [Instr.delta] using htc)
      (by simp [Instr.target?]) (by simp [Instr.delta]) (hk.append hend)
  have hother : Leveled floor ceil b
      ((b, .br done) :: (t, .label l) :: (taken ++ [(b, Instr.label done)])) b :=
    .cons (by simpa [Instr.pops] using hbf) (by simpa [Instr.delta] using hbc)
      (by simp [Instr.target?, Instr.delta]) (by simp [Instr.continues]) htaken
  refine ht.append (.cons ?_ ?_ ?_ ?_ (ho.append hother))
  · simp only [Instr.pops]
    omega
  · simp only [Instr.delta]
    omega
  · rintro k ⟨⟩
    have htest : t + 1 + (Instr.brtrue l).delta = t := by
      simp only [Instr.delta]
      omega
    simp [htest]
  · intro _
    simp only [Instr.delta]
    omega

end Leveled

/-- What a stream has gained: it takes `p` entries and leaves `q`. Under `strict` the code alone
accounts for this; else the depth may have been corrected by hand. -/
structure Stream.Gains (strict : Bool) (p q : Nat) (s t : Stream) : Prop where
  depth : t.depth = s.depth - p + q
  peak : s.peak ≤ t.peak
  code : strict = true → ∃ c : List (Int × Instr), s.Adds t (c.map Prod.snd) ∧
    Leveled (s.depth - p) t.peak s.depth c t.depth

namespace Stream.Gains

variable {strict : Bool} {p q r k : Nat} {s t u : Stream}

theorem refl (s : Stream) : s.Gains strict p p s :=
  ⟨by omega, Int.le_refl _, fun _ => ⟨[], .refl s, .nil _⟩⟩

theorem trans (h : s.Gains strict p q t) (h' : t.Gains strict q r u) : s.Gains strict p r u := by
  have hd := h.depth
  have hd' := h'.depth
  refine ⟨by omega, Int.le_trans h.peak h'.peak, ?_⟩
  intro hs
  obtain ⟨c, hc, hl⟩ := h.code hs
  obtain ⟨c', hc', hl'⟩ := h'.code hs
  refine ⟨c ++ c', by simpa using hc.trans hc', ?_⟩
  exact (hl.mono (Int.le_refl _) h'.peak).append (hl'.mono (by omega) (Int.le_refl _))

theorem frame (k : Nat) (h : s.Gains strict p q t) : s.Gains strict (k + p) (k + q) t := by
  have hd := h.depth
  refine ⟨by omega, h.peak, ?_⟩
  intro hs
  obtain ⟨c, hc, hl⟩ := h.code hs
  exact ⟨c, hc, hl.mono (by omega) (Int.le_refl _)⟩

theorem emit {i : Instr} (hi : i.isPlain) : s.Gains strict i.pops i.pushes (s.emit i) := by
  have hd := i.delta_eq
  refine ⟨?_, Int.le_max_left _ _, fun _ => ⟨[(s.depth, i)], .emit s i, ?_⟩⟩
  · simp only [Stream.emit, adjust]
    omega
  · exact .single hi (Int.le_refl _) (Int.le_max_right _ _) fun _ => rfl

/-- What comes after a throw is never reached, so a value may be counted that is not there. -/
theorem throw_counted (s : Stream) : s.Gains strict 1 1 ((s.emit .throw).adjust 1) := by
  refine ⟨?_, ?_, fun _ => ⟨[(s.depth, .throw)], .emit s _, ?_⟩⟩
  · simp only [Stream.emit, adjust, Instr.delta]
    omega
  · exact Int.le_trans (Int.le_max_left _ _) (Int.le_max_left _ _)
  · refine .single rfl (Int.le_refl _) ?_ (by simp [Instr.continues])
    exact Int.le_trans (Int.le_max_right _ _) (Int.le_max_left _ _)

end Stream.Gains

namespace Emit

variable {α β : Type} {env : Env} {strict : Bool} {s t : State}

theorem between_gains (leaves : Bool) (l done : Label) :
    (s.between leaves l done).stream.depth = s.stream.depth - leaves.toNat ∧
      s.stream.peak ≤ (s.between leaves l done).stream.peak := by
  cases leaves <;>
  · simp only [State.between, State.lay, State.shift, Stream.emit, Stream.adjust, Instr.delta,
      ite_true, ite_false, Bool.toNat_true, Bool.toNat_false, Bool.false_eq_true]
    omega

theorem branch_gains {leaves : Bool} {l done : Label} {u v w : State}
    (ht : s.takeLabels.stream.Gains strict 0 1 u.stream)
    (ho : (u.lay (.brtrue l)).stream.Gains strict 0 leaves.toNat v.stream)
    (hk : (v.between leaves l done).stream.Gains strict 0 leaves.toNat w.stream) :
    s.stream.Gains strict 0 leaves.toNat (w.lay (.label done)).stream := by
  have htd : u.stream.depth = s.stream.depth + 1 := by simpa [State.takeLabels] using ht.depth
  have htp : s.stream.peak ≤ u.stream.peak := ht.peak
  have hod := ho.depth
  have hop := ho.peak
  have hkd := hk.depth
  have hkp := hk.peak
  obtain ⟨hbd, hbp⟩ := between_gains (s := v) leaves l done
  have hud : (u.lay (.brtrue l)).stream.depth = s.stream.depth := by
    simp only [State.lay, Stream.emit, Stream.adjust, Instr.delta]
    omega
  have hup : u.stream.peak ≤ (u.lay (.brtrue l)).stream.peak ∧
      (u.lay (.brtrue l)).stream.depth ≤ (u.lay (.brtrue l)).stream.peak :=
    ⟨Int.le_max_left _ _, Int.le_max_right _ _⟩
  have hwd : (w.lay (.label done)).stream.depth = w.stream.depth := by
    simp [State.lay, Stream.emit, Stream.adjust, Instr.delta]
  have hwp : w.stream.peak ≤ (w.lay (.label done)).stream.peak ∧
      (w.lay (.label done)).stream.depth ≤ (w.lay (.label done)).stream.peak :=
    ⟨Int.le_max_left _ _, Int.le_max_right _ _⟩
  refine ⟨by omega, by omega, ?_⟩
  intro hs
  obtain ⟨ct, hct, hlt⟩ := ht.code hs
  obtain ⟨co, hco, hlo⟩ := ho.code hs
  obtain ⟨ck, hck, hlk⟩ := hk.code hs
  have hstart : s.takeLabels.stream.depth = s.stream.depth := rfl
  rw [hstart, htd] at hlt
  rw [hud, show v.stream.depth = (w.lay (.label done)).stream.depth by omega] at hlo
  rw [show (v.between leaves l done).stream.depth = s.stream.depth by omega, ← hwd] at hlk
  have hcode := Leveled.choice l done
    (hlt.mono (Int.le_refl _) (by omega : _ ≤ (w.lay (.label done)).stream.peak))
    (hlo.mono (Int.le_refl _) (by omega)) (hlk.mono (Int.le_refl _) (by omega)) (by omega)
    (by omega) (by omega) hwp.2
  exact ⟨_, by simpa [TypedStack.choice] using branch_adds hct hco hck, hcode⟩

end Emit

end TypedStack
