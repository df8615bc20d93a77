import TypedStack.Proofs.Escapes
import TypedStack.Proofs.Temporaries

/-! Temporaries after a call whose result is a reference. All that were made for the receiver and
the arguments have the same fate: they are set aside for good when references can come in with one
of the parameters, and go back to the pool when none can. -/
namespace TypedStack

def Method.takesReferences (m : Method) : Bool :=
  (m.receiver?.toList ++ m.params).any Parameter.carries

namespace Escape

/-- Where the result is a reference that is used, only a way in is needed. -/
theorem callMightEscape_of_byRef {m : Method} (hm : m.resultMode.isByRef = true)
    (kind : Option AddressKind) : callMightEscape m true kind = m.takesReferences := by
  rw [callMightEscape, mightEscape_eq, Method.takesReferences]
  simp [hm]

end Escape

namespace SlotPool

/-- Give all of these slots back, or set all of them aside. -/
def settleAll (p : SlotPool) (temps : List Slot) (state : SlotState) : SlotPool :=
  temps.foldl (fun p x => p.settle x state) p

variable {p : SlotPool} {temps : List Slot} {state : SlotState} {x : Slot}

theorem settleAll_cons (p : SlotPool) (y : Slot) (temps : List Slot) (state : SlotState) :
    p.settleAll (y :: temps) state = (p.settle y state).settleAll temps state := rfl

theorem settleAll_grows (p : SlotPool) (temps : List Slot) (h : state ≠ .declared) :
    p.Grows (p.settleAll temps state) := by
  induction temps generalizing p with
  | nil => exact .refl p
  | cons y temps ih => exact (p.settle_grows y h).trans (ih _)

theorem settleAll_of_settled (hx : p.stateOf? x = some state) :
    (p.settleAll temps state).stateOf? x = some state := by
  induction temps generalizing p with
  | nil => exact hx
  | cons y temps ih =>
    apply ih
    rw [settle_stateOf]
    split
    · rfl
    · exact hx

theorem settleAll_stateOf (hx : x ∈ temps) (hu : x ∈ p.inUse) :
    (p.settleAll temps state).stateOf? x = some state := by
  induction temps generalizing p with
  | nil => cases hx
  | cons y temps ih =>
    by_cases hxy : x = y
    · subst hxy
      rw [settleAll_cons]
      apply settleAll_of_settled
      rw [settle_stateOf]
      exact if_pos ⟨rfl, hu⟩
    · apply ih ((List.mem_cons.mp hx).resolve_left hxy)
      rw [inUse, Set.mem_ofPred_eq, settle_stateOf, if_neg (fun h => hxy h.1)]
      exact hu

theorem allocate_ne_of_retired {q : SlotPool} (hx : p.stateOf? x = some .retired)
    (hq : p.Reaches q) (ty : Ty) (byRef : Bool) (hsize : (q.allocate ty byRef).2.size ≤ 2 ^ 16) :
    (q.allocate ty byRef).1 ≠ x := by
  rintro rfl
  exact (q.allocate_inUse ty byRef hsize).2.1 (hq.grows.retired hx)

end SlotPool

namespace Emit

variable {env : Env} {o : Option Plan} {m : Method} {args : List Plan} {nonVirtual : Bool}
  {use : Use} {span : Span} {s t : State} {p : Parameter} {x : Slot}

/-- When the arguments are passed from this state on, the temporary is made for the parameter. -/
inductive MadeFor : List (Plan × Parameter) → State → Parameter → Slot → Prop where
  | here {a p rest s x t} : passArgument a p.mode s = .ok (some x) t →
    MadeFor ((a, p) :: rest) s p x
  | later {a p rest s temp t q x} : passArgument a p.mode s = .ok temp t → MadeFor rest t q x →
    MadeFor ((a, p) :: rest) s q x

/-- The call made from this state passes the address of the temporary for the parameter, or for
the receiver as one. -/
inductive Passes (o : Option Plan) (m : Method) (args : List Plan) (nonVirtual : Bool)
    (span : Span) (s : State) : Parameter → Slot → Prop where
  | receiver {p d t x} : m.receiver? = some p → passReceiver o m nonVirtual span s = .ok d t →
    d.temp = some x → Passes o m args nonVirtual span s p x
  | argument {d t p x} : passReceiver o m nonVirtual span s = .ok d t →
    MadeFor (args.zip m.params) t p x → Passes o m args nonVirtual span s p x

theorem MadeFor.mem {args : List (Plan × Parameter)} {temps : List Slot} (h : MadeFor args s p x)
    (hm : passArguments args s = .ok temps t) : x ∈ temps := by
  induction h generalizing temps t with
  | here hx =>
    obtain ⟨temp, u, ha, hrest⟩ := bind_ok hm
    obtain ⟨rest, v, -, hpure⟩ := bind_ok hrest
    obtain ⟨rfl, -⟩ := pure_ok.mp hpure
    cases hx.symm.trans ha
    simp
  | later hx _ ih =>
    obtain ⟨temp, u, ha, hrest⟩ := bind_ok hm
    obtain ⟨rest, v, hr, hpure⟩ := bind_ok hrest
    obtain ⟨rfl, -⟩ := pure_ok.mp hpure
    cases hx.symm.trans ha
    exact List.mem_append_right _ (ih hr)

theorem Passes.mem {d : Dispatch} {u : State} {temps : List Slot}
    (h : Passes o m args nonVirtual span s p x) (hd : passReceiver o m nonVirtual span s = .ok d u)
    (ht : passArguments (args.zip m.params) u = .ok temps t) : x ∈ d.temp.toList ++ temps := by
  cases h with
  | receiver _ hd' hx =>
    cases hd.symm.trans hd'
    simp [hx]
  | argument hd' hx =>
    cases hd.symm.trans hd'
    exact List.mem_append_right _ (hx.mem ht)

theorem forM_settle_ok {f : Slot → Emit Unit} {state : SlotState} {temps : List Slot}
    (hf : ∀ x s, f x s = .ok () { s with slots := s.slots.settle x state })
    (h : temps.forM f s = .ok () t) : t.slots = s.slots.settleAll temps state := by
  induction temps generalizing s with
  | nil =>
    obtain ⟨-, rfl⟩ := pure_ok.mp h
    rfl
  | cons x temps ih =>
    obtain ⟨_, u, hx, hrest⟩ := bind_ok h
    rw [hf] at hx
    cases hx
    exact ih hrest

def fate (m : Method) (use : Use) (kind : Option AddressKind) : SlotState :=
  if Escape.callMightEscape m (use != .unused) kind then .retired else .free

theorem releaseTemps_ok {kind : Option AddressKind} {temps : List Slot}
    (h : releaseTemps m use kind temps s = .ok () t) :
    t.slots = s.slots.settleAll temps (fate m use kind) := by
  unfold releaseTemps at h
  unfold fate
  split at h
  · rename_i he
    rw [if_pos he]
    exact forM_settle_ok (fun _ _ => rfl) h
  · rename_i he
    rw [if_neg he]
    exact forM_settle_ok (fun _ _ => rfl) h

theorem takeResult_slots (h : takeResult m use span s = .ok () t) : t.slots = s.slots := by
  rcases when_ok.mp h with ⟨-, h⟩ | ⟨-, rfl⟩
  · cases use with
    | unused =>
      obtain rfl := instr_ok.mp h
      rfl
    | value =>
      rcases when_ok.mp h with ⟨-, h⟩ | ⟨-, rfl⟩
      · obtain rfl := instr_ok.mp h
        rfl
      · rfl
    | address =>
      obtain ⟨-, rfl⟩ := ensure_ok.mp h
      rfl
  · rfl

/-- A call passes the receiver, then the arguments, and then settles all temporaries alike. -/
theorem call_ok (h : call o m args nonVirtual use span s = .ok () t) :
    ∃ d u temps v, passReceiver o m nonVirtual span s = .ok d u ∧
      passArguments (args.zip m.params) u = .ok temps v ∧
      t.slots = v.slots.settleAll (d.temp.toList ++ temps) (fate m use d.receiverKind) := by
  obtain ⟨_, _, hcount, h⟩ := bind_ok h
  obtain ⟨-, rfl⟩ := ensure_ok.mp hcount
  obtain ⟨d, u, hd, h⟩ := bind_ok h
  obtain ⟨temps, v, htemps, h⟩ := bind_ok h
  obtain ⟨_, w, hconstrained, h⟩ := bind_ok h
  have hw : w.slots = v.slots := by
    cases hc : d.constrained with
    | none =>
      rw [hc] at hconstrained
      obtain ⟨-, rfl⟩ := pure_ok.mp hconstrained
      rfl
    | some ty =>
      rw [hc] at hconstrained
      obtain rfl := instr_ok.mp hconstrained
      rfl
  obtain ⟨_, _, hcall, h⟩ := bind_ok h
  obtain rfl := instr_ok.mp hcall
  obtain ⟨_, y, hrelease, h⟩ := bind_ok h
  refine ⟨d, u, temps, v, hd, htemps, ?_⟩
  rw [takeResult_slots h, releaseTemps_ok hrelease, ← hw]
  rfl

theorem Passes.stateOf {os : List Outline} {ro : Option Outline}
    (hs : SlotPool.empty.Reaches s.slots)
    (ho : Option.Rel (PlanFollows env (.owning t.slots)) ro o)
    (ha : List.Forall₂ (PlanFollows env (.owning t.slots)) os args)
    (h : call o m args nonVirtual use span s = .ok () t) (hsize : t.slots.size ≤ 2 ^ 16)
    (hx : Passes o m args nonVirtual span s p x) :
    ∃ kind, t.slots.stateOf? x = some (fate m use kind) := by
  obtain ⟨d, u, temps, v, hd, htemps, ht⟩ := call_ok h
  have hcall : Follows env (.owning t.slots) [] _ (call o m args nonVirtual use span) :=
    .call ho ha (fun _ _ => trivial) (fun _ => trivial) (fun _ _ => trivial) nonVirtual span
  have hreceiver : Runs env (.owning t.slots) [] _ (passReceiver o m nonVirtual span) fun d =>
      d.temp.toList ++ [] := .passReceiver ho (fun _ _ => trivial) nonVirtual span
  have harguments : Runs env (.owning t.slots) (d.temp.toList ++ []) _
      (passArguments (args.zip m.params)) fun temps => temps ++ (d.temp.toList ++ []) :=
    .passArguments ha m.params
  have hfinal : t.slots.Coherent := by
    have hreach := (hcall True).owned.reaches s
    rw [after_ok h] at hreach
    exact SlotPool.Coherent.empty.reaches (hs.trans hreach) hsize
  have hvt : v.slots.Grows t.slots := by
    rw [ht]
    refine v.slots.settleAll_grows _ ?_
    unfold fate
    split <;> simp
  have hut : u.slots.Grows t.slots := by
    have hreach := (harguments True).owned.reaches u
    rw [after_ok htemps] at hreach
    exact hreach.grows.trans hvt
  -- what the receiver needed stays in hand while the arguments are passed
  have hheld := (hreceiver True).owned.leaves hfinal trivial hd hut (.start s.slots)
  have hall := (harguments True).owned.leaves hfinal trivial htemps hvt hheld
  have hmem := hx.mem hd htemps
  refine ⟨d.receiverKind, ?_⟩
  rw [ht]
  refine SlotPool.settleAll_stateOf hmem ((hall.inUse x).mpr (.inr ?_))
  rw [List.append_nil]
  exact List.perm_append_comm.mem_iff.mp hmem

/-- When the address of a result is taken, temporaries passed to the callee are kept from later
use just if references can come in with the receiver or with an argument. Whether the result may
be a reference to one of the temporaries themselves plays no part. -/
theorem passed_temporaries_settled (hs : SlotPool.empty.Reaches s.slots) (env : Env)
    (receiver : Option Expr) (m : Method) (hm : m.resultMode.isByRef = true) (args : List Expr)
    (nonVirtual : Bool) (span : Span)
    (h : call (Expr.planOption env receiver) m (Expr.planList env args) nonVirtual .address span s
      = .ok () t) (hsize : t.slots.size ≤ 2 ^ 16) :
    let passes := Passes (Expr.planOption env receiver) m (Expr.planList env args) nonVirtual span s
    (m.takesReferences = true → ∀ p x, passes p x → t.slots.stateOf? x = some .retired ∧
      ∀ q, t.slots.Reaches q → ∀ ty byRef, (q.allocate ty byRef).2.size ≤ 2 ^ 16 →
        (q.allocate ty byRef).1 ≠ x) ∧
    (m.takesReferences = false → ∀ p x, passes p x → t.slots.stateOf? x = some .free) := by
  have hstate (p : Parameter) (x : Slot) (hx : Passes (Expr.planOption env receiver) m
      (Expr.planList env args) nonVirtual span s p x) :
      t.slots.stateOf? x = some (if m.takesReferences then .retired else .free) := by
    obtain ⟨kind, hkind⟩ := hx.stateOf hs
      (planOption_follows fun e _ => plan_owns t.slots env e)
      (planList_follows fun e _ => plan_owns t.slots env e) h hsize
    have hfate : fate m .address kind = if m.takesReferences then .retired else .free := by
      rw [fate, ← Escape.callMightEscape_of_byRef hm kind]
      rfl
    rw [hkind, hfate]
  constructor
  · intro htakes p x hx
    have hretired : t.slots.stateOf? x = some .retired := by
      rw [hstate p x hx, htakes]
      rfl
    exact ⟨hretired, fun q hq => SlotPool.allocate_ne_of_retired hretired hq⟩
  · intro htakes p x hx
    rw [hstate p x hx, htakes]
    rfl

def keyParameter : Parameter := ⟨"key", 1, .ofPrim .i32, .input, .unscoped⟩

/-- Find an entry of a table by its key and give a reference to it. -/
def findEntry (table : Ty) : Method where
  name := "Find"
  owner := .classNamed "Program"
  kind := .ordinary
  isStatic := true
  isVirtual := false
  isReadonly := false
  result := .ofPrim .i32
  resultMode := .refReadonly
  params := [⟨"table", 0, table, .byValue, .unscoped⟩, keyParameter]

def fiveInTable (table : Ty) : List Expr :=
  [.param (.plain table) ⟨"p", 0, table, .byValue, .unscoped⟩,
    .literal ⟨.ofPrim .i32, some (.int 5), .synthesized⟩]

theorem passes_key (table : Ty) :
    Passes none (findEntry table)
      (Expr.planList (.bare (.ordinary (.classNamed "Program"))) (fiveInTable table)) false
      .synthesized .empty keyParameter ⟨0⟩ := by
  have hy : yields (passArgument ((Expr.literal ⟨.ofPrim .i32, some (.int 5), .synthesized⟩).plan
      (.bare (.ordinary (.classNamed "Program")))) .input) (State.empty.lay (.arg .load 1))
      (fun temp _ => temp == some ⟨0⟩) = true := by decide +kernel
  obtain ⟨temp, t, ht, htemp⟩ := ok_of_yields hy
  obtain rfl : temp = some ⟨0⟩ := by simpa using htemp
  exact .argument rfl (.later rfl (.here ht))

/-- With a table that holds references the key's temporary is set aside. -/
theorem passed_temporaries_settled_findEntry :
    let env := Env.bare (.ordinary (.classNamed "Program"))
    let m := findEntry (.structNamed "Table" true false)
    let args := Expr.planList env (fiveInTable (.structNamed "Table" true false))
    ∃ t, call none m args false .address .synthesized .empty = .ok () t ∧
      Passes none m args false .synthesized .empty keyParameter ⟨0⟩ ∧
      t.slots.stateOf? ⟨0⟩ = some .retired := by
  intro env m args
  have hy : yields (call none m args false .address .synthesized) .empty
      (fun _ t => t.slots.size == 1) = true := by decide +kernel
  obtain ⟨⟨⟩, t, ht, hsize⟩ := ok_of_yields hy
  have hsize : t.slots.size = 1 := by simpa using hsize
  have hpasses := passes_key (.structNamed "Table" true false)
  have h := passed_temporaries_settled (s := .empty) ⟨[], rfl⟩ env none m rfl
    (fiveInTable (.structNamed "Table" true false)) false .synthesized ht (by omega)
  exact ⟨t, ht, hpasses, (h.1 (by decide) _ _ hpasses).1⟩

/-- With any other table it goes back to the pool, though the key comes in by a reference that the
result may be: the next temporary of its type is the one that the reference may refer to. -/
theorem findEntry_recycles_key :
    let env := Env.bare (.ordinary (.classNamed "Program"))
    let m := findEntry (.structNamed "Table" false false)
    let args := Expr.planList env (fiveInTable (.structNamed "Table" false false))
    ∃ t, call none m args false .address .synthesized .empty = .ok () t ∧
      keyParameter.lifetime = .unscoped ∧ keyParameter.mode.isByRef = true ∧
      Passes none m args false .synthesized .empty keyParameter ⟨0⟩ ∧
      t.slots.stateOf? ⟨0⟩ = some .free ∧ (t.slots.allocate (.ofPrim .i32) false).1 = ⟨0⟩ := by
  intro env m args
  have hy : yields (call none m args false .address .synthesized) .empty (fun _ t =>
      t.slots.stateOf? ⟨0⟩ == some .free && (t.slots.allocate (.ofPrim .i32) false).1 == ⟨0⟩) =
      true := by decide +kernel
  obtain ⟨⟨⟩, t, ht, htest⟩ := ok_of_yields hy
  obtain ⟨hfree, hnext⟩ : t.slots.stateOf? ⟨0⟩ = some .free ∧
      (t.slots.allocate (.ofPrim .i32) false).1 = ⟨0⟩ := by simpa using htest
  exact ⟨t, ht, rfl, rfl, passes_key _, hfree, hnext⟩

end Emit

end TypedStack
