import TypedStack.Proofs.Sessions

/-! Requests for constant data, from whichever bodies and in whichever order. Each distinct piece of
data is stored once, under the number of data asked for before it, and every request for it is
answered with that number. The table as an array gives the numbers by position; the map with its
counter is shown to represent it as long as the counter, of 32 bits, has not wrapped around. -/
namespace TypedStack

namespace BlobTable

variable {t : BlobTable} {b : Blob} {token : BlobToken} {requests : List Blob}

def internAll (t : BlobTable) : List Blob → List BlobToken × BlobTable
  | [] => ([], t)
  | b :: requests =>
    let rest := (t.intern b).2.internAll requests
    ((t.intern b).1 :: rest.1, rest.2)

theorem internAll_cons (t : BlobTable) (b : Blob) (requests : List Blob) :
    t.internAll (b :: requests) = ((t.intern b).1 :: ((t.intern b).2.internAll requests).1,
      ((t.intern b).2.internAll requests).2) := rfl

theorem internAll_append (t : BlobTable) (first second : List Blob) :
    t.internAll (first ++ second) =
      ((t.internAll first).1 ++ ((t.internAll first).2.internAll second).1,
        ((t.internAll first).2.internAll second).2) := by
  induction first generalizing t with
  | nil => rfl
  | cons b first ih =>
    rw [List.cons_append, internAll_cons, ih]
    rfl

theorem internAll_length (t : BlobTable) (requests : List Blob) :
    (t.internAll requests).1.length = requests.length := by
  induction requests generalizing t with
  | nil => rfl
  | cons b requests ih => simp [internAll_cons, ih]

theorem internAll_within (t : BlobTable) (requests : List Blob) :
    t.Within (t.internAll requests).2 := by
  induction requests generalizing t with
  | nil => exact .refl t
  | cons b requests ih => exact (t.intern_within b).trans (ih _)

theorem Distinct.token_of_stored (h : t.Distinct) (hb : t.blobs[token.index]? = some b) :
    (t.intern b).1 = token := by
  have hfound := blob_of_mem (Array.mem_of_getElem? hb)
  have hindex : (t.intern b).1.index = token.index := h _ _ b hfound hb
  cases token
  exact congrArg BlobToken.mk hindex

/-- New data goes to the end, in the order of first requests. -/
theorem internAll_blobs (t : BlobTable) (requests : List Blob) :
    (t.internAll requests).2.blobs.toList =
      t.blobs.toList ++ (requests.removeAll t.blobs.toList).eraseDups := by
  induction requests generalizing t with
  | nil => simp [internAll]
  | cons b requests ih =>
    rw [internAll_cons, ih]
    rcases t.intern_cases b with ⟨hb, ht⟩ | ⟨hb, ht⟩
    · have hknown : ¬ t.blobs.toList.contains b = false := by simpa using hb
      rw [ht, List.cons_removeAll, if_neg hknown]
    · have hnew : t.blobs.toList.contains b = false := by simpa using hb
      have hrest : requests.removeAll (t.blobs.toList ++ [b]) =
          (requests.removeAll t.blobs.toList).filter (fun x => !x == b) := by
        simp only [List.removeAll, List.filter_filter]
        refine List.filter_congr fun x _ => ?_
        by_cases hx : x = b <;> simp [hx]
      rw [ht, Array.toList_push, hrest, List.cons_removeAll, if_pos hnew, List.eraseDups_cons,
        List.append_assoc]
      rfl

theorem entries_at (t : BlobTable) (i : Nat) :
    t.entries[i]? = t.blobs.toList[i]?.map fun b => (⟨i⟩, b) := by
  simp [entries, Function.comp_def]

theorem mem_entries {t : BlobTable} {x : BlobToken × Blob} :
    x ∈ t.entries ↔ t.blobs[x.1.index]? = some x.2 := by
  rw [List.mem_iff_getElem?]
  constructor
  · rintro ⟨i, hi⟩
    rw [entries_at, Option.map_eq_some_iff] at hi
    obtain ⟨b, hb, rfl⟩ := hi
    rwa [Array.getElem?_toList] at hb
  · intro h
    refine ⟨x.1.index, ?_⟩
    rw [entries_at, Array.getElem?_toList, h]
    rfl

theorem entries_sorted (t : BlobTable) :
    t.entries.Pairwise fun x y => x.1.index < y.1.index := by
  rw [List.pairwise_iff_getElem]
  intro i j hi hj hij
  have hat := t.entries_at i
  have hat' := t.entries_at j
  rw [List.getElem?_eq_getElem hi] at hat
  rw [List.getElem?_eq_getElem hj] at hat'
  obtain ⟨_, -, hx⟩ := Option.map_eq_some_iff.mp hat.symm
  obtain ⟨_, -, hy⟩ := Option.map_eq_some_iff.mp hat'.symm
  rw [← hx, ← hy]
  exact hij

theorem length_entries (t : BlobTable) : t.entries.length = t.size := by
  simp [entries, size]

end BlobTable

/-! ### Map, counter and sorted entries -/

namespace BlobStore

variable {s : BlobStore} {t : BlobTable} {b : Blob} {token : BlobToken}

def requestAll (s : BlobStore) : List Blob → List BlobToken × BlobStore
  | [] => ([], s)
  | b :: requests =>
    let rest := (s.request b).2.requestAll requests
    ((s.request b).1 :: rest.1, rest.2)

/-- The map holds the table's data, each under its position, and nothing else. The counter has
reached the number of them. -/
structure Represents (s : BlobStore) (t : BlobTable) : Prop where
  found : ∀ b (token : BlobToken), s.tokens[b]? = some token ↔ t.blobs[token.index]? = some b
  next : s.next.toNat = t.size

theorem Represents.empty : BlobStore.empty.Represents .empty where
  found b token := by simp [BlobStore.empty, BlobTable.empty]
  next := rfl

theorem request_of_found (h : s.tokens[b]? = some token) : s.request b = (token, s) := by
  rw [request, h]

theorem request_of_new (h : s.tokens[b]? = none) :
    s.request b =
      (⟨s.next.toNat⟩, ⟨s.tokens.insert b ⟨s.next.toNat⟩, s.next + 1⟩) := by
  rw [request, h]

/-- What was stored stays, whatever the counter does. -/
theorem request_keeps (h : s.tokens[b]? = some token) (other : Blob) :
    (s.request other).2.tokens[b]? = some token := by
  cases hother : s.tokens[other]? with
  | some found =>
    rw [request_of_found hother]
    exact h
  | none =>
    have hne : (other == b) = false := by
      rw [beq_eq_false_iff_ne]
      rintro rfl
      rw [h] at hother
      cases hother
    rw [request_of_new hother, Std.HashMap.getElem?_insert, hne]
    exact h

theorem request_stores (s : BlobStore) (b : Blob) :
    (s.request b).2.tokens[b]? = some (s.request b).1 := by
  cases h : s.tokens[b]? with
  | some token =>
    rw [request_of_found h]
    exact h
  | none =>
    rw [request_of_new h]
    exact Std.HashMap.getElem?_insert_self

theorem requestAll_keeps (h : s.tokens[b]? = some token) (requests : List Blob) :
    (s.requestAll requests).2.tokens[b]? = some token := by
  induction requests generalizing s with
  | nil => exact h
  | cons other requests ih => exact ih (request_keeps h other)

theorem requestAll_length (s : BlobStore) (requests : List Blob) :
    (s.requestAll requests).1.length = requests.length := by
  induction requests generalizing s with
  | nil => rfl
  | cons b requests ih => exact congrArg Nat.succ (ih _)

theorem requestAll_found {requests : List Blob}
    (h : (b, token) ∈ requests.zip (s.requestAll requests).1) :
    (s.requestAll requests).2.tokens[b]? = some token := by
  induction requests generalizing s with
  | nil => cases h
  | cons other requests ih =>
    change (b, token) ∈ (other, (s.request other).1) :: requests.zip _ at h
    rcases List.mem_cons.mp h with h | h
    · cases h
      exact requestAll_keeps (s.request_stores b) requests
    · exact ih h

theorem Represents.distinct (h : s.Represents t) : t.Distinct := by
  intro i j blob hi hj
  have hsame := ((h.found blob ⟨i⟩).mpr hi).symm.trans ((h.found blob ⟨j⟩).mpr hj)
  exact congrArg BlobToken.index (Option.some.inj hsame)

theorem Represents.not_mem (h : s.Represents t) (hb : s.tokens[b]? = none) : b ∉ t.blobs := by
  intro hmem
  obtain ⟨i, hi⟩ := Array.mem_iff_getElem?.mp hmem
  rw [(h.found b ⟨i⟩).mpr hi] at hb
  cases hb

theorem Represents.found_insert (h : s.Represents t) (hb : s.tokens[b]? = none) (other : Blob)
    (token : BlobToken) :
    (s.tokens.insert b ⟨t.size⟩)[other]? = some token ↔
      (t.blobs.push b)[token.index]? = some other := by
  have hnew := h.not_mem hb
  rw [Std.HashMap.getElem?_insert, Array.getElem?_push]
  by_cases hother : b = other
  · subst hother
    rw [if_pos (beq_self_eq_true b), Option.some.injEq]
    constructor
    · rintro rfl
      exact if_pos rfl
    · intro hi
      by_cases hlast : token.index = t.blobs.size
      · exact congrArg BlobToken.mk hlast.symm
      · rw [if_neg hlast] at hi
        exact absurd (Array.mem_of_getElem? hi) hnew
  · rw [if_neg (by simpa using hother), h.found]
    by_cases hlast : token.index = t.blobs.size
    · rw [if_pos hlast, hlast, Array.getElem?_size]
      simpa using hother
    · rw [if_neg hlast]

/-- One request: while the counter has numbers left, store and table give the same answer and go
on alike. -/
theorem Represents.request (h : s.Represents t) (hroom : (t.intern b).2.size < 2 ^ 32) :
    (s.request b).1 = (t.intern b).1 ∧ (s.request b).2.Represents (t.intern b).2 := by
  cases hb : s.tokens[b]? with
  | some token =>
    have hstored := (h.found b token).mp hb
    rw [request_of_found hb, h.distinct.token_of_stored hstored]
    refine ⟨rfl, ?_⟩
    rcases t.intern_cases b with ⟨-, ht⟩ | ⟨hnew, -⟩
    · rw [ht]
      exact h
    · exact absurd (Array.mem_of_getElem? hstored) hnew
  | none =>
    obtain ⟨htoken, hblobs⟩ := BlobTable.intern_of_new (h.not_mem hb)
    have hsize : (t.intern b).2.size = t.size + 1 := by
      rw [BlobTable.size, hblobs, Array.size_push, BlobTable.size]
    rw [request_of_new hb, h.next]
    refine ⟨htoken.symm, ?_, ?_⟩
    · rw [hblobs]
      exact h.found_insert hb
    · have hfit : t.size + 1 < 2 ^ 32 := hsize ▸ hroom
      change (s.next + 1).toNat = _
      rw [UInt32.toNat_add, h.next, hsize]
      exact Nat.mod_eq_of_lt hfit

/-- All requests: as long as the table stays below `2 ^ 32` data, the store answers as the table
does. -/
theorem Represents.requestAll (h : s.Represents t) {requests : List Blob}
    (hroom : (t.internAll requests).2.size < 2 ^ 32) :
    (s.requestAll requests).1 = (t.internAll requests).1 ∧
      (s.requestAll requests).2.Represents (t.internAll requests).2 := by
  induction requests generalizing s t with
  | nil => exact ⟨rfl, h⟩
  | cons b requests ih =>
    have hfirst : (t.intern b).2.size < 2 ^ 32 :=
      Nat.lt_of_le_of_lt (BlobTable.internAll_within _ requests).size_le hroom
    obtain ⟨htoken, hnext⟩ := h.request hfirst
    obtain ⟨htokens, hlast⟩ := ih hnext hroom
    refine ⟨?_, hlast⟩
    change (s.request b).1 :: _ = (t.intern b).1 :: _
    rw [htoken, htokens]

theorem Represents.entries (h : s.Represents t) : s.entries = t.entries := by
  have hmem (x : BlobToken × Blob) : x ∈ s.tokens.toList.map Prod.swap ↔ x ∈ t.entries := by
    rw [BlobTable.mem_entries, ← h.found, ← Std.HashMap.mem_toList_iff_getElem?_eq_some]
    constructor
    · intro hx
      obtain ⟨y, hy, rfl⟩ := List.mem_map.mp hx
      exact hy
    · exact fun hx => List.mem_map.mpr ⟨_, hx, rfl⟩
  have hnodup : (s.tokens.toList.map Prod.swap).Nodup := by
    refine List.Pairwise.map _ ?_ Std.HashMap.distinct_keys_toList
    intro x y hkeys hswap
    rw [Prod.swap_inj.mp hswap, beq_self_eq_true] at hkeys
    cases hkeys
  have hnodup' : t.entries.Nodup := t.entries_sorted.imp fun hlt heq => by
    rw [heq] at hlt
    exact Nat.lt_irrefl _ hlt
  have hperm : s.entries.Perm t.entries :=
    (List.mergeSort_perm _ _).trans ((List.perm_ext_iff_of_nodup hnodup hnodup').mpr hmem)
  refine List.Perm.eq_of_pairwise ?_ ?_ (t.entries_sorted.imp Nat.le_of_lt) hperm
  · intro x y hx hy hxy hyx
    have hx' := BlobTable.mem_entries.mp (hperm.mem_iff.mp hx)
    have hy' := BlobTable.mem_entries.mp hy
    have hindex : x.1.index = y.1.index := Nat.le_antisymm hxy hyx
    have htoken : x.1 = y.1 := congrArg BlobToken.mk hindex
    have hblob : x.2 = y.2 := Option.some.inj (hx'.symm.trans (hindex ▸ hy'))
    exact Prod.ext htoken hblob
  · refine (List.pairwise_mergeSort ?_ ?_ _).imp of_decide_eq_true
    · intro x y z hxy hyz
      exact decide_eq_true (Nat.le_trans (of_decide_eq_true hxy) (of_decide_eq_true hyz))
    · intro x y
      rw [Bool.or_eq_true, decide_eq_true_iff, decide_eq_true_iff]
      exact Nat.le_total _ _

theorem Represents.count (h : s.Represents t) : s.count = t.size := by
  rw [← BlobTable.length_entries, ← h.entries, BlobStore.entries, List.length_mergeSort,
    List.length_map, Std.HashMap.length_toList, BlobStore.count]

end BlobStore

/-! ### Requests of bodies -/

def tokens (code : List Instr) : List BlobToken := code.filterMap Instr.token?

theorem tokens_append (c c' : List Instr) : tokens (c ++ c') = tokens c ++ tokens c' :=
  List.filterMap_append

theorem Copies.tokens {token : BlobToken} {length : Nat} {c : List Instr}
    (h : Copies token length c) : tokens c = [token] := by
  cases h <;> rfl

def tableOf (asked : List (Nat × Blob)) : BlobTable :=
  (BlobTable.empty.internAll (asked.map Prod.snd)).2

def answersTo (n : Nat) (asked : List (Nat × Blob)) : List BlobToken :=
  ((asked.zip (BlobTable.empty.internAll (asked.map Prod.snd)).1).filter (·.1.1 = n)).map Prod.snd

theorem map_snd_tagged (m : Nat) (more : List Blob) : (more.map (m, ·)).map Prod.snd = more := by
  simp [Function.comp_def]

theorem tableOf_append (m : Nat) (asked : List (Nat × Blob)) (more : List Blob) :
    tableOf (asked ++ more.map (m, ·)) = ((tableOf asked).internAll more).2 := by
  rw [tableOf, List.map_append, map_snd_tagged, BlobTable.internAll_append]
  rfl

theorem answers_tagged (n m : Nat) {more : List Blob} {answers : List BlobToken}
    (h : answers.length = more.length) :
    (((more.map (m, ·)).zip answers).filter (·.1.1 = n)).map Prod.snd =
      if n = m then answers else [] := by
  have htag : ∀ x ∈ (more.map (m, ·)).zip answers, x.1.1 = m := by
    intro x hx
    obtain ⟨b, -, hb⟩ := List.mem_map.mp (List.of_mem_zip hx).1
    rw [← hb]
  by_cases hn : n = m
  · have hall : ((more.map (m, ·)).zip answers).filter (·.1.1 = n) =
        (more.map (m, ·)).zip answers := by
      rw [List.filter_eq_self]
      intro x hx
      simp [htag x hx, hn]
    rw [hall, if_pos hn, List.map_snd_zip]
    simp [h]
  · have hnone : ((more.map (m, ·)).zip answers).filter (·.1.1 = n) = [] := by
      rw [List.filter_eq_nil_iff]
      intro x hx
      simpa [htag x hx] using Ne.symm hn
    rw [hnone, if_neg hn]
    rfl

theorem answersTo_append (n m : Nat) (asked : List (Nat × Blob)) (more : List Blob) :
    answersTo n (asked ++ more.map (m, ·)) =
      answersTo n asked ++ if n = m then ((tableOf asked).internAll more).1 else [] := by
  have hlength : asked.length = (BlobTable.empty.internAll (asked.map Prod.snd)).1.length := by
    rw [BlobTable.internAll_length, List.length_map]
  rw [answersTo, List.map_append, map_snd_tagged, BlobTable.internAll_append,
    List.zip_append hlength, List.filter_append, List.map_append,
    answers_tagged n m (BlobTable.internAll_length _ more)]
  rfl

namespace Emit

/-- Between the two states data was asked for, and the code that was added names the answers, each
once and in order. -/
def Asks (s t : State) : Prop :=
  ∃ more c, s.stream.Adds t.stream c ∧ t.blobs = (s.blobs.internAll more).2 ∧
    tokens c = (s.blobs.internAll more).1

theorem Asks.nothing {s t : State} {c : List Instr} (h : s.stream.Adds t.stream c)
    (hb : t.blobs = s.blobs) (hc : tokens c = []) : Asks s t := ⟨[], c, h, hb, hc⟩

theorem Asks.trans {s t u : State} (h : Asks s t) (h' : Asks t u) : Asks s u := by
  obtain ⟨first, c, hc, hb, ht⟩ := h
  obtain ⟨second, c', hc', hb', ht'⟩ := h'
  refine ⟨first ++ second, c ++ c', hc.trans hc', ?_, ?_⟩
  · rw [BlobTable.internAll_append, hb', hb]
  · rw [BlobTable.internAll_append, tokens_append, ht, ht', hb]

theorem steady_asks {env : Env} : Steady env Asks where
  refl _ := .nothing (.refl _) rfl rfl
  trans := .trans
  code _ i hi := .nothing (.emit _ i) rfl (by simp [tokens, hi])
  shift _ _ := .nothing (.refl _) rfl rfl
  label _ := .nothing (.refl _) rfl rfl
  serve _ _ _ := .nothing (.refl _) rfl rfl
  report _ _ := .nothing (.refl _) rfl rfl
  copy _ b c hc := ⟨[b], c, .emitAll _ c, rfl, hc.tokens⟩

end Emit

namespace Session

/-- The bodies have made these requests, each with the number of its body: the table is what came
of all of them together, and the code of each body names the answers to its own, in order. -/
structure Asked (s : Session) (asked : List (Nat × Blob)) : Prop where
  table : s.blobs = tableOf asked
  code : ∀ (n : Nat) b, s.bodies[n]? = some b → tokens b.stream.code.toList = answersTo n asked

theorem fresh_asked (symbols : Symbols) (methods : List (Enclosing × Options)) :
    (fresh symbols methods).Asked [] := by
  refine ⟨rfl, fun n b hb => ?_⟩
  obtain ⟨x, -, rfl⟩ := Option.map_eq_some_iff.mp (fresh_body symbols methods n ▸ hb)
  rfl

theorem Asked.step {s : Session} {asked : List (Nat × Blob)} (h : s.Asked asked) (m : Nat)
    (step : Step) : ∃ more : List Blob, (s.step m step).2.Asked (asked ++ more.map (m, ·)) := by
  cases hm : s.bodies[m]? with
  | none =>
    refine ⟨[], ?_⟩
    rw [step_of_none hm, List.map_nil, List.append_nil]
    exact h
  | some a =>
    obtain ⟨more, c, hc, hb, ht⟩ := step.along Emit.steady_asks (s.stateOf a)
    have htable : (s.stateOf a).blobs = tableOf asked := h.table
    rw [htable] at hb ht
    refine ⟨more, ?_, ?_⟩
    · rw [step_blobs hm, tableOf_append]
      exact hb
    · intro n b hn
      rw [step_bodies hm] at hn
      rw [answersTo_append]
      by_cases hsame : n = m
      · rw [if_pos hsame] at hn ⊢
        cases hn
        have hcode : (s.reached a step).stream.code.toList = a.stream.code.toList ++ c := hc
        change tokens (s.reached a step).stream.code.toList = _
        rw [hcode, tokens_append, ht, h.code m a hm, hsame]
      · rw [if_neg hsame] at hn ⊢
        rw [List.append_nil]
        exact h.code n b hn

theorem run_asked (symbols : Symbols) (methods : List (Enclosing × Options))
    (script : List (Nat × Step)) : ∃ asked, ((fresh symbols methods).run script).Asked asked := by
  have hstart := fresh_asked symbols methods
  refine run_keeps (P := fun s => ∃ asked, s.Asked asked) ?_ ⟨[], hstart⟩ script
  rintro s m step ⟨asked, h⟩
  obtain ⟨more, hmore⟩ := h.step m step
  exact ⟨_, hmore⟩

end Session

namespace BlobStore

/-- Data is interned. Of requests for fewer than `2 ^ 32` distinct data, two get the same token just
if they ask for the same bytes with the same alignment, and a token once given for data is given for
it ever after, even when the counter has wrapped around. The entries are the distinct data in the
order of first requests, each under its position. The table of a session comes from such requests,
whichever bodies make them and in whatever order: the store represents it, and the code of each body
names the answers to its own. -/
theorem data_interned (requests : List Blob) (hfew : requests.eraseDups.length < 2 ^ 32) :
    let tokens := (empty.requestAll requests).1
    let store := (empty.requestAll requests).2
    tokens.length = requests.length ∧
    (∀ b token b' token', (b, token) ∈ requests.zip tokens → (b', token') ∈ requests.zip tokens →
      (token = token' ↔ b = b')) ∧
    (∀ b token, (b, token) ∈ requests.zip tokens → token.index < store.count ∧
      ∀ later, ((store.requestAll later).2.request b).1 = token) ∧
    (∀ i : Nat, store.entries[i]? = requests.eraseDups[i]?.map fun b => (⟨i⟩, b)) ∧
    store.count = requests.eraseDups.length ∧
    (∀ symbols methods script, ∃ asked : List (Nat × Blob),
      ((Session.fresh symbols methods).run script).Asked asked ∧
      ((asked.map Prod.snd).eraseDups.length < 2 ^ 32 →
        (empty.requestAll (asked.map Prod.snd)).1 =
          (BlobTable.empty.internAll (asked.map Prod.snd)).1 ∧
        (empty.requestAll (asked.map Prod.snd)).2.Represents
          ((Session.fresh symbols methods).run script).blobs)) := by
  intro tokens store
  have hblobs (requests : List Blob) :
      (BlobTable.empty.internAll requests).2.blobs.toList = requests.eraseDups :=
    (BlobTable.internAll_blobs .empty requests).trans (by simp [BlobTable.empty])
  have hsize (requests : List Blob) :
      (BlobTable.empty.internAll requests).2.size = requests.eraseDups.length := by
    rw [BlobTable.size, ← Array.length_toList, hblobs]
  obtain ⟨-, hstore⟩ := Represents.empty.requestAll (hsize requests ▸ hfew)
  refine ⟨requestAll_length empty requests, ?_, ?_, ?_, ?_, ?_⟩
  · intro b token b' token' h h'
    have hb := requestAll_found h
    have hb' := requestAll_found h'
    constructor
    · rintro rfl
      have hfound := (hstore.found b token).mp hb
      exact Option.some.inj (hfound.symm.trans ((hstore.found b' token).mp hb'))
    · rintro rfl
      exact Option.some.inj (hb.symm.trans hb')
  · intro b token h
    have hb := requestAll_found h
    refine ⟨?_, fun later => ?_⟩
    · rw [hstore.count]
      exact (Array.getElem?_eq_some_iff.mp ((hstore.found b token).mp hb)).1
    · rw [request_of_found (requestAll_keeps hb later)]
  · intro i
    rw [hstore.entries, BlobTable.entries_at, hblobs]
  · rw [hstore.count, hsize]
  · intro symbols methods script
    obtain ⟨asked, hasked⟩ := Session.run_asked symbols methods script
    refine ⟨asked, hasked, fun hfew => ?_⟩
    rw [hasked.table]
    exact Represents.empty.requestAll (hsize _ ▸ hfew)

/-- Three bytes, asked for once more and once with another alignment, and one other byte. -/
def sharedBytes : List Blob := [⟨[1, 2, 3], 1⟩, ⟨[9], 1⟩, ⟨[1, 2, 3], 1⟩, ⟨[1, 2, 3], 4⟩]

theorem data_interned_sharedBytes :
    let store := (empty.requestAll sharedBytes).2
    sharedBytes.eraseDups.length < 2 ^ 32 ∧
      (empty.requestAll sharedBytes).1 = [⟨0⟩, ⟨1⟩, ⟨0⟩, ⟨2⟩] ∧
      ((⟨0⟩ : BlobToken) = ⟨2⟩ ↔ (⟨[1, 2, 3], 1⟩ : Blob) = ⟨[1, 2, 3], 4⟩) ∧
      ((store.requestAll [⟨[], 8⟩]).2.request ⟨[1, 2, 3], 4⟩).1 = ⟨2⟩ ∧
      store.entries[2]? = some (⟨2⟩, ⟨[1, 2, 3], 4⟩) ∧ store.count = 3 := by
  intro store
  have hfew : sharedBytes.eraseDups.length < 2 ^ 32 := by decide +kernel
  obtain ⟨-, hsame, hlater, hentries, hcount, -⟩ := data_interned sharedBytes hfew
  have hroom : (BlobTable.empty.internAll sharedBytes).2.size < 2 ^ 32 := by decide +kernel
  have hanswers : (empty.requestAll sharedBytes).1 = [⟨0⟩, ⟨1⟩, ⟨0⟩, ⟨2⟩] := by
    rw [(Represents.empty.requestAll hroom).1]
    decide +kernel
  have hfirst : (⟨[1, 2, 3], 1⟩, ⟨0⟩) ∈ sharedBytes.zip (empty.requestAll sharedBytes).1 := by
    rw [hanswers]
    decide
  have hlast : (⟨[1, 2, 3], 4⟩, ⟨2⟩) ∈ sharedBytes.zip (empty.requestAll sharedBytes).1 := by
    rw [hanswers]
    decide
  refine ⟨hfew, hanswers, hsame _ _ _ _ hfirst hlast, (hlater _ _ hlast).2 _, ?_, ?_⟩
  · rw [hentries]
    decide +kernel
  · rw [hcount]
    decide +kernel

end BlobStore

end TypedStack
