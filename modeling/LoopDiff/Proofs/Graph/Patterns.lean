import LoopDiff.Proofs.Graph.History

/-!
# LoopDiff.Proofs.Graph.Patterns

Patterns are registered once.

A loop reads and writes through the number that an arena gives to a pattern.
The pattern that is behind the number need not be the one that was asked for,
but it has the same indices at all iterations that the request is about, and
it stays there (`Registers.keeps`).  Requests are told apart by nothing else:
two of them for the same number of iterations get the same number if and only
if their patterns agree (`Registers.same_iff`).

What carries this is that no two patterns that are registered for the same
number of iterations agree (`Arena.Distinct`).  It does not depend on the
order of requests, so which of the patterns that agree came first does not
matter; and it follows that a number is given out exactly when no request
before had the same indices (`Registers.grows`, `Registers.rests`).
-/

namespace LoopDiff

variable {F : Type}

/-- Patterns with the same indices at the first `n` iterations. -/
def Pattern.Agree (n : Nat) (p q : Pattern) : Prop := ∀ it < n, p.eval it = q.eval it

namespace Arena

/-! ## Distinct patterns -/

/-- No two patterns that are registered for the same number of iterations
agree. -/
def Distinct (a : Arena F) : Prop :=
  ∀ (i j n : Nat) (p q : Pattern), a.patterns[i]? = some (p, n) →
    a.patterns[j]? = some (q, n) → p.Agree n q → i = j

variable {a a' : Arena F}

/-- What is not found is not registered. -/
theorem not_registered_of_findPattern? {p : Pattern} {n : Nat} (h : a.findPattern? p n = none)
    (i : Nat) : ¬a.Registered i n p := by
  rintro ⟨q, hq, agree⟩
  have test := Array.findIdx?_eq_none_iff.mp h _ (Array.mem_of_getElem? hq)
  simp [Pattern.equivalent_iff.mpr agree] at test

theorem distinct_registered {p : Pattern} {n : Nat} (distinct : a.Distinct)
    (fresh : a.findPattern? p n = none) : (a.registered p n).Distinct := by
  intro i j m q q' hi hj agree
  have absent := not_registered_of_findPattern? fresh
  rcases getElem?_push_cases hi with hi | ⟨rfl, eq⟩ <;>
    rcases getElem?_push_cases hj with hj | ⟨rfl, eq'⟩
  · exact distinct i j m q q' hi hj agree
  · cases eq'
    exact absurd ⟨q, hi, agree⟩ (absent i)
  · cases eq
    exact absurd ⟨q', hj, fun it lt => (agree it lt).symm⟩ (absent j)
  · rfl

section

variable [Scalar F]

theorem Step.distinct {shape : Node F → Prop} (h : a.Step shape a') (distinct : a.Distinct) :
    a'.Distinct := by
  cases h with
  | pattern p n fresh => exact distinct_registered distinct fresh
  | _ => exact distinct

theorem Steps.distinct {shape : Node F → Prop} (h : a.Steps shape a') (distinct : a.Distinct) :
    a'.Distinct :=
  h.invariant distinct fun _ _ step => step.distinct

end

/-- Patterns get the same number if and only if they agree. -/
theorem Distinct.registered_inj (distinct : a.Distinct) {p q : Pattern} {i j n : Nat}
    (hp : a.Registered i n p) (hq : a.Registered j n q) : i = j ↔ p.Agree n q := by
  obtain ⟨p', hp', agree⟩ := hp
  obtain ⟨q', hq', agree'⟩ := hq
  constructor
  · rintro rfl
    cases hp'.symm.trans hq'
    exact fun it lt => (agree it lt).symm.trans (agree' it lt)
  · intro same
    refine distinct i j n p' q' hp' hq' fun it lt => ?_
    rw [agree it lt, same it lt, agree' it lt]

theorem Registered.continues {p : Pattern} {i n : Nat} (h : a.Registered i n p)
    (later : a.Continues a') : a'.Registered i n p := by
  obtain ⟨q, hq, agree⟩ := h
  exact ⟨q, later.pattern hq, agree⟩

/-! ## Calls -/

/-- A computation that registers nothing. -/
def Unregistering {α : Type} (c : ArenaM F α) : Prop :=
  ∀ a : Arena F, (c.run.run a).2.patterns = a.patterns

section

variable [Scalar F] {α β : Type}

omit [Scalar F] in
theorem Unregistering.bind {c : ArenaM F α} {f : α → ArenaM F β} (hc : Unregistering c)
    (hf : ∀ x, Unregistering (f x)) : Unregistering (c >>= f) := by
  intro a
  have first := hc a
  rw [run_bind]
  cases run : c.run.run a with
  | mk res a' =>
      rw [run] at first
      cases res with
      | error e => exact first
      | ok x => exact (hf x a').trans first

omit [Scalar F] in
theorem unregistering_newIndependents (array count : Nat) :
    Unregistering (newIndependents array count : ArenaM F (List (Value F))) := by
  have each (positions : List Nat) : Unregistering
      (positions.mapM fun position => newIndependent array position :
        ArenaM F (List (Value F))) := by
    induction positions with
    | nil => exact fun _ => rfl
    | cons position positions ih =>
        rw [List.mapM_cons]
        exact Unregistering.bind (fun _ => rfl) fun _ => ih.bind fun _ _ => rfl
  rw [newIndependents, checkExtent]
  split
  case isTrue => exact each _
  case isFalse => exact fun _ => rfl

/-- Only a request for a pattern registers one. -/
theorem Call.unregistering {c : Call F} (other : ∀ p n, c ≠ .addPattern p n) :
    Unregistering c.run := by
  have discard {α : Type} {c : ArenaM F α} (hc : Unregistering c) :
      Unregistering (do let _ ← c; return ()) := hc.bind fun _ _ => rfl
  cases c with
  | push kind args info =>
      refine discard fun a => ?_
      rcases run_push kind args info a with ⟨e, run⟩ | ⟨-, ⟨-, i, -, -, run⟩ | ⟨-, run⟩⟩ <;>
        rw [run]
      rfl
  | newIndependent array position => exact fun _ => rfl
  | newIndependents array count => exact discard (unregistering_newIndependents array count)
  | append target args =>
      intro a
      rcases run_append target args a with ⟨e, run⟩ | ⟨n, -, -, -, -, run⟩ <;> rw [Call.run, run]
      rfl
  | markOverwritten r =>
      intro a
      rcases run_markOverwritten r a with ⟨e, run⟩ | ⟨-, run⟩ <;> rw [Call.run, run]
      rfl
  | addPattern p n => exact absurd rfl (other p n)

/-! ## Requests -/

variable (id : Nat) (calls : List (Call F))

/-- The arena before the call at a position. -/
def before (k : Nat) : Arena F := (empty id).after (calls.take k)

/-- The call at a position asks for a pattern, and is answered with a
number. -/
def Answers (k : Nat) (p : Pattern) (n i : Nat) : Prop :=
  calls[k]? = some (.addPattern p n) ∧
    (addPattern p n).run.run (before id calls k) = (.ok i, before id calls (k + 1))

/-- The call at a position asks for a pattern, and no request before it for the
same number of iterations has one that agrees. -/
def IsNew (k : Nat) : Prop :=
  ∃ p n, calls[k]? = some (.addPattern p n) ∧
    ∀ l < k, ∀ q, calls[l]? = some (.addPattern q n) → ¬q.Agree n p

variable {id calls}

theorem before_succ (id : Nat) {k : Nat} {c : Call F} (h : calls[k]? = some c) :
    before id calls (k + 1) = (c.run.run.run (before id calls k)).2 := by
  rw [before, List.take_add_one, h, after_append]
  rfl

theorem before_continues {k l : Nat} (le : k ≤ l) :
    (before id calls k).Continues (before id calls l) := by
  have split : calls.take l = calls.take k ++ (calls.take l).drop k := by
    conv_lhs => rw [← List.take_append_drop k (calls.take l), List.take_take, Nat.min_eq_left le]
  rw [before, before, split, after_append]
  exact (steps_after _ _).continues

theorem distinct_before (k : Nat) : (before id calls k).Distinct :=
  (steps_after _ _).distinct fun i j n p q hi => by simp [empty] at hi

/-- Every request is answered. -/
theorem answers_of_call (id : Nat) {k n : Nat} {p : Pattern} (h : calls[k]? = some (.addPattern p n)) :
    Answers id calls k p n
      (((before id calls k).findPattern? p n).getD (before id calls k).patterns.size) := by
  refine ⟨h, ?_⟩
  have next := before_succ id h
  have run := run_addPattern p n (before id calls k)
  cases found : (before id calls k).findPattern? p n with
  | some i =>
      rw [found] at run
      rw [next, Call.run, run_bind_ok run]
      exact run
  | none =>
      rw [found] at run
      rw [next, Call.run, run_bind_ok run]
      exact run

/-- A request that is not new leaves the arena as it is, and one that is new adds
its pattern. -/
theorem Answers.cases {k n i : Nat} {p : Pattern} (h : Answers id calls k p n i) :
    (before id calls k).Registered i n p ∧ before id calls (k + 1) = before id calls k ∨
      i = (before id calls k).patterns.size ∧
        (before id calls k).findPattern? p n = none ∧
        before id calls (k + 1) = (before id calls k).registered p n := by
  have run := h.2
  rw [run_addPattern] at run
  cases found : (before id calls k).findPattern? p n with
  | some j =>
      rw [found] at run
      obtain ⟨eq, same⟩ := Prod.mk.inj run
      cases eq
      exact .inl ⟨registered_of_findPattern? found, same.symm⟩
  | none =>
      rw [found] at run
      obtain ⟨eq, same⟩ := Prod.mk.inj run
      cases eq
      exact .inr ⟨rfl, rfl, same.symm⟩

/-- The answer is the number of a registered pattern that agrees. -/
theorem Answers.registered {k l n i : Nat} {p : Pattern} (h : Answers id calls k p n i)
    (lt : k < l) : (before id calls l).Registered i n p := by
  refine Registered.continues ?_ (before_continues lt)
  rcases h.cases with ⟨registered, same⟩ | ⟨rfl, -, same⟩
  · exact same ▸ registered
  · exact same ▸ registered_self ..

theorem patterns_succ (id : Nat) {k : Nat} (other : ∀ p n, calls[k]? ≠ some (.addPattern p n)) :
    (before id calls (k + 1)).patterns = (before id calls k).patterns := by
  cases here : calls[k]? with
  | none => rw [before, before, List.take_add_one, here, Option.toList_none, List.append_nil]
  | some c =>
      rw [before_succ id here]
      exact c.unregistering (fun p n eq => other p n (eq ▸ here)) _

/-- Every registered pattern was asked for. -/
theorem exists_answers {k n i : Nat} {p : Pattern}
    (h : (before id calls k).patterns[i]? = some (p, n)) : ∃ l < k, Answers id calls l p n i := by
  induction k with
  | zero => simp [before, after, empty] at h
  | succ k ih =>
      have earlier (h : (before id calls k).patterns[i]? = some (p, n)) :
          ∃ l < k + 1, Answers id calls l p n i := by
        obtain ⟨l, lt, answers⟩ := ih h
        exact ⟨l, Nat.lt_succ_of_lt lt, answers⟩
      by_cases asked : ∃ q m, calls[k]? = some (.addPattern q m)
      · obtain ⟨q, m, here⟩ := asked
        have answers := answers_of_call id here
        rcases answers.cases with ⟨-, same⟩ | ⟨size, -, same⟩
        · exact earlier (same ▸ h)
        · rw [same] at h
          rcases getElem?_push_cases h with h | ⟨rfl, eq⟩
          · exact earlier h
          · cases eq
            exact ⟨k, Nat.lt_succ_self k, size ▸ answers⟩
      · push Not at asked
        exact earlier (patterns_succ id asked ▸ h)

/-- A request is new exactly if its pattern is not found. -/
theorem isNew_iff (id : Nat) {k n : Nat} {p : Pattern} (h : calls[k]? = some (.addPattern p n)) :
    IsNew calls k ↔ (before id calls k).findPattern? p n = none := by
  constructor
  · rintro ⟨q, m, here, new⟩
    cases h.symm.trans here
    refine Option.eq_none_iff_forall_ne_some.mpr fun i found => ?_
    obtain ⟨q, hq, agree⟩ := registered_of_findPattern? found
    obtain ⟨l, lt, asked, -⟩ := exists_answers hq
    exact new l lt q asked agree
  · intro fresh
    refine ⟨p, n, h, fun l lt q asked agree => ?_⟩
    obtain ⟨q', hq', agree'⟩ := (answers_of_call id asked).registered lt
    exact not_registered_of_findPattern? fresh _
      ⟨q', hq', fun it below => (agree' it below).trans (agree it below)⟩

/-! ## Histories -/

variable (id calls) in
/-- What the requests for patterns among some calls come to. -/
structure Registers : Prop where
  /-- Every request is answered. -/
  answers {k n : Nat} {p : Pattern} : calls[k]? = some (.addPattern p n) →
    ∃ i, Answers id calls k p n i
  /-- The answer has the indices of the pattern from then on. -/
  keeps {k l n i : Nat} {p : Pattern} : Answers id calls k p n i → k < l →
    ∃ q, (before id calls l).pattern? i = some q ∧ q.Agree n p
  /-- Answers for one number of iterations are the same if and only if the
  patterns agree. -/
  same_iff {k l n i j : Nat} {p q : Pattern} : Answers id calls k p n i →
    Answers id calls l q n j → (i = j ↔ p.Agree n q)
  /-- A new request gets the next number. -/
  grows {k : Nat} : IsNew calls k → ∃ p n, Answers id calls k p n (before id calls k).patterns.size ∧
    (before id calls (k + 1)).patterns.size = (before id calls k).patterns.size + 1
  /-- No other call registers anything. -/
  rests {k : Nat} : ¬IsNew calls k → (before id calls (k + 1)).patterns = (before id calls k).patterns
  /-- The numbers that were given out are those below the number of patterns. -/
  dense {k i : Nat} : i < (before id calls k).patterns.size ↔
    ∃ l < k, ∃ p n, Answers id calls l p n i

/-- Registration keeps the meaning of every request, whatever is called in
between, and registers as few patterns as possible. -/
theorem registers (id : Nat) (calls : List (Call F)) : Registers id calls where
  answers h := ⟨_, answers_of_call id h⟩
  keeps h lt := by
    obtain ⟨q, hq, agree⟩ := h.registered lt
    exact ⟨q, by rw [pattern?, hq]; rfl, agree⟩
  same_iff {k l n i j p q} h h' := by
    have first := h.registered (l := k + l + 1) (by omega)
    have second := h'.registered (l := k + l + 1) (by omega)
    exact (distinct_before _).registered_inj first second
  grows {k} new := by
    have asked := new
    obtain ⟨p, n, here, -⟩ := asked
    have fresh := (isNew_iff id here).mp new
    have answers := answers_of_call id here
    rcases answers.cases with ⟨registered, -⟩ | ⟨size, -, next⟩
    · exact absurd registered (not_registered_of_findPattern? fresh _)
    · exact ⟨p, n, size ▸ answers, by rw [next, registered, Array.size_push]⟩
  rests {k} old := by
    by_cases asked : ∃ p n, calls[k]? = some (.addPattern p n)
    · obtain ⟨p, n, here⟩ := asked
      rcases (answers_of_call id here).cases with ⟨-, same⟩ | ⟨-, fresh, -⟩
      · rw [same]
      · exact absurd ((isNew_iff id here).mpr fresh) old
    · push Not at asked
      exact patterns_succ id asked
  dense {k i} := by
    constructor
    · intro lt
      obtain ⟨l, before, answers⟩ := exists_answers (Array.getElem?_eq_getElem lt)
      exact ⟨l, before, _, _, answers⟩
    · rintro ⟨l, before, p, n, answers⟩
      obtain ⟨q, hq, -⟩ := answers.registered before
      exact (Array.getElem?_eq_some_iff.mp hq).1

/-- A constant, a line with the same index at one iteration, and the line at two. -/
example : ((empty 0 : Arena F).after [.addPattern (.constant 0) 1, .addPattern (.linear 1 0) 1,
    .addPattern (.linear 1 0) 2]).patterns.size = 2 := by
  cbv

end

end Arena

end LoopDiff
