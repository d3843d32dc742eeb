import LoopDiff.Proofs.Model.Dependency
import LoopDiff.Proofs.Model.Evaluation

/-!
# LoopDiff.Proofs.Model.Unrolling

Models without loops.

A model can be written as one flat tape (`Model.unrolled`): the tape of the
outer part, followed by a copy of each loop tape for each iteration.  A copy
has no inputs of its own; what an operation reads from an input of the loop,
the copy reads from the independent or the temporary behind it.

The sparsity of a model is that of its unrolled tape
(`Model.Accepted.sparsity_unrolled`).  A dependency of an entry of a copy is
a dependency in the loop tape on some input, followed by a dependency of
what is behind the input; an entry of a copy is live exactly if it is live
in the loop tape, and the temporaries that become live are those that the
loop depends on.
-/

namespace LoopDiff

open Std (TreeSet)

variable {F : Type}

/-! ## Copies of tapes -/

namespace Entry

/-- The entry with its operands in other places. -/
def moved (place : Nat → Nat) : Entry F → Entry F
  | input => input
  | const x => const x
  | powi arg n => powi (place arg) n
  | unary op arg second => unary op (place arg) (second.map place)
  | binary op left right => binary op (place left) (right.map place)

variable (place : Nat → Nat) (e : Entry F)

@[simp] theorem args_moved : (e.moved place).args = e.args.map place := by
  cases e with
  | binary op left right => cases right <;> rfl
  | _ => rfl

@[simp] theorem reads_moved : (e.moved place).reads = e.reads.map place := by
  cases e with
  | unary op arg second => cases second <;> rfl
  | binary op left right => cases right <;> rfl
  | _ => rfl

@[simp] theorem isInput_moved : (e.moved place).isInput = e.isInput := by
  cases e <;> rfl

@[simp] theorem complete_moved : (e.moved place).complete = e.complete := by
  cases e <;> simp [moved, complete]

@[simp] theorem meets_moved :
    (e.moved place).meets = e.meets.map fun p => (place p.1, place p.2) := by
  cases e with
  | unary op arg second => cases op <;> rfl
  | binary op left right => cases op <;> cases right <;> rfl
  | _ => rfl

end Entry

namespace Tape

/-- The operations of the tape `t` stand in the tape `u`, each at its
place. -/
def Holds (u t : Tape F) (place : Nat → Nat) : Prop :=
  ∀ (i : Nat) (e : Entry F), t.entries[i]? = some e → e.isInput = false →
    u.entries[place i]? = some (e.moved place)

variable {t u : Tape F} {place : Nat → Nat}

/-- A copy depends on what is behind the inputs. -/
theorem Holds.dependsOn_iff (h : u.Holds t place) (wf : t.WellFormed) {i j : Nat} (lt : i < t.size) :
    u.DependsOn (place i) j ↔ ∃ q, t.DependsOn i q ∧ u.DependsOn (place q) j := by
  induction i using Nat.strong_induction_on with
  | _ i ih =>
    have he : t.entries[i]? = some t.entries[i] := Array.getElem?_eq_getElem lt
    cases input : t.entries[i].isInput with
    | true =>
        have eq : t.entries[i]? = some .input := by
          rw [he]
          cases h : t.entries[i] <;> simp_all [Entry.isInput]
        exact ⟨fun dep => ⟨i, .input eq, dep⟩, fun ⟨q, hq, dep⟩ => by
          rwa [(dependsOn_input eq).mp hq]⟩
    | false =>
        have placed := h i _ he input
        rw [dependsOn_op placed (by simpa using input)]
        simp only [dependsOn_op he input, Entry.args_moved, List.mem_map]
        have before (a : Nat) (ha : a ∈ t.entries[i].args) : a < i :=
          wf.reads_lt he a (Entry.mem_reads_of_mem_args ha)
        constructor
        · rintro ⟨_, ⟨a, ha, rfl⟩, dep⟩
          obtain ⟨q, hq, dep⟩ := (ih a (before a ha) (by have := before a ha; omega)).mp dep
          exact ⟨q, ⟨a, ha, hq⟩, dep⟩
        · rintro ⟨q, ⟨a, ha, hq⟩, dep⟩
          exact ⟨_, ⟨a, ha, rfl⟩, (ih a (before a ha) (by have := before a ha; omega)).mpr
            ⟨q, hq, dep⟩⟩

theorem Holds.leadsTo (h : u.Holds t place) {i r : Nat} (path : t.LeadsTo i r) :
    u.LeadsTo (place i) (place r) := by
  induction path with
  | refl => exact .refl
  | @step r a e he ha path ih =>
      have input : e.isInput = false := by
        cases e <;> simp_all [Entry.isInput, Entry.args]
      exact .step (h r e he input) (by simpa using ⟨a, ha, rfl⟩) ih

/-- What leads to a copy is an operation of the copy, or leads to what is
behind an input. -/
theorem Holds.of_leadsTo (h : u.Holds t place) (wf : t.WellFormed) {x r : Nat} (lt : r < t.size)
    (path : u.LeadsTo x (place r)) :
    (∃ i e, t.entries[i]? = some e ∧ e.isInput = false ∧ x = place i ∧ t.LeadsTo i r) ∨
      ∃ q < t.inputCount, t.LeadsTo q r ∧ u.LeadsTo x (place q) := by
  induction r using Nat.strong_induction_on with
  | _ r ih =>
    have he : t.entries[r]? = some t.entries[r] := Array.getElem?_eq_getElem lt
    cases input : t.entries[r].isInput with
    | true => exact .inr ⟨r, (wf.input_iff r).mp ⟨_, he, input⟩, .refl, path⟩
    | false =>
        have placed := h r _ he input
        generalize hp : place r = p at path placed
        cases path with
        | refl => exact .inl ⟨r, _, he, input, hp.symm, .refl⟩
        | @step _ a e' he' ha path =>
            cases placed.symm.trans he'
            rw [Entry.args_moved, List.mem_map] at ha
            obtain ⟨a, ha, rfl⟩ := ha
            have before := wf.reads_lt he a (Entry.mem_reads_of_mem_args ha)
            rcases ih a before (by omega) path with ⟨i, e, hi, op, hx, path⟩ | ⟨q, hq, path, path'⟩
            · exact .inl ⟨i, e, hi, op, hx, .step he ha path⟩
            · exact .inr ⟨q, hq, .step he ha path, path'⟩

theorem meet_iff_exists {roots : List Nat} {j k : Nat} :
    t.Meet roots j k ↔ ∃ r ∈ roots, t.Meet [r] j k := by
  simp [Meet]

/-- Inputs meet in a copy, or in what is behind an input. -/
theorem Holds.meet_iff (h : u.Holds t place) (wf : t.WellFormed) {r j k : Nat} (lt : r < t.size) :
    u.Meet [place r] j k ↔
      (∃ p q, t.Meet [r] p q ∧ u.DependsOn (place p) j ∧ u.DependsOn (place q) k) ∨
      ∃ q < t.inputCount, t.LeadsTo q r ∧ u.Meet [place q] j k := by
  have inside {i : Nat} {e : Entry F} (he : t.entries[i]? = some e) {p : Nat × Nat}
      (hp : p ∈ e.meets) : p.1 < t.size ∧ p.2 < t.size := by
    have args := Entry.mem_args_of_mem_meets (wf.complete he) hp
    have size := (Array.getElem?_eq_some_iff.mp he).1
    have before := wf.reads_lt he _ (Entry.mem_reads_of_mem_args args.1)
    have before' := wf.reads_lt he _ (Entry.mem_reads_of_mem_args args.2)
    exact ⟨before.trans size, before'.trans size⟩
  constructor
  · rintro ⟨_, mem, x, e, path, he, p, hp, dep⟩
    cases List.mem_singleton.mp mem
    rcases h.of_leadsTo wf lt path with ⟨i, e₀, h₀, input, rfl, inner⟩ | ⟨q, hq, path, path'⟩
    · cases (h i e₀ h₀ input).symm.trans he
      rw [Entry.meets_moved, List.mem_map] at hp
      obtain ⟨p, hp, rfl⟩ := hp
      have size := inside h₀ hp
      rcases dep with ⟨hj, hk⟩ | ⟨hj, hk⟩
      · obtain ⟨a, ha, hj⟩ := (h.dependsOn_iff wf size.1).mp hj
        obtain ⟨b, hb, hk⟩ := (h.dependsOn_iff wf size.2).mp hk
        exact .inl ⟨a, b, ⟨r, by simp, i, e₀, inner, h₀, p, hp, .inl ⟨ha, hb⟩⟩, hj, hk⟩
      · obtain ⟨a, ha, hj⟩ := (h.dependsOn_iff wf size.2).mp hj
        obtain ⟨b, hb, hk⟩ := (h.dependsOn_iff wf size.1).mp hk
        exact .inl ⟨a, b, ⟨r, by simp, i, e₀, inner, h₀, p, hp, .inr ⟨ha, hb⟩⟩, hj, hk⟩
    · exact .inr ⟨q, hq, path, place q, by simp, x, e, path', he, p, hp, dep⟩
  · rintro (⟨a, b, ⟨_, mem, i, e, path, he, p, hp, dep⟩, hj, hk⟩ |
      ⟨q, -, path, _, mem, x, e, path', he, p, hp, dep⟩)
    · cases List.mem_singleton.mp mem
      have input : e.isInput = false := by
        cases e <;> simp_all [Entry.isInput, Entry.meets]
      have size := inside he hp
      refine ⟨place r, by simp, place i, _, h.leadsTo path, h i e he input,
        (place p.1, place p.2), by simpa using ⟨p.1, p.2, hp, rfl, rfl⟩, ?_⟩
      rcases dep with ⟨ha, hb⟩ | ⟨ha, hb⟩
      · exact .inl ⟨(h.dependsOn_iff wf size.1).mpr ⟨a, ha, hj⟩,
          (h.dependsOn_iff wf size.2).mpr ⟨b, hb, hk⟩⟩
      · exact .inr ⟨(h.dependsOn_iff wf size.2).mpr ⟨a, ha, hj⟩,
          (h.dependsOn_iff wf size.1).mpr ⟨b, hb, hk⟩⟩
    · cases List.mem_singleton.mp mem
      exact ⟨place r, by simp, x, e, path'.trans (h.leadsTo path), he, p, hp, dep⟩

theorem WellFormed.entry_input (wf : t.WellFormed) {i : Nat} (lt : i < t.inputCount) :
    t.entries[i]? = some .input := by
  obtain ⟨e, he, input⟩ := (wf.input_iff i).mpr lt
  cases e with
  | input => exact he
  | _ => cases input

end Tape

/-! ## The unrolled tape -/

/-- Where the copy of a loop tape that starts at `base` has the value of an
entry.  Inputs are found where the independent or the temporary is. -/
def Loop.place (l : Loop F) (temporary : Nat → Nat) (it base i : Nat) : Nat :=
  if i < l.tape.inputCount then
    match l.temporaryOf? i with
    | some k => temporary k
    | none => (l.independentAt? i it).getD 0
  else base + (i - l.tape.inputCount)

/-- A flat tape under construction: its entries, and which of them computes
which dependent. -/
structure Unrolling (F : Type) where
  entries : Array (Entry F)
  computed : List (Nat × Nat)

/-- Adds the copy of a loop for an iteration. -/
def Unrolling.addCopy (temporary : Nat → Nat) (u : Unrolling F) (l : Loop F) (it : Nat) :
    Unrolling F :=
  let place := l.place temporary it u.entries.size
  { entries := u.entries ++
      ((l.tape.entries.toList.drop l.tape.inputCount).map (Entry.moved place)).toArray
    computed := u.computed ++
      (l.dependents.zip l.tape.outputs).map fun (row, o) => (row.getD it 0, place o) }

namespace Model

variable (m : Model F)

/-- The entries outside of loops: the outer part, or the inputs alone. -/
def outside : Unrolling F :=
  match m.outer? with
  | some o => ⟨o.tape.entries, o.dependents.zip o.tape.outputs⟩
  | none => ⟨Array.replicate m.domain .input, []⟩

theorem outside_of_none (ho : m.outer? = none) :
    m.outside = ⟨Array.replicate m.domain .input, []⟩ := by
  rw [outside, ho]

theorem outside_of_some {o : Outer F} (ho : m.outer? = some o) :
    m.outside = ⟨o.tape.entries, o.dependents.zip o.tape.outputs⟩ := by
  rw [outside, ho]

/-- The entry that computes a temporary. -/
def temporaryEntry (k : Nat) : Nat :=
  m.outer?.elim 0 fun o => o.tape.outputAt (o.temporaryOutput k)

/-- Every iteration of every loop. -/
def copies : List (Loop F × Nat) :=
  m.loops.flatMap fun l => (List.range l.iterations).map fun it => (l, it)

/-- The outer part, followed by a copy of each loop for each iteration. -/
def unrolling : Unrolling F :=
  m.copies.foldl (fun u (l, it) => u.addCopy m.temporaryEntry l it) m.outside

/-- The model as one flat tape.  Output `d` is the entry that computes the
dependent `d`. -/
def unrolled : Tape F where
  entries := m.unrolling.entries
  inputCount := m.domain
  outputs := (List.range m.range).map fun d => (m.unrolling.computed.lookup d).getD 0

/-! ## What an unrolling holds -/

/-- The copy of a loop for an iteration stands in an unrolling from `base`
on. -/
structure CopyAt (u : Unrolling F) (l : Loop F) (it base : Nat) : Prop where
  outside_le : m.outside.entries.size ≤ base
  entry {i : Nat} {e : Entry F} : l.tape.inputCount ≤ i → l.tape.entries[i]? = some e →
    u.entries[base + (i - l.tape.inputCount)]? = some (e.moved (l.place m.temporaryEntry it base))
  computed {i : Nat} {row : Array Nat} {o : Nat} : l.dependents[i]? = some row →
    l.tape.outputs[i]? = some o →
    (row.getD it 0, l.place m.temporaryEntry it base o) ∈ u.computed

/-- An unrolling holds the outer part and some copies, and nothing else. -/
structure Unrolls (done : List (Loop F × Nat)) (u : Unrolling F) : Prop where
  outside_le : m.outside.entries.size ≤ u.entries.size
  outside {i : Nat} {e : Entry F} : m.outside.entries[i]? = some e → u.entries[i]? = some e
  outsideComputed {e : Nat × Nat} : e ∈ m.outside.computed → e ∈ u.computed
  copy {l : Loop F} {it : Nat} : (l, it) ∈ done → ∃ base, m.CopyAt u l it base
  entry {i : Nat} {e : Entry F} : u.entries[i]? = some e → m.outside.entries[i]? = some e ∨
    ∃ l it base i₀ e₀, (l, it) ∈ done ∧ m.CopyAt u l it base ∧ l.tape.inputCount ≤ i₀ ∧
      l.tape.entries[i₀]? = some e₀ ∧ i = base + (i₀ - l.tape.inputCount) ∧
      e = e₀.moved (l.place m.temporaryEntry it base)
  computed {d r : Nat} : (d, r) ∈ u.computed → (d, r) ∈ m.outside.computed ∨
    ∃ (l : Loop F) (it base k : Nat) (row : Array Nat) (o : Nat), (l, it) ∈ done ∧
      m.CopyAt u l it base ∧ l.dependents[k]? = some row ∧ l.tape.outputs[k]? = some o ∧
      d = row.getD it 0 ∧ r = l.place m.temporaryEntry it base o
  keys : u.computed.map Prod.fst = m.outside.computed.map Prod.fst ++ done.flatMap fun c =>
    (c.1.dependents.zip c.1.tape.outputs).map fun p => p.1.getD c.2 0

variable {m}

theorem CopyAt.extend {u u' : Unrolling F} {l : Loop F} {it base : Nat} (h : m.CopyAt u l it base)
    (entries : ∀ (i : Nat) (e : Entry F), u.entries[i]? = some e → u'.entries[i]? = some e)
    (computed : ∀ e ∈ u.computed, e ∈ u'.computed) : m.CopyAt u' l it base where
  outside_le := h.outside_le
  entry hi he := entries _ _ (h.entry hi he)
  computed hrow ho := computed _ (h.computed hrow ho)

/-- Adding a copy. -/
theorem Unrolls.addCopy {done : List (Loop F × Nat)} {u : Unrolling F} (h : m.Unrolls done u)
    (l : Loop F) (it : Nat) :
    m.Unrolls (done ++ [(l, it)]) (u.addCopy m.temporaryEntry l it) := by
  let u' := u.addCopy m.temporaryEntry l it
  have entries (i : Nat) (e : Entry F) (he : u.entries[i]? = some e) : u'.entries[i]? = some e := by
    have lt := (Array.getElem?_eq_some_iff.mp he).1
    exact (Array.getElem?_append_left lt).trans he
  have computed (e : Nat × Nat) (he : e ∈ u.computed) : e ∈ u'.computed :=
    List.mem_append_left _ he
  have here : m.CopyAt u' l it u.entries.size := {
    outside_le := h.outside_le
    entry := fun {i e} hi he => by
      refine (Array.getElem?_append_right (Nat.le_add_right _ _)).trans ?_
      rw [Nat.add_sub_cancel_left, List.getElem?_toArray, List.getElem?_map, List.getElem?_drop,
        Nat.add_sub_cancel' hi, Array.getElem?_toList, he]
      rfl
    computed := fun {k row o} hrow ho => by
      refine List.mem_append_right _ (List.mem_map.mpr ⟨(row, o), ?_, rfl⟩)
      exact List.mem_of_getElem? (List.getElem?_zip_eq_some.mpr ⟨hrow, ho⟩) }
  refine ⟨?_, fun he => entries _ _ (h.outside he), fun he => computed _ (h.outsideComputed he),
    fun mem => ?_, fun {i e} he => ?_, fun {d r} mem => ?_, ?_⟩
  · exact h.outside_le.trans (by simp [Unrolling.addCopy])
  · rcases List.mem_append.mp mem with mem | mem
    · obtain ⟨base, hbase⟩ := h.copy mem
      exact ⟨base, hbase.extend entries computed⟩
    · cases List.mem_singleton.mp mem
      exact ⟨_, here⟩
  · by_cases lt : i < u.entries.size
    · have he' : u.entries[i]? = some e := (Array.getElem?_append_left lt).symm.trans he
      rcases h.entry he' with old | ⟨l', it', base, i₀, e₀, mem, hc, hi, h₀, eqs⟩
      · exact .inl old
      · exact .inr ⟨l', it', base, i₀, e₀, List.mem_append_left _ mem, hc.extend entries computed,
          hi, h₀, eqs⟩
    · have he' := (Array.getElem?_append_right (Nat.le_of_not_lt lt)).symm.trans he
      rw [List.getElem?_toArray, List.getElem?_map, List.getElem?_drop, Option.map_eq_some_iff,
        Array.getElem?_toList] at he'
      obtain ⟨e₀, h₀, rfl⟩ := he'
      exact .inr ⟨l, it, _, _, e₀, List.mem_append_right _ (List.mem_singleton.mpr rfl), here,
        Nat.le_add_right _ _, h₀, by omega, rfl⟩
  · rcases List.mem_append.mp mem with old | new
    · rcases h.computed old with old | ⟨l', it', base, k, row, o, mem, hc, eqs⟩
      · exact .inl old
      · exact .inr ⟨l', it', base, k, row, o, List.mem_append_left _ mem,
          hc.extend entries computed, eqs⟩
    · obtain ⟨⟨row, o⟩, mem, eq⟩ := List.mem_map.mp new
      obtain ⟨k, hk⟩ := List.mem_iff_getElem?.mp mem
      obtain ⟨hrow, ho⟩ := List.getElem?_zip_eq_some.mp hk
      cases eq
      exact .inr ⟨l, it, _, k, row, o, List.mem_append_right _ (List.mem_singleton.mpr rfl), here,
        hrow, ho, rfl, rfl⟩
  · simp [Unrolling.addCopy, h.keys, Function.comp_def]

theorem unrolls_unrolling : m.Unrolls m.copies m.unrolling := by
  have fold : ∀ (rest done : List (Loop F × Nat)) u, m.Unrolls done u →
      m.Unrolls (done ++ rest)
        (rest.foldl (fun u (l, it) => u.addCopy m.temporaryEntry l it) u) := by
    intro rest
    induction rest with
    | nil => intro done u h; rwa [List.append_nil]
    | cons c rest ih =>
        intro done u h
        rw [List.append_cons]
        exact ih _ _ (h.addCopy c.1 c.2)
  exact fold m.copies [] m.outside
    ⟨le_rfl, id, id, fun mem => absurd mem List.not_mem_nil, .inl, .inl, by simp⟩

theorem mem_copies {l : Loop F} {it : Nat} :
    (l, it) ∈ m.copies ↔ l ∈ m.loops ∧ it < l.iterations := by
  simp [copies]

/-! ## Entries -/

/-- The entries outside of loops begin with the inputs. -/
theorem Accepted.outside_input (accepted : m.Accepted) {j : Nat} (lt : j < m.domain) :
    m.outside.entries[j]? = some .input := by
  cases ho : m.outer? with
  | none => simp [m.outside_of_none ho, lt]
  | some o =>
      obtain ⟨e, he, input⟩ := ((accepted.outerTape ho).input_iff j).mpr
        (accepted.valid.outerInputs ho ▸ lt)
      rw [m.outside_of_some ho]
      cases e with
      | input => exact he
      | _ => cases input

/-- An entry outside of loops is an input, or an entry of the outer part. -/
theorem outside_cases {i : Nat} {e : Entry F} (he : m.outside.entries[i]? = some e) :
    (m.outer? = none ∧ i < m.domain ∧ e = .input) ∨
      ∃ o, m.outer? = some o ∧ o.tape.entries[i]? = some e := by
  cases ho : m.outer? with
  | none =>
      rw [m.outside_of_none ho] at he
      obtain ⟨lt, eq⟩ := Array.getElem?_eq_some_iff.mp he
      exact .inl ⟨rfl, by simpa using lt, by simpa using eq.symm⟩
  | some o =>
      rw [m.outside_of_some ho] at he
      exact .inr ⟨o, rfl, he⟩

theorem Accepted.domain_le (accepted : m.Accepted) : m.domain ≤ m.outside.entries.size := by
  have last := accepted.outside_input (Nat.sub_lt accepted.valid.domain_pos Nat.one_pos)
  have := (Array.getElem?_eq_some_iff.mp last).1
  have := accepted.valid.domain_pos
  omega

/-- A temporary that loops may read is computed by the outer part. -/
theorem Accepted.temporaryEntry_eq (accepted : m.Accepted) {k : Nat}
    (lt : k < temporaryCount m.outer?) : ∃ o, m.outer? = some o ∧
      m.temporaryEntry k = o.tape.outputAt (o.temporaryOutput k) ∧
      m.temporaryEntry k < o.tape.size := by
  cases ho : m.outer? with
  | none => exact absurd lt (by simp [ho, temporaryCount])
  | some o =>
      rw [ho, temporaryCount] at lt
      have := (accepted.outer ho).outputs
      refine ⟨o, rfl, by rw [temporaryEntry, ho, Option.elim_some], ?_⟩
      rw [temporaryEntry, ho, Option.elim_some]
      refine (accepted.outerTape ho).outputAt_lt ?_
      rw [Outer.temporaryOutput]
      omega

/-- What is behind an input of a loop is outside of the copies. -/
theorem Accepted.place_lt (accepted : m.Accepted) {l : Loop F} (hl : l ∈ m.loops) {it q : Nat}
    (hit : it < l.iterations) (hq : q < l.tape.inputCount) (base : Nat) :
    l.place m.temporaryEntry it base q < m.outside.entries.size := by
  rw [Loop.place, if_pos hq]
  cases ht : l.temporaryOf? q with
  | some k =>
      obtain ⟨o, ho, -, lt⟩ := accepted.temporaryEntry_eq
        (accepted.valid.temporaries_lt hl k (Loop.mem_of_temporaryOf? ht))
      rwa [m.outside_of_some ho]
  | none =>
      obtain ⟨j, hj, mem⟩ := (accepted.loop hl).exists_independent hq hit ht
      simp only [hj, Option.getD_some]
      refine lt_of_lt_of_le ?_ accepted.domain_le
      rcases mem with mem | ⟨row, hrow, mem⟩
      · exact accepted.valid.nonIndexed_lt hl j mem
      · exact accepted.valid.indexed_lt hl row hrow j mem

theorem CopyAt.place_eq {l : Loop F} {it base i : Nat} (hi : l.tape.inputCount ≤ i) :
    l.place m.temporaryEntry it base i = base + (i - l.tape.inputCount) := by
  rw [Loop.place, if_neg (by omega)]

theorem inputCount_le_of_op {t : Tape F} (wf : t.WellFormed) {i : Nat} {e : Entry F}
    (he : t.entries[i]? = some e) (input : e.isInput = false) : t.inputCount ≤ i := by
  refine Nat.le_of_not_lt fun lt => ?_
  obtain ⟨e', he', input'⟩ := (wf.input_iff i).mpr lt
  cases he.symm.trans he'
  cases input.symm.trans input'

/-- The unrolled tape holds a copy of a loop for an iteration. -/
theorem CopyAt.holds {l : Loop F} {it base : Nat} (h : m.CopyAt m.unrolling l it base)
    (wf : l.tape.WellFormed) : m.unrolled.Holds l.tape (l.place m.temporaryEntry it base) := by
  intro i e he input
  have hi := inputCount_le_of_op wf he input
  rw [CopyAt.place_eq hi]
  exact h.entry hi he

theorem moved_id (e : Entry F) : e.moved (fun i => i) = e := by
  cases e <;> simp [Entry.moved]

/-- The unrolled tape holds the outer part. -/
theorem holds_outer {o : Outer F} (ho : m.outer? = some o) :
    m.unrolled.Holds o.tape fun i => i := by
  intro i e he _
  rw [moved_id]
  exact unrolls_unrolling.outside (by rwa [m.outside_of_some ho])

section

variable (accepted : m.Accepted)

include accepted

theorem Accepted.unrolled_input {j : Nat} (lt : j < m.domain) :
    m.unrolled.entries[j]? = some .input :=
  unrolls_unrolling.outside (accepted.outside_input lt)

/-- Dependencies of the outer part. -/
theorem Accepted.dependsOn_outer {o : Outer F} (ho : m.outer? = some o) {i : Nat}
    (lt : i < o.tape.size) (j : Nat) : m.unrolled.DependsOn i j ↔ o.tape.DependsOn i j := by
  have wf := accepted.outerTape ho
  rw [(holds_outer ho).dependsOn_iff wf lt]
  have self (q : Nat) (hq : o.tape.DependsOn i q) : m.unrolled.DependsOn q j ↔ q = j :=
    Tape.dependsOn_input (accepted.unrolled_input
      (accepted.valid.outerInputs ho ▸ wf.dependsOn_lt hq))
  exact ⟨fun ⟨q, hq, dep⟩ => (self q hq).mp dep ▸ hq, fun h => ⟨j, h, (self j h).mpr rfl⟩⟩

/-- What is behind an input of a loop. -/
theorem Accepted.dependsOn_place {l : Loop F} (hl : l ∈ m.loops) {it q : Nat}
    (hit : it < l.iterations) (hq : q < l.tape.inputCount) (base j : Nat) :
    m.unrolled.DependsOn (l.place m.temporaryEntry it base q) j ↔ m.Behind l it q j := by
  rw [Loop.place, if_pos hq, Behind]
  cases ht : l.temporaryOf? q with
  | some k =>
      obtain ⟨o, ho, eq, lt⟩ := accepted.temporaryEntry_eq
        (accepted.valid.temporaries_lt hl k (Loop.mem_of_temporaryOf? ht))
      refine (accepted.dependsOn_outer ho lt j).trans ⟨fun dep => ⟨o, ho, eq ▸ dep⟩, ?_⟩
      rintro ⟨o', ho', dep⟩
      cases ho.symm.trans ho'
      exact eq ▸ dep
  | none =>
      obtain ⟨j', hj, mem⟩ := (accepted.loop hl).exists_independent hq hit ht
      have lt : j' < m.domain := by
        rcases mem with mem | ⟨row, hrow, mem⟩
        · exact accepted.valid.nonIndexed_lt hl j' mem
        · exact accepted.valid.indexed_lt hl row hrow j' mem
      simp [hj, Tape.dependsOn_input (accepted.unrolled_input lt)]

/-- Dependencies of a copy. -/
theorem Accepted.dependsOn_copy {l : Loop F} (hl : l ∈ m.loops) {it base i : Nat}
    (hit : it < l.iterations) (h : m.CopyAt m.unrolling l it base) (lt : i < l.tape.size)
    (j : Nat) : m.unrolled.DependsOn (l.place m.temporaryEntry it base i) j ↔
      ∃ q, l.tape.DependsOn i q ∧ m.Behind l it q j := by
  have wf := accepted.loopTape hl
  rw [(h.holds wf).dependsOn_iff wf lt]
  exact exists_congr fun q => and_congr_right fun hq =>
    accepted.dependsOn_place hl hit (wf.dependsOn_lt hq) base j

/-! ## Outputs -/

/-- Every dependent is computed by one entry. -/
theorem Accepted.perm_keys : (m.unrolling.computed.map Prod.fst).Perm (List.range m.range) := by
  refine List.Perm.trans ?_ accepted.valid.covers
  rw [unrolls_unrolling.keys, Model.computed]
  refine List.Perm.append (List.Perm.of_eq ?_) ?_
  · cases ho : m.outer? with
    | none => rw [m.outside_of_none ho]; rfl
    | some o =>
        rw [m.outside_of_some ho]
        have := (accepted.outer ho).outputs
        rw [Tape.outputCount] at this
        exact List.map_fst_zip (by omega)
  · rw [copies, List.flatMap_assoc]
    refine List.Perm.flatMap_left _ fun l hl => ?_
    have valid := accepted.loop hl
    have rows (it : Nat) : (l.dependents.zip l.tape.outputs).map (fun p => p.1.getD it 0) =
        l.dependents.map fun row => row.getD it 0 := by
      have fst : (l.dependents.zip l.tape.outputs).map Prod.fst = l.dependents :=
        List.map_fst_zip (le_of_eq valid.outputs)
      have := congrArg (List.map fun row : Array Nat => row.getD it 0) fst
      rwa [List.map_map] at this
    rw [List.flatMap_map, List.flatMap_congr fun it _ => rows it]
    exact valid.perm_dependents

theorem Accepted.output_eq {d r : Nat} (mem : (d, r) ∈ m.unrolling.computed) :
    m.unrolled.outputs[d]? = some r := by
  have lt : d < m.range := List.mem_range.mp
    (accepted.perm_keys.mem_iff.mp (List.mem_map.mpr ⟨_, mem, rfl⟩))
  have nodup := accepted.perm_keys.nodup_iff.mpr List.nodup_range
  rw [unrolled, List.getElem?_map, List.getElem?_range lt, Option.map_some,
    lookup_of_mem nodup mem, Option.getD_some]

theorem Accepted.exists_output {d : Nat} (lt : d < m.range) :
    (d, m.unrolled.outputAt d) ∈ m.unrolling.computed := by
  obtain ⟨⟨d', r⟩, mem, rfl⟩ := List.mem_map.mp
    (accepted.perm_keys.mem_iff.mpr (List.mem_range.mpr lt))
  rwa [Tape.outputAt_eq (accepted.output_eq mem)]

/-- The outputs of an unrolled tape are those of its parts. -/
theorem Accepted.output_cases {d r : Nat} (mem : (d, r) ∈ m.unrolling.computed) :
    (∃ (o : Outer F) (i : Nat), m.outer? = some o ∧ o.dependents[i]? = some d ∧
      o.tape.outputs[i]? = some r) ∨
      ∃ (l : Loop F) (it base k : Nat) (row : Array Nat) (out : Nat), l ∈ m.loops ∧
        it < l.iterations ∧ m.CopyAt m.unrolling l it base ∧ l.dependents[k]? = some row ∧
        row[it]? = some d ∧ l.tape.outputs[k]? = some out ∧
        r = l.place m.temporaryEntry it base out := by
  rcases unrolls_unrolling.computed mem with outer | ⟨l, it, base, k, row, out, hc, copy, hrow, ho,
    rfl, rfl⟩
  · cases ho : m.outer? with
    | none => simp [m.outside_of_none ho] at outer
    | some o =>
        rw [m.outside_of_some ho] at outer
        obtain ⟨i, hi⟩ := List.mem_iff_getElem?.mp outer
        exact .inl ⟨o, i, rfl, List.getElem?_zip_eq_some.mp hi⟩
  · obtain ⟨hl, hit⟩ := mem_copies.mp hc
    have size := (accepted.loop hl).size_eq (List.mem_append_left _ (List.mem_of_getElem? hrow))
    have lt : it < row.size := size ▸ hit
    refine .inr ⟨l, it, base, k, row, out, hl, hit, copy, hrow, ?_, ho, rfl⟩
    simp [Array.getD_eq_getD_getElem?, lt]

/-- An unrolled tape is well-formed. -/
theorem Accepted.wellFormed_unrolled : m.unrolled.WellFormed where
  input_iff i := by
    show _ ↔ i < m.domain
    refine ⟨?_, fun lt => ⟨_, accepted.unrolled_input lt, rfl⟩⟩
    rintro ⟨e, he, input⟩
    rcases unrolls_unrolling.entry he with old | ⟨l, it, base, i₀, e₀, hc, -, hi, h₀, -, rfl⟩
    · rcases outside_cases old with ⟨-, lt, -⟩ | ⟨o, ho, old⟩
      · exact lt
      · rw [accepted.valid.outerInputs ho]
        exact ((accepted.outerTape ho).input_iff i).mp ⟨e, old, input⟩
    · have wf := accepted.loopTape (mem_copies.mp hc).1
      rw [Entry.isInput_moved] at input
      exact absurd ((wf.input_iff i₀).mp ⟨e₀, h₀, input⟩) (by omega)
  reads_lt {i e} he a ha := by
    rcases unrolls_unrolling.entry he with old | ⟨l, it, base, i₀, e₀, hc, copy, hi, h₀, rfl, rfl⟩
    · rcases outside_cases old with ⟨-, -, rfl⟩ | ⟨o, ho, old⟩
      · cases ha
      · exact (accepted.outerTape ho).reads_lt old a ha
    · obtain ⟨hl, hit⟩ := mem_copies.mp hc
      rw [Entry.reads_moved, List.mem_map] at ha
      obtain ⟨a, ha, rfl⟩ := ha
      have before := (accepted.loopTape hl).reads_lt h₀ a ha
      by_cases input : a < l.tape.inputCount
      · have := accepted.place_lt hl hit input base
        have := copy.outside_le
        omega
      · rw [CopyAt.place_eq (by omega)]
        omega
  complete {i e} he := by
    rcases unrolls_unrolling.entry he with old | ⟨l, it, base, i₀, e₀, hc, -, -, h₀, -, rfl⟩
    · rcases outside_cases old with ⟨-, -, rfl⟩ | ⟨o, ho, old⟩
      · rfl
      · exact (accepted.outerTape ho).complete old
    · rw [Entry.complete_moved]
      exact (accepted.loopTape (mem_copies.mp hc).1).complete h₀
  output_lt r mem := by
    obtain ⟨d, hd⟩ := List.mem_iff_getElem?.mp mem
    have lt : d < m.range := by
      simpa [unrolled] using (List.getElem?_eq_some_iff.mp hd).1
    rw [← Tape.outputAt_eq hd]
    rcases accepted.output_cases (accepted.exists_output lt) with
      ⟨o, i, ho, -, hr⟩ | ⟨l, it, base, k, row, out, hl, hit, copy, -, -, hout, hr⟩
    · have inside := (accepted.outerTape ho).output_lt _ (List.mem_of_getElem? hr)
      exact lt_of_lt_of_le (by rwa [m.outside_of_some ho]) unrolls_unrolling.outside_le
    · rw [hr]
      have inside := (accepted.loopTape hl).output_lt _ (List.mem_of_getElem? hout)
      by_cases input : out < l.tape.inputCount
      · exact lt_of_lt_of_le (accepted.place_lt hl hit input base) unrolls_unrolling.outside_le
      · rw [CopyAt.place_eq (by omega)]
        have he := copy.entry (by omega) (Array.getElem?_eq_getElem inside)
        exact (Array.getElem?_eq_some_iff.mp he).1

/-- The entry of a dependent that the outer part computes. -/
theorem Accepted.outputAt_outer {o : Outer F} (ho : m.outer? = some o) {i d : Nat}
    (hd : o.dependents[i]? = some d) :
    m.unrolled.outputs[d]? = some (o.tape.outputAt i) ∧ o.tape.outputAt i < o.tape.size := by
  have lt : i < o.tape.outputs.length := by
    have := (List.getElem?_eq_some_iff.mp hd).1
    have := (accepted.outer ho).outputs
    rw [Tape.outputCount] at this
    omega
  have hout := List.getElem?_eq_getElem lt
  rw [Tape.outputAt_eq hout]
  refine ⟨accepted.output_eq (unrolls_unrolling.outsideComputed ?_),
    (accepted.outerTape ho).output_lt _ (List.getElem_mem lt)⟩
  rw [m.outside_of_some ho]
  exact List.mem_of_getElem? (List.getElem?_zip_eq_some.mpr ⟨hd, hout⟩)

/-- The entry of a dependent that a loop computes. -/
theorem Accepted.outputAt_copy {l : Loop F} (hl : l ∈ m.loops) {e it d : Nat} {row : Array Nat}
    (hrow : l.dependents[e]? = some row) (hd : row[it]? = some d) :
    it < l.iterations ∧ l.tape.outputAt e < l.tape.size ∧ ∃ base, m.CopyAt m.unrolling l it base ∧
      m.unrolled.outputs[d]? =
        some (l.place m.temporaryEntry it base (l.tape.outputAt e)) := by
  have valid := accepted.loop hl
  have size := valid.size_eq (List.mem_append_left _ (List.mem_of_getElem? hrow))
  have hit : it < l.iterations := size ▸ (Array.getElem?_eq_some_iff.mp hd).1
  have lt : e < l.tape.outputCount := valid.outputs ▸ (List.getElem?_eq_some_iff.mp hrow).1
  have hout := List.getElem?_eq_getElem lt
  obtain ⟨base, copy⟩ := unrolls_unrolling.copy (mem_copies.mpr ⟨hl, hit⟩)
  refine ⟨hit, (accepted.loopTape hl).outputAt_lt lt, base, copy, ?_⟩
  have computed := copy.computed hrow hout
  rw [Array.getD_eq_getD_getElem?, hd, Option.getD_some] at computed
  rw [Tape.outputAt_eq hout]
  exact accepted.output_eq computed

/-- Every output of a loop tape computes a dependent at every iteration. -/
theorem Accepted.root {l : Loop F} (hl : l ∈ m.loops) {it out : Nat} (hit : it < l.iterations)
    (mem : out ∈ l.tape.outputs) : out < l.tape.size ∧ ∃ base, m.CopyAt m.unrolling l it base ∧
      l.place m.temporaryEntry it base out ∈ m.unrolled.outputs := by
  have valid := accepted.loop hl
  obtain ⟨e, he⟩ := List.mem_iff_getElem?.mp mem
  have lt : e < l.dependents.length := valid.outputs ▸ (List.getElem?_eq_some_iff.mp he).1
  have hrow := List.getElem?_eq_getElem lt
  have size := valid.size_eq (List.mem_append_left _ (List.getElem_mem lt))
  have hd : l.dependents[e][it]? = some _ := Array.getElem?_eq_getElem (size ▸ hit)
  obtain ⟨-, inside, base, copy, output⟩ := accepted.outputAt_copy hl hrow hd
  rw [Tape.outputAt_eq he] at inside output
  exact ⟨inside, base, copy, List.mem_of_getElem? output⟩

/-! ## Dependencies and meetings -/

/-- A dependent depends on what its entry in the unrolled tape depends
on. -/
theorem Accepted.depends_iff {d : Nat} (lt : d < m.range) (j : Nat) :
    m.Depends d j ↔ m.unrolled.DependsOn (m.unrolled.outputAt d) j := by
  constructor
  · rintro (⟨o, ho, i, hd, dep⟩ | ⟨l, hl, e, row, it, hrow, hd, dep⟩)
    · obtain ⟨out, inside⟩ := accepted.outputAt_outer ho hd
      rw [Tape.outputAt_eq out]
      exact (accepted.dependsOn_outer ho inside j).mpr dep
    · obtain ⟨hit, inside, base, copy, out⟩ := accepted.outputAt_copy hl hrow hd
      rw [Tape.outputAt_eq out]
      exact (accepted.dependsOn_copy hl hit copy inside j).mpr dep
  · intro dep
    rcases accepted.output_cases (accepted.exists_output lt) with
      ⟨o, i, ho, hd, -⟩ | ⟨l, it, -, k, row, -, hl, -, -, hrow, hd, -⟩
    · obtain ⟨out, inside⟩ := accepted.outputAt_outer ho hd
      rw [Tape.outputAt_eq out] at dep
      exact .inl ⟨o, ho, i, hd, (accepted.dependsOn_outer ho inside j).mp dep⟩
    · obtain ⟨hit, inside, base, copy, out⟩ := accepted.outputAt_copy hl hrow hd
      rw [Tape.outputAt_eq out] at dep
      exact .inr ⟨l, hl, k, row, it, hrow, hd,
        (accepted.dependsOn_copy hl hit copy inside j).mp dep⟩

/-- Inputs do not meet in an input. -/
theorem Accepted.not_meet_input {i : Nat} (lt : i < m.domain) (j k : Nat) :
    ¬m.unrolled.Meet [i] j k := by
  rintro ⟨_, mem, x, e, path, he, p, hp, -⟩
  cases List.mem_singleton.mp mem
  have input := accepted.unrolled_input lt
  cases path with
  | refl =>
      cases input.symm.trans he
      cases hp
  | step he' ha _ =>
      cases input.symm.trans he'
      cases ha

/-- Meetings in the outer part. -/
theorem Accepted.meet_outer {o : Outer F} (ho : m.outer? = some o) {r : Nat}
    (lt : r < o.tape.size) (j k : Nat) : m.unrolled.Meet [r] j k ↔ o.tape.Meet [r] j k := by
  have wf := accepted.outerTape ho
  have inputs := accepted.valid.outerInputs ho
  have self (q : Nat) (hq : q < o.tape.inputCount) (j : Nat) : m.unrolled.DependsOn q j ↔ q = j :=
    Tape.dependsOn_input (accepted.unrolled_input (inputs ▸ hq))
  refine ((holds_outer ho).meet_iff wf lt).trans ⟨?_, fun meet => .inl ⟨j, k, meet, ?_⟩⟩
  · rintro (⟨p, q, meet, hp, hq⟩ | ⟨q, hq, -, meet⟩)
    · have inside := wf.meet_lt meet
      cases (self p inside.1 j).mp hp
      cases (self q inside.2 k).mp hq
      exact meet
    · exact absurd meet (accepted.not_meet_input (inputs ▸ hq) j k)
  · have inside := wf.meet_lt meet
    exact ⟨(self j inside.1 j).mpr rfl, (self k inside.2 k).mpr rfl⟩

/-- Meetings in a copy: in the loop tape, or in a temporary that the copy
reads. -/
theorem Accepted.meet_copy {l : Loop F} (hl : l ∈ m.loops) {it base r : Nat}
    (hit : it < l.iterations) (h : m.CopyAt m.unrolling l it base) (lt : r < l.tape.size)
    (j k : Nat) : m.unrolled.Meet [l.place m.temporaryEntry it base r] j k ↔
      (∃ p q, l.tape.Meet [r] p q ∧ m.Behind l it p j ∧ m.Behind l it q k) ∨
      ∃ o, m.outer? = some o ∧ ∃ q t, l.temporaryOf? q = some t ∧ l.tape.DependsOn r q ∧
        o.tape.Meet [o.tape.outputAt (o.temporaryOutput t)] j k := by
  have wf := accepted.loopTape hl
  refine ((h.holds wf).meet_iff wf lt).trans (or_congr ?_ ?_)
  · refine exists_congr fun p => exists_congr fun q => and_congr_right fun meet => ?_
    have inside := wf.meet_lt meet
    rw [accepted.dependsOn_place hl hit inside.1, accepted.dependsOn_place hl hit inside.2]
  · constructor
    · rintro ⟨q, hq, path, meet⟩
      rw [Loop.place, if_pos hq] at meet
      cases ht : l.temporaryOf? q with
      | some t =>
          obtain ⟨o, ho, eq, inside⟩ := accepted.temporaryEntry_eq
            (accepted.valid.temporaries_lt hl t (Loop.mem_of_temporaryOf? ht))
          simp only [ht] at meet
          refine ⟨o, ho, q, t, ht, Tape.dependsOn_iff.mpr ⟨wf.entry_input hq, path⟩, ?_⟩
          exact eq ▸ (accepted.meet_outer ho inside j k).mp meet
      | none =>
          obtain ⟨i, hi, mem⟩ := (accepted.loop hl).exists_independent hq hit ht
          simp only [ht, hi, Option.getD_some] at meet
          refine absurd meet (accepted.not_meet_input ?_ j k)
          rcases mem with mem | ⟨row, hrow, mem⟩
          · exact accepted.valid.nonIndexed_lt hl i mem
          · exact accepted.valid.indexed_lt hl row hrow i mem
    · rintro ⟨o, ho, q, t, ht, dep, meet⟩
      have hq := wf.dependsOn_lt dep
      obtain ⟨o', ho', eq, inside⟩ := accepted.temporaryEntry_eq
        (accepted.valid.temporaries_lt hl t (Loop.mem_of_temporaryOf? ht))
      cases ho.symm.trans ho'
      refine ⟨q, hq, (Tape.dependsOn_iff.mp dep).2, ?_⟩
      rw [Loop.place, if_pos hq]
      simp only [ht]
      exact (accepted.meet_outer ho inside j k).mpr (eq ▸ meet)

/-- Independents meet where they meet in the unrolled tape. -/
theorem Accepted.meet_iff (j k : Nat) : m.Meet j k ↔ m.unrolled.Meet m.unrolled.outputs j k := by
  rw [Tape.meet_iff_exists]
  constructor
  · rintro (⟨o, ho, meet⟩ | ⟨l, hl, ⟨it, hit, p, q, meet, behind⟩ |
      ⟨o, ho, q, t, ht, ⟨out, mem, dep⟩, meet⟩⟩)
    · obtain ⟨r, mem, meet⟩ := Tape.meet_iff_exists.mp meet
      obtain ⟨i, hi, rfl⟩ := List.mem_map.mp mem
      have hd := List.getElem?_eq_getElem (List.mem_range.mp hi)
      obtain ⟨out, inside⟩ := accepted.outputAt_outer ho hd
      exact ⟨_, List.mem_of_getElem? out, (accepted.meet_outer ho inside j k).mpr meet⟩
    · obtain ⟨r, mem, meet⟩ := Tape.meet_iff_exists.mp meet
      obtain ⟨inside, base, copy, out⟩ := accepted.root hl hit mem
      refine ⟨_, out, (accepted.meet_copy hl hit copy inside j k).mpr (.inl ?_)⟩
      rcases behind with ⟨hp, hq⟩ | ⟨hp, hq⟩
      · exact ⟨p, q, meet, hp, hq⟩
      · exact ⟨q, p, meet.symm, hq, hp⟩
    · obtain ⟨inside, base, copy, root⟩ := accepted.root hl (accepted.loop hl).pos mem
      exact ⟨_, root, (accepted.meet_copy hl (accepted.loop hl).pos copy inside j k).mpr
        (.inr ⟨o, ho, q, t, ht, dep, meet⟩)⟩
  · rintro ⟨r, mem, meet⟩
    obtain ⟨d, hd⟩ := List.mem_iff_getElem?.mp mem
    have lt : d < m.range := by
      simpa [unrolled] using (List.getElem?_eq_some_iff.mp hd).1
    rw [← Tape.outputAt_eq hd] at meet
    rcases accepted.output_cases (accepted.exists_output lt) with
      ⟨o, i, ho, hd, -⟩ | ⟨l, it, -, e, row, -, hl, -, -, hrow, hd, -⟩
    · obtain ⟨out, inside⟩ := accepted.outputAt_outer ho hd
      rw [Tape.outputAt_eq out, accepted.meet_outer ho inside] at meet
      refine .inl ⟨o, ho, Tape.meet_iff_exists.mpr ⟨_, List.mem_map.mpr ⟨i, ?_, rfl⟩, meet⟩⟩
      exact List.mem_range.mpr (List.getElem?_eq_some_iff.mp hd).1
    · obtain ⟨hit, inside, base, copy, out⟩ := accepted.outputAt_copy hl hrow hd
      rw [Tape.outputAt_eq out, accepted.meet_copy hl hit copy inside] at meet
      have root : l.tape.outputAt e ∈ l.tape.outputs := by
        rw [← Tape.map_outputAt]
        have lt := (List.getElem?_eq_some_iff.mp hrow).1
        rw [(accepted.loop hl).outputs] at lt
        exact List.mem_map.mpr ⟨e, List.mem_range.mpr lt, rfl⟩
      refine .inr ⟨l, hl, ?_⟩
      rcases meet with ⟨p, q, meet, hp, hq⟩ | ⟨o, ho, q, t, ht, dep, meet⟩
      · exact .inl ⟨it, hit, p, q, Tape.meet_iff_exists.mpr ⟨_, root, meet⟩, .inl ⟨hp, hq⟩⟩
      · exact .inr ⟨o, ho, q, t, ht, ⟨_, root, dep⟩, meet⟩

/-- The sparsity of a model is the sparsity of its unrolled tape. -/
theorem Accepted.sparsity_unrolled : ∃ rows rows' pairs pairs',
    m.jacobianSparsity = .ok rows ∧ m.unrolled.jacobianSparsity = .ok rows' ∧
    rows.map TreeSet.toList = rows'.map TreeSet.toList ∧
    m.hessianSparsity = .ok pairs ∧ m.unrolled.hessianSparsity = .ok pairs' ∧
    pairs.toList = pairs'.toList := by
  have wf := accepted.wellFormed_unrolled
  obtain ⟨rows, hrows, len, mem⟩ := exists_ok_of_yields accepted.yields_jacobianSparsity
  obtain ⟨rows', hrows', mem'⟩ := exists_ok_of_yields wf.yields_jacobianSparsity
  obtain ⟨pairs, hpairs, hmem⟩ := exists_ok_of_yields accepted.yields_hessianSparsity
  obtain ⟨pairs', hpairs', hmem'⟩ := exists_ok_of_yields
    (wf.yields_hessianSparsityFor fun k hk => List.mem_range.mp hk)
  refine ⟨rows, rows', pairs, pairs', hrows, hrows', ?_, hpairs, hpairs', ?_⟩
  · have count : rows'.length = m.range := by
      rw [← mem'.length_eq, unrolled, List.length_map, List.length_range]
    refine List.ext_getElem (by simp [len, count]) fun d h h' => ?_
    rw [List.length_map] at h h'
    rw [List.getElem_map, List.getElem_map]
    refine (TreeSet.Equiv.of_forall_mem_iff fun j => ?_).toList_eq
    obtain ⟨r, hr, iff⟩ := exists_left_of_forall₂ mem' (List.getElem?_eq_getElem h')
    have row : rows.getD d ∅ = rows[d] := by
      rw [List.getD_eq_getElem?_getD, List.getElem?_eq_getElem h, Option.getD_some]
    rw [iff, ← row, mem d (len ▸ h), accepted.depends_iff (len ▸ h), Tape.outputAt_eq hr]
  · refine (TreeSet.Equiv.of_forall_mem_iff fun e => ?_).toList_eq
    rw [Tape.map_outputAt] at hmem'
    rw [hmem, hmem', accepted.meet_iff]

end

theorem sparsity_unrolled_products : (products Rat).Accepted ∧ ∃ rows rows' pairs pairs',
    (products Rat).jacobianSparsity = .ok rows ∧
    (products Rat).unrolled.jacobianSparsity = .ok rows' ∧
    rows.map TreeSet.toList = rows'.map TreeSet.toList ∧
    (products Rat).hessianSparsity = .ok pairs ∧
    (products Rat).unrolled.hessianSparsity = .ok pairs' ∧ pairs.toList = pairs'.toList :=
  ⟨accepted_products, accepted_products.sparsity_unrolled⟩

end Model

end LoopDiff
