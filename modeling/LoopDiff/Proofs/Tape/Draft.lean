import LoopDiff.Proofs.Graph.Straight
import LoopDiff.Proofs.Tape.Semantics
import LoopDiff.Tape.Lowering
import LoopDiff.Tape.Sweep

/-!
# LoopDiff.Proofs.Tape.Draft

Tapes under construction.

A draft tracks a graph (`Draft.Tracks`) if its tape is well formed and the
entry at which a node is placed has the number of the node.  Lowering one
node extends a draft by the entries that its kind asks for and keeps this so
(`Tracks.lower`); numbers of entries that are there do not change
(`Draft.Follows`).
-/

namespace LoopDiff

variable {F : Type}

/-! ## Running a tape -/

namespace Tape

/-- A well-formed tape may have any of its entries as outputs. -/
theorem WellFormed.withOutputs {t : Tape F} (wf : t.WellFormed) {outputs : List Nat}
    (lt : ∀ o ∈ outputs, o < t.size) : { t with outputs := outputs }.WellFormed :=
  ⟨wf.input_iff, wf.reads_lt, wf.complete, lt⟩

theorem wellFormed_empty : (Tape.empty : Tape F).WellFormed :=
  ⟨fun i => by simp [Tape.empty], fun h => by simp [Tape.empty] at h,
    fun h => by simp [Tape.empty] at h, fun o ho => by simp [Tape.empty] at ho⟩

/-- A tape with one more entry that is not an input. -/
theorem WellFormed.push {t : Tape F} (wf : t.WellFormed) {e : Entry F} (op : e.isInput = false)
    (reads : ∀ k ∈ e.reads, k < t.size) (complete : e.complete = true) :
    (t.push e).WellFormed := by
  refine ⟨fun i => ⟨?_, fun lt => ?_⟩, fun he k hk => ?_, fun he => ?_, fun o ho => ?_⟩
  · rintro ⟨e', he, input⟩
    rcases getElem?_push_cases he with he | ⟨-, rfl⟩
    · exact (wf.input_iff i).mp ⟨e', he, input⟩
    · rw [op] at input
      cases input
  · obtain ⟨e', he, input⟩ := (wf.input_iff i).mpr lt
    exact ⟨e', getElem?_push_of_some he e, input⟩
  · rcases getElem?_push_cases he with he | ⟨rfl, rfl⟩
    · exact wf.reads_lt he k hk
    · exact reads k hk
  · rcases getElem?_push_cases he with he | ⟨-, rfl⟩
    · exact wf.complete he
    · exact complete
  · exact lt_of_lt_of_le (wf.output_lt o ho) (by simp [Tape.push, size])

/-- A tape of inputs with one more of them. -/
theorem WellFormed.pushInput {t : Tape F} (wf : t.WellFormed) (inputs : t.inputCount = t.size) :
    ({ t.push .input with inputCount := t.inputCount + 1 } : Tape F).WellFormed := by
  have only {i : Nat} {e : Entry F} (he : (t.push .input).entries[i]? = some e) :
      e = .input ∧ i < t.size + 1 := by
    rcases getElem?_push_cases he with he | ⟨last, rfl⟩
    · have lt := (Array.getElem?_eq_some_iff.mp he).1
      obtain ⟨e', he', input⟩ := (wf.input_iff i).mpr (inputs ▸ lt)
      cases he.symm.trans he'
      cases e <;> first | exact ⟨rfl, Nat.lt_succ_of_lt lt⟩ | cases input
    · exact ⟨rfl, last ▸ Nat.lt_succ_self _⟩
  refine ⟨fun i => ⟨fun ⟨e, he, _⟩ => inputs ▸ (only he).2, fun lt => ?_⟩, fun he k hk => ?_,
    fun he => ?_, fun o ho => ?_⟩
  · have lt' : i < (t.push .input).entries.size := by
      simpa [Tape.push, ← size.eq_def, inputs] using lt
    obtain ⟨e, he⟩ : ∃ e, (t.push .input).entries[i]? = some e := ⟨_, Array.getElem?_eq_getElem lt'⟩
    exact ⟨e, he, by rw [(only he).1]; rfl⟩
  · rw [(only he).1] at hk
    cases hk
  · rw [(only he).1]
    rfl
  · exact lt_of_lt_of_le (wf.output_lt o ho) (by simp [Tape.push, size])

variable [Scalar F]

/-- The numbers of the entries of a tape. -/
def Runs (t : Tape F) (xs : List F) (values : Array F) : Prop :=
  t.entries.toList.foldlM (fun values e => do
    return values.push (← e.forward xs.toArray values)) #[] =
      (.ok values : Except Failure (Array F))

theorem Runs.push {t : Tape F} {xs : List F} {values : Array F} (h : t.Runs xs values)
    {e : Entry F} {y : F} (hy : (e.forward xs.toArray values : Except Failure F) = .ok y) :
    (t.push e).Runs xs (values.push y) := by
  rw [Runs, Tape.push, Array.toList_push, List.foldlM_append]
  refine (bind_of_ok h _).trans ?_
  rw [List.foldlM_cons, hy]
  rfl

end Tape

/-! ## Numbers of nodes -/

namespace Problem

variable [Scalar F] {p : Problem F}

/-- The number of a node that computes, outside of loops. -/
theorem known?_of_computes {i : Nat} {n : Node F} {xs : List F} {x : F}
    (hn : p.arena.nodes[i]? = some n) (computes : n.Computes)
    (before : ∀ r, .node r ∈ n.args → r.index < i)
    (hxs : List.Forall₂ (fun v x => p.value? none v = some (x, false)) n.args xs)
    (hx : n.result? p none xs = some x) : p.known? none i = some (x, false) := by
  have fixed : (xs.map fun x => (x, false)).any Prod.snd = false := by simp
  refine known?_eq_some_iff.mpr ⟨n, xs.map fun x => (x, false), hn, ?_, ?_, ?_, ?_⟩
  · rwa [computes.valueArgs]
  · rw [computes.valueArgs]
    exact List.forall₂_map_right_iff.mpr hxs
  · simpa [Function.comp_def] using hx
  · rw [fixed, Node.not_readsIteration_of_outside hx]
    rfl

end Problem

/-! ## Drafts -/

namespace Draft

variable [Scalar F]

/-- A draft for a graph on the numbers `xs`: the entry at which a node is
placed has the number of the node. -/
structure Tracks (p : Problem F) (xs : List F) (d : Draft F) (values : Array F) : Prop where
  wf : d.tape.WellFormed
  size_eq : values.size = d.tape.size
  runs : d.tape.Runs xs values
  place {i e : Nat} : d.places[i]? = some (some e) →
    ∃ x, values[e]? = some x ∧ p.known? none i = some (x, false)

/-- The draft `d'` has more entries than `d`, none of them inputs. -/
structure Follows (d d' : Draft F) (values values' : Array F) : Prop where
  places_eq : d'.places = d.places
  inputCount_eq : d'.tape.inputCount = d.tape.inputCount
  number {k : Nat} {x : F} : values[k]? = some x → values'[k]? = some x

/-- A computation that extends a draft by an entry with a number. -/
def Finds (p : Problem F) (xs : List F) (c : M F Nat) (d : Draft F) (values : Array F) (x : F) :
    Prop :=
  ∃ e d' values', c.run d = .ok (e, d') ∧ Tracks p xs d' values' ∧ d.Follows d' values values' ∧
    values'[e]? = some x

variable {p : Problem F} {xs : List F} {d d' : Draft F} {values values' : Array F}

omit [Scalar F] in
theorem Follows.refl (d : Draft F) (values : Array F) : d.Follows d values values :=
  ⟨rfl, rfl, fun h => h⟩

omit [Scalar F] in
theorem Follows.trans {d'' : Draft F} {values'' : Array F} (h : d.Follows d' values values')
    (h' : d'.Follows d'' values' values'') : d.Follows d'' values values'' :=
  ⟨h'.places_eq.trans h.places_eq, h'.inputCount_eq.trans h.inputCount_eq,
    fun hx => h'.number (h.number hx)⟩

theorem Tracks.lt (h : Tracks p xs d values) {e : Nat} {x : F} (hx : values[e]? = some x) :
    e < d.tape.size :=
  h.size_eq ▸ (Array.getElem?_eq_some_iff.mp hx).1

/-- One more entry. -/
theorem Tracks.push (h : Tracks p xs d values) {e : Entry F} {x : F} (op : e.isInput = false)
    (reads : ∀ k ∈ e.reads, ∃ y, values[k]? = some y) (complete : e.complete = true)
    (hx : (e.forward xs.toArray values : Except Failure F) = .ok x) :
    Finds p xs (Draft.push e) d values x := by
  have last : (values.push x)[d.tape.size]? = some x := by
    rw [← h.size_eq, Array.getElem?_push_size]
  refine ⟨d.tape.size, { d with tape := d.tape.push e }, values.push x, rfl,
    ⟨?_, ?_, h.runs.push hx, fun hi => ?_⟩, ⟨rfl, rfl, fun hy => getElem?_push_of_some hy x⟩, last⟩
  · refine h.wf.push op (fun k hk => ?_) complete
    obtain ⟨y, hy⟩ := reads k hk
    exact h.lt hy
  · simp [Tape.push, Tape.size, h.size_eq]
  · obtain ⟨y, hy, number⟩ := h.place hi
    exact ⟨y, getElem?_push_of_some hy x, number⟩

/-- The node at a position has an entry. -/
def Placed (d : Draft F) (i : Nat) : Prop := ∃ e, d.places[i]? = some (some e)

/-- A value that has an entry or needs none: a number, or a node that is
placed. -/
def Places (p : Problem F) (d : Draft F) (v : Value F) : Prop :=
  ∀ r, v = .node r → r.arena = p.arena.id ∧ d.Placed r.index

omit [Scalar F] in
theorem Places.follow {v : Value F} (hv : Places p d v) (h : d.Follows d' values values') :
    Places p d' v := by
  intro r hr
  rw [Placed, h.places_eq]
  exact hv r hr

theorem Tracks.argument (h : Tracks p xs d values) {v : Value F} (hv : Places p d v) :
    ∃ x, p.value? none v = some (x, false) ∧ Finds p xs (Draft.argument v) d values x := by
  cases v with
  | const c => exact ⟨c, rfl, h.push rfl (by simp [Entry.reads]) rfl rfl⟩
  | node r =>
      obtain ⟨arena, e, he⟩ := hv r rfl
      obtain ⟨x, hx, number⟩ := h.place he
      refine ⟨x, by rw [Problem.value?, if_pos arena, number], e, d, values, ?_, h,
        .refl d values, hx⟩
      change (present (d.places[r.index]?.join) : M F Nat).run d = _
      rw [he]
      rfl

theorem Finds.bind {c : M F Nat} {f : Nat → M F Nat} {x y : F} (hc : Finds p xs c d values x)
    (hf : ∀ e d' values', Tracks p xs d' values' → d.Follows d' values values' →
      values'[e]? = some x → Finds p xs (f e) d' values' y) : Finds p xs (c >>= f) d values y := by
  obtain ⟨e, d', values', run, tracks, follows, he⟩ := hc
  obtain ⟨e', d'', values'', run', tracks', follows', he'⟩ := hf e d' values' tracks follows he
  refine ⟨e', d'', values'', ?_, tracks', follows.trans follows', he'⟩
  rw [StateT.run_bind, run]
  exact run'

/-- The entries of an integer power. -/
theorem Tracks.pushPowi (powi_one : ∀ x : F, Scalar.powi x 1 = x)
    (powi_neg_one : ∀ x : F, Scalar.powi x (-1) = Scalar.unary .recip x)
    (h : Tracks p xs d values) {e : Nat} {x : F} (hx : values[e]? = some x) (n : Int32) :
    Finds p xs (modifyGet fun d =>
      let (entry, tape) := d.tape.pushPowi e n
      (entry, { d with tape := tape })) d values (Scalar.powi x n) := by
  have reads (k : Nat) (hk : k ∈ [e]) : ∃ y, values[k]? = some y :=
    ⟨x, List.mem_singleton.mp hk ▸ hx⟩
  by_cases one : n = 1
  · subst one
    simp only [Tape.pushPowi, if_true]
    exact ⟨e, d, values, rfl, h, .refl d values, by rw [hx, powi_one]⟩
  · by_cases neg : n = -1
    · subst neg
      simp only [Tape.pushPowi, if_neg one, if_true]
      refine h.push (e := .unary .recip e none) rfl reads rfl ?_
      rw [powi_neg_one]
      simp only [Entry.forward, fetch, hx]
      rfl
    · simp only [Tape.pushPowi, if_neg one, if_neg neg]
      refine h.push (e := .powi e n) rfl reads rfl ?_
      simp only [Entry.forward, fetch, hx]
      rfl

theorem Tracks.pushUnary (h : Tracks p xs d values) (op : Unary) {e : Nat} {x : F}
    (hx : values[e]? = some x) :
    Finds p xs (Draft.push (.unary op e none)) d values (Scalar.unary op x) := by
  refine h.push rfl (fun k hk => ⟨x, List.mem_singleton.mp hk ▸ hx⟩) rfl ?_
  simp only [Entry.forward, fetch, hx]
  rfl

theorem Tracks.pushBinary (h : Tracks p xs d values) (op : Binary) {e e' : Nat} {x y : F}
    (hx : values[e]? = some x) (hy : values[e']? = some y) :
    Finds p xs (Draft.push (.binary op e (some e'))) d values (Scalar.binary op x y) := by
  refine h.push rfl (fun k hk => ?_) rfl ?_
  · rcases List.mem_cons.mp hk with rfl | hk
    · exact ⟨x, hx⟩
    · exact ⟨y, List.mem_singleton.mp hk ▸ hy⟩
  · simp only [Entry.forward, Entry.fetchSecond, fetch, hx, hy]
    rfl

/-- An operation on one argument. -/
theorem Tracks.lowerOne (h : Tracks p xs d values) {i : Nat} {n : Node F}
    (hn : p.arena.nodes[i]? = some n) (computes : n.Computes)
    (before : ∀ r, .node r ∈ n.args → r.index < i) (known : ∀ v ∈ n.args, Places p d v)
    {v : Value F} (args : n.args = [v]) {f : Nat → M F Nat} {g : F → F}
    (hg : ∀ x, n.result? p none [x] = some (g x))
    (hf : ∀ e d' values' x, Tracks p xs d' values' → values'[e]? = some x →
      Finds p xs (f e) d' values' (g x)) :
    ∃ x, p.known? none i = some (x, false) ∧ Finds p xs (Draft.argument v >>= f) d values x := by
  obtain ⟨x, hx, found⟩ := h.argument (known v (by simp [args]))
  refine ⟨g x, Problem.known?_of_computes hn computes before (args.symm ▸ .cons hx .nil) (hg x), ?_⟩
  exact found.bind fun e d' values' tracks _ he => hf e d' values' x tracks he

/-- An operation on two arguments. -/
theorem Tracks.lowerTwo (h : Tracks p xs d values) {i : Nat} {n : Node F}
    (hn : p.arena.nodes[i]? = some n) (computes : n.Computes)
    (before : ∀ r, .node r ∈ n.args → r.index < i) (known : ∀ v ∈ n.args, Places p d v)
    {v w : Value F} (args : n.args = [v, w]) {f : Nat → Nat → M F Nat} {g : F → F → F}
    (hg : ∀ x y, n.result? p none [x, y] = some (g x y))
    (hf : ∀ e e' d' values' x y, Tracks p xs d' values' → values'[e]? = some x →
      values'[e']? = some y → Finds p xs (f e e') d' values' (g x y)) :
    ∃ x, p.known? none i = some (x, false) ∧
      Finds p xs (Draft.argument v >>= fun e => Draft.argument w >>= f e) d values x := by
  obtain ⟨x, hx, found⟩ := h.argument (known v (by simp [args]))
  obtain ⟨y, hy, -⟩ := h.argument (known w (by simp [args]))
  refine ⟨g x y, Problem.known?_of_computes hn computes before
    (args.symm ▸ .cons hx (.cons hy .nil)) (hg x y), ?_⟩
  refine found.bind fun e d' values' tracks follows he => ?_
  -- the second argument has the same value after the first has its entry
  obtain ⟨y', hy', found'⟩ := tracks.argument ((known w (by simp [args])).follow follows)
  cases hy.symm.trans hy'
  exact found'.bind fun e' d'' values'' tracks' follows' he' =>
    hf e e' d'' values'' x y tracks' (follows'.number he) he'

/-- A node that computes is lowered once its arguments are placed. -/
theorem Tracks.lower (powi_one : ∀ x : F, Scalar.powi x 1 = x)
    (powi_neg_one : ∀ x : F, Scalar.powi x (-1) = Scalar.unary .recip x)
    (h : Tracks p xs d values) {i : Nat} {n : Node F} (hn : p.arena.nodes[i]? = some n)
    (computes : n.Computes) (before : ∀ r, .node r ∈ n.args → r.index < i)
    (known : ∀ v ∈ n.args, Places p d v) :
    ∃ x, p.known? none i = some (x, false) ∧ Finds p xs (Draft.lower i n) d values x := by
  have computes' := computes
  cases kind : n.kind with
  | assign =>
      simp only [Node.Computes, kind] at computes'
      obtain ⟨v, args⟩ := computes'
      obtain ⟨x, hx, found⟩ := h.argument (known v (by simp [args]))
      have hxs : List.Forall₂ (fun v x => p.value? none v = some (x, false)) n.args [x] :=
        args.symm ▸ .cons hx .nil
      refine ⟨x, Problem.known?_of_computes hn computes before hxs ?_, ?_⟩
      · simp only [Node.result?, kind]
      · simp only [Draft.lower, kind, args]
        exact found
  | compound op =>
      simp only [Node.Computes, kind] at computes'
      obtain ⟨v, w, args⟩ := computes'
      have result (x y : F) :
          n.result? p none [x, y] = some (Scalar.binary op.toBinary x y) := by
        simp only [Node.result?, kind]
        rfl
      simp only [Draft.lower, kind, args]
      exact h.lowerTwo hn computes before known args result
        fun e e' d' values' x y tracks he he' => tracks.pushBinary op.toBinary he he'
  | op code =>
      cases code with
      | unary op =>
          simp only [Node.Computes, kind] at computes'
          obtain ⟨v, args⟩ := computes'
          have result (x : F) : n.result? p none [x] = some (Scalar.unary op x) := by
            simp only [Node.result?, kind]
            rfl
          simp only [Draft.lower, kind, args]
          exact h.lowerOne hn computes before known args result
            fun e d' values' x tracks he => tracks.pushUnary op he
      | powi =>
          simp only [Node.Computes, kind] at computes'
          obtain ⟨v, word, args, info⟩ := computes'
          have result (x : F) :
              n.result? p none [x] = some (Scalar.powi x (Exponent.decode word)) := by
            simp only [Node.result?, kind, info, Node.operate?]
          rw [Draft.lower, kind, args, info]
          -- what the stored word decodes to does not matter here
          generalize Exponent.decode = decode at result ⊢
          exact h.lowerOne hn computes before known args result fun e d' values' x tracks he =>
            tracks.pushPowi powi_one powi_neg_one he (decode word)
      | binary op =>
          simp only [Node.Computes, kind] at computes'
          obtain ⟨v, w, args⟩ := computes'
          have result (x y : F) : n.result? p none [x, y] = some (Scalar.binary op x y) := by
            simp only [Node.result?, kind]
            rfl
          simp only [Draft.lower, kind, args, List.getElem?_cons_succ, List.getElem?_cons_zero,
            present, pure_bind, Option.mapM_some, bind_map_left]
          exact h.lowerTwo hn computes before known args result
            fun e e' d' values' x y tracks he he' => tracks.pushBinary op he he'
      | _ => simp only [Node.Computes, kind] at computes'
  | _ => simp only [Node.Computes, kind] at computes'

/-- The values of the outputs. -/
theorem Tracks.outputs (h : Tracks p xs d values) {outputs : List (Value F)}
    (known : ∀ v ∈ outputs, Places p d v) :
    ∃ es ys d' values', (outputs.mapM Draft.argument).run d = .ok (es, d') ∧
      Tracks p xs d' values' ∧ d.Follows d' values values' ∧
      List.Forall₂ (fun e y => values'[e]? = some y) es ys ∧
      List.Forall₂ (fun v y => p.value? none v = some (y, false)) outputs ys := by
  induction outputs generalizing d values with
  | nil => exact ⟨[], [], d, values, rfl, h, .refl d values, .nil, .nil⟩
  | cons v outputs ih =>
      obtain ⟨y, hy, e, d', values', run, tracks, follows, he⟩ := h.argument (known v (by simp))
      obtain ⟨es, ys, d'', values'', run', tracks', follows', hes, hys⟩ := ih tracks fun v hv =>
        (known v (List.mem_cons_of_mem _ hv)).follow follows
      refine ⟨e :: es, y :: ys, d'', values'', ?_, tracks', follows.trans follows',
        .cons (follows'.number he) hes, .cons hy hys⟩
      rw [List.mapM_cons, StateT.run_bind, run]
      refine (bind_of_ok rfl _).trans ?_
      rw [StateT.run_bind, run']
      rfl

omit [Scalar F] in
theorem placed_set (i e j : Nat) (lt : i < d.places.size) :
    Placed { d with places := d.places.setIfInBounds i (some e) } j ↔ i = j ∨ d.Placed j := by
  simp only [Placed, Array.getElem?_setIfInBounds]
  by_cases eq : i = j
  · subst eq
    simp [lt]
  · simp [eq]

/-- A node is placed at an entry with its number. -/
theorem Tracks.set (h : Tracks p xs d values) {i e : Nat} {x : F} (hx : values[e]? = some x)
    (number : p.known? none i = some (x, false)) :
    Tracks p xs { d with places := d.places.setIfInBounds i (some e) } values := by
  refine ⟨h.wf, h.size_eq, h.runs, fun {j e'} hj => ?_⟩
  rw [Array.getElem?_setIfInBounds] at hj
  split at hj
  case isTrue eq =>
      subst eq
      split at hj
      case isTrue =>
          cases hj
          exact ⟨x, hx, number⟩
      case isFalse => cases hj
  case isFalse => exact h.place hj

/-- The next input. -/
theorem Tracks.pushInput (h : Tracks p xs d values) (inputs : d.tape.inputCount = d.tape.size)
    {x : F} (hx : xs[d.tape.size]? = some x) :
    ∃ tape, d.tape.pushInput = .ok tape ∧ tape.inputCount = d.tape.size + 1 ∧
      tape.size = d.tape.size + 1 ∧ Tracks p xs { d with tape := tape } (values.push x) := by
  have values_size : (values.push x).size = d.tape.size + 1 := by simp [h.size_eq]
  have size : (d.tape.push .input).size = d.tape.size + 1 := by simp [Tape.push, Tape.size]
  refine ⟨_, if_pos inputs, by rw [← inputs], size, h.wf.pushInput inputs,
    values_size.trans size.symm, h.runs.push ?_, fun hi => ?_⟩
  · rw [Entry.forward, h.size_eq, List.getElem?_toArray, hx]
    rfl
  · obtain ⟨y, hy, number⟩ := h.place hi
    exact ⟨y, getElem?_push_of_some hy x, number⟩

end Draft

end LoopDiff
