import LoopDiff.Library.Compile
import LoopDiff.Proofs.Graph.Execution
import LoopDiff.Proofs.Loop.Scope
import LoopDiff.Proofs.Model.Evaluation

/-!
# LoopDiff.Proofs.Assembly.Basic

What the assemblers have in common.

An assembly starts from values that stand for the independents of a model,
at every iteration of every loop (`Assembly.Ready`).  From it follow the
meanings of the temporaries, and of the inputs of a loop tape at each
iteration of its loop (`Assembly.Ready.yields_loopInputs`): an indexed input
is read through a pattern, and the pattern gives the index of the iteration.
-/

namespace LoopDiff

open Std (TreeMap)

variable {F R : Type} [Scalar F] [Elementary R] [Reading F R] {inputs : List (Array F)}

/-- The sizes of a model and of `k` requested elements leave room for the
arithmetic on indices. -/
structure Model.Fits (m : Model F) (k : Nat) : Prop where
  domain : 24 * m.domain < 0x8000000000000000
  iterations {l : Loop F} : l ∈ m.loops → l.iterations < 0x8000000000000000
  room {l : Loop F} : l ∈ m.loops → k * l.iterations < 0x8000000000000000

/-- Patterns give the indices they were detected behind. -/
theorem evals_of_detected {rows : List (Array Nat)} {patterns : List Pattern} {n k : Nat}
    (detected : List.Forall₂ (fun (row : Array Nat) p =>
      Pattern.detectDense? row.toList = some p) rows patterns)
    (sizes : ∀ row ∈ rows, row.size = n) (small : n < 0x8000000000000000)
    (within : ∀ row ∈ rows, ∀ j ∈ row, j < k) (small' : k < 0x8000000000000000) :
    List.Forall₂ (fun (row : Array Nat) p => ∀ it < n, ∃ j, row[it]? = some j ∧ j < k ∧
      p.eval it = some j) rows patterns := by
  have conditions : ∀ row ∈ rows, row.size = n ∧ ∀ j ∈ row, j < k :=
    fun row hrow => ⟨sizes row hrow, within row hrow⟩
  refine ((List.forall₂_and_left _ _).mpr ⟨conditions, detected⟩).imp ?_
  rintro row p ⟨⟨size, within⟩, hp⟩ it hit
  have hj := Array.getElem?_eq_getElem (size.symm ▸ hit : it < row.size)
  refine ⟨row[it], hj, within _ (Array.mem_of_getElem? hj), Pattern.eval_of_detectDense? hp ?_ ?_ ?_⟩
  · rwa [Array.length_toList, size]
  · exact fun v hv => (within v (Array.mem_toList_iff.mp hv)).trans small'
  · rwa [Array.getElem?_toList]

/-! ## Inputs -/

/-- An input array holds numbers that are read as the first `n` elements of
a family. -/
def Supplies (inputs : List (Array F)) (array n : Nat) (x : Nat → R) : Prop :=
  ∃ numbers, inputs[array]? = some numbers ∧ numbers.size = n ∧
    ∀ (j : Nat) (v : F), numbers[j]? = some v → embed v = x j

theorem Supplies.input {array n : Nat} {x : Nat → R} (h : Supplies inputs array n x) {j : Nat}
    (lt : j < n) :
    ∃ v, ((inputs[array]?).bind fun values => values[j]?) = some v ∧ embed v = x j := by
  obtain ⟨numbers, here, size, read⟩ := h
  have hv := Array.getElem?_eq_getElem (size.symm ▸ lt : j < numbers.size)
  exact ⟨numbers[j], by rw [here, Option.bind_some, hv], read j _ hv⟩

namespace Arena

variable {a a' : Arena F} {array n : Nat} {x : Nat → R}

/-- Values that stand for the first `n` numbers of an input array, at every
iteration. -/
structure Inputs (a : Arena F) (inputs : List (Array F)) (array n : Nat) (vs : Array (Value F))
    (x : Nat → R) : Prop where
  supplies : Supplies inputs array n x
  size_eq : vs.size = n
  means (it : Option Nat) : (Interpretation.recorded R inputs it).meansAll a vs x

theorem Inputs.keep {P : Nat → Kind → Prop} {vs : Array (Value F)}
    (h : a.Inputs inputs array n vs x) (low : ∀ i k, k.tier = 0 → P i k) (keeps : a.Keeps P a') :
    a'.Inputs inputs array n vs x where
  __ := h
  means it i v hv := (h.means it i v hv).keep low keeps

theorem IsInput.means {v : Value F} {position : Nat} {y : F} (h : a.IsInput v array position)
    (hy : ((inputs[array]?).bind fun values => values[position]?) = some y) (it : Option Nat) :
    a.Means inputs it v (embed y : R) := by
  obtain ⟨r, rfl, arena, hr⟩ := h
  refine ⟨y, false, ?_, rfl⟩
  rw [Problem.value?, if_pos arena]
  refine Problem.known?_eq_some_iff.mpr ⟨_, [], hr, by simp [Node.valueArgs], .nil, ?_, rfl⟩
  simpa [Node.result?, Problem.input?] using hy

theorem yields_inputs (small : 24 * n < 0x8000000000000000) (supplies : Supplies inputs array n x) :
    Yields (Recording.reporting (newIndependents array n)) a fun vs a' =>
      a'.Inputs inputs array n vs.toArray x := by
  refine (Recording.yields_reporting (yields_newIndependents small)).mono ?_
  rintro vs a' - ⟨length, isInput⟩
  refine ⟨supplies, by simpa using length, fun it j v hv => ?_⟩
  rw [List.getElem?_toArray] at hv
  obtain ⟨y, hy, eq⟩ := supplies.input (length ▸ (List.getElem?_eq_some_iff.mp hv).1)
  have means : a'.Means inputs it v (embed y : R) := (isInput j v hv).means hy it
  exact eq ▸ means

end Arena

namespace Assembly

variable {asm : Assembly F} {a a' : Arena F} {m : Model F} {x ω : Nat → R}

/-- An assembly of a model whose independents stand for `x`. -/
structure Ready (asm : Assembly F) (a : Arena F) (inputs : List (Array F)) (m : Model F)
    (x : Nat → R) : Prop where
  model : asm.model = m
  independents : a.Inputs inputs independentsArray m.domain asm.independents x

/-- An assembly whose weights stand for `ω`. -/
def Weighted (asm : Assembly F) (a : Arena F) (inputs : List (Array F)) (m : Model F)
    (ω : Nat → R) : Prop :=
  a.Inputs inputs weightsArray m.range asm.weights ω

theorem Ready.keep {P : Nat → Kind → Prop} (h : asm.Ready a inputs m x)
    (low : ∀ i k, k.tier = 0 → P i k) (keeps : a.Keeps P a') : asm.Ready a' inputs m x :=
  ⟨h.model, h.independents.keep low keeps⟩

theorem Ready.extend (h : asm.Ready a inputs m x) (le : a ≤ a') : asm.Ready a' inputs m x :=
  h.keep (fun _ _ _ => trivial) le

/-- An assembly starts with what it needs. -/
theorem yields_begin {k : Nat} (fits : m.Fits k) (hx : Supplies inputs independentsArray m.domain x) :
    Yields (begin m false) a fun asm a' => asm.Ready a' inputs m x := by
  refine Yields.bind (Arena.yields_inputs fits.domain hx) fun xs a₁ _ hxs => ?_
  exact yields_pure ⟨rfl, hxs⟩

theorem yields_begin_weighted {k : Nat} (fits : m.Fits k)
    (room : 24 * m.range < 0x8000000000000000)
    (hx : Supplies inputs independentsArray m.domain x)
    (hω : Supplies inputs weightsArray m.range ω) :
    Yields (begin m true) a fun asm a' =>
      asm.Ready a' inputs m x ∧ asm.Weighted a' inputs m ω := by
  refine Yields.bind (Arena.yields_inputs fits.domain hx) fun xs a₁ _ hxs => ?_
  refine Yields.bind (Arena.yields_inputs room hω) fun ws a₂ le hws => ?_
  exact yields_pure ⟨⟨rfl, hxs.keep (fun _ _ _ => trivial) le⟩, hws⟩

/-! ## Temporaries -/

section

variable (ready : asm.Ready a inputs m x) (accepted : m.Accepted)

include ready accepted

theorem Ready.yields_outerValues {o : Outer F} (ho : m.outer? = some o) :
    Yields asm.outerValues a fun zs a' => ∀ it,
      List.Forall₂ (fun i v => a'.Means inputs it v (o.tape.valueAt x i)) o.tape.outputs zs := by
  rw [outerValues, ready.model, ho]
  refine Yields.all fun it => ?_
  refine (accepted.outerTape ho).yields_eval (Interpretation.recorded R inputs it)
    (fun _ _ _ _ => trivial) ?_ (ready.independents.means it)
  rw [Array.length_toList, ready.independents.size_eq, accepted.valid.outerInputs ho]

theorem Ready.yields_temporaries :
    Yields asm.temporaries a fun zs a' => zs.length = Model.temporaryCount m.outer? ∧
      ∀ it, (Interpretation.recorded R inputs it).meansAll a' zs.toArray (m.temporaryAt x) := by
  rw [temporaries, ready.model]
  cases ho : m.outer? with
  | none =>
      rw [outerValues, ready.model, ho]
      exact yields_pure ⟨rfl, fun it i v hv => by simp at hv⟩
  | some o =>
      refine Yields.bind (ready.yields_outerValues accepted ho) fun zs a₁ _ hz => ?_
      have temporaries (it : Option Nat) := (accepted.outer ho).meansAll_temporaries
        (Interpretation.recorded R inputs it) ho (hz it)
      rw [ho] at temporaries
      exact yields_pure ⟨(temporaries none).1, fun it => (temporaries it).2⟩

/-! ## Loops -/

/-- The inputs of a loop tape inside its loop. -/
theorem Ready.yields_loopInputs {k base : Nat} {add : Bool} {l : Loop F} {s : LoopScope}
    {c : Content R} (fits : m.Fits k) (hl : l ∈ m.loops)
    (body : s.Body a (.numbers inputs) l.iterations base add c) :
    Yields (asm.loopInputs l s) a fun vs a' => vs.length = l.tape.inputCount ∧
      ∀ it < l.iterations, (Interpretation.recorded R inputs (some it)).meansAll a' vs.toArray
        (m.inputAt l x it) := by
  have valid := accepted.valid
  have evals := evals_of_detected (accepted.loop hl).indexedPatterns
    (fun row hrow => (accepted.loop hl).size_eq (List.mem_append_right _ hrow)) (fits.iterations hl)
    (valid.indexed_lt hl) (by have := fits.domain; omega)
  rw [loopInputs]
  refine Yields.bind (yields_mapM (P := fun p v a' => ∀ it < l.iterations, ∀ j, j < m.domain →
    p.eval it = some j → a'.Means inputs (some it) v (x j)) ?_ ?_) fun indexed a₁ le₁ hi => ?_
  · exact fun p v a₁ a₂ le h it hit j hj eval => (h it hit j hj eval).extend le
  · intro p _ a' le
    refine ((body.extend le).yields_read independentsArray p).mono ?_
    intro v a'' _ h it hit j hj eval
    obtain ⟨y, hy, eq⟩ := ready.independents.supplies.input hj
    exact eq ▸ h it hit j y eval hy
  have ready₁ := ready.extend le₁
  refine Yields.bind (yields_mapM (P := fun j v a' => ∀ it, a'.Means inputs it v (x j)) ?_ ?_)
    fun nonIndexed a₂ le₂ hn => ?_
  · exact fun j v a₁ a₂ le h it => (h it).extend le
  · intro j hj a' le
    have lt : j < asm.independents.size :=
      ready.independents.size_eq.symm ▸ valid.nonIndexed_lt hl j hj
    have hv := Array.getElem?_eq_getElem lt
    exact yields_present hv fun it => ((ready₁.extend le).independents.means it) j _ hv
  have all {a' : Arena F} {temporaries : List (Value F)} (le : a₂ ≤ a') (ht : ∀ it,
      List.Forall₂ (fun k v => a'.Means inputs it v (m.temporaryAt x k)) l.temporaries temporaries) :
      (indexed ++ nonIndexed ++ temporaries).length = l.tape.inputCount ∧
        ∀ it < l.iterations, (Interpretation.recorded R inputs (some it)).meansAll a'
          (indexed ++ nonIndexed ++ temporaries).toArray (m.inputAt l x it) := by
    have parts (it : Nat) (hit : it < l.iterations) :
        (indexed ++ nonIndexed ++ temporaries).length = l.tape.inputCount ∧
          (Interpretation.recorded R inputs (some it)).meansAll a'
            (indexed ++ nonIndexed ++ temporaries).toArray (m.inputAt l x it) := by
      refine (accepted.loop hl).meansAll_inputs (Interpretation.recorded R inputs (some it))
        (forall₂_trans evals hi fun row p v eval means => ?_)
        (hn.imp fun j v h => (h (some it)).extend le) (ht (some it))
      obtain ⟨j, hj, lt, eval⟩ := eval it hit
      exact ⟨j, hj, (means it hit j lt eval).extend (le₂.trans le)⟩
    exact ⟨(parts 0 (accepted.loop hl).pos).1, fun it hit => (parts it hit).2⟩
  split
  case isTrue empty =>
      have none : l.temporaries = [] := List.isEmpty_iff.mp empty
      refine yields_pure ?_
      rw [← List.append_nil (indexed ++ nonIndexed)]
      exact all le_rfl fun it => none ▸ .nil
  case isFalse =>
      refine Yields.bind ((ready₁.extend le₂).yields_temporaries accepted)
        fun zs a₃ le₃ ⟨count, hz⟩ => ?_
      refine Yields.bind (yields_mapM (P := fun k v a' => ∀ it, a'.Means inputs it v
        (m.temporaryAt x k)) (fun k v a₁ a₂ le h it => (h it).extend le) ?_)
        fun temporaries a₄ le₄ ht => ?_
      · intro k hk a' le
        have lt : k < zs.toArray.size := by
          rw [List.size_toArray, count]
          exact valid.temporaries_lt hl k hk
        have hv := Array.getElem?_eq_getElem lt
        exact yields_present hv fun it => (hz it k _ hv).extend le
      · exact yields_pure (all (le₃.trans le₄) fun it => ht.imp fun k v h => h it)

end

end Assembly

/-! ## Finished graphs -/

/-- Numbers supply what they are read as. -/
theorem supplies_of_list {array n : Nat} {xs : List F} (here : inputs[array]? = some xs.toArray)
    (length : xs.length = n) :
    Supplies inputs array n fun j => (embed (xs.getD j Scalar.zero) : R) := by
  refine ⟨xs.toArray, here, by simpa using length, fun j v hv => ?_⟩
  rw [List.getElem?_toArray] at hv
  simp [List.getD_eq_getElem?_getD, hv]

omit [Scalar F] in
theorem tiered_empty (id : Nat) : (Arena.empty id : Arena F).Tiered := by
  intro i n hn
  simp [Arena.empty] at hn

omit [Scalar F] in
/-- A recording that ends makes a finished graph. -/
theorem Model.assemble_of_ends {m : Model F} {weighted : Bool}
    {outputs : Assembly F → Recording F (List (Value F))} {Q : List (Value F) → Arena F → Prop}
    (h : Ends (Assembly.begin m weighted >>= outputs) (Arena.empty 1) Q) :
    ∃ c, m.assemble weighted outputs = .ok c ∧ Q c.outputs c.arena := by
  obtain ⟨vs, a, run, hq⟩ := h
  refine ⟨⟨a, vs⟩, ?_, hq⟩
  rw [assemble]
  simp only [Recording.runIn]
  rw [run]
  rfl

/-- The outputs of a graph have the numbers `xs`, whatever is evaluated before
them. -/
def Compiled.Gives (c : Compiled F) (inputs : List (List F)) (xs : List F) : Prop :=
  List.Forall₂ (fun v x => Problem.output? ⟨c.arena, inputs.map List.toArray⟩ v = some x)
    c.outputs xs

theorem Compiled.Gives.evaluate {c : Compiled F} {inputs : List (List F)} {xs : List F}
    (h : c.Gives inputs xs) : c.arena.evaluate c.outputs inputs = .ok xs :=
  Arena.evaluate_eq h

theorem Compiled.exists_gives {c : Compiled F} {numbers : List (List F)} {y : Nat → R}
    (h : ∀ (k : Nat) (v : Value F), c.outputs[k]? = some v →
      ∃ x, Problem.output? ⟨c.arena, numbers.map List.toArray⟩ v = some x ∧ embed x = y k) :
    ∃ xs, c.Gives numbers xs ∧ xs.length = c.outputs.length ∧
      ∀ (k : Nat) (x : F), xs[k]? = some x → embed x = y k := by
  obtain ⟨xs, hxs⟩ := exists_forall₂ fun v hv => by
    obtain ⟨k, hk⟩ := List.mem_iff_getElem?.mp hv
    obtain ⟨x, hx, -⟩ := h k v hk
    exact ⟨x, hx⟩
  refine ⟨xs, hxs, hxs.length_eq.symm, fun k x hx => ?_⟩
  obtain ⟨v, hv, value⟩ := exists_left_of_forall₂ hxs hx
  obtain ⟨x', hx', eq⟩ := h k v hv
  cases value.symm.trans hx'
  exact eq

/-- A graph that can be recorded for all numbers, with outputs that have
numbers, gives numbers for all of them. -/
theorem Model.assemble_of_forall {m : Model F} {weighted : Bool}
    {outputs : Assembly F → Recording F (List (Value F))} {ι : Type} [Nonempty ι] {n : Nat}
    (numbers : ι → List (List F)) {P : ι → (Nat → R) → Prop}
    (h : ∀ i, Ends (Assembly.begin m weighted >>= outputs) (Arena.empty 1) fun vs a =>
      vs.length = n ∧ ∃ y : Nat → R, P i y ∧ ∀ (k : Nat) (v : Value F), vs[k]? = some v →
        ∃ x, Problem.output? ⟨a, (numbers i).map List.toArray⟩ v = some x ∧ embed x = y k) :
    ∃ c, m.assemble weighted outputs = .ok c ∧ c.outputs.length = n ∧ ∀ i, ∃ y, P i y ∧
      ∃ xs, c.Gives (numbers i) xs ∧ xs.length = n ∧
        ∀ (k : Nat) (x : F), xs[k]? = some x → embed x = y k := by
  obtain ⟨c, assembled, h⟩ := assemble_of_ends (Worlds.ends_forall h)
  refine ⟨c, assembled, (h (Classical.arbitrary ι)).1, fun i => ?_⟩
  obtain ⟨length, y, hy, number⟩ := h i
  obtain ⟨xs, gives, count, values⟩ := Compiled.exists_gives number
  exact ⟨y, hy, xs, gives, count.trans length, values⟩

instance nonemptyOfLength (n : Nat) : Nonempty {xs : List F // xs.length = n} :=
  ⟨List.replicate n Scalar.zero, List.length_replicate⟩

end LoopDiff
