import LoopDiff.Proofs.Graph.Execution
import LoopDiff.Proofs.Graph.Straight
import LoopDiff.Proofs.Graph.Values

/-!
# LoopDiff.Proofs.Graph.Operations

Recording is a homomorphism.

A recording is made of inputs and operations (`Operation`).  Each operation
gives a value that evaluates to the operation on numbers, and changes no
number of an earlier value, whether it is folded, reduced by an identity,
found among the nodes or recorded anew, and whether or not a slot is
overwritten (`Arena.Recorded.homomorphism`).
-/

namespace LoopDiff

open Arena (Straight)

variable {F R : Type} [Scalar F] {inputs : List (Array F)} {it : Option Nat}

/-! ## Slots -/

namespace Arena

/-- The number of a new node. -/
theorem value?_pushed {a : Arena F} {n : Node F} {ys : List (F × Bool)} {x : F}
    (hys : List.Forall₂ (fun v y => Problem.value? ⟨a, inputs⟩ it v = some y) n.valueArgs ys)
    (hx : n.result? ⟨a.pushed n, inputs⟩ it (ys.map Prod.fst) = some x) :
    Problem.value? ⟨a.pushed n, inputs⟩ it (.node (a.handle a.size)) =
      some (x, n.readsIteration || ys.any Prod.snd) := by
  rw [Problem.value?, if_pos (by rfl)]
  refine Problem.known?_eq_some_iff.mpr ⟨n, ys, node_pushed_self a n, fun r hr => ?_,
    hys.imp fun v y h => Problem.value?_preserved (preserves_pushed a n) h, hx, rfl⟩
  obtain ⟨k, lt, hk⟩ := List.mem_iff_getElem.mp hr
  obtain ⟨y, -, hy⟩ := exists_right_of_forall₂ hys (List.getElem?_eq_getElem lt)
  rw [hk, Problem.value?] at hy
  split at hy
  case isTrue =>
      obtain ⟨m, hm, -⟩ := Problem.tier_of_known? hy
      exact (Array.getElem?_eq_some_iff.mp hm).1
  case isFalse => cases hy

variable [Elementary R] [Reading F R] {a : Arena F} {v w : Value F} {r s : R}

/-- A new node that holds a value. -/
theorem ends_pushAssign (hv : a.Means inputs it v r) :
    Ends (push .assign [v] []) a fun n a' => a.Preserves a' ∧ a'.Means inputs it (.node n) r := by
  obtain ⟨x, varies, hx, rfl⟩ := hv
  have fits : a.Fits .assign [v] := Means.fits (R := R) ⟨x, varies, hx, rfl⟩
  refine (ends_push_new (fun _ => Kind.noConfusion) fits).mono ?_
  rintro _ _ ⟨rfl, rfl⟩
  exact ⟨preserves_pushed a _, x, _, value?_pushed (.cons hx .nil) rfl, rfl⟩

/-- A new node for the new value of a slot. -/
theorem ends_pushCompound (op : Compound) (hv : a.Means inputs it v r)
    (hw : a.Means inputs it w s) :
    Ends (push (.compound op) [v, w] []) a fun n a' =>
      a'.Means inputs it (.node n) (Elementary.binary op.toBinary r s) := by
  have fits : a.Fits (.compound op) [v, w] := hv.fits.cons hw.fits
  obtain ⟨x, varies, hx, rfl⟩ := hv
  obtain ⟨y, varies', hy, rfl⟩ := hw
  refine (ends_push_new (fun _ => Kind.noConfusion) fits).mono ?_
  rintro _ _ ⟨rfl, rfl⟩
  exact ⟨Scalar.binary op.toBinary x y, _, value?_pushed (.cons hx (.cons hy .nil)) rfl,
    Reading.embed_binary ..⟩

omit [Scalar F] in
theorem ends_markOverwritten {n : NodeRef} (own : a.check n = .ok ()) :
    Ends (markOverwritten n) a fun _ a' => a' = a.marked n :=
  ends_get_bind (ends_lift_bind own ⟨_, _, rfl, rfl⟩)

end Arena

namespace Value

open Arena

variable [Elementary R] [Reading F R] {a : Arena F} {v slot : Value F} {r s : R}

theorem ends_toNode (hv : a.Means inputs it v r) :
    Ends (Value.toNode v) a fun z a' => a'.Means inputs it z r := by
  cases v with
  | const x =>
      exact Worlds.ends_bind (ends_pushAssign hv) fun n a' h => ends_pure h.2
  | node n => exact ends_get_bind (ends_lift_bind hv.checkValue (ends_pure hv))

theorem ends_replace (op : Compound) {old : NodeRef} (hold : a.Means inputs it (.node old) r)
    (hv : a.Means inputs it v s) :
    Ends (replace op old v) a fun z a' =>
      a'.Means inputs it z (Elementary.binary op.toBinary r s) := by
  refine Worlds.ends_bind (ends_markOverwritten hold.checkValue) ?_
  rintro _ _ rfl
  have kept := preserves_marked a old
  exact Worlds.ends_bind (ends_pushCompound op (hold.preserve kept) (hv.preserve kept))
    fun n a' h => ends_pure h

theorem ends_compound (op : Compound) (hslot : a.Means inputs it slot r)
    (hv : a.Means inputs it v s) :
    Ends (Value.compound op slot v) a fun z a' =>
      a'.Means inputs it z (Elementary.binary op.toBinary r s) := by
  cases slot with
  | const x =>
      cases v with
      | const y =>
          obtain ⟨_, _, hx, rfl⟩ := hslot
          obtain ⟨_, _, hy, rfl⟩ := hv
          cases hx
          cases hy
          exact ends_pure ⟨_, false, rfl, Reading.embed_binary ..⟩
      | node n =>
          have asNode : Ends (do replace op (← Arena.push .assign [.const x] []) (.node n) :
              ArenaM F (Value F)) a fun z a' =>
                a'.Means inputs it z (Elementary.binary op.toBinary r s) :=
            Worlds.ends_bind (ends_pushAssign hslot) fun m a' ⟨kept, hm⟩ =>
              ends_replace op hm (hv.preserve kept)
          refine ends_get_bind (ends_lift_bind hv.checkValue ?_)
          cases op with
          | add =>
              by_cases zero : Scalar.isZero x = true
              · simp only [if_pos zero]
                have : r = 0 := hslot.isZero zero
                exact ends_pure (by simpa [Compound.toBinary, Elementary.binary, this] using hv)
              · simp only [if_neg zero]
                exact asNode
          | sub => exact asNode
          | mul =>
              by_cases zero : Scalar.isZero x = true
              · simp only [if_pos zero]
                have : r = 0 := hslot.isZero zero
                exact ends_pure (by simpa [Compound.toBinary, Elementary.binary, this] using hslot)
              · simp only [if_neg zero]
                by_cases one : Scalar.isOne x = true
                · simp only [if_pos one]
                  have : r = 1 := hslot.isOne one
                  exact ends_pure (by simpa [Compound.toBinary, Elementary.binary, this] using hv)
                · simp only [if_neg one]
                  exact asNode
          | div =>
              by_cases zero : Scalar.isZero x = true
              · simp only [if_pos zero]
                have : r = 0 := hslot.isZero zero
                exact ends_pure (by simpa [Compound.toBinary, Elementary.binary, this] using hslot)
              · simp only [if_neg zero]
                exact asNode
  | node old =>
      have recorded : Ends (replace op old v) a fun z a' =>
          a'.Means inputs it z (Elementary.binary op.toBinary r s) := ends_replace op hslot hv
      refine ends_lift_bind (checkSameArena_of_means hslot hv) ?_
      refine ends_get_bind (ends_lift_bind hv.checkValue ?_)
      refine ends_get_bind (ends_lift_bind hslot.checkValue ?_)
      cases op with
      | add | sub =>
          by_cases zero : v.isZero = true
          · simp only [if_pos zero]
            have : s = 0 := hv.isZero zero
            exact ends_pure (by simpa [Compound.toBinary, Elementary.binary, this] using hslot)
          · simp only [if_neg zero]
            exact recorded
      | mul =>
          by_cases zero : v.isZero = true
          · simp only [if_pos zero]
            have : s = 0 := hv.isZero zero
            refine Worlds.ends_bind (ends_markOverwritten hslot.checkValue) fun _ a' _ => ?_
            exact ends_pure (by simpa [Compound.toBinary, Elementary.binary, this] using means_zero)
          · simp only [if_neg zero]
            by_cases one : v.isOne = true
            · simp only [if_pos one]
              have : s = 1 := hv.isOne one
              exact ends_pure (by simpa [Compound.toBinary, Elementary.binary, this] using hslot)
            · simp only [if_neg one]
              exact recorded
      | div =>
          by_cases one : v.isOne = true
          · simp only [if_pos one]
            have : s = 1 := hv.isOne one
            exact ends_pure (by
              simpa [Compound.toBinary, Elementary.binary, this, Elementary.recip_one] using hslot)
          · simp only [if_neg one]
            exact recorded

end Value

/-! ## Recordings -/

/-- An operation on values or on numbers. -/
inductive Operation (V : Type) where
  | binary (op : Binary) (left right : V)
  | unary (op : Unary) (arg : V)
  | powi (arg : V) (exponent : Int32)
  /-- Replaces the value of a slot. -/
  | compound (op : Compound) (slot arg : V)
  /-- Gives a known number a node of its own. -/
  | toNode (arg : V)

namespace Operation

variable {V W : Type}

def operands : Operation V → List V
  | binary _ v w | compound _ v w => [v, w]
  | unary _ v | powi v _ | toNode v => [v]

def map (f : V → W) : Operation V → Operation W
  | binary op v w => binary op (f v) (f w)
  | unary op v => unary op (f v)
  | powi v n => powi (f v) n
  | compound op v w => compound op (f v) (f w)
  | toNode v => toNode (f v)

/-- Whether the operation records a node even for known numbers. -/
def isToNode : Operation V → Bool
  | toNode _ => true
  | _ => false

/-- The operation on numbers. -/
def apply : Operation F → F
  | binary op x y => Scalar.binary op x y
  | unary op x => Scalar.unary op x
  | powi x n => Scalar.powi x n
  | compound op x y => Scalar.binary op.toBinary x y
  | toNode x => x

/-- The operation on recorded values. -/
def record : Operation (Value F) → ArenaM F (Value F)
  | binary op v w => Value.binary (.binary op) v w
  | unary op v => Value.unary (.unary op) v
  | powi v n => Value.powi v n
  | compound op slot v => Value.compound op slot v
  | toNode v => Value.toNode v

/-- An operation has no other effects than those of arithmetic. -/
theorem admits_record {P : ∀ α : Type, ArenaM F α → Prop} (h : Arena.Admits P)
    (s : Operation (Value F)) : P _ s.record := by
  cases s with
  | binary op v w => exact h.binary op v w
  | unary op v => exact h.unary op v
  | powi v n => exact h.powi v n
  | compound op slot v => exact h.compound op slot v
  | toNode v => exact h.toNode v

theorem advances_record {source : Kind → List Nat → Prop} (s : Operation (Value F)) :
    Arena.Advances source s.record :=
  s.admits_record Arena.admits_advances

/-- An operation on known numbers leaves the arena alone. -/
theorem record_const {s : Operation (Value F)} (fold : s.isToNode = false)
    (const : ∀ v ∈ s.operands, v.isConst = true) (a : Arena F) : (s.record.run.run a).2 = a := by
  cases s with
  | binary op v w | compound op v w =>
      cases v with
      | node n => exact absurd (const (.node n) (by simp [operands])) Bool.false_ne_true
      | const x =>
          cases w with
          | node n => exact absurd (const (.node n) (by simp [operands])) Bool.false_ne_true
          | const y => rfl
  | unary op v | powi v n =>
      cases v with
      | node n => exact absurd (const (.node n) (by simp [operands])) Bool.false_ne_true
      | const x => rfl
  | toNode v => cases fold

variable [Field F] [ExactScalar F]

/-- An operation on values with numbers gives the operation on the
numbers. -/
theorem ends_record {a : Arena F} {s : Operation (Value F)} {x : Value F → F}
    (h : ∀ v ∈ s.operands, a.Means inputs it v (x v)) :
    Ends s.record a fun z a' => a'.Means inputs it z (s.map x).apply := by
  have exact_binary (op : Binary) (y z : F) :
      Elementary.binary op y z = Scalar.binary op y z := (ExactScalar.binary_eq op y z).symm
  cases s with
  | binary op v w =>
      have run := Value.yields_binary op (h v (by simp [operands])) (h w (by simp [operands]))
      rw [exact_binary] at run
      exact run.ends
  | unary op v => exact (Value.yields_unary op (h v (by simp [operands]))).ends
  | powi v n =>
      have run := Value.yields_powi n (h v (by simp [operands]))
      rw [show Elementary.powi (x v) n.toInt = Scalar.powi (x v) n from
        (ExactScalar.powi_eq _ n).symm] at run
      exact run.ends
  | compound op v w =>
      have run := Value.ends_compound op (h v (by simp [operands])) (h w (by simp [operands]))
      rw [exact_binary] at run
      exact run
  | toNode v => exact Value.ends_toNode (h v (by simp [operands]))

end Operation

namespace Arena

/-- One step of a recording: a new input, or an operation on values of the
arena. -/
inductive Grows : Arena F → Arena F → Prop where
  | independent (a : Arena F) (array position : Nat) :
      Grows a ((newIndependent array position).run.run a).2
  | operation (a : Arena F) (s : Operation (Value F))
      (own : ∀ v ∈ s.operands, a.checkValue v = .ok ()) : Grows a (s.record.run.run a).2

/-- Any number of steps. -/
abbrev Leads : Arena F → Arena F → Prop := Relation.ReflTransGen Grows

/-- An arena that some recording leads to. -/
def Recorded (a : Arena F) : Prop := ∃ id, (empty id).Leads a

/-- The input arrays have a number for every input that the arena reads. -/
def Provides (a : Arena F) (inputs : List (List F)) : Prop :=
  ∀ (i : Nat) (n : Node F) (array position : Nat), a.nodes[i]? = some n →
    n.kind = .independent → n.info = [array, position] →
    ∃ xs x, inputs[array]? = some xs ∧ xs[position]? = some x

/-- The nodes that read an input. -/
def readsInput (kind : Kind) (info : List Nat) : Prop :=
  kind = .independent ∧ ∃ array position, info = [array, position]

variable {a a' : Arena F}

theorem Grows.advance (h : a.Grows a') (straight : a.Straight readsInput) :
    a.Preserves a' ∧ a'.Straight readsInput := by
  cases h with
  | independent array position =>
      exact advances_newIndependent ⟨rfl, array, position, rfl⟩ a straight
  | operation s own => exact s.advances_record a straight

theorem Leads.advance (h : a.Leads a') (straight : a.Straight readsInput) :
    a.Preserves a' ∧ a'.Straight readsInput := by
  induction h with
  | refl => exact ⟨.refl a, straight⟩
  | tail _ step ih =>
      obtain ⟨kept, straight⟩ := ih
      obtain ⟨kept', straight⟩ := step.advance straight
      exact ⟨kept.trans kept', straight⟩

theorem Recorded.straight (h : a.Recorded) : a.Straight readsInput :=
  (h.choose_spec.advance (straight_empty _)).2

omit [Scalar F] in
/-- The inputs of an arena are among those of a later one. -/
theorem Preserves.provides {inputs : List (List F)} (h : a.Preserves a')
    (provides : a'.Provides inputs) : a.Provides inputs := by
  intro i n array position hn kind info
  obtain ⟨flag, hn⟩ := h.node hn (by rw [kind]; rfl)
  exact provides i _ array position hn kind info

omit [Scalar F] in
theorem checkValue_of_preserves (h : a.Preserves a') (straight : a.Straight readsInput)
    {v : Value F} (own : a.checkValue v = .ok ()) : a'.checkValue v = .ok () := by
  cases v with
  | const x => rfl
  | node r =>
      obtain ⟨arena, lt⟩ := checkValue_node own
      obtain ⟨n, hn⟩ : ∃ n, a.nodes[r.index]? = some n := ⟨_, Array.getElem?_eq_getElem lt⟩
      have low : n.kind.tier = 0 := by
        rcases straight.node hn with computes | ⟨kind, -⟩
        · exact computes.tier
        · rw [kind]
          rfl
      obtain ⟨flag, hn⟩ := h.node hn low
      have lt' := (Array.getElem?_eq_some_iff.mp hn).1
      simp [checkValue, check, owns, arena, h.id_eq, size, lt']

section

variable [Field F] [ExactScalar F] {inputs : List (List F)}

/-- The values of an arena with numbers outside of loops. -/
theorem evaluate_of_means {x : Value F → F} {vs : List (Value F)}
    (h : ∀ v ∈ vs, a.Means (inputs.map List.toArray) none v (x v)) :
    a.evaluate vs inputs = .ok (vs.map x) := by
  refine evaluate_eq (List.forall₂_map_right_iff.mpr (List.forall₂_same.mpr fun v hv => ?_))
  obtain ⟨y, varies, hy, eq⟩ := h v hv
  cases (show y = x v from eq)
  exact Problem.output?_of_value? hy

/-- Every value of a recorded arena has a number. -/
theorem Recorded.means (h : a.Recorded) (provides : a.Provides inputs) {v : Value F}
    (own : a.checkValue v = .ok ()) :
    ∃ x : F, a.Means (inputs.map List.toArray) none v x := by
  cases v with
  | const x => exact ⟨x, means_const x⟩
  | node r =>
      obtain ⟨arena, lt⟩ := checkValue_node own
      have sources (i : Nat) (n : Node F) (hn : a.nodes[i]? = some n)
          (isSource : readsInput n.kind n.info) : n.valueArgs = [] ∧
            ∃ x, n.result? ⟨a, inputs.map List.toArray⟩ none [] = some x := by
        obtain ⟨kind, array, position, info⟩ := isSource
        obtain ⟨xs, x, hxs, hx⟩ := provides i n array position hn kind info
        refine ⟨by simp only [Node.valueArgs, kind], x, ?_⟩
        simp [Node.result?, kind, info, Problem.input?, hxs, hx]
      obtain ⟨⟨x, varies⟩, hx⟩ := h.straight.known? sources lt
      exact ⟨x, x, varies, by rw [Problem.value?, if_pos arena, hx], rfl⟩

/-- An operation on recorded values evaluates to the operation on their
numbers.  Whatever was recorded before evaluates to what it did before, and
known numbers are folded without a trace in the arena. -/
theorem Recorded.homomorphism (h : a.Recorded) (provides : a.Provides inputs)
    (s : Operation (Value F)) (own : ∀ v ∈ s.operands, a.checkValue v = .ok ()) :
    ∃ (x : Value F → F) (z : Value F) (a' : Arena F), s.record.run.run a = (.ok z, a') ∧
      a'.evaluate [z] inputs = .ok [(s.map x).apply] ∧
      (∀ a₀ : Arena F, a₀.Recorded → a₀.Leads a →
        ∀ vs : List (Value F), (∀ v ∈ vs, a₀.checkValue v = .ok ()) →
          a₀.evaluate vs inputs = .ok (vs.map x) ∧ a'.evaluate vs inputs = .ok (vs.map x)) ∧
      (s.isToNode = false → (∀ v ∈ s.operands, v.isConst = true) → a' = a) := by
  classical
  have number (v : Value F) : ∃ x : F, a.checkValue v = .ok () →
      a.Means (inputs.map List.toArray) none v x := by
    by_cases own : a.checkValue v = .ok ()
    · obtain ⟨x, hx⟩ := h.means provides own
      exact ⟨x, fun _ => hx⟩
    · exact ⟨0, fun own' => absurd own' own⟩
  choose x hx using number
  obtain ⟨z, a', run, result⟩ := Operation.ends_record fun v hv => hx v (own v hv)
  have kept : a.Preserves a' := by
    have := (s.advances_record a h.straight).1
    rwa [run] at this
  refine ⟨x, z, a', run, ?_, fun a₀ recorded leads vs hvs => ?_, fun fold const => ?_⟩
  · have means (v : Value F) (hv : v ∈ [z]) :
        a'.Means (inputs.map List.toArray) none v (s.map x).apply := by
      cases List.mem_singleton.mp hv
      exact result
    exact evaluate_of_means means
  · have earlier := (leads.advance recorded.straight).1
    have means (v : Value F) (hv : v ∈ vs) : a.Means (inputs.map List.toArray) none v (x v) :=
      hx v (checkValue_of_preserves earlier recorded.straight (hvs v hv))
    refine ⟨evaluate_of_means fun v hv => ?_,
      evaluate_of_means fun v hv => (means v hv).preserve kept⟩
    obtain ⟨y, hy⟩ := recorded.means (earlier.provides provides) (hvs v hv)
    -- the number of the value can only be what it is later
    have same : y = x v := by
      obtain ⟨_, _, later, rfl⟩ := hy.preserve earlier
      obtain ⟨_, _, now, eq⟩ := means v hv
      cases later.symm.trans now
      exact eq
    exact same ▸ hy
  · have := s.record_const fold const a
    rwa [run] at this

end

/-- An input to which `2` is added in place. -/
theorem homomorphism_slot : ∃ (z : Value ℚ) (a' : Arena ℚ),
    (Operation.compound .add (.node ⟨1, 0⟩) (.const 2)).record.run.run
      ((newIndependent 0 0).run.run (empty 1)).2 = (.ok z, a') ∧
    a'.evaluate [z] [[3]] = .ok [5] ∧ a'.evaluate [.node ⟨1, 0⟩] [[3]] = .ok [3] := by
  have recorded : ((newIndependent 0 0).run.run (empty 1 : Arena ℚ)).2.Recorded :=
    ⟨1, .single (.independent _ 0 0)⟩
  have provides : ((newIndependent 0 0).run.run (empty 1 : Arena ℚ)).2.Provides [[3]] := by
    intro i n array position hn _ info
    match i, hn with
    | 0, hn =>
        cases hn
        cases info
        exact ⟨_, _, rfl, rfl⟩
  obtain ⟨x, z, a', run, value, earlier, -⟩ := recorded.homomorphism provides
    (.compound .add (.node ⟨1, 0⟩) (.const 2)) (by
      rintro v (_ | ⟨_, _ | ⟨_, ⟨⟩⟩⟩) <;> rfl)
  have slot := earlier _ recorded .refl [.node ⟨1, 0⟩] (by rintro v (_ | ⟨_, ⟨⟩⟩); rfl)
  have two := earlier _ recorded .refl [.const 2] (by rintro v (_ | ⟨_, ⟨⟩⟩); rfl)
  have three : x (.node ⟨1, 0⟩) = 3 := (List.cons.inj (Except.ok.inj slot.1)).1.symm
  have : x (.const 2) = 2 := (List.cons.inj (Except.ok.inj two.1)).1.symm
  refine ⟨z, a', run, ?_, ?_⟩
  · rw [value]
    show Except.ok [x (.node ⟨1, 0⟩) + x (.const 2)] = _
    rw [three, this]
    norm_num
  · rw [slot.2, List.map_singleton, three]

end Arena

end LoopDiff
