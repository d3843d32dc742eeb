import LoopDiff.Proofs.Graph.Meaning

/-!
# LoopDiff.Proofs.Graph.Visit

Evaluation finds the numbers of value nodes.

A visit of a node with a number, in a sound memory, marks the node with its
number and leaves a sound memory (`ends_visit`).  Arguments come before the
node, so a visit never meets a node whose operands are still being visited,
and one more step of depth than the position of the node is enough.
-/

namespace LoopDiff

open Std

variable {F : Type}

instance : Worlds (Eval F) (Memory F) where
  Ends c m Q := ∃ x m', c.run m = .ok (x, m') ∧ Q x m'
  ends_pure h := ⟨_, _, rfl, h⟩
  ends_bind := by
    rintro α β c f m P Q ⟨x, m', hc, hx⟩ h
    obtain ⟨y, m'', hf, hy⟩ := h x m' hx
    refine ⟨y, m'', ?_, hy⟩
    rw [StateT.run_bind, hc]
    exact hf
  ends_forall := by
    intro ι _ α c m Q h
    obtain ⟨x, m', hc, -⟩ := h (Classical.arbitrary ι)
    refine ⟨x, m', hc, fun i => ?_⟩
    obtain ⟨y, m'', hc', hy⟩ := h i
    cases hc.symm.trans hc'
    exact hy

namespace Eval

variable {α β : Type} {m : Memory F} {Q : β → Memory F → Prop}

theorem ends_get_bind {f : Memory F → Eval F β} (h : Ends (f m) m Q) : Ends (get >>= f) m Q :=
  h

theorem ends_modify_bind {g : Memory F → Memory F} {f : Unit → Eval F β}
    (h : Ends (f ()) (g m) Q) : Ends (modify g >>= f) m Q :=
  h

theorem ends_lift_bind {c : Except Failure α} {x : α} {f : α → Eval F β} (hc : c = .ok x)
    (h : Ends (f x) m Q) : Ends ((liftM c : Eval F α) >>= f) m Q := by
  subst hc
  exact h

theorem ends_lift {c : Except Failure β} {x : β} (hc : c = .ok x) (h : Q x m) :
    Ends (liftM c : Eval F β) m Q := by
  subst hc
  exact ⟨x, m, rfl, h⟩

end Eval

variable [Scalar F]

namespace Problem

variable {p : Problem F}

/-! ## Visits -/

/-- What a visit does with marks: the marks that are there stay, up to marks
that are done. -/
structure Visited (p : Problem F) (it : Option Nat) (marks marks' : Marks F) : Prop where
  sound : p.SoundMarks it marks'
  stays {i : Nat} {k : Mark F} : marks[i]? = some k → marks'[i]? = some k
  opened {i : Nat} : marks'[i]? = some .opened → marks[i]? = some .opened

theorem Visited.trans {it : Option Nat} {marks marks' marks'' : Marks F}
    (h : p.Visited it marks marks') (h' : p.Visited it marks' marks'') :
    p.Visited it marks marks'' :=
  ⟨h'.sound, fun hk => h'.stays (h.stays hk), fun hk => h.opened (h'.opened hk)⟩

/-- The operands of a node with a number. -/
theorem operands_eq {it : Option Nat} {n : Node F} {xs : List F} {x : F}
    (hx : n.result? p it xs = some x) (len : xs.length = n.valueArgs.length) :
    p.operands n = .ok (n.valueArgs.filterMap Value.node?) := by
  cases kind : n.kind with
  | assign =>
      simp only [Node.result?, kind] at hx
      simp only [Node.valueArgs, kind] at len
      split at hx
      case h_1 =>
          simp only [operands, kind, Node.valueArgs]
          rw [List.take_of_length_le (by rw [← len]; exact le_rfl)]
      case h_2 => cases hx
  | op code => simp only [operands, kind, Node.valueArgs]
  | compound op => simp only [operands, kind, Node.valueArgs]
  | independent | iteration | indexedRead => simp [operands, kind, Node.valueArgs]
  | _ => simp [Node.result?, kind] at hx

theorem operand_eq {it : Option Nat} {marks : Marks F} {r : NodeRef} {v : Value F}
    {y : F × Bool} (hv : p.value? it v = some y)
    (done : ∀ a, v = .node a → marks[a.index]? = some (.done y.1 y.2)) :
    operand marks r v = .ok y := by
  cases v with
  | const x =>
      cases hv
      rfl
  | node a => simp only [operand, done a rfl]

omit [Scalar F] in
/-- The operand of a node with one argument. -/
theorem exists_operand {marks : Marks F} {r : NodeRef} {args : List (Value F)}
    {ys : List (F × Bool)} {z : F}
    (hys : List.Forall₂ (fun v y => operand marks r v = .ok y) args ys)
    (numbers : ys.map Prod.fst = [z]) :
    ∃ v b, args = [v] ∧ ys = [(z, b)] ∧ operand marks r v = .ok (z, b) := by
  obtain ⟨⟨_, b⟩, rfl, rfl⟩ := List.map_eq_singleton_iff.mp numbers
  obtain ⟨v, rfl⟩ := List.length_eq_one_iff.mp hys.length_eq
  exact ⟨v, b, rfl, rfl, (List.forall₂_cons.mp hys).1⟩

omit [Scalar F] in
/-- The operands of a node with two arguments. -/
theorem exists_operands {marks : Marks F} {r : NodeRef} {args : List (Value F)}
    {ys : List (F × Bool)} {z z' : F}
    (hys : List.Forall₂ (fun v y => operand marks r v = .ok y) args ys)
    (numbers : ys.map Prod.fst = [z, z']) :
    ∃ v w b b', args = [v, w] ∧ ys = [(z, b), (z', b')] ∧ operand marks r v = .ok (z, b) ∧
      operand marks r w = .ok (z', b') := by
  obtain ⟨⟨_, b⟩, _, rfl, rfl, single⟩ := List.map_eq_cons_iff.mp numbers
  obtain ⟨⟨_, b'⟩, rfl, rfl⟩ := List.map_eq_singleton_iff.mp single
  obtain ⟨v, w, rfl⟩ := List.length_eq_two.mp hys.length_eq
  obtain ⟨hv, hys⟩ := List.forall₂_cons.mp hys
  exact ⟨v, w, b, b', rfl, rfl, hv, (List.forall₂_cons.mp hys).1⟩

omit [Scalar F] in
/-- Inside a loop the current iteration is there. -/
theorem ends_iterationFor_bind {β : Type} {m : Memory F} {r : NodeRef} {i : Nat}
    {f : Nat → Eval F β} {Q : β → Memory F → Prop} (hi : m.iteration = some i)
    (h : Ends (f i) m Q) : Ends (iterationFor r >>= f) m Q := by
  refine Worlds.Ends.bind (P := fun j m' => j = i ∧ m' = m) ?_ ?_
  · refine Eval.ends_get_bind ?_
    rw [hi]
    exact ends_pure ⟨rfl, rfl⟩
  · rintro _ _ ⟨rfl, rfl⟩
    exact h

/-- The number of a node whose operands have been visited. -/
theorem ends_nodeValue {run : NodeRef → Eval F (Accumulator F)} {m : Memory F} {marks : Marks F}
    {r : NodeRef} {n : Node F} {ys : List (F × Bool)} {x : F}
    (hys : List.Forall₂ (fun v y => p.value? m.iteration v = some y) n.valueArgs ys)
    (hx : n.result? p m.iteration (ys.map Prod.fst) = some x)
    (done : ∀ a y, .node a ∈ n.valueArgs → p.known? m.iteration a.index = some y →
      marks[a.index]? = some (.done y.1 y.2)) :
    Ends (p.nodeValue run marks r n) m fun z m' =>
      m' = m ∧ z = (x, n.readsIteration || ys.any Prod.snd) := by
  have operands : List.Forall₂ (fun v y => operand marks r v = .ok y) n.valueArgs ys := by
    have each (v : Value F) (mem : v ∈ n.valueArgs) (y : F × Bool)
        (hv : p.value? m.iteration v = some y) : operand marks r v = .ok y := by
      refine operand_eq hv fun a eq => done a y (eq ▸ mem) ?_
      subst eq
      simp only [value?] at hv
      split at hv
      · exact hv
      · cases hv
    exact ((List.forall₂_and_left _ _).mpr ⟨each, hys⟩).imp fun v y h => h.1 y h.2
  cases kind : n.kind with
  | independent =>
      simp only [Node.result?, kind, Option.bind_eq_bind, Option.bind_eq_some_iff] at hx
      obtain ⟨array, harray, position, hposition, hx⟩ := hx
      simp only [Node.valueArgs, kind, List.forall₂_nil_left_iff] at hys
      subst hys
      simp only [nodeValue, kind, harray, hposition, present, pure_bind]
      refine Eval.ends_lift_bind (x := x) ?_ (ends_pure ⟨rfl, by simp [Node.readsIteration, kind]⟩)
      rw [input, ← input?, hx]
  | assign =>
      simp only [Node.valueArgs, kind] at operands
      simp only [Node.result?, kind] at hx
      split at hx
      case h_2 => cases hx
      case h_1 z numbers =>
          cases hx
          obtain ⟨v, b, args, rfl, hv⟩ := exists_operand operands numbers
          simp only [nodeValue, kind, args, present, List.getElem?_cons_zero, pure_bind]
          exact Eval.ends_lift hv ⟨rfl, by simp [Node.readsIteration, kind]⟩
  | op code =>
      simp only [Node.valueArgs, kind] at operands
      simp only [Node.result?, kind, Node.operate?] at hx
      split at hx
      case h_1 code op z _ numbers =>
          cases hx
          obtain ⟨v, b, args, rfl, hv⟩ := exists_operand operands numbers
          simp only [nodeValue, kind, args, present, List.getElem?_cons_zero, pure_bind]
          refine Eval.ends_lift_bind hv ?_
          exact ends_pure ⟨rfl, by simp [Node.readsIteration, kind]; rfl⟩
      case h_2 code z word _ numbers hinfo =>
          cases hx
          obtain ⟨v, b, args, rfl, hv⟩ := exists_operand operands numbers
          simp only [nodeValue, kind, args, hinfo, present, List.getElem?_cons_zero, pure_bind]
          refine Eval.ends_lift_bind hv ?_
          exact ends_pure ⟨rfl, by simp [Node.readsIteration, kind]; rfl⟩
      case h_3 code op z z' _ numbers =>
          cases hx
          obtain ⟨v, w, b, b', args, rfl, hv, hw⟩ := exists_operands operands numbers
          simp only [nodeValue, kind, args, present, List.getElem?_cons_zero,
            List.getElem?_cons_succ, pure_bind]
          refine Eval.ends_lift_bind hv (Eval.ends_lift_bind hw ?_)
          exact ends_pure ⟨rfl, by simp [Node.readsIteration, kind]; rfl⟩
      case h_4 => cases hx
  | compound op =>
      simp only [Node.valueArgs, kind] at operands
      simp only [Node.result?, kind, Node.operate?] at hx
      split at hx
      case h_3 code op' z z' _ eq numbers =>
          cases eq
          cases hx
          obtain ⟨v, w, b, b', args, rfl, hv, hw⟩ := exists_operands operands numbers
          simp only [nodeValue, kind, args, present, List.getElem?_cons_zero,
            List.getElem?_cons_succ, pure_bind]
          refine Eval.ends_lift_bind hv (Eval.ends_lift_bind hw ?_)
          exact ends_pure ⟨rfl, by simp [Node.readsIteration, kind]; rfl⟩
      all_goals contradiction
  | iteration =>
      simp only [Node.result?, kind] at hx
      obtain ⟨i, hi, rfl⟩ := Option.map_eq_some_iff.mp hx
      simp only [nodeValue, kind]
      refine ends_iterationFor_bind hi ?_
      exact ends_pure ⟨rfl, by simp [Node.readsIteration, kind]⟩
  | indexedRead =>
      simp only [Node.result?, kind, Option.bind_eq_bind, Option.bind_eq_some_iff] at hx
      obtain ⟨i, hi, pattern, hpattern, position, ⟨q, hq, eval⟩, array, harray, hx⟩ := hx
      simp only [nodeValue, kind]
      refine ends_iterationFor_bind hi ?_
      simp only [hpattern, harray, present, pure_bind]
      refine Eval.ends_lift_bind (x := position) ?_ (Eval.ends_lift_bind (x := x) ?_ ?_)
      · rw [patternAt, hq, Option.bind_some, eval]
      · rw [input, ← input?, hx]
      · exact ends_pure ⟨rfl, by simp [Node.readsIteration, kind]⟩
  | _ => simp [Node.result?, kind] at hx

theorem SoundMarks.insert {it : Option Nat} {marks : Marks F} (sound : p.SoundMarks it marks)
    {i : Nat} {y : F × Bool} (h : p.current? it i = some y) :
    p.SoundMarks it (marks.insert i (.done y.1 y.2)) := by
  intro j x varies hj
  rw [TreeMap.getElem?_insert] at hj
  split at hj
  case isTrue eq =>
      cases Std.compare_eq_iff_eq.mp eq
      cases hj
      exact h
  case isFalse => exact sound j x varies hj

theorem SoundMarks.insert_opened {it : Option Nat} {marks : Marks F}
    (sound : p.SoundMarks it marks) (i : Nat) : p.SoundMarks it (marks.insert i .opened) := by
  intro j x varies hj
  rw [TreeMap.getElem?_insert] at hj
  split at hj
  case isTrue => cases hj
  case isFalse => exact sound j x varies hj

/-- A done mark holds the number of the node. -/
theorem SoundMarks.done_eq {it : Option Nat} {marks : Marks F} (sound : p.SoundMarks it marks)
    {i : Nat} {x : F} {varies : Bool} {y : F × Bool} (done : marks[i]? = some (.done x varies))
    (h : p.current? it i = some y) : y = (x, varies) :=
  Option.some.inj (h.symm.trans (sound i x varies done))

/-- A mark that is new to the marks of a visit. -/
theorem Visited.insert {it : Option Nat} {marks marks' : Marks F} {i : Nat} {y : F × Bool}
    (h : p.Visited it (marks.insert i .opened) marks') (new : marks[i]? = none)
    (hy : p.current? it i = some y) :
    p.Visited it marks (marks'.insert i (.done y.1 y.2)) := by
  have other {j : Nat} (ne : i ≠ j) : (marks.insert i .opened)[j]? = marks[j]? := by
    rw [TreeMap.getElem?_insert, if_neg (mt Std.compare_eq_iff_eq.mp ne)]
  refine ⟨h.sound.insert hy, fun {j k} hk => ?_, fun {j} hj => ?_⟩
  · have ne : i ≠ j := by
      rintro rfl
      rw [new] at hk
      cases hk
    rw [TreeMap.getElem?_insert, if_neg (mt Std.compare_eq_iff_eq.mp ne)]
    exact h.stays ((other ne).trans hk)
  · rw [TreeMap.getElem?_insert] at hj
    split at hj
    case isTrue => cases hj
    case isFalse ne =>
        rw [← other (mt Std.compare_eq_iff_eq.mpr ne)]
        exact h.opened hj

/-- What a visit of a node leaves behind: a sound memory, and the node marked
as done. -/
def VisitEnds (p : Problem F) (m : Memory F) (marks : Marks F) (i : Nat) (marks' : Marks F)
    (m' : Memory F) : Prop :=
  p.Sound m' ∧ m'.iteration = m.iteration ∧ p.Visited m.iteration marks marks' ∧
    ∃ y : F × Bool, marks'[i]? = some (.done y.1 y.2)

/-- One step of a visit, given what the visits of the operands leave behind
and that the value of the node can be told from their marks. -/
theorem ends_visit_succ {run : NodeRef → Eval F (Accumulator F)} {depth : Nat} {r : NodeRef}
    {marks : Marks F} {m : Memory F} {n : Node F} {children : List NodeRef} {y : F × Bool}
    (arena : r.arena = p.arena.id) (hn : p.arena.nodes[r.index]? = some n)
    (hy : p.current? m.iteration r.index = some y) (operands : p.operands n = .ok children)
    (sound : p.Sound m) (hmarks : p.SoundMarks m.iteration marks)
    (later : ∀ i, marks[i]? = some .opened → r.index < i)
    (before : ∀ a ∈ children, a.index < r.index)
    (child : ∀ a ∈ children, ∀ marks' m', p.Sound m' → m'.iteration = m.iteration →
      p.SoundMarks m'.iteration marks' → (∀ i, marks'[i]? = some .opened → a.index < i) →
      Ends (p.visit run depth a marks') m' (p.VisitEnds m' marks' a.index))
    (self : ∀ marks' m', p.Sound m' → m'.iteration = m.iteration →
      p.SoundMarks m'.iteration marks' →
      (∀ a ∈ children, ∃ z : F × Bool, marks'[a.index]? = some (.done z.1 z.2)) →
      Ends (p.nodeValue run marks' r n) m' fun z m'' => z = y ∧ p.Sound m'' ∧
        m''.iteration = m.iteration) :
    Ends (p.visit run (depth + 1) r marks) m (p.VisitEnds m marks r.index) := by
  rw [visit]
  refine Eval.ends_get_bind ?_
  split
  case h_1 _ _ x varies marked =>
      exact ends_pure ⟨sound, rfl, ⟨hmarks, id, id⟩, (x, varies), marked⟩
  case h_2 _ _ x varies found unmarked =>
      obtain rfl := Option.some.inj (hy.symm.trans (sound.value? found))
      refine ends_pure ⟨sound, rfl, ⟨hmarks.insert hy, fun {j k} hk => ?_, fun {j} hj => ?_⟩,
        (x, varies), TreeMap.getElem?_insert_self⟩
      · rw [TreeMap.getElem?_insert]
        split
        case isTrue eq =>
            cases Std.compare_eq_iff_eq.mp eq
            cases k with
            | opened => exact absurd (later _ hk) (Nat.lt_irrefl _)
            | done x' varies' => exact absurd hk (unmarked x' varies')
        case isFalse => exact hk
      · rw [TreeMap.getElem?_insert] at hj
        split at hj
        case isTrue => cases hj
        case isFalse => exact hj
  case h_3 opened _ => exact absurd (later _ opened) (Nat.lt_irrefl _)
  case h_4 new _ =>
      refine Eval.ends_lift_bind (Arena.node_eq arena hn) ?_
      refine Eval.ends_lift_bind operands ?_
      -- every operand is done after the fold over the operands
      refine Worlds.Ends.bind (ends_foldlM (fun done marks' m' => p.Sound m' ∧
        m'.iteration = m.iteration ∧
        p.Visited m.iteration (marks.insert r.index .opened) marks' ∧
        ∀ a ∈ done, ∃ z : F × Bool, marks'[a.index]? = some (.done z.1 z.2)) ?_ ?_) ?_
      · exact ⟨sound, rfl, ⟨hmarks.insert_opened _, id, id⟩,
          fun a ha => absurd ha List.not_mem_nil⟩
      · intro done a rest marks' m' split ⟨sound', iteration, visited, alldone⟩
        have mem : a ∈ children := by
          rw [← List.mem_reverse, split]
          exact List.mem_append_right _ (List.mem_cons_self ..)
        have lt := before a mem
        refine (child a mem marks' m' sound' iteration (iteration ▸ visited.sound)
          fun i hi => ?_).mono ?_
        · have hi := visited.opened hi
          rw [TreeMap.getElem?_insert] at hi
          split at hi
          case isTrue eq =>
              cases Std.compare_eq_iff_eq.mp eq
              exact lt
          case isFalse => exact lt.trans (later i hi)
        · rintro marks'' m'' ⟨sound'', iteration', visited', marked⟩
          rw [iteration] at iteration' visited'
          refine ⟨sound'', iteration', visited.trans visited', fun b hb => ?_⟩
          rcases List.mem_append.mp hb with hb | hb
          · obtain ⟨z, hz⟩ := alldone b hb
            exact ⟨z, visited'.stays hz⟩
          · cases List.mem_singleton.mp hb
            exact marked
      · rintro marks' m' ⟨sound', iteration, visited, alldone⟩
        refine Worlds.Ends.bind (self marks' m' sound' iteration (iteration ▸ visited.sound)
          fun a ha => alldone a (List.mem_reverse.mpr ha)) ?_
        rintro _ m'' ⟨rfl, sound'', iteration'⟩
        refine Eval.ends_modify_bind (ends_pure ⟨sound''.keep (iteration' ▸ hy), ?_,
          visited.insert new hy, _, TreeMap.getElem?_insert_self⟩)
        rw [← iteration', Memory.keep]
        split <;> rfl

/-- A visit of a value node succeeds. -/
theorem ends_visit {run : NodeRef → Eval F (Accumulator F)} {depth : Nat} {r : NodeRef}
    {marks : Marks F} {m : Memory F} {y : F × Bool} (arena : r.arena = p.arena.id)
    (hy : p.known? m.iteration r.index = some y) (deep : r.index < depth) (sound : p.Sound m)
    (hmarks : p.SoundMarks m.iteration marks)
    (later : ∀ i, marks[i]? = some .opened → r.index < i) :
    Ends (p.visit run depth r marks) m (p.VisitEnds m marks r.index) := by
  induction depth generalizing r marks m y with
  | zero => exact absurd deep (Nat.not_lt_zero _)
  | succ depth ih =>
    obtain ⟨x, varies⟩ := y
    obtain ⟨n, ys, hn, before, hys, hx, flag⟩ := known?_eq_some_iff.mp hy
    have len : (ys.map Prod.fst).length = n.valueArgs.length := by
      rw [List.length_map, hys.length_eq]
    have operand {a : NodeRef} (ha : .node a ∈ n.valueArgs) :
        a.arena = p.arena.id ∧ ∃ z, p.known? m.iteration a.index = some z := by
      obtain ⟨k, lt, hk⟩ := List.mem_iff_getElem.mp ha
      obtain ⟨z, -, hz⟩ := exists_right_of_forall₂ hys (List.getElem?_eq_getElem lt)
      rw [hk] at hz
      simp only [value?] at hz
      split at hz
      case isTrue arena => exact ⟨arena, z, hz⟩
      case isFalse => cases hz
    refine ends_visit_succ arena hn (current?_of_known? hy) (operands_eq hx len) sound hmarks later
      (fun a ha => before a (Value.mem_nodes.mp ha)) ?_ ?_
    · intro a ha marks' m' sound' iteration hmarks' later'
      have arg := Value.mem_nodes.mp ha
      obtain ⟨arena', z, hz⟩ := operand arg
      have lt := before a arg
      exact ih arena' (iteration ▸ hz) (by omega) sound' hmarks' later'
    · intro marks' m' sound' iteration hmarks' alldone
      rw [← iteration] at hys hx ⊢
      refine (ends_nodeValue hys hx fun a z ha hz => ?_).mono ?_
      · obtain ⟨z', marked⟩ := alldone a (Value.mem_nodes.mpr ha)
        rw [hmarks'.done_eq marked (current?_of_known? hz), marked]
      · rintro _ _ ⟨rfl, rfl⟩
        exact ⟨by rw [flag], sound', rfl⟩

/-- The value of a node that can be visited. -/
theorem ends_value_of_visit {run : NodeRef → Eval F (Accumulator F)} {r : NodeRef} {m : Memory F}
    {y : F × Bool} (hy : p.current? m.iteration r.index = some y) (sound : p.Sound m)
    (visit : Ends (p.visit run p.depth r ∅) m (p.VisitEnds m ∅ r.index)) :
    Ends (p.value run r) m fun x m' => x = y.1 ∧ p.Sound m' ∧ m'.iteration = m.iteration := by
  rw [value]
  refine Eval.ends_get_bind ?_
  split
  case h_1 x varies found =>
      obtain rfl := Option.some.inj (hy.symm.trans (sound.value? found))
      exact ends_pure ⟨rfl, sound, rfl⟩
  case h_2 =>
      refine Worlds.Ends.bind visit ?_
      rintro marks' m' ⟨sound', iteration, visited, z, marked⟩
      obtain rfl := visited.sound.done_eq marked hy
      simp only [marked]
      exact ends_pure ⟨rfl, sound', iteration⟩

/-- The value of a value node. -/
theorem ends_value {run : NodeRef → Eval F (Accumulator F)} {r : NodeRef} {m : Memory F}
    {y : F × Bool} (arena : r.arena = p.arena.id)
    (hy : p.known? m.iteration r.index = some y) (sound : p.Sound m) :
    Ends (p.value run r) m fun x m' => x = y.1 ∧ p.Sound m' ∧ m'.iteration = m.iteration := by
  obtain ⟨n, hn, -⟩ := tier_of_known? hy
  have lt := (Array.getElem?_eq_some_iff.mp hn).1
  exact ends_value_of_visit (current?_of_known? hy) sound
    (ends_visit arena hy (Nat.lt_succ_of_lt lt) sound (fun i x varies h => by cases h)
      fun i h => by cases h)

end Problem

end LoopDiff
