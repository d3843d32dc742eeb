import LoopDiff.Proofs.Graph.Faithful
import LoopDiff.Proofs.Library.Jacobian
import LoopDiff.Proofs.Library.Merges

/-!
# LoopDiff.Proofs.Library.Fresh

Compiled graphs, evaluated without a memory.

In the graphs of an accepted model accumulations are outputs, over numbers that are
known outside of loops.  So none depends on the iteration (`Compiled.steady`), and
what an evaluation gives does not come from what it remembers
(`Model.Accepted.evaluate_fresh`).
-/

namespace LoopDiff

variable {F : Type} [Scalar F]

namespace Problem

variable {p : Problem F}

/-- A node with a number outside of loops does not depend on the iteration. -/
theorem not_varies_of_known {i : Nat} {y : F × Bool} (h : p.known? none i = some y) :
    ¬p.arena.Varies i := by
  induction i using Nat.strong_induction_on generalizing y with
  | _ i ih =>
    obtain ⟨n, ys, hn, before, hys, hx, -⟩ := known?_eq_some_iff.mp h
    refine (Arena.not_varies_iff hn).mpr ⟨Node.not_readsIteration_of_outside hx, fun s mem => ?_⟩
    have arg : .node s ∈ n.valueArgs := by
      cases kind : n.kind with
      | assign | op _ | compound _ =>
          simp only [Node.consulted, kind] at mem
          simpa only [Node.valueArgs, kind] using List.mem_of_mem_take mem
      | synonym | accumulate =>
          simp only [Node.result?, kind] at hx
          cases hx
      | _ => simp [Node.consulted, kind] at mem
    obtain ⟨k, hk⟩ := List.mem_iff_getElem?.mp arg
    obtain ⟨z, -, hz⟩ := exists_right_of_forall₂ hys hk
    rw [value?] at hz
    split at hz
    case isTrue => exact ih s.index (before s arg) hz
    case isFalse => cases hz

/-- An accumulation that has a number outside of loops does not depend on the
iteration. -/
theorem not_varies_of_fixed {i : Nat} {n : Node F} {x : F} (hn : p.arena.nodes[i]? = some n)
    (kind : n.kind = .accumulate) (h : p.fixed? i = some x) : ¬p.arena.Varies i := by
  simp only [fixed?, hn, kind, proper?, Option.bind_eq_bind, Option.bind_some, if_true] at h
  simp only [sum?, Option.bind_eq_bind, Option.bind_eq_some_iff, mapM_eq_some_iff] at h
  obtain ⟨location, -, xs, summands, -⟩ := h
  refine (Arena.not_varies_iff hn).mpr ⟨by simp [Node.readsIteration, kind], fun s mem => ?_⟩
  simp only [Node.consulted, kind] at mem
  obtain ⟨k, hk⟩ := List.mem_iff_getElem?.mp mem
  obtain ⟨z, -, hz⟩ := exists_right_of_forall₂ summands hk
  obtain ⟨m, hm, hz⟩ := summand?_eq_some_iff.mp hz
  by_cases loop : m.kind = .loopEnd
  · refine (Arena.not_varies_iff (Arena.node_eq_ok_iff.mp hm).2).mpr ?_
    simp [Node.readsIteration, Node.consulted, loop]
  · rw [if_neg loop] at hz
    exact not_varies_of_known hz.2

/-- An output with a number is a value of the arena. -/
theorem owns_of_output? {r : NodeRef} {x : F} (h : p.output? (.node r) = some x) :
    p.arena.owns r = true := by
  rw [output?] at h
  split at h
  case isTrue arena =>
      obtain ⟨n, hn, -⟩ := Option.bind_eq_some_iff.mp h
      exact Arena.owns_iff.mpr ⟨arena, (Array.getElem?_eq_some_iff.mp hn).1⟩
  case isFalse => cases h

end Problem

theorem Compiled.steady {c : Compiled F} {p : Assembler} {course : Course F}
    (owns : c.OwnsMerges p course) {inputs : List (List F)} {xs : List F}
    (gives : c.Gives inputs xs) : c.arena.Steady := by
  intro i n hn kind
  obtain ⟨k, -, only, -⟩ := owns.owned (r := c.arena.handle i) (Arena.node_eq rfl hn) kind
  have held := (only k).mpr rfl
  obtain ⟨x, -, hx⟩ := exists_right_of_forall₂ gives held
  replace hx : Problem.fixed? ⟨c.arena, inputs.map List.toArray⟩ i = some x :=
    (if_pos rfl).symm.trans hx
  exact Problem.not_varies_of_fixed hn kind hx

namespace Model

/-- In the graphs of an accepted model, be it for the dependents or for any elements
of the derivatives, what an evaluation gives is what is computed with nothing
remembered. -/
theorem Accepted.evaluate_fresh {m : Model F} (accepted : m.Accepted) {p : Assembler}
    (supports : m.Supports p) : ∃ c : Compiled F,
      m.assemble p.weighted (fun asm => p.outputs asm) = .ok c ∧ c.arena.Steady ∧
        ∀ (inputs : List (List F)) (ys : List F), c.arena.evaluate c.outputs inputs = .ok ys →
          c.arena.evaluateFresh c.outputs inputs = .ok ys := by
  obtain ⟨c, assembled, inputs, xs, gives⟩ := accepted.exists_gives supports
  obtain ⟨course, run⟩ := assemble_eq_ok_iff.mp assembled
  obtain ⟨asm, stages, sketched, finished⟩ := accepted.finished run
  have steady := Compiled.steady (finished.ownsMerges sketched) gives
  refine ⟨c, assembled, steady, fun inputs ys h =>
    (accepted.grounded run).evaluate_fresh steady (fun r mem => ?_) h⟩
  obtain ⟨k, hk⟩ := List.mem_iff_getElem?.mp mem
  obtain ⟨x, -, hx⟩ := exists_right_of_forall₂ gives hk
  exact Problem.owns_of_output? hx

/-- The square of `7`, and the product `2 * 7`, which `3` is not a factor of. -/
theorem evaluate_fresh_products : ∃ c : Compiled ℚ,
    (products ℚ).assemble false (fun asm => asm.jacobian [(2, 2), (0, 1)]) = .ok c ∧
      c.arena.evaluateFresh c.outputs [[2, 3, 7]] = .ok [14, 0] := by
  have selection : IsSelection 3 3 [(2, 2), (0, 1)] := ⟨by decide, by decide, by decide⟩
  obtain ⟨c, assembled, -, fresh⟩ := (accepted_products (F := ℚ)).evaluate_fresh
    (p := .jacobian [(2, 2), (0, 1)])
    ⟨exponents_products ℚ _, fits_products ℚ (by decide), selection⟩
  obtain ⟨c', assembled', evaluates⟩ := (accepted_products (F := ℚ)).evaluate_jacobian
    (fun _ => exponents_products ℚ _) selection (fits_products ℚ (by decide))
  cases assembled.symm.trans assembled'
  obtain ⟨vs, values, run⟩ := evaluates [2, 3, 7] rfl
  have here : (products ℚ).derivatives [2, 3, 7] [(2, 2), (0, 1)] = .ok [14, 0] := by
    decide +kernel
  cases here.symm.trans values
  exact ⟨c, assembled, fresh _ _ run⟩

end Model

end LoopDiff
