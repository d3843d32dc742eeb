import LoopDiff.Proofs.Assembly.Forward
import LoopDiff.Proofs.Assembly.Merging
import LoopDiff.Proofs.Graph.Descent
import LoopDiff.Proofs.Library.Compile

/-!
# LoopDiff.Proofs.Library.Graphs

The graphs of an accepted model.

A graph can be assembled if the sizes and the exponents of the model leave room, and
its outputs have numbers (`Model.Accepted.exists_gives`).  Every graph that was assembled has gone
through the stages of its assembler, and is what they leave
(`Model.Accepted.finished`), a graph without cycles (`Model.Accepted.grounded`).
-/

namespace LoopDiff

variable {F : Type} [Scalar F]

namespace Model

/-- What a graph takes beside an accepted model: elements that are in the matrix,
none of them twice, and room for the arithmetic on indices and exponents. -/
def Supports (m : Model F) : Assembler → Prop
  | .forward => m.Fits 0
  | .jacobian elements => m.Exponents (Exponent.Lowers 1) ∧
      m.Fits elements.length ∧ IsSelection m.range m.domain elements
  | .hessian elements => m.Exponents (Exponent.Lowers 2) ∧
      m.Fits elements.length ∧ 24 * m.range < 0x8000000000000000 ∧
      IsSelection m.domain m.domain elements

variable {m : Model F} {p : Assembler}

/-- The graphs of an accepted model can be assembled, and their outputs have numbers on
some inputs. -/
theorem Accepted.exists_gives (accepted : m.Accepted) (h : m.Supports p) :
    ∃ c : Compiled F, m.assemble p.weighted (fun asm => p.outputs asm) = .ok c ∧
      ∃ inputs xs, c.Gives inputs xs := by
  let zeros (n : Nat) : List F := List.replicate n Scalar.zero
  have length (n : Nat) : (zeros n).length = n := List.length_replicate
  cases p with
  | forward =>
      obtain ⟨c, assembled, -, gives⟩ := accepted.assemble_forward (R := PUnit) h
      obtain ⟨xs, gives, -⟩ := gives (zeros m.domain) (length _)
      exact ⟨c, assembled, _, xs, gives⟩
  | jacobian elements =>
      obtain ⟨exponents, fits, selection⟩ := h
      obtain ⟨c, assembled, -, gives⟩ := accepted.assemble_jacobian (R := PUnit)
        (fun _ => exponents) fits selection.nodup fun e he => selection.row_lt he
      obtain ⟨xs, gives, -⟩ := gives (zeros m.domain) (length _)
      exact ⟨c, assembled, _, xs, gives⟩
  | hessian elements =>
      obtain ⟨exponents, fits, room, selection⟩ := h
      obtain ⟨c, assembled, -, gives⟩ := accepted.assemble_hessian (R := PUnit) exponents fits room
        selection.nodup
      obtain ⟨xs, gives, -⟩ := gives (zeros m.domain) (zeros m.range) (length _) (length _)
      exact ⟨c, assembled, _, xs, gives⟩

theorem Accepted.exists_assemble (accepted : m.Accepted) (h : m.Supports p) :
    ∃ c : Compiled F, m.assemble p.weighted (fun asm => p.outputs asm) = .ok c := by
  obtain ⟨c, assembled, -⟩ := accepted.exists_gives h
  exact ⟨c, assembled⟩

open Sketch in
/-- An assembly that succeeds has gone through the stages of its assembler. -/
theorem Accepted.ends_stagedAssembly (accepted : m.Accepted) (p : Assembler) :
    Ends (m.stagedAssembly p) (⟨.empty 1⟩ : Sketch F) fun r a =>
      ∃ (asm : Assembly F) (stages : Assembly.Stages F), asm.stages p = .ok stages ∧
        stages.Sketched asm m p ∧ Assembly.Finished stages m p r.1.toArray r.2 a := by
  rw [stagedAssembly]
  refine Worlds.Ends.bind (Assembly.yields_beginSketched m p.weighted) ?_
  rintro asm a ⟨le, sketched⟩
  refine Sketch.ends_lift_bind fun stages hstages => ?_
  have h := Assembly.sketched_stages accepted hstages
  rw [sketched.model]
  refine (h.ends_run sketched (fun i n hn top => ?_)
    (le.keeps.tiered (tiered_empty 1))).mono fun r a' finished =>
      ⟨asm, stages, hstages, h, finished⟩
  -- nothing of the highest tier is recorded before the outputs
  exact absurd (le.lt_size hn top) (Nat.not_lt_zero i)

section

variable (accepted : m.Accepted) {c : Compiled F} {course : Course F}
  (run : (m.stagedAssembly p).runIn (.empty 1) = (.ok (c.outputs, course), c.arena))

include accepted run

theorem Accepted.exists_stages : ∃ (asm : Assembly F) (stages : Assembly.Stages F),
    asm.stages p = .ok stages ∧ stages.Sketched asm m p ∧
      Assembly.Finished stages m p c.outputs.toArray course ⟨c.arena⟩ :=
  Sketch.of_runIn (accepted.ends_stagedAssembly p) run

/-- A graph is what the stages of its assembler leave. -/
theorem Accepted.finished : ∃ (asm : Assembly F) (stages : Assembly.Stages F),
    stages.Sketched asm m p ∧ Assembly.Finished stages m p c.outputs.toArray course ⟨c.arena⟩ := by
  obtain ⟨asm, stages, -, finished⟩ := accepted.exists_stages run
  exact ⟨asm, stages, finished⟩

/-- The arguments of a graph are its own nodes, and none depends on itself. -/
theorem Accepted.grounded : c.arena.Grounded :=
  (Sketch.steps_of_runIn (accepted.ends_stagedAssembly p) run).grounded (Arena.grounded_empty 1)

end

end Model

end LoopDiff
