import LoopDiff.Assembly.Basic

/-!
# LoopDiff.Assembly.Forward

The graph that computes the dependents of a model.

Dependents of the outer part are outputs of its tape.  Every equation of a
loop is one write in the loop body; it replaces what is at its location,
since a dependent is computed once.
-/

namespace LoopDiff

namespace Assembly

variable {F : Type} [Scalar F] (asm : Assembly F)

/-- Adds the dependents that a loop computes. -/
def forwardLoop (outputs : Outputs F) (l : Loop F) : Recording F (Outputs F) := do
  let s ← LoopScope.begin l.id l.iterations
  let ys : List (Value F) ← l.tape.eval (← asm.loopInputs l s)
  let s ← (l.dependentPatterns.zip ys).foldlM (fun (s : LoopScope) (p, y) => do
    s.write y (← s.pattern p) false) s
  addLoopAt outputs (← s.close) (l.dependents.flatMap Array.toList)

/-- The outputs before any loop: the dependents of the outer part, and
zeros. -/
def outerOutputs : Recording F (Outputs F) :=
  let zeros := Outputs.zeros asm.model.range
  match asm.model.outer? with
  | some o => do
    return (o.dependents.zip (← asm.outerValues)).foldl (fun outputs (d, v) =>
      outputs.setIfInBounds d v) zeros
  | none => return zeros

/-- One output for every dependent. -/
def forward : Recording F (List (Value F)) := do
  return (← asm.model.loops.foldlM asm.forwardLoop (← asm.outerOutputs)).toList

end Assembly

end LoopDiff
