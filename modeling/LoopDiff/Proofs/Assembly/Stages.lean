import LoopDiff.Library.Compile
import LoopDiff.Proofs.Graph.Extension

/-!
# LoopDiff.Proofs.Assembly.Stages

Assemblies, stage by stage.

Every assembler goes through the same stages (`Assembly.Stages`): it computes
what the outputs are before any loop, closes one loop of the graph for each loop
of the model and adds it to the outputs at certain locations, and at the end
lets some outputs name others.  Run this way, an assembly also tells what it went
through (`Course`): the outputs before any loop, and which loops it has closed.
Its outputs and its arena are the same (`Model.assemble_eq_ok_iff`).
-/

namespace LoopDiff

variable {F : Type} [Scalar F]

/-- A loop of the graph, with its end if it has results, and the locations that
it adds to. -/
structure Closing where
  loopEnd? : Option NodeRef
  locations : List Nat

/-- The ends of the loops that add to a location. -/
def Closing.ends (closings : List Closing) (k : Nat) : List NodeRef :=
  (closings.filter fun c => k ∈ c.locations).filterMap loopEnd?

/-- What an assembly goes through: the outputs before any loop, and the loops that
are closed and added to them one after the other. -/
structure Course (F : Type) where
  before : Outputs F
  closings : List Closing

/-- The ends of the loops that are added to an output. -/
def Course.ends (course : Course F) (k : Nat) : List NodeRef := Closing.ends course.closings k

/-- The functions of a model that graphs are assembled for. -/
inductive Assembler where
  | forward
  | jacobian (elements : List (Nat × Nat))
  | hessian (elements : List (Nat × Nat))

namespace Assembler

def weighted : Assembler → Bool
  | hessian _ => true
  | _ => false

/-- The number of outputs. -/
def size (m : Model F) : Assembler → Nat
  | forward => m.range
  | jacobian elements | hessian elements => elements.length

/-- The element at a location is above the diagonal and that at the other is its
transpose. -/
def Mirrors (k source : Nat) : Assembler → Prop
  | hessian elements => ∃ e : Nat × Nat,
      e.1 < e.2 ∧ elements[k]? = some e ∧ elements[source]? = some e.swap
  | _ => False

/-- The outputs of the graph. -/
def outputs (asm : Assembly F) : Assembler → Recording F (List (Value F))
  | forward => asm.forward
  | jacobian elements => asm.jacobian elements
  | hessian elements => asm.hessian elements

end Assembler

namespace Assembly

variable (asm : Assembly F)

/-! ## Loops -/

/-- Closes the loop of the dependents that a loop of the model computes. -/
def closeForward (l : Loop F) : Recording F Closing := do
  let s ← LoopScope.begin l.id l.iterations
  let ys : List (Value F) ← l.tape.eval (← asm.loopInputs l s)
  let s ← (l.dependentPatterns.zip ys).foldlM (fun (s : LoopScope) (p, y) => do
    s.write y (← s.pattern p) false) s
  return ⟨← s.close, l.dependents.flatMap Array.toList⟩

/-- Closes a loop with some streams of first derivatives. -/
def closeJacobianBody (l : Loop F) (temporaryJacobian : List (Std.TreeMap Nat (Value F)))
    (streams : Std.TreeMap JacobianStream Claims) (touched : IndexSet) : Recording F Closing := do
  let s ← LoopScope.begin l.id l.iterations
  let inputs ← asm.loopInputs l s
  let entries ← l.tape.jacobianEntries inputs (neededInputs l streams.keys)
  let s ← streams.toList.foldlM (fun (s : LoopScope) (stream, claims) => do
    s.contribute claims (← jacobianStreamValue l temporaryJacobian entries stream)) s
  return ⟨← s.close, touched.toList⟩

/-- Closes the loop of the first derivatives that a loop of the model
contributes. -/
def closeJacobian (locations : PairMap Nat) (l : Loop F) : Recording F Closing := do
  let candidates := candidates l (← l.jacobianSparsity) locations
  let temporaryJacobian ← asm.neededJacobian
    (candidates.any fun c => (l.temporaryOf? c.input).isSome)
  let (streams, touched) ← jacobianStreams l temporaryJacobian candidates
  if streams.isEmpty then return ⟨none, []⟩
  asm.closeJacobianBody l temporaryJacobian streams touched

/-- Closes a loop with some streams of second derivatives. -/
def closeHessianBody (l : Loop F) (temporaryJacobian : List (Std.TreeMap Nat (Value F)))
    (streams : HessianStreams) (requested : List (Nat × Nat)) : Recording F Closing := do
  let s ← LoopScope.begin l.id l.iterations
  let d ← asm.bodyDerivatives l s streams requested
  let s ← streams.pairs.toList.foldlM (fun (s : LoopScope) (stream, claims) => do
    s.contribute claims (← pairStreamValue l temporaryJacobian d.entries stream)) s
  let s ← streams.seconds.toList.foldlM (fun (s : LoopScope) (stream, claims) => do
    s.contribute claims (← secondStreamValue l d.second d.gradient stream)) s
  return ⟨← s.close, streams.touched.toList⟩

/-- Closes the loop of the second derivatives that a loop of the model
contributes. -/
def closeHessian (layout : Layout) (l : Loop F) : Recording F Closing := do
  let temporaryJacobian ← asm.neededJacobian !l.temporaries.isEmpty
  if layout.computed.isEmpty then return ⟨none, []⟩
  let streams ← (← asm.loopStructure l temporaryJacobian).streams layout
  if streams.pairs.isEmpty && streams.seconds.isEmpty then return ⟨none, []⟩
  asm.closeHessianBody l temporaryJacobian streams layout.computed.keys

/-- Adds a loop to the outputs at its locations. -/
def addClosing (outputs : Outputs F) (c : Closing) : Recording F (Outputs F) :=
  addLoopAt outputs c.loopEnd? c.locations

variable (outputs : Outputs F) (l : Loop F)

theorem forwardLoop_eq : asm.forwardLoop outputs l =
    asm.closeForward l >>= addClosing outputs := by
  simp only [forwardLoop, closeForward, addClosing, bind_assoc, pure_bind]

theorem jacobianBody_eq (temporaryJacobian : List (Std.TreeMap Nat (Value F)))
    (streams : Std.TreeMap JacobianStream Claims) (touched : IndexSet) :
    asm.jacobianBody outputs l temporaryJacobian streams touched =
      asm.closeJacobianBody l temporaryJacobian streams touched >>= addClosing outputs := by
  simp only [jacobianBody, closeJacobianBody, addClosing, bind_assoc, pure_bind]

theorem jacobianLoop_eq (locations : PairMap Nat) : asm.jacobianLoop locations outputs l =
    asm.closeJacobian locations l >>= addClosing outputs := by
  simp only [jacobianLoop, closeJacobian, bind_assoc]
  refine bind_congr fun sparsity => bind_congr fun rows => bind_congr fun streams => ?_
  split
  case isTrue => rfl
  case isFalse => exact asm.jacobianBody_eq outputs l rows streams.1 streams.2

theorem hessianBody_eq (temporaryJacobian : List (Std.TreeMap Nat (Value F)))
    (streams : HessianStreams) (requested : List (Nat × Nat)) :
    asm.hessianBody outputs l temporaryJacobian streams requested =
      asm.closeHessianBody l temporaryJacobian streams requested >>= addClosing outputs := by
  simp only [hessianBody, closeHessianBody, addClosing, bind_assoc, pure_bind]

theorem hessianLoop_eq (layout : Layout) : asm.hessianLoop layout outputs l =
    asm.closeHessian layout l >>= addClosing outputs := by
  simp only [hessianLoop, closeHessian, bind_assoc]
  refine bind_congr fun rows => ?_
  split
  case isTrue => rfl
  case isFalse =>
      rw [bind_assoc]
      refine bind_congr fun s => ?_
      rw [bind_assoc]
      refine bind_congr fun streams => ?_
      split
      case isTrue => rfl
      case isFalse => exact asm.hessianBody_eq outputs l rows streams _

/-! ## Stages -/

/-- The stages of an assembly. -/
structure Stages (F : Type) where
  start : Recording F (Outputs F)
  close : Loop F → Recording F Closing
  synonyms : List (Nat × Nat)

/-- Closes a loop and adds it to the outputs. -/
def Stages.loop (stages : Stages F) (s : Outputs F × List Closing) (l : Loop F) :
    Recording F (Outputs F × List Closing) := do
  let c ← stages.close l
  return (← addClosing s.1 c, s.2 ++ [c])

/-- Goes through the stages. -/
def Stages.run (stages : Stages F) (loops : List (Loop F)) :
    Recording F (List (Value F) × Course F) := do
  let before ← stages.start
  let s ← loops.foldlM stages.loop (before, [])
  return ((← nameSynonyms stages.synonyms s.1).toList, ⟨before, s.2⟩)

/-- The stages of an assembler. -/
def stages : Assembler → Except Failure (Stages F)
  | .forward => return ⟨asm.outerOutputs, asm.closeForward, []⟩
  | .jacobian elements => do
    let locations ← elementLocations elements
    return ⟨asm.outerJacobian locations (Outputs.zeros elements.length),
      asm.closeJacobian locations, []⟩
  | .hessian elements => do
    let layout ← Layout.ofElements elements
    return ⟨asm.outerHessian layout (Outputs.zeros elements.length), asm.closeHessian layout,
      layout.synonyms⟩

/-- The outputs of the stages are what is left without the loops. -/
theorem Stages.run_fst (stages : Stages F) {loop : Outputs F → Loop F → Recording F (Outputs F)}
    (eq : ∀ outputs l, loop outputs l = stages.close l >>= addClosing outputs)
    (loops : List (Loop F)) : Prod.fst <$> stages.run loops = (do
      let outputs ← loops.foldlM loop (← stages.start)
      return (← nameSynonyms stages.synonyms outputs).toList) := by
  have fold (s : Outputs F × List Closing) :
      Prod.fst <$> loops.foldlM stages.loop s = loops.foldlM loop s.1 := by
    induction loops generalizing s with
    | nil => rfl
    | cons l loops ih =>
        simp only [List.foldlM_cons, Stages.loop, eq, map_bind, bind_assoc, pure_bind, ih]
  simp only [run, map_bind, map_pure]
  refine bind_congr fun outputs => ?_
  rw [← fold (outputs, []), bind_map_left]

theorem outputs_eq (p : Assembler) : p.outputs asm = (do
    let stages ← asm.stages p
    Prod.fst <$> stages.run asm.model.loops) := by
  cases p with
  | forward =>
      rw [stages, liftM_pure, pure_bind, Stages.run_fst _ asm.forwardLoop_eq]
      rfl
  | jacobian elements =>
      rw [Assembler.outputs, jacobian, stages]
      cases elementLocations elements with
      | error e => rfl
      | ok locations =>
          exact (Stages.run_fst ⟨asm.outerJacobian locations (Outputs.zeros elements.length),
            asm.closeJacobian locations, []⟩
            (fun outputs l => asm.jacobianLoop_eq outputs l locations) asm.model.loops).symm
  | hessian elements =>
      rw [Assembler.outputs, hessian, stages]
      cases Layout.ofElements elements with
      | error e => rfl
      | ok layout =>
          exact (Stages.run_fst ⟨asm.outerHessian layout (Outputs.zeros elements.length),
            asm.closeHessian layout, layout.synonyms⟩
            (fun outputs l => asm.hessianLoop_eq outputs l layout) asm.model.loops).symm

end Assembly

/-! ## Graphs -/

omit [Scalar F] in
theorem Recording.runIn_map {α β : Type} (f : α → β) (r : Recording F α) (a : Arena F) :
    (f <$> r).runIn a = ((r.runIn a).1.map f, (r.runIn a).2) := by
  simp only [runIn, ExceptT.run_map, StateT.run_map]
  rfl

/-- The assembly of a graph, with its course. -/
def Model.stagedAssembly (m : Model F) (p : Assembler) :
    Recording F (List (Value F) × Course F) := do
  let asm ← Assembly.begin m p.weighted
  let stages ← asm.stages p
  stages.run asm.model.loops

/-- A graph is what its stages leave. -/
theorem Model.assemble_eq_ok_iff {m : Model F} {p : Assembler} {c : Compiled F} :
    m.assemble p.weighted (fun asm => p.outputs asm) = .ok c ↔
      ∃ course, (m.stagedAssembly p).runIn (.empty 1) = (.ok (c.outputs, course), c.arena) := by
  have staged : (do p.outputs (← Assembly.begin m p.weighted) : Recording F (List (Value F))) =
      Prod.fst <$> m.stagedAssembly p := by
    simp only [stagedAssembly, Assembly.outputs_eq, map_bind]
  rw [assemble, staged]
  simp only [Recording.runIn_map]
  cases run : (m.stagedAssembly p).runIn (.empty 1) with
  | mk result arena =>
      cases result with
      | error e => simp [Except.map]
      | ok r =>
          simp only [Except.map, Except.ok.injEq, Prod.mk.injEq]
          constructor
          · rintro rfl
            exact ⟨r.2, rfl, rfl⟩
          · rintro ⟨course, rfl, rfl⟩
            rfl

end LoopDiff
