import LoopDiff.Proofs.Graph.Visit

/-!
# LoopDiff.Proofs.Graph.Writes

The writes that a run of a loop executes.

An evaluation only keeps what a loop has accumulated.  The same evaluation can
keep the writes themselves, in the order in which they are executed, iteration
by iteration (`Problem.logged`, `Problem.loopLog`).  It reads, remembers
and refuses the same, and what is accumulated is the writes, applied in this
order (`Problem.execute_eq`, `Problem.runLoop_succ`).  So what is shown of the
writes is shown of the evaluation.
-/

namespace LoopDiff

variable {F : Type}

/-! ## Folds that apply what is listed -/

/-- A fold of computations that each apply a list of changes, and the lists. -/
theorem foldlM_eq_mapM {m : Type → Type} [Monad m] [LawfulMonad m] {α β σ : Type}
    {f : σ → α → m σ} {g : α → m (List β)} {k : σ → β → σ}
    (h : ∀ s x, f s x = (fun ys => ys.foldl k s) <$> g x) (xs : List α) (s : σ) :
    xs.foldlM f s = (fun yss => yss.flatten.foldl k s) <$> xs.mapM g := by
  induction xs generalizing s with
  | nil => simp
  | cons x xs ih =>
      rw [List.foldlM_cons, h, bind_map_left, List.mapM_cons, map_bind]
      refine bind_congr fun ys => ?_
      rw [ih, map_bind, map_eq_pure_bind]
      refine bind_congr fun yss => ?_
      rw [map_pure, List.flatten_cons, List.foldl_append]

namespace Problem

variable (p : Problem F)

theorem iterate_eq (body : Nat → Accumulator F → Eval F (Accumulator F)) (count i : Nat)
    (acc : Accumulator F) :
    iterate body count i acc = (List.range' i count).foldlM (fun acc i => body i acc) acc := by
  induction count generalizing i acc with
  | zero => rfl
  | succ count ih =>
      rw [iterate, List.range'_succ, List.foldlM_cons]
      exact bind_congr fun acc' => ih (i + 1) acc'

variable [Scalar F]

/-! ## Writes of a result -/

/-- Executes a result of a loop body and keeps its writes. -/
def logged (value : NodeRef → Eval F F) : (depth : Nat) → NodeRef → Eval F (List (Write F))
  | 0, r => throw (endless r)
  | depth + 1, r => do
    let n ← p.arena.node r
    match n.kind with
    | .indexedWrite => do
      let i ← iterationFor r
      let x ← match ← present n.args[0]? with
        | .const x => pure x
        | .node a => value a
      let location ← p.patternAt (← present n.info[0]?) i
      return [⟨location, (← present n.info[1]?) = 1, x⟩]
    | .endIf => do
      let chain ← p.chainOf r
      let i ← iterationFor r
      let ws ← (← p.taken i chain).mapM fun result => do
        logged value depth (← p.guarded result)
      return ws.flatten
    | kind => refuse (.invalidGraph (.notLoopResult kind r.index))

/-- What a result does to an accumulator is what its writes do. -/
theorem execute_eq (value : NodeRef → Eval F F) (depth : Nat) (r : NodeRef) (acc : Accumulator F) :
    p.execute value depth r acc =
      (fun ws => ws.foldl Write.apply acc) <$> p.logged value depth r := by
  induction depth generalizing r acc with
  | zero => rfl
  | succ depth ih =>
      rw [execute, logged, map_bind]
      refine bind_congr fun n => ?_
      generalize n.kind = kind
      cases kind with
      | indexedWrite =>
          -- what is stored is the same whether a write adds or replaces
          have one (x : F) (location flag : Nat) : (if flag = 1 then
                pure (acc.insert location (Scalar.binary .add (acc.getD location Scalar.zero) x))
              else pure (acc.insert location x) : Eval F (Accumulator F)) =
              pure (List.foldl Write.apply acc [⟨location, flag = 1, x⟩]) := by
            by_cases one : flag = 1 <;> simp [one, Write.apply]
          simp only [map_bind]
          refine bind_congr fun i => bind_congr fun v => ?_
          cases v <;> simp only [map_bind, map_pure, pure_bind, one]
      | endIf =>
          simp only [map_bind, map_pure]
          refine bind_congr fun chain => bind_congr fun i => bind_congr fun results => ?_
          rw [foldlM_eq_mapM (g := fun result => do
            p.logged value depth (← p.guarded result)) fun acc result => ?_]
          · rw [map_eq_pure_bind]
          · rw [map_bind]
            exact bind_congr fun s => ih s acc
      | _ => rfl

/-! ## Writes of a loop -/

/-- Runs a loop and keeps the writes of each iteration. -/
def loopLog (depth : Nat) (loop : NodeRef) : Eval F (List (List (Write F))) := do
  let n ← p.arena.node loop
  let start ← match ← present n.args[0]? with
    | .node r => pure r
    | .const _ => refuse (.invalidGraph .loopWithoutStart)
  let iterations ← present (← p.arena.node start).info[1]?
  let outside := (← get).iteration
  let ws ← (List.range iterations).mapM fun i => do
    modify fun m => m.moveTo (some i)
    let ws ← (n.args.tail.filterMap Value.node?).mapM fun r =>
      p.logged (p.value (p.runLoop depth)) p.depth r
    return ws.flatten
  modify fun m => m.moveTo outside
  return ws

/-- A loop accumulates its writes, iteration by iteration. -/
theorem runLoop_succ (depth : Nat) (loop : NodeRef) :
    p.runLoop (depth + 1) loop =
      (fun ws => ws.flatten.foldl Write.apply ∅) <$> p.loopLog depth loop := by
  rw [runLoop, loopLog, map_bind]
  refine bind_congr fun n => ?_
  rw [map_bind]
  refine bind_congr fun v => ?_
  cases v with
  | const x => rfl
  | node start =>
      simp only [map_bind, pure_bind]
      refine bind_congr fun k => bind_congr fun iterations => bind_congr fun m => ?_
      rw [iterate_eq, ← List.range_eq_range', foldlM_eq_mapM (g := fun i => do
        modify fun m => m.moveTo (some i)
        let ws ← (n.args.tail.filterMap Value.node?).mapM fun r =>
          p.logged (p.value (p.runLoop depth)) p.depth r
        return ws.flatten) (k := Write.apply) fun acc i => ?_]
      · simp only [bind_map_left, map_pure]
      · rw [map_bind]
        refine bind_congr fun _ => ?_
        rw [foldlM_eq_mapM fun acc r => p.execute_eq (p.value (p.runLoop depth)) p.depth r acc]
        simp only [map_eq_pure_bind, bind_assoc, pure_bind]

end Problem

end LoopDiff
