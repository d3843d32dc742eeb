import LoopDiff.Graph.Recording

/-!
# LoopDiff.Graph.Session

Several arenas, one of which may be active.

A session owns arenas and numbers them in order of creation.  Activations
nest: the innermost one is in force, and when it ends, the one around it
is in force again.  The same arena may be activated more than once.

An arena can be changed whether it is active or not (`change`).  Recording
always goes to the arena of the innermost activation (`record`), so a
value of another arena is out of place there.

Identities are handed out once per session, also for recordings that keep
their arena to themselves (`newId`).
-/

namespace LoopDiff

/-- Arenas, and the positions of the active ones, the innermost first. -/
structure Session (F : Type) where
  arenas : Array (Arena F)
  active : List Nat
  nextId : Nat

/-- Computations in a session; a failing one keeps what it did. -/
abbrev SessionM (F : Type) := ExceptT Failure (StateM (Session F))

namespace Session

variable {F α : Type}

/-- A session without arenas. -/
def empty : Session F := ⟨#[], [], 1⟩

/-- The position of the arena that recording goes to. -/
def current? (s : Session F) : Option Nat := s.active.head?

/-- Hands out an identity. -/
def newId : SessionM F Nat :=
  modifyGet fun s => (s.nextId, { s with nextId := s.nextId + 1 })

/-- Creates an arena and gives its identity. -/
def create : SessionM F Nat := do
  let id ← newId
  modify fun s => { s with arenas := s.arenas.push (Arena.empty id) }
  return id

/-- The arena at a position. -/
def arena (position : Nat) : SessionM F (Arena F) := do present (← get).arenas[position]?

/-- Replaces the arena at a position. -/
def put (s : Session F) (position : Nat) (a : Arena F) : Session F :=
  { s with arenas := s.arenas.setIfInBounds position a }

/-- Changes the arena at a position. -/
def change (position : Nat) (op : ArenaM F α) : SessionM F α := do
  let (result, a) := op.run.run (← arena position)
  modify fun s => s.put position a
  result

/-- Records into the active arena. -/
def record (r : Recording F α) : SessionM F α := do
  let s ← get
  match s.current?, s.current?.bind fun i => s.arenas[i]? with
  | some i, some a =>
    let (result, a) := r.runIn a
    modify fun s => s.put i a
    result
  | _, _ => (r.run.run none).1

/-- Begins an activation. -/
def activate (position : Nat) : SessionM F Unit := do
  let _ ← arena position
  modify fun s => { s with active := position :: s.active }

/-- Ends the innermost activation. -/
def release : SessionM F Unit := modify fun s => { s with active := s.active.tail }

end Session

end LoopDiff
