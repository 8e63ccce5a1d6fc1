import DexContainer.Container.Basic
import Std.Data.HashMap

/-! The order of class definitions. A class stands behind its superclass and its interfaces as far
as the container defines them. Among the classes whose dependencies have all been emitted the
earliest is emitted next, so an order that satisfies all dependencies stays as it is; the classes
that are left over depend on a cycle and keep their order at the end. Every class counts the classes
that it still waits for, and a queue holds those that wait for none. -/

namespace DexContainer

namespace ClassOrder

/-- A class definition and the class definitions that it must follow. -/
structure Node where
  id : Nat
  dependencies : List Nat

/-- The places, among the given numbers, of the classes that a class must follow, each once. -/
def Node.places (ids : List Nat) (n : Node) : List Nat :=
  (n.dependencies.map ids.idxOf).eraseDups

/-- For every place the places of the classes that wait for the class there. -/
def dependents (awaited : List (List Nat)) : Array (Array Nat) :=
  awaited.zipIdx.foldl
    (fun dependents (places, place) =>
      places.foldl (fun dependents p => dependents.modify p (·.push place)) dependents)
    (Array.replicate awaited.length #[])

/-- How far the ordering has come. -/
structure Progress where
  /-- How many classes the class at each place still waits for. -/
  pending : Array Nat
  /-- The places of the classes that wait for none and have not been emitted, in their order. -/
  ready : List Nat

/-- Puts a place into the queue, where the least stands first. -/
def enqueue (place : Nat) : List Nat → List Nat
  | [] => [place]
  | p :: ps => if place ≤ p then place :: p :: ps else p :: enqueue place ps

/-- The class at a place waits for one class less, and is ready when that was the last one. -/
def Progress.release (s : Progress) (place : Nat) : Progress :=
  let pending := s.pending.modify place (· - 1)
  { pending, ready := if pending[place]? = some 0 then enqueue place s.ready else s.ready }

/-- Emits the first class that is ready, as long as there is one. At most `limit` classes are
emitted, which is no restriction when there are no more. -/
def drain (dependents : Array (Array Nat)) : (limit : Nat) → Progress → List Nat
  | 0, _ => []
  | limit + 1, s =>
    match s.ready with
    | [] => []
    | place :: ready =>
      let released := (dependents[place]?.getD #[]).toList
      place :: drain dependents limit (released.foldl Progress.release { s with ready })

/-- The state in which nothing has been emitted. -/
def Progress.start (awaited : List (List Nat)) : Progress :=
  { pending := (awaited.map List.length).toArray
    ready := (List.range awaited.length).filter fun place => awaited[place]? = some [] }

/-- The classes in dependency order: those that get ready, and then all others. -/
def arrange (nodes : List Node) : List Nat :=
  let ids := nodes.map (·.id)
  let awaited := nodes.map (·.places ids)
  let emitted := drain (dependents awaited) nodes.length (Progress.start awaited)
  let left := (List.range nodes.length).filter fun place => !emitted.contains place
  (emitted ++ left).filterMap (ids[·]?)

end ClassOrder

namespace Container

/-- The types that a class depends on: its superclass and its interfaces. -/
def dependencies (c : Container) (x : ClassDef) : Except Violation (List (Handle .typeId)) := do
  match x.interfaces with
  | none => return x.superclass.toList
  | some h => return x.superclass.toList ++ (← c.get h).types

/-- The first class definition of every type that is defined. -/
def definers (c : Container) (ids : List Nat) : Std.HashMap (Handle .typeId) Nat :=
  ids.foldl (fun definers id =>
    match (c.sectionOf .classDef).get? ⟨id⟩ with
    | some x => definers.insertIfNew x.type id
    | none => definers) {}

/-- A class definition with the definitions that it must follow. -/
def classNode (c : Container) (definers : Std.HashMap (Handle .typeId) Nat) (id : Nat) :
    Except Violation ClassOrder.Node := do
  let types ← c.dependencies (← (c.sectionOf .classDef).get ⟨id⟩)
  return ⟨id, (types.filterMap (definers[·]?)).filter (· ≠ id)⟩

/-- The class definitions in dependency order. -/
def dependencyOrder (c : Container) : Except Violation (List Nat) := do
  let ids := (c.sectionOf .classDef).order.toList
  let nodes ← ids.mapM (c.classNode (c.definers ids))
  return ClassOrder.arrange nodes

end Container

end DexContainer
