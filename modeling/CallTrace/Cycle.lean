import CallTrace.CallGraph

/-!
Cycles of calls. The methods that can reach each other form the components of a graph; one
shortest cycle through its least member stands for each component that has one.
-/

namespace CallTrace

/-- A closed path: the first signature stands again at the end. -/
abbrev Cycle := List Signature

/-- Everything reached from `frontier` in at most so many steps, beside what was seen before. -/
def closureFrom (next : Signature → List Signature) :
    (steps : Nat) → (seen frontier : List Signature) → List Signature
  | 0, seen, _ => seen
  | steps + 1, seen, frontier =>
      match ((frontier.flatMap next).filter fun s => !seen.contains s).eraseDups with
      | [] => seen
      | fresh => closureFrom next steps (seen ++ fresh) fresh

namespace CallGraph

/-- All signatures that a signature reaches, itself included. -/
def descendants (g : CallGraph) (s : Signature) : List Signature :=
  closureFrom g.successors g.nodes.length [s] [s]

/-- All signatures that reach a signature, itself included. -/
def ancestors (g : CallGraph) (s : Signature) : List Signature :=
  closureFrom g.predecessors g.nodes.length [s] [s]

/-- The signatures that reach `s` and are reached from it, in rising order. -/
def componentOf (g : CallGraph) (s : Signature) : List Signature :=
  let above := g.ancestors s
  sortSignatures ((g.descendants s).filter fun t => above.contains t)

/-- A component has a cycle if it has two members, or one that calls itself. -/
def isCyclic (g : CallGraph) : List Signature → Bool
  | [] => false
  | [s] => g.hasEdge s s
  | _ :: _ :: _ => true

/-- The components with a cycle that hold one of the signatures and none of `covered`, each at its
first member. -/
def componentsFrom (g : CallGraph) : (covered rest : List Signature) → List (List Signature)
  | _, [] => []
  | covered, s :: rest =>
      if covered.contains s then g.componentsFrom covered rest
      else
        let members := g.componentOf s
        if g.isCyclic members then members :: g.componentsFrom (covered ++ members) rest
        else g.componentsFrom covered rest

/-- The components with a cycle, in the order of their least members. -/
def components (g : CallGraph) : List (List Signature) :=
  g.componentsFrom [] g.signatures

/-- Breadth-first search for a way back to `start` inside `members`. The queue holds the paths to
be continued, each with its last signature apart and the others before it, last first. -/
def cycleSearch (g : CallGraph) (members : List Signature) (start : Signature) :
    (steps : Nat) → (seen : List Signature) → (queue : List (Signature × List Signature)) →
      Option Cycle
  | 0, _, _ => none
  | _ + 1, _, [] => none
  | steps + 1, seen, (current, trail) :: queue =>
      let next := (g.successors current).filter fun s => members.contains s
      if next.contains start then some ((start :: current :: trail).reverse)
      else
        let fresh := next.filter fun s => !seen.contains s
        g.cycleSearch members start steps (seen ++ fresh)
          (queue ++ fresh.map fun s => (s, current :: trail))

/-- A shortest cycle through the first of the members. -/
def cycleWithin? (g : CallGraph) : List Signature → Option Cycle
  | [] => none
  | start :: rest =>
      g.cycleSearch (start :: rest) start (start :: rest).length [start] [(start, [])]

/-- One cycle for each component that has one. -/
def cycles (g : CallGraph) : List Cycle :=
  g.components.filterMap g.cycleWithin?

end CallGraph

end CallTrace
