import CallerFirst.CallGraph
import CallerFirst.Log

/-!
# Test orders

A test order lists the functions of a call graph so that every caller stands before its callees;
the known functions outside of the graph are isolated. A function that calls itself is no obstacle.

The order is built from a stack of functions whose callers are all placed: the top of the stack is
placed next, and each of its callees goes onto the stack once its last caller is placed. Edges that
are never used up lie on or behind a cycle.

Main definitions: `Sweep.step`, `Sweep.run`, `testOrder`.
-/

namespace CallerFirst

/-- The order in which functions are to be tested. -/
structure TestOrder where
  /-- The known functions outside of the graph. -/
  isolated : List String
  /-- The functions of the graph, every caller before its callees. -/
  ordered : List String
  deriving DecidableEq, Repr

namespace TestOrder

/-- Where a function stands in the order. -/
def position? (o : TestOrder) (id : String) : Option Nat := o.ordered.idxOf? id

/-- The log record of an order. -/
def logRecord (o : TestOrder) : LogRecord :=
  ⟨.debug, "topological order: " ++ toString o.ordered.length ++ " ordered, "
    ++ toString o.isolated.length ++ " isolated"⟩

end TestOrder

/-- A call graph without a test order: the edges that could not be used up. -/
structure CycleError where
  edges : List Edge
  deriving DecidableEq, Repr

namespace CycleError

/-- The text of an error, with the first edge as an example. -/
def message (e : CycleError) : String :=
  let example? := e.edges.head?.map fun edge => edge.source ++ " -> " ++ edge.target
  "call graph contains a cycle (" ++ toString e.edges.length ++ " unconsumed edges, e.g. "
    ++ example?.getD "" ++ ")"

end CycleError

/-- The state of the construction. -/
structure Sweep where
  /-- The functions placed, the latest first. -/
  ordered : List String
  /-- The functions that may be placed, the next one first. -/
  frontier : List String
  /-- How many edges into each function are not used up. -/
  incoming : SortedMap String Nat
  /-- The edges used up. -/
  consumed : SortedSet Edge

namespace Sweep

/-- Counts the edges into each node and into each target. -/
def countIncoming (nodes : List String) (edges : List Edge) : SortedMap String Nat :=
  edges.foldl (fun m e => m.update e.target fun n => n.getD 0 + 1)
    (.ofList (nodes.map fun n => (n, 0)))

/-- Nothing is placed; the functions without callers may be, the greatest of them first. -/
def start (nodes : List String) (edges : List Edge) : Sweep :=
  let incoming := countIncoming nodes edges
  { ordered := []
    frontier := ((incoming.entries.filter (·.2 = 0)).map (·.1)).reverse
    incoming
    consumed := .empty }

/-- Uses up an edge; its target may be placed once no edge into it is left. -/
def consume (s : Sweep) (e : Edge) : Sweep :=
  let s := { s with consumed := s.consumed.insert e }
  match s.incoming.get? e.target with
  | some count =>
    let s := { s with incoming := s.incoming.insert e.target (count - 1) }
    if count - 1 = 0 then { s with frontier := e.target :: s.frontier } else s
  | none => s

/-- Places the next function and uses up the edges from it, in ascending order. -/
def step (edges : List Edge) (s : Sweep) : Sweep :=
  match s.frontier with
  | [] => s
  | node :: rest =>
    (edges.filter (·.source = node)).foldl consume
      { s with ordered := node :: s.ordered, frontier := rest }

/-- Places functions until none may be placed, at most `fuel` of them. -/
def run (edges : List Edge) : (fuel : Nat) → Sweep → Sweep
  | 0, s => s
  | fuel + 1, s => if s.frontier.isEmpty then s else run edges fuel (s.step edges)

end Sweep

/-- The edges that constrain the order. -/
def CallGraph.properEdges (g : CallGraph) : List Edge := g.edges.toList.filter fun e => !e.isLoop

/-- The test order of a graph, or the edges that stand in its way. Each function is placed at most
once, so their number bounds the construction. -/
def testOrder (g : CallGraph) (known : List String) : Except CycleError TestOrder :=
  let edges := g.properEdges
  let start := Sweep.start g.nodes.toList edges
  let done := Sweep.run edges start.incoming.size start
  let remaining := edges.filter fun e => e ∉ done.consumed
  if remaining.isEmpty then
    .ok ⟨known.filter fun id => id ∉ g.nodes, done.ordered.reverse⟩
  else .error ⟨remaining⟩

end CallerFirst
