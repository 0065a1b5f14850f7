import CallerFirst.CallGraph
import CallerFirst.ClassUse

/-!
# Graphs to be drawn

A `Drawing` is a titled list of nodes and edges. It shows a call graph (`Drawing.ofCallGraph`) or
the use of classes (`Drawing.ofClassUse`), and can be cut down to a part (`Drawing.filter`).
-/

namespace CallerFirst

/-- What a node stands for. -/
inductive NodeKind
  | function
  | method
  | classNode
  deriving DecidableEq, Repr, Inhabited

/-- A node of a drawing. -/
structure Node where
  id : String
  label : String
  kind : NodeKind
  deriving DecidableEq, Repr, Inhabited

/-- Whether an id is that of a method: it has a point. -/
def isMethodId (id : String) : Bool := id.toList.contains '.'

/-- The node of a function. -/
def Node.ofFunction (id : String) : Node := ⟨id, id, if isMethodId id then .method else .function⟩

/-- A graph to be drawn. -/
structure Drawing where
  title : String
  nodes : List Node
  edges : List Edge
  deriving DecidableEq, Repr

namespace Drawing

/-- The drawing of a call graph. -/
def ofCallGraph (title : String) (g : CallGraph) : Drawing :=
  ⟨title, g.nodes.toList.map Node.ofFunction, g.edges.toList⟩

/-- The id of a class: the name under which it was declared, marked so that it differs from the id
of a function of that name. -/
def classId (u : ClassUse) (name : String) : String :=
  "class:" ++ ((u.classes.get? name).map (·.qualname)).getD name

/-- The drawing of the use of classes: the functions, then the classes. -/
def ofClassUse (title : String) (u : ClassUse) : Drawing where
  title
  nodes := u.functions.map Node.ofFunction
    ++ u.classes.entries.map fun e => ⟨classId u e.2.name, e.2.name, .classNode⟩
  edges := u.pairs.map fun p => ⟨p.1, classId u p.2⟩

/-- Keeps some nodes and some edges. -/
def filter (d : Drawing) (keepNode : Node → Bool) (keepEdge : Edge → Bool) : Drawing :=
  { d with nodes := d.nodes.filter keepNode, edges := d.edges.filter keepEdge }

/-- Leaves out the methods and the edges at methods. -/
def withoutMethods (d : Drawing) : Drawing :=
  d.filter (·.kind ≠ .method) fun e => !isMethodId e.source && !isMethodId e.target

/-- Whether there is nothing to draw. -/
def isEmpty (d : Drawing) : Bool := d.nodes.isEmpty && d.edges.isEmpty

end Drawing

end CallerFirst
