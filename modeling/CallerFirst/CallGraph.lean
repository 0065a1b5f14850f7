import CallerFirst.Collection.SortedMap
import CallerFirst.Collection.SortedSet

/-!
# Call graphs and class methods

`CallGraph` holds which function calls which; `ClassMethods` holds which methods of which classes a
function calls. Both are kept in ascending order.
-/

namespace CallerFirst

/-- An edge from one name to another. -/
structure Edge where
  source : String
  target : String
  deriving DecidableEq, Repr, Inhabited

namespace Edge

/-- Edges are ordered by source and then by target. -/
instance : Ord Edge := ⟨compareLex (compareOn Edge.source) (compareOn Edge.target)⟩

instance : Std.TransOrd Edge :=
  inferInstanceAs (Std.TransCmp (compareLex (compareOn Edge.source) (compareOn Edge.target)))

instance : Std.LawfulEqOrd Edge where
  eq_of_compare {a b} h := by
    have h : (compare a.source b.source).then (compare a.target b.target) = .eq := h
    rw [Ordering.then_eq_eq, Std.LawfulEqOrd.compare_eq_iff_eq,
      Std.LawfulEqOrd.compare_eq_iff_eq] at h
    cases a
    cases b
    simp_all

/-- Whether an edge leads back to its source. -/
def isLoop (e : Edge) : Bool := e.source == e.target

end Edge

/-- Which function calls which. -/
structure CallGraph where
  nodes : SortedSet String
  edges : SortedSet Edge
  deriving DecidableEq, Inhabited

namespace CallGraph

/-- The graph without functions. -/
def empty : CallGraph := ⟨.empty, .empty⟩

/-- Adds a function. -/
def addNode (g : CallGraph) (id : String) : CallGraph := { g with nodes := g.nodes.insert id }

/-- Adds an edge and both of its ends. -/
def addEdge (g : CallGraph) (caller callee : String) : CallGraph where
  nodes := (g.nodes.insert caller).insert callee
  edges := g.edges.insert ⟨caller, callee⟩

/-- Whether a graph has no functions. -/
def isEmpty (g : CallGraph) : Bool := g.nodes.isEmpty

end CallGraph

/-- Which methods of which classes a function calls: function, class, methods. -/
structure ClassMethods where
  entries : SortedMap String (SortedMap String (SortedSet String))
  deriving DecidableEq, Inhabited

namespace ClassMethods

/-- No calls of methods. -/
def empty : ClassMethods := ⟨.empty⟩

/-- Adds a method that a function calls on a class. -/
def record (m : ClassMethods) (function owner method : String) : ClassMethods where
  entries := m.entries.update function fun classes =>
    (classes.getD .empty).update owner fun methods => (methods.getD .empty).insert method

/-- The methods that a function calls on a class. -/
def methods? (m : ClassMethods) (function owner : String) : Option (SortedSet String) :=
  (m.entries.get? function).bind (·.get? owner)

/-- The classes on which a function calls methods. -/
def classesOf (m : ClassMethods) (function : String) : List String :=
  ((m.entries.get? function).map (·.keys)).getD []

/-- Whether no method is called. -/
def isEmpty (m : ClassMethods) : Bool := m.entries.isEmpty

end ClassMethods

end CallerFirst
