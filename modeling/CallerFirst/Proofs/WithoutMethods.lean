import CallerFirst.Proofs.ClassDrawing
import CallerFirst.Proofs.TestOrder
import Mathlib.Tactic.Common

/-!
# Drawings without methods

A drawing without methods leaves out nodes by their kind, but edges by the text of their ends. The
two agree as long as a point in an end makes it the id of a method.

* `Drawing.nonMethods`: what the nodes other than methods induce, said by the nodes alone;
* `Drawing.withoutMethods_ofCallGraph`: the drawing of a call graph without methods is that;
* `Drawing.edges_withoutMethods_ofClassUse`: in the drawing of class use, edges to classes whose
  qualified name has a point are lost beyond that;
* `Drawing.withoutMethods_eq_nonMethods_iff`: when nothing is lost.
-/

namespace CallerFirst

theorem isMethodId_append (s t : String) :
    isMethodId (s ++ t) = (isMethodId s || isMethodId t) := by
  simp [isMethodId, Bool.decide_or]

theorem Node.kind_ofFunction_eq_method_iff {id : String} :
    (Node.ofFunction id).kind = .method ↔ isMethodId id = true := by
  unfold Node.ofFunction
  split <;> simp_all

namespace Drawing

/-- A node of the drawing is a method of that id. -/
def HasMethod (d : Drawing) (id : String) : Prop := ∃ n ∈ d.nodes, n.id = id ∧ n.kind = .method

instance (d : Drawing) (id : String) : Decidable (d.HasMethod id) :=
  inferInstanceAs (Decidable (∃ n ∈ d.nodes, n.id = id ∧ n.kind = .method))

/-- The part of a drawing that its nodes other than methods induce: these nodes, and the edges of
which no end is the id of a method. -/
def nonMethods (d : Drawing) : Drawing :=
  d.filter (·.kind ≠ .method) fun e => ¬ d.HasMethod e.source ∧ ¬ d.HasMethod e.target

variable {title : String}

theorem nodes_withoutMethods (d : Drawing) : d.withoutMethods.nodes = d.nonMethods.nodes := rfl

theorem mem_edges_nonMethods {d : Drawing} {e : Edge} :
    e ∈ d.nonMethods.edges ↔ e ∈ d.edges ∧ ¬ d.HasMethod e.source ∧ ¬ d.HasMethod e.target := by
  simp [nonMethods, filter]

/-- A node of a function is a method when its id has a point. -/
theorem exists_ofFunction_method_iff {ids : List String} {id : String} :
    (∃ n ∈ ids.map Node.ofFunction, n.id = id ∧ n.kind = .method) ↔
      id ∈ ids ∧ isMethodId id = true := by
  constructor
  · rintro ⟨n, hn, rfl, hkind⟩
    obtain ⟨function, hfunction, rfl⟩ := List.mem_map.1 hn
    exact ⟨hfunction, Node.kind_ofFunction_eq_method_iff.1 hkind⟩
  · rintro ⟨hid, hmethod⟩
    exact ⟨.ofFunction id, List.mem_map_of_mem hid, rfl,
      Node.kind_ofFunction_eq_method_iff.2 hmethod⟩

/-! ### Call graphs -/

theorem hasMethod_ofCallGraph {g : CallGraph} {id : String} :
    (ofCallGraph title g).HasMethod id ↔ id ∈ g.nodes ∧ isMethodId id = true :=
  exists_ofFunction_method_iff

/-- In a graph that holds the ends of its edges, the text of an end says whether it is a method. -/
theorem withoutMethods_ofCallGraph {g : CallGraph} (h : g.Closed) :
    (ofCallGraph title g).withoutMethods = (ofCallGraph title g).nonMethods := by
  have hedges : (ofCallGraph title g).withoutMethods.edges
      = (ofCallGraph title g).nonMethods.edges := by
    refine List.filter_congr fun e he => ?_
    obtain ⟨hsource, htarget⟩ := h e he
    simp [hasMethod_ofCallGraph, hsource, htarget]
  exact congrArg (Drawing.mk title _) hedges

/-! ### Class use -/

variable {u : ClassUse}

theorem hasMethod_ofClassUse {id : String} :
    (ofClassUse title u).HasMethod id ↔ id ∈ u.functions ∧ isMethodId id = true := by
  rw [← exists_ofFunction_method_iff]
  constructor
  · rintro ⟨n, hn, hid, hkind⟩
    rcases List.mem_append.1 hn with hn | hn
    · exact ⟨n, hn, hid, hkind⟩
    · -- The node of a class is no method, whatever its id is.
      obtain ⟨entry, -, rfl⟩ := List.mem_map.1 hn
      cases hkind
  · rintro ⟨n, hn, hid, hkind⟩
    exact ⟨n, List.mem_append_left _ hn, hid, hkind⟩

theorem source_mem_functions {e : Edge} (h : e ∈ (ofClassUse title u).edges) :
    e.source ∈ u.functions := by
  obtain ⟨⟨function, name⟩, hpair, rfl⟩ := List.mem_map.1 h
  obtain ⟨names, hget, -⟩ := ClassUse.mem_pairs_iff.1 hpair
  exact SortedMap.mem_keys_iff.2 (by rw [hget]; rfl)

/-- Without methods, of the edges that the other nodes induce those are lost that lead to a class
with a point in its id. -/
theorem edges_withoutMethods_ofClassUse :
    (ofClassUse title u).withoutMethods.edges
      = (ofClassUse title u).nonMethods.edges.filter fun e => !isMethodId e.target := by
  refine Eq.trans (List.filter_congr fun e he => ?_) List.filter_filter.symm
  have hsource := source_mem_functions he
  cases htarget : isMethodId e.target with
  | true => simp
  | false => simp [hasMethod_ofClassUse, hsource, htarget]

/-- The edges of a drawing lead from the functions to the ids of the classes that they use. -/
theorem mem_edges_ofClassUse {index : SymbolIndex} (h : u.Declares index) {e : Edge} :
    e ∈ (ofClassUse title u).edges ↔ ∃ function name, u.Uses function name ∧
      e = ⟨function, "class:" ++ (index.declaration name).qualname⟩ := by
  have hid {function name : String} (huses : u.Uses function name) :
      classId u name = "class:" ++ (index.declaration name).qualname :=
    classId_of_get? ((h name _).2 ⟨⟨function, huses⟩, rfl⟩)
  constructor
  · intro he
    obtain ⟨⟨function, name⟩, hpair, rfl⟩ := List.mem_map.1 he
    have huses := ClassUse.mem_pairs_iff.1 hpair
    exact ⟨function, name, huses, by rw [hid huses]⟩
  · rintro ⟨function, name, huses, rfl⟩
    refine List.mem_map.2 ⟨(function, name), ClassUse.mem_pairs_iff.2 huses, ?_⟩
    rw [hid huses]

/-- Nothing is lost exactly when each class that a plain function uses has a qualified name without
a point, or shares its id with a method. -/
theorem withoutMethods_eq_nonMethods_iff {index : SymbolIndex} (hfilled : u.Filled)
    (h : u.Declares index) :
    (ofClassUse title u).withoutMethods = (ofClassUse title u).nonMethods ↔
      ∀ function name, u.Uses function name → isMethodId function = false →
        isMethodId (index.declaration name).qualname = true →
          ∃ other, u.Uses ("class:" ++ (index.declaration name).qualname) other := by
  have hedges : (ofClassUse title u).withoutMethods = (ofClassUse title u).nonMethods ↔
      (ofClassUse title u).withoutMethods.edges = (ofClassUse title u).nonMethods.edges :=
    ⟨congrArg Drawing.edges, fun heq => congrArg (Drawing.mk title _) heq⟩
  -- The mark of a class has no point, so that a point in the id is one in the qualified name.
  have hmark (qualname : String) : isMethodId ("class:" ++ qualname) = isMethodId qualname := by
    rw [isMethodId_append]
    rfl
  rw [hedges, edges_withoutMethods_ofClassUse, List.filter_eq_self]
  simp only [mem_edges_nonMethods, mem_edges_ofClassUse h, hasMethod_ofClassUse,
    hfilled.mem_functions_iff]
  constructor
  · intro hall function name huses hfunction hpoint
    by_contra hnone
    have hkept := hall ⟨function, "class:" ++ (index.declaration name).qualname⟩
      ⟨⟨function, name, huses, rfl⟩, by simp [hfunction], fun hmethod => hnone hmethod.1⟩
    simp [hmark, hpoint] at hkept
  · rintro hshared e ⟨⟨function, name, huses, rfl⟩, hsource, htarget⟩
    rw [hmark] at htarget ⊢
    cases hpoint : isMethodId (index.declaration name).qualname with
    | false => rfl
    | true =>
      have hfunction : isMethodId function = false :=
        Bool.eq_false_iff.2 fun hmethod => hsource ⟨⟨name, huses⟩, hmethod⟩
      exact absurd ⟨hshared function name huses hfunction hpoint, hpoint⟩ htarget

/-- **Drawings without methods** are what the other nodes induce, but for the edges of class use
that lead to a class with a point in its id. -/
theorem withoutMethods_induced (title : String) :
    (∀ g : CallGraph, g.Built →
      (ofCallGraph title g).withoutMethods = (ofCallGraph title g).nonMethods) ∧
    ∀ (p : Program) (history : List (String × SortedSet String)),
      let d := ofClassUse title (.ofHistory (.ofProgram p) history)
      d.withoutMethods.nodes = d.nonMethods.nodes ∧
      d.withoutMethods.edges = d.nonMethods.edges.filter (fun e => !isMethodId e.target) ∧
      (d.withoutMethods = d.nonMethods ↔
        ∀ function name, ClassUse.Adds history function name → isMethodId function = false →
          isMethodId ((SymbolIndex.ofProgram p).declaration name).qualname = true →
            ∃ other, ClassUse.Adds history
              ("class:" ++ ((SymbolIndex.ofProgram p).declaration name).qualname) other) := by
  constructor
  · intro g hg
    exact withoutMethods_ofCallGraph hg.closed
  · intro p history
    refine ⟨nodes_withoutMethods _, edges_withoutMethods_ofClassUse, ?_⟩
    rw [withoutMethods_eq_nonMethods_iff (ClassUse.filled_ofHistory history)
      (ClassUse.declares_ofHistory history)]
    simp only [ClassUse.uses_ofHistory]

/-- A call graph in which a function and a method call a function. -/
def methodGraph : CallGraph := (CallGraph.empty.addEdge "main" "helper").addEdge "Foo.run" "helper"

/-- A program with one class, which has a point in its qualified name. -/
def dottedClass : Program := ⟨[], [⟨"Widget", "shop.Widget"⟩]⟩

/-- The function `main` uses a class with a point in its qualified name and an unknown class, and
the method `Foo.run` uses the former as well. -/
def dottedHistory : List (String × SortedSet String) :=
  [("main", .ofList ["Widget", "Part"]), ("Foo.run", .ofList ["Widget"])]

theorem withoutMethods_induced_dottedHistory :
    methodGraph.Built ∧
    (ofCallGraph "dependency" methodGraph).withoutMethods
      = (ofCallGraph "dependency" methodGraph).nonMethods ∧
    let d := ofClassUse "dependency" (.ofHistory (.ofProgram dottedClass) dottedHistory)
    d.withoutMethods.nodes = d.nonMethods.nodes ∧
    d.withoutMethods.edges = d.nonMethods.edges.filter (fun e => !isMethodId e.target) ∧
    d.withoutMethods.edges = [⟨"main", "class:Part"⟩] := by
  have hbuilt : methodGraph.Built := .addEdge _ _ (.addEdge _ _ .empty)
  obtain ⟨hgraph, huse⟩ := withoutMethods_induced "dependency"
  obtain ⟨hnodes, hedges, -⟩ := huse dottedClass dottedHistory
  exact ⟨hbuilt, hgraph methodGraph hbuilt, hnodes, hedges, by decide +kernel⟩

/-- An edge to a class with a point in its qualified name is left out with the methods, though
neither of its ends is the id of a method. -/
theorem exists_edge_lost_with_methods :
    let d := ofClassUse "class dependency"
      (.ofHistory (.ofProgram dottedClass) [("main", .ofList ["Widget"])])
    d.edges = [⟨"main", "class:shop.Widget"⟩] ∧ ¬ d.HasMethod "main" ∧
      ¬ d.HasMethod "class:shop.Widget" ∧ d.withoutMethods.nodes = d.nodes ∧
      d.withoutMethods.edges = [] ∧ d.withoutMethods ≠ d.nonMethods := by
  decide +kernel

end Drawing

end CallerFirst
