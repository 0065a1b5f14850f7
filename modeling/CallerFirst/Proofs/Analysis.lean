import CallerFirst.Analysis
import CallerFirst.Proofs.Loading
import CallerFirst.Proofs.TestOrder
import Mathlib.Data.List.Nodup
import Mathlib.Tactic.Common

/-!
# An analysis divides the functions of a program

* `analyze_eq_ok_iff`, `analyze_eq_error_iff`: when an analysis succeeds, and what it is put
  together from;
* `analyze_divides`: each function of the program is either in the test order, which holds the
  functions of the call graph, callers first, or isolated.
-/

namespace CallerFirst

/-! ### The parts of an analysis -/

theorem exists_ok_of_map_eq_ok {ε α β : Type} {r : Except ε α} {f : α → β} {b : β}
    (h : r.map f = .ok b) : ∃ a, r = .ok a ∧ f a = b := by
  cases r with
  | error err => cases h
  | ok a => exact ⟨a, rfl, Except.ok.inj h⟩

/-- What findings and a test order of a program make up. -/
def Analysis.assemble (settings : Settings) (p : Program) (found : Findings) (order : TestOrder) :
    Analysis where
  totalFunctions := p.functions.length
  callGraph := found.graph
  classMethods := found.methods
  classUse := .ofProgram (.ofProgram p) settings.privateMarker p
  order := order

/-- An analysis succeeds exactly when the calls of the program can be found and ordered. -/
theorem analyze_eq_ok_iff {settings : Settings} {p : Program} {a : Analysis} :
    (analyze settings p).outcome = .ok a ↔
      ∃ found order, Findings.ofProgram? (.ofProgram p) settings.nestedCalls p = some found ∧
        testOrder found.graph p.ids = .ok order ∧ a = .assemble settings p found order := by
  unfold analyze
  dsimp only
  split
  · next hnone => simp [hnone]
  · next found hfound =>
    split
    · next cycle hcycle => simp [hfound, hcycle]
    · next order horder => simp [hfound, horder, Analysis.assemble, eq_comm]

theorem analyze_eq_error_iff {settings : Settings} {p : Program} {err : AnalysisError} :
    (analyze settings p).outcome = .error err ↔
      (Findings.ofProgram? (.ofProgram p) settings.nestedCalls p = none ∧ err = .oversized) ∨
        ∃ found cycle, Findings.ofProgram? (.ofProgram p) settings.nestedCalls p = some found ∧
          testOrder found.graph p.ids = .error cycle ∧ err = .cycle cycle := by
  unfold analyze
  dsimp only
  split
  · next hnone => simp [hnone, eq_comm]
  · next found hfound =>
    split
    · next cycle hcycle => simp [hfound, hcycle, eq_comm]
    · next order horder => simp [hfound, horder]

/-- The call graph of an analysis is that of the findings, and its order is a test order of it. -/
theorem exists_findings_of_analyze {settings : Settings} {p : Program} {a : Analysis}
    (h : (analyze settings p).outcome = .ok a) :
    ∃ found, Findings.ofProgram? (.ofProgram p) settings.nestedCalls p = some found ∧
      a.callGraph = found.graph ∧ testOrder found.graph p.ids = .ok a.order ∧
      a.totalFunctions = p.functions.length := by
  obtain ⟨found, order, hfound, horder, rfl⟩ := analyze_eq_ok_iff.1 h
  exact ⟨found, hfound, rfl, horder, rfl⟩

/-- In a graph whose nodes are the ends of its edges, the functions in order are the nodes. -/
theorem TestOrder.IsOrderOf.mem_ordered_iff_mem_nodes {o : TestOrder} {g : CallGraph}
    {known : List String} (h : o.IsOrderOf g known) (hg : g.Spanned) (id : String) :
    id ∈ o.ordered ↔ id ∈ g.nodes := by
  rw [h.mem_ordered]
  refine or_iff_left_of_imp ?_
  rintro ⟨caller, -, hedge⟩
  exact (hg id).2 ⟨_, hedge, Or.inr rfl⟩

/-- When the functions of a graph are known, a test order and the functions that are isolated are
all the known ones. -/
theorem TestOrder.IsOrderOf.perm_known {o : TestOrder} {g : CallGraph} {known : List String}
    (h : o.IsOrderOf g known) (hg : g.Spanned) (hknown : ∀ id ∈ g.nodes, id ∈ known)
    (hnodup : known.Nodup) :
    o.ordered.Disjoint o.isolated ∧ (o.ordered ++ o.isolated).Perm known := by
  have hordered := h.mem_ordered_iff_mem_nodes hg
  have hisolated : ∀ id, id ∈ o.isolated ↔ id ∈ known ∧ id ∉ g.nodes := by
    intro id
    rw [h.isolated_eq, List.mem_filter, decide_eq_true_iff]
  have hdisjoint : o.ordered.Disjoint o.isolated := by
    intro id hin hout
    exact ((hisolated id).1 hout).2 ((hordered id).1 hin)
  refine ⟨hdisjoint, ?_⟩
  have hnodup' : (o.ordered ++ o.isolated).Nodup := by
    refine List.Nodup.append h.nodup ?_ hdisjoint
    rw [h.isolated_eq]
    exact hnodup.filter _
  refine (List.perm_ext_iff_of_nodup hnodup' hnodup).2 fun id => ?_
  rw [List.mem_append, hordered, hisolated]
  constructor
  · rintro (hnode | ⟨hid, -⟩)
    · exact hknown id hnode
    · exact hid
  · intro hid
    by_cases hnode : id ∈ g.nodes
    · exact Or.inl hnode
    · exact Or.inr ⟨hid, hnode⟩

/-! ### The whole -/

/-- An analysis divides the functions of a program into those in order and those isolated. -/
structure Analysis.Divides (a : Analysis) (p : Program) : Prop where
  /-- Both ends of an edge are functions of the program. -/
  edge_ids : ∀ e ∈ a.callGraph.edges, e.source ∈ p.ids ∧ e.target ∈ p.ids
  /-- The functions in order are those of the graph, each once. -/
  nodup_ordered : a.order.ordered.Nodup
  ordered_perm : a.order.ordered.Perm a.callGraph.nodes.toList
  /-- The functions of the graph are the ends of its edges. -/
  nodes_iff : ∀ id, id ∈ a.callGraph.nodes ↔ ∃ e ∈ a.callGraph.edges, e.source = id ∨ e.target = id
  /-- Each function of the program is either in order or isolated. -/
  disjoint : a.order.ordered.Disjoint a.order.isolated
  perm_ids : (a.order.ordered ++ a.order.isolated).Perm p.ids
  length_add : a.order.ordered.length + a.order.isolated.length = a.totalFunctions
  /-- The isolated functions are in program order. -/
  isolated_sublist : a.order.isolated.Sublist p.ids
  /-- A caller stands before its callees. -/
  caller_first : ∀ e ∈ a.callGraph.edges, e.source ≠ e.target →
    ∃ i j, a.order.position? e.source = some i ∧ a.order.position? e.target = some j ∧ i < j

/-- **An analysis divides the functions of a program.** Each function of a loaded program is either
in the test order, once and after all others that call it, or isolated. -/
theorem analyze_divides (text : String) (settings : Settings) (p : Program) (a : Analysis)
    (hp : Program.parse text = .ok p) (ha : (analyze settings p).outcome = .ok a) :
    a.Divides p := by
  obtain ⟨found, hfound, hgraph, horder, htotal⟩ := exists_findings_of_analyze ha
  rw [← hgraph] at horder
  obtain ⟨hnil, heq⟩ := testOrder_eq_ok_iff.1 horder
  have his : a.order.IsOrderOf a.callGraph p.ids := by
    rw [heq]
    exact CallGraph.isOrderOf_final hnil p.ids
  have hspanned : a.callGraph.Spanned := by
    rw [hgraph]
    exact Findings.spanned_ofProgram? hfound
  have hedges : ∀ e ∈ a.callGraph.edges, e.source ∈ p.ids ∧ e.target ∈ p.ids := by
    intro e he
    rw [hgraph] at he
    exact Findings.mem_ids_of_mem_edges hfound he
  have hnodes : ∀ id ∈ a.callGraph.nodes, id ∈ p.ids := by
    intro id hid
    obtain ⟨e, he, rfl | rfl⟩ := (hspanned id).1 hid
    · exact (hedges e he).1
    · exact (hedges e he).2
  have hids := Program.nodup_ids_of_parse hp
  obtain ⟨hdisjoint, hperm⟩ := his.perm_known hspanned hnodes hids
  constructor
  case edge_ids => exact hedges
  case nodup_ordered => exact his.nodup
  case ordered_perm =>
    refine (List.perm_ext_iff_of_nodup his.nodup a.callGraph.nodes.nodup_toList).2 ?_
    exact his.mem_ordered_iff_mem_nodes hspanned
  case nodes_iff => exact hspanned
  case disjoint => exact hdisjoint
  case perm_ids => exact hperm
  case length_add =>
    rw [htotal, ← List.length_append, hperm.length_eq, Program.ids, List.length_map]
  case isolated_sublist =>
    rw [his.isolated_eq]
    exact List.filter_sublist
  case caller_first =>
    intro e he hne
    exact his.caller_first e.source e.target ⟨hne, he⟩

/-- A dump with three functions: `f` calls `g`, and nothing calls `h`. -/
def sampleDump : String :=
  "[[[\"f\",null,0,[[\"LOAD_NAME\",\"g\"],[\"CALL\",0]]],[\"h\",null,0],[\"g\",null,0]]]"

/-- The program of `sampleDump`. -/
def sampleProgram : Program where
  functions :=
    [⟨⟨.plain "f", 0⟩, [⟨.loadName, .text "g"⟩, ⟨.call, .int 0⟩]⟩, ⟨⟨.plain "h", 0⟩, []⟩,
      ⟨⟨.plain "g", 0⟩, []⟩]
  classes := []

theorem analyze_divides_sampleProgram :
    Program.parse sampleDump = .ok sampleProgram ∧
      ∃ a, (analyze {} sampleProgram).outcome = .ok a ∧
        a.order = ⟨["h"], ["f", "g"]⟩ ∧ a.Divides sampleProgram := by
  have hparse : Program.parse sampleDump = .ok sampleProgram := by decide +kernel
  have horder : (analyze {} sampleProgram).outcome.map (·.order)
      = .ok ⟨["h"], ["f", "g"]⟩ := by decide +kernel
  refine ⟨hparse, ?_⟩
  cases ha : (analyze {} sampleProgram).outcome with
  | error err =>
    rw [ha] at horder
    cases horder
  | ok a =>
    rw [ha] at horder
    have heq : a.order = ⟨["h"], ["f", "g"]⟩ := Except.ok.inj horder
    exact ⟨a, rfl, heq, analyze_divides sampleDump {} sampleProgram a hparse ha⟩

end CallerFirst
