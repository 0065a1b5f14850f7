import CallerFirst.Json.Reader
import CallerFirst.Report.Basic

/-!
# Reports as JSON

`Report.toJson` gives a report as a JSON value, with its fields in a fixed order, and `Report.parse`
reads one back from its text.
-/

namespace CallerFirst

open Json (Reader Field Record)

/-! ### Writing -/

/-- A node as a JSON value. -/
def ReportNode.toJson (n : ReportNode) : Json :=
  .object [("id", .string n.id), ("label", .string n.label), ("kind", .string n.kind)]

/-- An edge as a JSON value. -/
def ReportEdge.toJson (e : ReportEdge) : Json :=
  .object [("from", .string e.source), ("to", .string e.target), ("type_", .string e.kind)]

/-- A graph as a JSON value. -/
def ReportGraph.toJson (g : ReportGraph) : Json :=
  .object [("nodes", .array (g.nodes.map ReportNode.toJson)),
    ("edges", .array (g.edges.map ReportEdge.toJson))]

/-- A map from strings as an object. -/
def mapToJson {β : Type} (f : β → Json) (m : SortedMap String β) : Json :=
  .object (m.entries.map fun e => (e.1, f e.2))

/-- A report as a JSON value. -/
def Report.toJson (r : Report) : Json :=
  .object [("total_functions", .integer r.totalFunctions),
    ("isolated", .ofStrings r.isolated),
    ("ordered", .ofStrings r.ordered),
    ("call_graph", r.callGraph.toJson),
    ("class_methods", mapToJson (mapToJson Json.ofStrings) r.classMethods),
    ("class_usage", r.classUsage.toJson)]

/-! ### Reading -/

/-- The fields of a node read so far. -/
structure ReportNode.Draft where
  id : Option String := none
  label : Option String := none
  kind : Option String := none

/-- How a node is written. -/
def ReportNode.record : Record Draft ReportNode where
  fields := [
    ⟨"id", (·.id.isSome), fun d => Reader.string.map fun v => { d with id := some v }⟩,
    ⟨"label", (·.label.isSome), fun d => Reader.string.map fun v => { d with label := some v }⟩,
    ⟨"kind", (·.kind.isSome), fun d => Reader.string.map fun v => { d with kind := some v }⟩]
  start := {}
  finish d := do return ⟨← d.id, ← d.label, ← d.kind⟩

/-- The fields of an edge read so far. -/
structure ReportEdge.Draft where
  source : Option String := none
  target : Option String := none
  kind : Option String := none

/-- How an edge is written. -/
def ReportEdge.record : Record Draft ReportEdge where
  fields := [
    ⟨"from", (·.source.isSome), fun d =>
      Reader.string.map fun v => { d with source := some v }⟩,
    ⟨"to", (·.target.isSome), fun d =>
      Reader.string.map fun v => { d with target := some v }⟩,
    ⟨"type_", (·.kind.isSome), fun d => Reader.string.map fun v => { d with kind := some v }⟩]
  start := {}
  finish d := do return ⟨← d.source, ← d.target, ← d.kind⟩

/-- The fields of a graph read so far. -/
structure ReportGraph.Draft where
  nodes : Option (List ReportNode) := none
  edges : Option (List ReportEdge) := none

/-- How a graph is written. -/
def ReportGraph.record : Record Draft ReportGraph where
  fields := [
    ⟨"nodes", (·.nodes.isSome), fun d =>
      (Reader.list ReportNode.record.read).map fun v => { d with nodes := some v }⟩,
    ⟨"edges", (·.edges.isSome), fun d =>
      (Reader.list ReportEdge.record.read).map fun v => { d with edges := some v }⟩]
  start := {}
  finish d := do return ⟨← d.nodes, ← d.edges⟩

/-- Reads a map from strings; of two members with one key the later counts. -/
def readMap {β : Type} (value : Reader β) : Reader (SortedMap String β) :=
  (Reader.members value).map SortedMap.ofList

/-- The fields of a report read so far. -/
structure Report.Draft where
  totalFunctions : Option Nat := none
  isolated : Option (List String) := none
  ordered : Option (List String) := none
  callGraph : Option ReportGraph := none
  classMethods : Option (SortedMap String (SortedMap String (List String))) := none
  classUsage : Option ReportGraph := none

/-- How a report is written. -/
def Report.record : Record Draft Report where
  fields := [
    ⟨"total_functions", (·.totalFunctions.isSome), fun d =>
      Reader.count.map fun v => { d with totalFunctions := some v }⟩,
    ⟨"isolated", (·.isolated.isSome), fun d =>
      (Reader.list Reader.string).map fun v => { d with isolated := some v }⟩,
    ⟨"ordered", (·.ordered.isSome), fun d =>
      (Reader.list Reader.string).map fun v => { d with ordered := some v }⟩,
    ⟨"call_graph", (·.callGraph.isSome), fun d =>
      ReportGraph.record.read.map fun v => { d with callGraph := some v }⟩,
    ⟨"class_methods", (·.classMethods.isSome), fun d =>
      (readMap (readMap (Reader.list Reader.string))).map
        fun v => { d with classMethods := some v }⟩,
    ⟨"class_usage", (·.classUsage.isSome), fun d =>
      ReportGraph.record.read.map fun v => { d with classUsage := some v }⟩]
  start := {}
  finish d := do
    return ⟨← d.totalFunctions, ← d.isolated, ← d.ordered, ← d.callGraph, ← d.classMethods,
      ← d.classUsage⟩

/-- Reads a report from a whole text. -/
def Report.parse (text : String) : Except Json.Fault Report :=
  Report.record.read.run Json.maxDepth text

end CallerFirst
