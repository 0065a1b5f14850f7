import CallerFirst.Report.Json
import CallerFirst.Proofs.Collection
import CallerFirst.Proofs.Json.Containers
import Mathlib.Algebra.Ring.Nat

/-!
# Reports as JSON text

A report is read back from its text, in whatever style it was written: the readers of its parts
restore them (`ReportGraph.restores`, `restores_map`), and so `Report.parse_write`.
-/

namespace CallerFirst

open Json

variable {style : Style}

/-! ### The parts of a report -/

theorem ReportNode.restores (hstyle : style.Spaced) (depth : Nat) (n : ReportNode) :
    Restores style (ReportNode.record.read (depth + 1)) n.toJson n := by
  refine Record.restores hstyle ⟨some n.id, some n.label, some n.kind⟩ ?_ rfl
  refine .field (restores_string depth n.id) rfl rfl ?_
  refine .field (restores_string depth n.label) rfl rfl ?_
  exact .field (restores_string depth n.kind) rfl rfl (.nil _)

theorem ReportEdge.restores (hstyle : style.Spaced) (depth : Nat) (e : ReportEdge) :
    Restores style (ReportEdge.record.read (depth + 1)) e.toJson e := by
  refine Record.restores hstyle ⟨some e.source, some e.target, some e.kind⟩ ?_ rfl
  refine .field (restores_string depth e.source) rfl rfl ?_
  refine .field (restores_string depth e.target) rfl rfl ?_
  exact .field (restores_string depth e.kind) rfl rfl (.nil _)

theorem ReportGraph.restores (hstyle : style.Spaced) (depth : Nat) (g : ReportGraph) :
    Restores style (ReportGraph.record.read (depth + 3)) g.toJson g := by
  have hnodes := restores_list hstyle fun n (_ : n ∈ g.nodes) => n.restores hstyle depth
  have hedges := restores_list hstyle fun e (_ : e ∈ g.edges) => e.restores hstyle depth
  refine Record.restores hstyle ⟨some g.nodes, some g.edges⟩ ?_ rfl
  exact .field hnodes rfl rfl (.field hedges rfl rfl (.nil _))

theorem restores_strings (hstyle : style.Spaced) (depth : Nat) (items : List String) :
    Restores style (Reader.list Reader.string (depth + 1)) (.ofStrings items) items :=
  restores_list hstyle fun s _ => restores_string depth s

/-- A map is restored when its values are: each key is there once. -/
theorem restores_map {β : Type} (hstyle : style.Spaced) {reader : Reader β} {depth : Nat}
    {toJson : β → Json} (h : ∀ value, Restores style (reader depth) (toJson value) value)
    (m : SortedMap String β) :
    Restores style (readMap reader (depth + 1)) (mapToJson toJson m) m := by
  have hentries := (restores_members hstyle fun e (_ : e ∈ m.entries) => h e.2).map SortedMap.ofList
  rwa [SortedMap.ofList_entries] at hentries

/-! ### Whole reports -/

/-- The fields of a report are restored one after the other, each within four levels of nesting. -/
theorem Report.restores (hstyle : style.Spaced) (depth : Nat) (r : Report)
    (h : r.totalFunctions < 2 ^ 64) :
    Restores style (Report.record.read (depth + 4)) r.toJson r := by
  have htotal : Restores style (Reader.count (depth + 3)) (.integer r.totalFunctions)
      r.totalFunctions := restores_count (depth + 3) h
  have hisolated := restores_strings hstyle (depth + 2) r.isolated
  have hordered := restores_strings hstyle (depth + 2) r.ordered
  have hcalls := r.callGraph.restores hstyle depth
  have hmethods := restores_map hstyle
    (restores_map hstyle (restores_strings hstyle depth)) r.classMethods
  have husage := r.classUsage.restores hstyle depth
  refine Record.restores hstyle ⟨some r.totalFunctions, some r.isolated, some r.ordered,
    some r.callGraph, some r.classMethods, some r.classUsage⟩ ?_ rfl
  refine .field htotal rfl rfl ?_
  refine .field hisolated rfl rfl ?_
  refine .field hordered rfl rfl ?_
  refine .field hcalls rfl rfl ?_
  refine .field hmethods rfl rfl ?_
  exact .field husage rfl rfl (.nil _)

/-- **Reports are read back.** A report whose number of functions has at most 64 bits is read back
from its text, on one line or indented, whatever its strings, lists and maps hold. -/
theorem Report.parse_write (r : Report) (h : r.totalFunctions < 2 ^ 64) :
    Report.parse (r.toJson.write Json.compact) = .ok r ∧
      Report.parse (r.toJson.write Json.indented) = .ok r :=
  ⟨(r.restores spaced_compact 123 h).run, (r.restores spaced_indented 123 h).run⟩

/-- A report of texts with quotes, backslashes, control characters and text that looks like JSON,
with empty and non-empty parts. -/
def Report.awkward : Report where
  totalFunctions := 18446744073709551615
  isolated := []
  ordered := ["", "\"quoted\"", "back\\slash", "line\nbreak", "\x00\x1f\x7f", "größe → 𝔸"]
  callGraph := ⟨[⟨"a\",\"b", ":", "[]"⟩], [⟨"a\",\"b", "\\u0041", "null"⟩]⟩
  classMethods := .ofList [("f", .ofList []), ("", .ofList [("B", []), ("A\t", ["m", "m"])])]
  classUsage := ⟨[], []⟩

theorem Report.parse_write_awkward :
    Report.awkward.totalFunctions < 2 ^ 64 ∧
      Report.parse (Report.awkward.toJson.write Json.compact) = .ok Report.awkward ∧
      Report.parse (Report.awkward.toJson.write Json.indented) = .ok Report.awkward :=
  ⟨by decide, Report.parse_write Report.awkward (by decide)⟩

end CallerFirst
