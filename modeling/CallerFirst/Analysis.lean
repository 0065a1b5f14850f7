import CallerFirst.ClassUse
import CallerFirst.Discovery
import CallerFirst.Settings.Basic
import CallerFirst.TestOrder

/-!
# The analysis of a program

`analyze` discovers the calls of a program, orders its functions for testing and collects the
classes that they use, and keeps a log of it.
-/

namespace CallerFirst

/-- What is found out about a program. -/
structure Analysis where
  totalFunctions : Nat
  callGraph : CallGraph
  classMethods : ClassMethods
  classUse : ClassUse
  order : TestOrder

/-- Why a program cannot be analysed. -/
inductive AnalysisError
  /-- A call has an arity that cannot be represented. -/
  | oversized
  /-- The functions call each other in a cycle. -/
  | cycle (error : CycleError)
  deriving DecidableEq, Repr

/-- The outcome of an analysis with its log. -/
structure Analyzed where
  outcome : Except AnalysisError Analysis
  log : List LogRecord

/-- How many functions a program has, as reports and logs say it. -/
def totalLine (count : Nat) : String := "[Total: " ++ toString count ++ " functions]"

/-- The log up to the discovery of calls. -/
def openingLog (p : Program) : List LogRecord :=
  [⟨.info, totalLine p.functions.length⟩,
    ⟨.info, "function -> function: working out test order (root -> leaf)"⟩]

/-- The size of a graph, as the log says it. -/
def CallGraph.logRecord (g : CallGraph) : LogRecord :=
  ⟨.info, "call graph: " ++ toString g.nodes.size ++ " nodes, " ++ toString g.edges.size
    ++ " edges"⟩

/-- Analyses a program. -/
def analyze (settings : Settings) (p : Program) : Analyzed :=
  let index := SymbolIndex.ofProgram p
  match Findings.ofProgram? index settings.nestedCalls p with
  | none => ⟨.error .oversized, openingLog p⟩
  | some found =>
    let log := openingLog p ++ found.log ++ [found.graph.logRecord]
    match testOrder found.graph p.ids with
    | .error cycle => ⟨.error (.cycle cycle), log⟩
    | .ok order =>
      { outcome := .ok
          { totalFunctions := p.functions.length
            callGraph := found.graph
            classMethods := found.methods
            classUse := .ofProgram index settings.privateMarker p
            order }
        log := log ++ [order.logRecord,
          ⟨.info, "function -> class: classes loaded in function bodies"⟩] }

end CallerFirst
