/-!
# Settings of an analysis
-/

namespace CallerFirst

/-- How the graphs are drawn. -/
structure RenderSettings where
  /-- Whether methods are shown in the call graph. -/
  methods : Bool := false
  /-- How the names of the files begin. -/
  basename : String := "callorder"
  deriving DecidableEq, Repr

/-- The settings of an analysis. -/
structure Settings where
  /-- Classes whose names start with this are not counted as used. -/
  privateMarker : String := "_"
  /-- Whether calls inside of calls count. -/
  nestedCalls : Bool := false
  /-- How many workers are asked for. -/
  workers : Option Nat := none
  /-- Whether the functions are analysed in parallel, which does not change the result. -/
  parallel : Bool := true
  render : RenderSettings := {}
  deriving DecidableEq, Repr

/-- The number of workers for a request: at least one. -/
def workerCount (requested : Nat) : Nat := max requested 1

end CallerFirst
