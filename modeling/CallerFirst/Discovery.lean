import CallerFirst.CallGraph
import CallerFirst.CallSites
import CallerFirst.NormalForm
import CallerFirst.SymbolIndex

/-!
# Discovering who calls whom

Each body is brought into normal form and its calls are found. A call of a plain name is an edge of
the call graph when a function of that id takes that many arguments; a call of an attribute of a
class is an entry of the class methods; any other call is unresolved. Optionally the calls inside of
calls count as well.

Main definitions: `CallSites.ofBody?`, `SymbolIndex.resolveCall`, `Findings.ofProgram?`.
-/

namespace CallerFirst

/-! ### The calls that count -/

/-- Brings the parts of a call into the order in which calls are visited: the arguments, then the
callee. -/
def visitOrder {α : Type} (arity : Nat) (parts : List α) : List α :=
  if parts.length = arity + 1 then parts.tail ++ parts.head?.toList else parts

mutual

/-- The calls at any depth of an argument, outer calls first. -/
def Argument.allCalls : Argument → List CallExpr
  | .value _ => []
  | .call arity parts => ⟨arity, parts⟩ :: (visitOrder arity (allCallsOf parts)).flatten

/-- The calls at any depth of each part. -/
def allCallsOf : List Argument → List (List CallExpr)
  | [] => []
  | a :: rest => a.allCalls :: allCallsOf rest

end

/-- A call and the calls at any depth inside of it. -/
def CallExpr.allCalls (e : CallExpr) : List CallExpr := e.toArgument.allCalls

/-- The calls that a body contributes, with or without those inside of other calls. -/
def countedCalls (nested : Bool) (calls : List CallExpr) : List CallExpr :=
  if nested then calls.flatMap CallExpr.allCalls else calls

/-! ### Resolution -/

/-- What a call turns out to be. -/
inductive Resolution
  /-- A call of a function with matching arity. -/
  | function (id : String)
  /-- A call of a method on a class. -/
  | classMethod (owner method : String)
  | unresolved
  deriving DecidableEq, Repr

/-- What a call turns out to be, judged by its callee and the number of its arguments. -/
def SymbolIndex.resolveCall (index : SymbolIndex) (e : CallExpr) : Resolution :=
  match e.callee? with
  | some (.name name) =>
    if (index.resolve? name e.args.length).isSome then .function name else .unresolved
  | some (.member object attr) =>
    if index.isClass object then .classMethod object attr else .unresolved
  | _ => .unresolved

/-- The calls of a body, given which names are classes; a body without a call has none. The result
is `none` when an arity cannot be represented. -/
def CallSites.ofBody? (isClass : String → Bool) (body : List Instruction) : Option CallSites :=
  match normalForm? body with
  | some form => callSites? isClass form.instructions
  | none => some ⟨[], []⟩

/-- The calls of a function. -/
def Function.callSites? (index : SymbolIndex) (f : Function) : Option CallSites :=
  CallSites.ofBody? index.isClass f.body

/-! ### Merging -/

/-- What the calls of a program add up to. -/
structure Findings where
  graph : CallGraph
  methods : ClassMethods
  log : List LogRecord

namespace Findings

/-- Nothing found. -/
def empty : Findings := ⟨.empty, .empty, []⟩

/-- Adds one call of a function. -/
def note (index : SymbolIndex) (caller : String) (s : Findings) (e : CallExpr) : Findings :=
  match index.resolveCall e with
  | .function callee => { s with graph := s.graph.addEdge caller callee }
  | .classMethod owner method => { s with methods := s.methods.record caller owner method }
  | .unresolved =>
    { s with log := s.log ++ [⟨.trace, caller ++ ": unresolved call " ++ e.display⟩] }

/-- Adds the calls of a function. -/
def merge (index : SymbolIndex) (nested : Bool) (s : Findings) (found : String × List CallExpr) :
    Findings :=
  if found.2.isEmpty then
    { s with log := s.log ++ [⟨.debug, found.1 ++ ": no call sites reconstructed"⟩] }
  else (countedCalls nested found.2).foldl (note index found.1) s

/-- Discovers the calls of every function and then merges them in program order. -/
def ofProgram? (index : SymbolIndex) (nested : Bool) (p : Program) : Option Findings :=
  (p.functions.mapM (Function.callSites? index)).map fun sites =>
    (p.ids.zip (sites.map (·.calls))).foldl (merge index nested)
      { empty with log := sites.flatMap (·.log) }

end Findings

end CallerFirst
