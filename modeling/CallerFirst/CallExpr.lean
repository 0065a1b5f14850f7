import CallerFirst.Instruction

/-!
# Call expressions

A call expression is built from its end: the arguments arrive last to first and the callee comes
after them. It therefore holds its *parts* in source order: once it is complete, the callee and then
`arity` arguments. Further parts are ignored.

Main definitions:

* `CallExpr.feed`: adds the next part;
* `CallExpr.callee?`, `CallExpr.args`: the callee and the arguments known so far;
* `CallExpr.nestedCalls`: the calls directly inside of a call.
-/

namespace CallerFirst

/-- A value or a call that another call takes. -/
inductive Argument
  | value (instruction : Instruction)
  | call (arity : Nat) (parts : List Argument)
  deriving Inhabited

/-- A call, possibly with parts still to come. -/
structure CallExpr where
  /-- The number of arguments. -/
  arity : Nat
  /-- The parts known so far, in source order. -/
  parts : List Argument
  deriving Inhabited

/-- What a call invokes. -/
inductive Callee
  /-- A plain name. -/
  | name (name : String)
  /-- An attribute of a named object. -/
  | member (object attr : String)
  /-- Any other value, or the result of a call. -/
  | computed (source : Argument)

namespace Argument

/-- The call expression of an argument that is a call. -/
def call? : Argument → Option CallExpr
  | .value _ => none
  | .call arity parts => some ⟨arity, parts⟩

/-- What an argument names when it is called. -/
def toCallee (a : Argument) : Callee :=
  match a with
  | .value ⟨.attrValue, .tuple [.text object, .text attr]⟩ => .member object attr
  | .value i =>
    match i.code.isNameLoad, i.operand with
    | true, .text name => .name name
    | _, _ => .computed a
  | .call _ _ => .computed a

end Argument

namespace CallExpr

/-- The bytes that an argument takes in memory. -/
def argumentBytes : Nat := 80

/-- The most bytes that one block of memory can have. -/
def maxBlockBytes : Nat := Nat.pow 2 63 - 1

/-- From this arity on a call cannot be represented: its arguments take one block of memory, which
is reserved when the call is made. -/
def arityLimit : Nat := maxBlockBytes / argumentBytes + 1

theorem lt_arityLimit_iff {n : Nat} : n < arityLimit ↔ n * argumentBytes ≤ maxBlockBytes := by
  rw [arityLimit, Nat.lt_succ_iff, Nat.le_div_iff_mul_le (by decide)]

/-- A call of which no part is known, if the arity can be represented. -/
def new? (arity : Nat) : Option CallExpr := if arity < arityLimit then some ⟨arity, []⟩ else none

/-- A call as an argument of another one. -/
def toArgument (e : CallExpr) : Argument := .call e.arity e.parts

/-- Whether the callee and all arguments are known. -/
def isComplete (e : CallExpr) : Bool := e.parts.length == e.arity + 1

/-- Adds the next part; a complete call stays as it is. -/
def feed (e : CallExpr) (a : Argument) : CallExpr :=
  if e.parts.length ≤ e.arity then { e with parts := a :: e.parts } else e

/-- The part that is called. -/
def calleePart? (e : CallExpr) : Option Argument :=
  if e.isComplete then e.parts.head? else none

/-- What is called, once it is known. -/
def callee? (e : CallExpr) : Option Callee := e.calleePart?.map Argument.toCallee

/-- The arguments known so far, in source order. -/
def args (e : CallExpr) : List Argument :=
  if e.isComplete then e.parts.tail else e.parts

/-- The name of the callee, if it is a plain name. -/
def calleeName? (e : CallExpr) : Option String :=
  match e.callee? with
  | some (.name name) => some name
  | _ => none

/-- Whether the callee is the plain name of a class. -/
def isConstructor (isClass : String → Bool) (e : CallExpr) : Bool := e.calleeName?.any isClass

/-- The calls directly inside of a call: those among the arguments, then a callee that is itself
the result of a call. -/
def nestedCalls (e : CallExpr) : List CallExpr :=
  (e.args ++ e.calleePart?.toList).filterMap Argument.call?

end CallExpr

/-! ### Display -/

/-- How the callee of a call is shown, given how the part is shown as an argument. -/
def Argument.displayAsCallee (a : Argument) (shown : String) : String :=
  match a.toCallee with
  | .name name => name
  | .member object attr => object ++ "." ++ attr
  | .computed _ => shown

/-- How a call is shown, given how its parts are shown as arguments: the callee, or `?` in its
place, and the arguments in parentheses. -/
def showCall (arity : Nat) (parts : List Argument) (shown : List String) : String :=
  let withArgs (callee : String) (args : List String) : String :=
    callee ++ "(" ++ ",".intercalate args ++ ")"
  match parts, shown with
  | first :: _, text :: args =>
    if shown.length = arity + 1 then withArgs (first.displayAsCallee text) args
    else withArgs "?" shown
  | _, _ => withArgs "?" shown

mutual

/-- How an argument is shown: a value by its operand. -/
def Argument.display : Argument → String
  | .value i => i.operand.display
  | .call arity parts => showCall arity parts (displayParts parts)

/-- How each part is shown as an argument. -/
def displayParts : List Argument → List String
  | [] => []
  | a :: rest => a.display :: displayParts rest

end

/-- How a call is shown. -/
def CallExpr.display (e : CallExpr) : String := e.toArgument.display

end CallerFirst
