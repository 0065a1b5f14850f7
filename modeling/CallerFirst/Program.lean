import CallerFirst.Instruction

/-!
# Programs

A program has functions, each with a signature and a body of instructions, and classes. A function
is known by its *id*: its plain name, or the class and the method joined by a point.
-/

namespace CallerFirst

/-- The name of a function or of a method. -/
inductive FunctionName
  | plain (name : String)
  | method (owner name : String)
  deriving DecidableEq, Repr, Inhabited

namespace FunctionName

/-- The text by which a function is known. -/
def id : FunctionName → String
  | .plain name => name
  | .method owner name => owner ++ "." ++ name

/-- Plain names come before methods; methods are ordered by class and then by method. -/
def compare : FunctionName → FunctionName → Ordering
  | .plain a, .plain b => Ord.compare a b
  | .plain _, .method _ _ => .lt
  | .method _ _, .plain _ => .gt
  | .method a m, .method b n => (Ord.compare a b).then (Ord.compare m n)

instance : Ord FunctionName := ⟨compare⟩

end FunctionName

/-- The name of a function and the number of its parameters. -/
structure Signature where
  name : FunctionName
  arity : Nat
  deriving DecidableEq, Repr, Inhabited

/-- A function with its instructions. -/
structure Function where
  signature : Signature
  body : List Instruction
  deriving DecidableEq, Inhabited

namespace Function

/-- The id of a function, taken from its name. -/
def id (f : Function) : String := f.signature.name.id

end Function

/-- A class, with the name under which it was declared. -/
structure ClassDecl where
  name : String
  qualname : String
  deriving DecidableEq, Repr, Inhabited

namespace ClassDecl

/-- A class of which only the name is known. -/
def ofName (name : String) : ClassDecl := ⟨name, name⟩

end ClassDecl

/-- The functions and classes of a program. -/
structure Program where
  functions : List Function
  classes : List ClassDecl
  deriving DecidableEq, Inhabited

namespace Program

/-- The ids of the functions, in program order. -/
def ids (p : Program) : List String := p.functions.map (·.id)

end Program

end CallerFirst
