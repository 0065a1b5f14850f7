import CallerFirst.Collection.SortedMap
import CallerFirst.Program

/-!
# The symbols of a program

The index finds a signature by the id of a function and a class by its name.
-/

namespace CallerFirst

/-- The signatures and classes of a program. -/
structure SymbolIndex where
  functions : SortedMap String Signature
  classes : SortedMap String ClassDecl

namespace SymbolIndex

/-- The index of a program; of two classes with one name the later counts. -/
def ofProgram (p : Program) : SymbolIndex where
  functions := .ofList (p.functions.map fun f => (f.id, f.signature))
  classes := .ofList (p.classes.map fun c => (c.name, c))

/-- The function of that id, if it takes that many arguments. -/
def resolve? (index : SymbolIndex) (id : String) (count : Nat) : Option Signature :=
  (index.functions.get? id).filter (·.arity = count)

/-- Whether a name is that of a class. -/
def isClass (index : SymbolIndex) (name : String) : Bool := index.classes.contains name

/-- The class of a name. -/
def class? (index : SymbolIndex) (name : String) : Option ClassDecl := index.classes.get? name

end SymbolIndex

end CallerFirst
