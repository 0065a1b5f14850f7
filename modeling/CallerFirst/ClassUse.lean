import CallerFirst.Collection.SortedSet
import CallerFirst.SymbolIndex

/-!
# Which classes a function uses

A body uses a class when one of its plain loads has the class's name as operand, anywhere in the
body. Names that start with a private prefix do not count. This is independent of the calls.
-/

namespace CallerFirst

/-- Whether a name starts with a private prefix. An empty prefix makes no name private. -/
def isPrivate (marker name : String) : Bool :=
  !marker.isEmpty && marker.toList.isPrefixOf name.toList

/-- The name that a plain load loads, if it is a class that counts. -/
def Instruction.usedClass? (marker : String) (isClass : String → Bool) (i : Instruction) :
    Option String :=
  if i.code.isPlainLoad then
    i.operand.text?.filter fun name => !isPrivate marker name && isClass name
  else none

/-- The classes that a body uses. -/
def usedClasses (marker : String) (isClass : String → Bool) (body : List Instruction) :
    SortedSet String :=
  .ofList (body.filterMap (Instruction.usedClass? marker isClass))

/-- Which function uses which classes, and how these are declared. -/
structure ClassUse where
  uses : SortedMap String (SortedSet String)
  classes : SortedMap String ClassDecl
  deriving DecidableEq, Inhabited

namespace ClassUse

/-- No uses. -/
def empty : ClassUse := ⟨.empty, .empty⟩

/-- Adds a class unless it is there; an unknown class is declared under its own name. -/
def declare (index : SymbolIndex) (classes : SortedMap String ClassDecl) (name : String) :
    SortedMap String ClassDecl :=
  classes.update name fun known =>
    known.getD ((index.class? name).getD (ClassDecl.ofName name))

/-- Adds the classes that a function uses; a function that uses none is not recorded. -/
def insert (index : SymbolIndex) (u : ClassUse) (function : String) (names : SortedSet String) :
    ClassUse :=
  if names.isEmpty then u
  else
    { uses := u.uses.update function fun known => (known.getD .empty).union names
      classes := names.toList.foldl (declare index) u.classes }

/-- The class use of a program. -/
def ofProgram (index : SymbolIndex) (marker : String) (p : Program) : ClassUse :=
  p.functions.foldl
    (fun u f => u.insert index f.id (usedClasses marker index.isClass f.body)) empty

/-- The classes that a function uses. -/
def classesOf? (u : ClassUse) (function : String) : Option (SortedSet String) :=
  u.uses.get? function

/-- The pairs of a function and a class that it uses, in ascending order. -/
def pairs (u : ClassUse) : List (String × String) :=
  u.uses.entries.flatMap fun e => e.2.toList.map fun name => (e.1, name)

/-- The functions that use a class. -/
def functions (u : ClassUse) : List String := u.uses.keys

/-- Whether no class is used. -/
def isEmpty (u : ClassUse) : Bool := u.uses.isEmpty

end ClassUse

end CallerFirst
