import CallerFirst.Program

/-!
# Program dumps

A dump is the JSON text of a program. `Dump.read` takes it as it is written; `Dump.toProgram` makes
the program of it and refuses a dump in which two functions have one id.
-/

namespace CallerFirst

/-- An instruction as a dump writes it. -/
structure DumpInstruction where
  op : String
  arg : Operand
  deriving DecidableEq

/-- A function as a dump writes it. -/
structure DumpFunction where
  name : String
  owner : Option String
  arity : Nat
  instructions : List DumpInstruction
  deriving DecidableEq

/-- A class as a dump writes it. -/
structure DumpClass where
  name : String
  qualname : Option String
  deriving DecidableEq

/-- A dump as it is written. -/
structure Dump where
  functions : List DumpFunction
  classes : List DumpClass
  deriving DecidableEq

/-! ### Reading -/

open Json (Reader Field Record)

/-- The fields of an instruction read so far. -/
structure DumpInstruction.Draft where
  op : Option String := none
  arg : Option Operand := none

/-- How an instruction is written. -/
def DumpInstruction.record : Record Draft DumpInstruction where
  fields := [
    ⟨"op", (·.op.isSome), fun d =>
      Reader.string.map fun v => { d with op := some v }⟩,
    ⟨"arg", (·.arg.isSome), fun d =>
      Operand.read.map fun v => { d with arg := some v }⟩]
  start := {}
  finish d := d.op.map fun op => ⟨op, d.arg.getD .missing⟩

/-- The fields of a function read so far. -/
structure DumpFunction.Draft where
  name : Option String := none
  owner : Option (Option String) := none
  arity : Option Nat := none
  instructions : Option (List DumpInstruction) := none

/-- How a function is written. -/
def DumpFunction.record : Record Draft DumpFunction where
  fields := [
    ⟨"name", (·.name.isSome), fun d =>
      Reader.string.map fun v => { d with name := some v }⟩,
    ⟨"class", (·.owner.isSome), fun d =>
      Reader.string.optional.map fun v => { d with owner := some v }⟩,
    ⟨"arity", (·.arity.isSome), fun d =>
      Reader.count.map fun v => { d with arity := some v }⟩,
    ⟨"instructions", (·.instructions.isSome), fun d =>
      (Reader.list DumpInstruction.record.read).map fun v => { d with instructions := some v }⟩]
  start := {}
  finish d := do
    return ⟨← d.name, d.owner.join, ← d.arity, d.instructions.getD []⟩

/-- The fields of a class read so far. -/
structure DumpClass.Draft where
  name : Option String := none
  qualname : Option (Option String) := none

/-- How a class is written. -/
def DumpClass.record : Record Draft DumpClass where
  fields := [
    ⟨"name", (·.name.isSome), fun d =>
      Reader.string.map fun v => { d with name := some v }⟩,
    ⟨"qualname", (·.qualname.isSome), fun d =>
      Reader.string.optional.map fun v => { d with qualname := some v }⟩]
  start := {}
  finish d := d.name.map fun name => ⟨name, d.qualname.join⟩

/-- The fields of a dump read so far. -/
structure Dump.Draft where
  functions : Option (List DumpFunction) := none
  classes : Option (List DumpClass) := none

/-- How a dump is written. -/
def Dump.record : Record Draft Dump where
  fields := [
    ⟨"functions", (·.functions.isSome), fun d =>
      (Reader.list DumpFunction.record.read).map fun v => { d with functions := some v }⟩,
    ⟨"classes", (·.classes.isSome), fun d =>
      (Reader.list DumpClass.record.read).map fun v => { d with classes := some v }⟩]
  start := {}
  finish d := some ⟨d.functions.getD [], d.classes.getD []⟩

/-- Reads a dump from a whole text. -/
def Dump.read (text : String) : Except Json.Fault Dump :=
  Dump.record.read.run Json.maxDepth text

/-! ### Making a program -/

/-- The instruction that a written one stands for. -/
def DumpInstruction.toInstruction (i : DumpInstruction) : Instruction :=
  ⟨.ofSourceName i.op, i.arg⟩

/-- The name of a function: a method when it has a class. -/
def DumpFunction.fullName (f : DumpFunction) : FunctionName :=
  match f.owner with
  | some owner => .method owner f.name
  | none => .plain f.name

/-- The function that a written one stands for. -/
def DumpFunction.toFunction (f : DumpFunction) : Function :=
  ⟨⟨f.fullName, f.arity⟩, f.instructions.map DumpInstruction.toInstruction⟩

/-- A class without a qualified name is declared under its own. -/
def DumpClass.toClassDecl (c : DumpClass) : ClassDecl := ⟨c.name, c.qualname.getD c.name⟩

/-- The first element of a list that stands in the list, or in `seen`, before. -/
def firstRepeat? (seen : List String) : List String → Option String
  | [] => none
  | x :: rest => if x ∈ seen then some x else firstRepeat? (x :: seen) rest

/-- Why a text is no dump of a program. -/
inductive DumpError
  | unreadable (fault : Json.Fault)
  | duplicate (id : String)
  deriving DecidableEq, Repr

namespace DumpError

/-- The text of an error. -/
def message : DumpError → String
  | .unreadable _ => "Invalid program dump"
  | .duplicate id => "Duplicate function in program dump: " ++ id

end DumpError

namespace Dump

/-- The program of a dump in which no two functions have one id. -/
def toProgram (d : Dump) : Except DumpError Program :=
  let functions := d.functions.map DumpFunction.toFunction
  match firstRepeat? [] (functions.map (·.id)) with
  | some id => .error (.duplicate id)
  | none => .ok ⟨functions, d.classes.map DumpClass.toClassDecl⟩

end Dump

/-- The program of a dump text. -/
def Program.parse (text : String) : Except DumpError Program :=
  match Dump.read text with
  | .error fault => .error (.unreadable fault)
  | .ok d => d.toProgram

end CallerFirst
