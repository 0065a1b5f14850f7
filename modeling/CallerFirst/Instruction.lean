import CallerFirst.Operand

/-!
# Instructions of a stack machine

An instruction is an operation code with an operand. The codes that a body is made of come from
source names (`OpCode.ofSourceName`); the four *collapsed* codes only come from collapsing several
instructions into one value.
-/

namespace CallerFirst

/-- The slices with a fixed number of operands. -/
inductive SliceForm
  | whole
  | fromLower
  | toUpper
  | between
  deriving DecidableEq, Repr

namespace SliceForm

/-- How many values a slice takes off the stack. -/
def operandCount : SliceForm → Nat
  | .whole => 1
  | .fromLower => 2
  | .toUpper => 2
  | .between => 3

/-- The source name of a slice. -/
def name : SliceForm → String
  | .whole => "SLICE+0"
  | .fromLower => "SLICE+1"
  | .toUpper => "SLICE+2"
  | .between => "SLICE+3"

/-- All slices. -/
def all : List SliceForm := [.whole, .fromLower, .toUpper, .between]

end SliceForm

/-- The operators on two values. -/
inductive BinaryOperator
  | add
  | subtract
  | multiply
  | divide
  | floorDivide
  | trueDivide
  | modulo
  | power
  | shiftLeft
  | shiftRight
  | and
  | or
  | xor
  | subscript
  deriving DecidableEq, Repr

namespace BinaryOperator

/-- The name of an operator, as it stands in the names of codes. -/
def name : BinaryOperator → String
  | .add => "ADD"
  | .subtract => "SUBTRACT"
  | .multiply => "MULTIPLY"
  | .divide => "DIVIDE"
  | .floorDivide => "FLOOR_DIVIDE"
  | .trueDivide => "TRUE_DIVIDE"
  | .modulo => "MODULO"
  | .power => "POWER"
  | .shiftLeft => "LSHIFT"
  | .shiftRight => "RSHIFT"
  | .and => "AND"
  | .or => "OR"
  | .xor => "XOR"
  | .subscript => "SUBSCR"

/-- All operators. -/
def all : List BinaryOperator :=
  [.add, .subtract, .multiply, .divide, .floorDivide, .trueDivide, .modulo, .power, .shiftLeft,
    .shiftRight, .and, .or, .xor, .subscript]

end BinaryOperator

/-- An operation code. -/
inductive OpCode
  | loadConst
  | loadName
  | loadGlobal
  | loadFast
  | loadDeref
  | loadAttr
  | buildTuple
  | buildMap
  | storeMap
  | slice (form : SliceForm)
  | buildSlice
  | binary (operator : BinaryOperator)
  | call
  | lineMarker
  | other
  /-- An attribute of a value, collapsed. -/
  | attrValue
  /-- A tuple of values, collapsed. -/
  | tupleValue
  /-- A slice of values, collapsed. -/
  | sliceValue
  /-- An operator on two values, collapsed. -/
  | binaryValue (operator : BinaryOperator)
  deriving DecidableEq, Repr, Inhabited

namespace OpCode

/-- The loads that a source program writes. -/
def isPlainLoad : OpCode → Bool
  | .loadConst | .loadName | .loadGlobal | .loadFast | .loadDeref => true
  | _ => false

/-- The plain loads of a name. -/
def isNameLoad : OpCode → Bool
  | .loadName | .loadGlobal | .loadFast | .loadDeref => true
  | _ => false

/-- The codes that come from collapsing. -/
def isCollapsed : OpCode → Bool
  | .attrValue | .tupleValue | .sliceValue | .binaryValue _ => true
  | _ => false

/-- The codes that stand for one value. -/
def isValue (code : OpCode) : Bool := code.isPlainLoad || code.isCollapsed

/-! ### Names -/

/-- The name under which a code is shown. -/
def name : OpCode → String
  | .loadConst => "LOAD_CONST"
  | .loadName => "LOAD_NAME"
  | .loadGlobal => "LOAD_GLOBAL"
  | .loadFast => "LOAD_FAST"
  | .loadDeref => "LOAD_DEREF"
  | .loadAttr => "LOAD_ATTR"
  | .buildTuple => "BUILD_TUPLE"
  | .buildMap => "BUILD_MAP"
  | .storeMap => "STORE_MAP"
  | .slice form => form.name
  | .buildSlice => "BUILD_SLICE"
  | .binary operator => "BINARY_" ++ operator.name
  | .call => "CALL_FUNCTION"
  | .lineMarker => "SetLineno"
  | .other => "OTHER"
  | .attrValue => "LOAD_OBJ_ATTR"
  | .tupleValue => "LOAD_TUPLE"
  | .sliceValue => "LOAD_SLICE"
  | .binaryValue operator => "LOAD_BINARY_" ++ operator.name

/-- The capital form of a character, as far as it is written in ASCII letters: beside the ASCII
letters these are the long s, the dotless i, the sharp s and the Latin ligatures. Any other
character stays as it is. -/
def capital (c : Char) : List Char :=
  match c with
  | 'ſ' => ['S']
  | 'ı' => ['I']
  | 'ß' => ['S', 'S']
  | 'ﬀ' => ['F', 'F']
  | 'ﬁ' => ['F', 'I']
  | 'ﬂ' => ['F', 'L']
  | 'ﬃ' => ['F', 'F', 'I']
  | 'ﬄ' => ['F', 'F', 'L']
  | 'ﬅ' => ['S', 'T']
  | 'ﬆ' => ['S', 'T']
  | c => [c.toUpper]

/-- A name in capitals. -/
def capitals (name : String) : String := String.ofList (name.toList.flatMap capital)

/-- The source names, in capitals, with their codes. -/
def sourceNames : List (String × OpCode) :=
  [("LOAD_CONST", .loadConst), ("LOAD_NAME", .loadName), ("LOAD_GLOBAL", .loadGlobal),
    ("LOAD_FAST", .loadFast), ("LOAD_DEREF", .loadDeref), ("LOAD_ATTR", .loadAttr),
    ("BUILD_TUPLE", .buildTuple), ("BUILD_MAP", .buildMap), ("STORE_MAP", .storeMap),
    ("BUILD_SLICE", .buildSlice), ("CALL_FUNCTION", .call), ("CALL", .call),
    ("SETLINENO", .lineMarker), ("SET_LINENO", .lineMarker)]
  ++ SliceForm.all.map (fun form => (form.name, .slice form))
  ++ BinaryOperator.all.map (fun operator => ("BINARY_" ++ operator.name, .binary operator))

/-- The code of a source name, in whatever case it is written. -/
def ofSourceName (name : String) : OpCode :=
  (sourceNames.lookup (capitals name)).getD .other

/-- The collapsed operator of a shown name; the operator itself may be in any case. -/
def ofOperatorName? (name : String) : Option OpCode :=
  let shown := "LOAD_BINARY_".toList
  if shown.isPrefixOf name.toList then
    match ofSourceName (String.ofList ("BINARY_".toList ++ name.toList.drop shown.length)) with
    | .binary operator => some (.binaryValue operator)
    | _ => none
  else none

/-- The code of a shown name: a collapsed code, or else the code of a source name. -/
def ofShownName (name : String) : OpCode :=
  match [attrValue, tupleValue, sliceValue].find? (·.name == name) with
  | some code => code
  | none => (ofOperatorName? name).getD (ofSourceName name)

end OpCode

/-- An operation code with its operand. -/
structure Instruction where
  code : OpCode
  operand : Operand
  deriving DecidableEq, Inhabited

namespace Instruction

/-- Whether an instruction stands for one value. -/
def isValue (i : Instruction) : Bool := i.code.isValue

/-- The code's name, and the operand if there is one. -/
def display (i : Instruction) : String :=
  match i.operand with
  | .missing => i.code.name
  | operand => i.code.name ++ " " ++ operand.display

end Instruction

end CallerFirst
