import CallerFirst.Instruction

/-!
# Normal forms of instruction sequences

A body builds a value from several instructions: an attribute of a value, a tuple, a slice, an
operator on two values. Collapsing replaces the instructions of such a value by one collapsed
instruction, whose operand is the tuple of the operands that went into it. The normal form of a body
is what stands before the end of its last call, without line markers and with every value collapsed.

Main definitions:

* `Instruction.collapse?`: what an instruction makes of the values before it;
* `Pass.step`: one instruction of the pass from left to right;
* `normalForm?`: the normal form of a body that has a call.
-/

namespace CallerFirst

/-- How an instruction collapses the values before it. -/
structure Collapse where
  /-- How many values it takes. -/
  width : Nat
  /-- The code of the collapsed instruction. -/
  code : OpCode
  /-- Whether its own operand comes after those of the values. -/
  keepsOperand : Bool
  deriving DecidableEq

/-- How an instruction collapses the values before it, if it builds a value at all. -/
def Instruction.collapse? (i : Instruction) : Option Collapse :=
  match i.code with
  | .loadAttr => some ⟨1, .attrValue, true⟩
  | .buildTuple => i.operand.count?.map fun n => ⟨n, .tupleValue, false⟩
  | .buildSlice => i.operand.count?.map fun n => ⟨n, .sliceValue, false⟩
  | .slice form => some ⟨form.operandCount, .sliceValue, false⟩
  | .binary operator => some ⟨2, .binaryValue operator, false⟩
  | _ => none

/-- The instruction that `values`, first to last, and the instruction `i` after them collapse to. -/
def Collapse.merge (c : Collapse) (values : List Instruction) (i : Instruction) : Instruction :=
  ⟨c.code, .tuple (values.map (·.operand) ++ if c.keepsOperand then [i.operand] else [])⟩

/-- The state of the pass over a sequence. -/
structure Pass where
  /-- The instructions passed and collapsed, the latest first. -/
  done : List Instruction
  /-- Where the sequence ends, counted with the collapses made so far. -/
  endIndex : Nat

namespace Pass

/-- Whether the values that an instruction takes stand right before it. -/
def Ready (c : Collapse) (done : List Instruction) : Prop :=
  (done.take c.width).length = c.width ∧ (done.take c.width).all Instruction.isValue

instance (c : Collapse) (done : List Instruction) : Decidable (Ready c done) :=
  inferInstanceAs (Decidable (_ ∧ _))

/-- Passes one instruction: it collapses the values right before it or is kept as it is. -/
def step (p : Pass) (i : Instruction) : Pass :=
  match i.collapse? with
  | none => { p with done := i :: p.done }
  | some c =>
    if Ready c p.done then
      ⟨c.merge (p.done.take c.width).reverse i :: p.done.drop c.width, p.endIndex - c.width⟩
    else { p with done := i :: p.done }

/-- Passes a whole sequence. -/
def run (ops : List Instruction) : Pass := ops.foldl step ⟨[], ops.length⟩

end Pass

/-- The end of the last call of a sequence, if it has one. -/
def lastCallEnd? : List Instruction → Option Nat
  | [] => none
  | i :: rest =>
    match lastCallEnd? rest with
    | some n => some (n + 1)
    | none => if i.code = .call then some 1 else none

/-- A sequence in which values are collapsed and which ends with a call. -/
structure NormalForm where
  instructions : List Instruction
  /-- Where the last call ends. -/
  endIndex : Nat
  deriving DecidableEq

/-- The instructions up to the end of the last call, without line markers. -/
def trimmed? (body : List Instruction) : Option (List Instruction) :=
  (lastCallEnd? body).map fun n => (body.take n).filter fun i => i.code ≠ .lineMarker

/-- The normal form of a body, if it has a call. -/
def normalForm? (body : List Instruction) : Option NormalForm :=
  (trimmed? body).map fun ops =>
    let pass := Pass.run ops
    ⟨pass.done.reverse, pass.endIndex⟩

end CallerFirst
