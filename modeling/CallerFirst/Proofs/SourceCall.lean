import CallerFirst.CallExpr
import CallerFirst.Proofs.NormalForm
import Mathlib.Tactic.Common

/-!
# Calls as a program writes them

A call of the source has a callee and arguments, each of them a value or a call again, and a value
is a tree of loads, attributes, tuples, slices and operators. Such a tree is spelled from the left
to the right, operands first; `ValueTree.value` is the one instruction that stands for it once it is
collapsed, and `SourceCall.toCallExpr` is the call expression that stands for a call.

`Builds` says that the pass, whatever it has behind it, leaves that alone and puts some values on
top. The spelling of a value builds the collapsed value (`ValueTree.builds_spell`), and the spelling
of a call builds its collapsed spelling (`SourcePart.builds_spell`).
-/

namespace CallerFirst

/-- The operand that gives a count. -/
def Operand.ofCount (n : Nat) : Operand := .int (Int64.ofNat n)

/-- From this count on there is no operand that gives it. -/
def Operand.countLimit : Nat := Nat.pow 2 63

theorem Operand.count?_ofCount {n : Nat} (h : n < countLimit) : (ofCount n).count? = some n := by
  rw [ofCount, count?, Int64.toInt_ofNat_of_lt h, if_pos (Int.natCast_nonneg n), Int.toNat_natCast]

/-- A value of the source. The operands of slices and operators have no meaning. -/
inductive ValueTree
  /-- A plain load. -/
  | load (code : OpCode) (plain : code.isPlainLoad = true) (operand : Operand)
  /-- An attribute of a value. -/
  | attr (object : ValueTree) (name : Operand)
  /-- A tuple of any number of values. -/
  | tuple (items : List ValueTree)
  /-- A slice that is built from any number of values. -/
  | builtSlice (items : List ValueTree)
  | sliceWhole (base : ValueTree) (operand : Operand)
  | sliceFromLower (base lower : ValueTree) (operand : Operand)
  | sliceToUpper (base upper : ValueTree) (operand : Operand)
  | sliceBetween (base lower upper : ValueTree) (operand : Operand)
  /-- An operator on two values. -/
  | binary (operator : BinaryOperator) (left right : ValueTree) (operand : Operand)

mutual

/-- The instructions that a value is written as: those of its parts, then the one that builds it. -/
def ValueTree.spell : ValueTree → List Instruction
  | .load code _ operand => [⟨code, operand⟩]
  | .attr object name => object.spell ++ [⟨.loadAttr, name⟩]
  | .tuple items => spellValues items ++ [⟨.buildTuple, .ofCount items.length⟩]
  | .builtSlice items => spellValues items ++ [⟨.buildSlice, .ofCount items.length⟩]
  | .sliceWhole base operand => base.spell ++ [⟨.slice .whole, operand⟩]
  | .sliceFromLower base lower operand =>
    base.spell ++ lower.spell ++ [⟨.slice .fromLower, operand⟩]
  | .sliceToUpper base upper operand => base.spell ++ upper.spell ++ [⟨.slice .toUpper, operand⟩]
  | .sliceBetween base lower upper operand =>
    base.spell ++ lower.spell ++ upper.spell ++ [⟨.slice .between, operand⟩]
  | .binary operator left right operand =>
    left.spell ++ right.spell ++ [⟨.binary operator, operand⟩]

/-- The instructions that some values are written as, one after the other. -/
def spellValues : List ValueTree → List Instruction
  | [] => []
  | v :: rest => v.spell ++ spellValues rest

end

mutual

/-- The operand of a collapsed value: that of a load, or the tuple of the operands that went into
the value. -/
def ValueTree.operand : ValueTree → Operand
  | .load _ _ operand => operand
  | .attr object name => .tuple [object.operand, name]
  | .tuple items => .tuple (operandsOf items)
  | .builtSlice items => .tuple (operandsOf items)
  | .sliceWhole base _ => .tuple [base.operand]
  | .sliceFromLower base lower _ => .tuple [base.operand, lower.operand]
  | .sliceToUpper base upper _ => .tuple [base.operand, upper.operand]
  | .sliceBetween base lower upper _ => .tuple [base.operand, lower.operand, upper.operand]
  | .binary _ left right _ => .tuple [left.operand, right.operand]

/-- The operands of some collapsed values. -/
def operandsOf : List ValueTree → List Operand
  | [] => []
  | v :: rest => v.operand :: operandsOf rest

end

/-- The code of a collapsed value. -/
def ValueTree.code : ValueTree → OpCode
  | .load code _ _ => code
  | .attr _ _ => .attrValue
  | .tuple _ => .tupleValue
  | .builtSlice _ | .sliceWhole _ _ | .sliceFromLower _ _ _ | .sliceToUpper _ _ _
  | .sliceBetween _ _ _ _ => .sliceValue
  | .binary operator _ _ _ => .binaryValue operator

/-- The instruction that a value collapses to. -/
def ValueTree.value (v : ValueTree) : Instruction := ⟨v.code, v.operand⟩

/-- A value or a call of the source. -/
inductive SourcePart
  | value (tree : ValueTree)
  | call (callee : SourcePart) (args : List SourcePart)

/-- A call of the source. -/
structure SourceCall where
  callee : SourcePart
  args : List SourcePart

/-- The instruction that calls with `n` arguments. -/
def callInstruction (n : Nat) : Instruction := ⟨.call, .ofCount n⟩

mutual

/-- The instructions that a value or a call is written as: the callee, the arguments in order, and
the instruction that calls. -/
def SourcePart.spell : SourcePart → List Instruction
  | .value tree => tree.spell
  | .call callee args => callee.spell ++ spellParts args ++ [callInstruction args.length]

/-- The instructions that some parts are written as, one after the other. -/
def spellParts : List SourcePart → List Instruction
  | [] => []
  | a :: rest => a.spell ++ spellParts rest

end

mutual

/-- The spelling of a part in which each value is collapsed. -/
def SourcePart.collapsed : SourcePart → List Instruction
  | .value tree => [tree.value]
  | .call callee args => callee.collapsed ++ collapsedParts args ++ [callInstruction args.length]

/-- The spelling of some parts in which each value is collapsed. -/
def collapsedParts : List SourcePart → List Instruction
  | [] => []
  | a :: rest => a.collapsed ++ collapsedParts rest

end

mutual

/-- A part as an argument of a call expression. -/
def SourcePart.toArgument : SourcePart → Argument
  | .value tree => .value tree.value
  | .call callee args => .call args.length (callee.toArgument :: toArguments args)

/-- Some parts as arguments of a call expression. -/
def toArguments : List SourcePart → List Argument
  | [] => []
  | a :: rest => a.toArgument :: toArguments rest

end

namespace SourceCall

/-- A call as a part of another one. -/
def toPart (e : SourceCall) : SourcePart := .call e.callee e.args

/-- The instructions that a call is written as. -/
def spell (e : SourceCall) : List Instruction := e.toPart.spell

/-- The call expression of a call: its callee and its arguments, with each value collapsed. -/
def toCallExpr (e : SourceCall) : CallExpr :=
  ⟨e.args.length, e.callee.toArgument :: e.args.map SourcePart.toArgument⟩

/-- Whether a call constructs an object: its callee is the plain name of a class. -/
def isConstruction (isClass : String → Bool) (e : SourceCall) : Bool :=
  match e.callee with
  | .value (.load code _ (.text name)) => code.isNameLoad && isClass name
  | _ => false

end SourceCall

/-! ### Lists of parts -/

theorem operandsOf_eq_map (items : List ValueTree) :
    operandsOf items = items.map ValueTree.operand := by
  induction items with
  | nil => rfl
  | cons v items ih => rw [operandsOf, ih, List.map_cons]

theorem toArguments_eq_map (args : List SourcePart) :
    toArguments args = args.map SourcePart.toArgument := by
  induction args with
  | nil => rfl
  | cons a args ih => rw [toArguments, ih, List.map_cons]

@[simp]
theorem ValueTree.isValue_value (v : ValueTree) : v.value.isValue = true := by
  cases v with
  | load code plain operand =>
    simp [value, ValueTree.code, Instruction.isValue, OpCode.isValue, plain]
  | _ => rfl

theorem ValueTree.spell_ne_nil (v : ValueTree) : v.spell ≠ [] := by
  cases v <;> simp [spell]

theorem SourcePart.spell_ne_nil (a : SourcePart) : a.spell ≠ [] := by
  cases a with
  | value tree => simpa [spell] using tree.spell_ne_nil
  | call callee args => simp [spell]

theorem length_le_spellValues (items : List ValueTree) :
    items.length ≤ (spellValues items).length := by
  induction items with
  | nil => simp
  | cons v items ih =>
    have := List.length_pos_iff.2 v.spell_ne_nil
    simp only [spellValues, List.length_append, List.length_cons]
    omega

theorem length_le_spellParts (args : List SourcePart) :
    args.length ≤ (spellParts args).length := by
  induction args with
  | nil => simp
  | cons a args ih =>
    have := List.length_pos_iff.2 a.spell_ne_nil
    simp only [spellParts, List.length_append, List.length_cons]
    omega

/-! ### The pass over a spelling -/

/-- Whatever the pass has behind it, `code` puts `values` on top, first to last. -/
def Builds (code values : List Instruction) : Prop :=
  ∀ done, code.foldl Pass.push done = values.reverse ++ done

namespace Builds

theorem nil : Builds [] [] := fun _ => rfl

theorem append {code code' values values' : List Instruction} (h : Builds code values)
    (h' : Builds code' values') : Builds (code ++ code') (values ++ values') := by
  intro done
  rw [List.foldl_append, h, h', List.reverse_append, List.append_assoc]

theorem single {i : Instruction} (h : i.collapse? = none) : Builds [i] [i] := by
  intro done
  exact Pass.push_keep fun c hc => by rw [h] at hc; cases hc

/-- An instruction that takes all the values before it leaves what they collapse to. -/
theorem collapse {code values : List Instruction} (h : Builds code values) (i : Instruction)
    (c : Collapse) (hc : i.collapse? = some c) (hlen : values.length = c.width)
    (hall : ∀ v ∈ values, v.isValue = true) : Builds (code ++ [i]) [c.merge values i] := by
  intro done
  rw [List.foldl_append, h, List.foldl_cons, List.foldl_nil, Pass.push_merge hc hlen hall]
  rfl

end Builds

/-- Instructions that take as many values as their operand says. -/
theorem builds_counted {items : List ValueTree} (hfit : items.length < Operand.countLimit)
    (h : Builds (spellValues items) (items.map ValueTree.value)) {code built : OpCode}
    (hcode : ∀ operand : Operand, (⟨code, operand⟩ : Instruction).collapse?
      = operand.count?.map fun n => ⟨n, built, false⟩) :
    Builds (spellValues items ++ [⟨code, .ofCount items.length⟩])
      [⟨built, .tuple (operandsOf items)⟩] := by
  have hc : (⟨code, .ofCount items.length⟩ : Instruction).collapse?
      = some ⟨items.length, built, false⟩ := by
    rw [hcode, Operand.count?_ofCount hfit]
    rfl
  have hbuilds := h.collapse _ _ hc (by simp) (by simp)
  simpa [Collapse.merge, operandsOf_eq_map, ValueTree.value, Function.comp_def] using hbuilds

mutual

/-- The spelling of a value builds the instruction that the value collapses to. -/
theorem ValueTree.builds_spell (v : ValueTree) (hfit : v.spell.length < Operand.countLimit) :
    Builds v.spell [v.value] := by
  cases v with
  | load code plain operand =>
    have hvalue := (ValueTree.load code plain operand).isValue_value
    exact Builds.single (Instruction.collapse?_of_isValue hvalue)
  | attr object name =>
    simp only [ValueTree.spell, List.length_append] at hfit
    have hobject := object.builds_spell (by omega)
    exact hobject.collapse ⟨.loadAttr, name⟩ ⟨1, .attrValue, true⟩ rfl rfl (by simp)
  | tuple items =>
    simp only [ValueTree.spell, List.length_append] at hfit
    have hlen := length_le_spellValues items
    exact builds_counted (by omega) (builds_spellValues items (by omega)) fun _ => rfl
  | builtSlice items =>
    simp only [ValueTree.spell, List.length_append] at hfit
    have hlen := length_le_spellValues items
    exact builds_counted (by omega) (builds_spellValues items (by omega)) fun _ => rfl
  | sliceWhole base operand =>
    simp only [ValueTree.spell, List.length_append] at hfit
    have hbase := base.builds_spell (by omega)
    exact hbase.collapse ⟨.slice .whole, operand⟩ ⟨1, .sliceValue, false⟩ rfl rfl (by simp)
  | sliceFromLower base lower operand =>
    simp only [ValueTree.spell, List.length_append] at hfit
    have hbase := base.builds_spell (by omega)
    have hlower := lower.builds_spell (by omega)
    exact (hbase.append hlower).collapse ⟨.slice .fromLower, operand⟩
      ⟨2, .sliceValue, false⟩ rfl rfl (by simp)
  | sliceToUpper base upper operand =>
    simp only [ValueTree.spell, List.length_append] at hfit
    have hbase := base.builds_spell (by omega)
    have hupper := upper.builds_spell (by omega)
    exact (hbase.append hupper).collapse ⟨.slice .toUpper, operand⟩
      ⟨2, .sliceValue, false⟩ rfl rfl (by simp)
  | sliceBetween base lower upper operand =>
    simp only [ValueTree.spell, List.length_append] at hfit
    have hbase := base.builds_spell (by omega)
    have hlower := lower.builds_spell (by omega)
    have hupper := upper.builds_spell (by omega)
    exact ((hbase.append hlower).append hupper).collapse ⟨.slice .between, operand⟩
      ⟨3, .sliceValue, false⟩ rfl rfl (by simp)
  | binary operator left right operand =>
    simp only [ValueTree.spell, List.length_append] at hfit
    have hleft := left.builds_spell (by omega)
    have hright := right.builds_spell (by omega)
    exact (hleft.append hright).collapse ⟨.binary operator, operand⟩
      ⟨2, .binaryValue operator, false⟩ rfl rfl (by simp)

theorem builds_spellValues (items : List ValueTree)
    (hfit : (spellValues items).length < Operand.countLimit) :
    Builds (spellValues items) (items.map ValueTree.value) := by
  cases items with
  | nil => exact Builds.nil
  | cons v items =>
    simp only [spellValues, List.length_append] at hfit
    have hv := v.builds_spell (by omega)
    have hitems := builds_spellValues items (by omega)
    exact hv.append hitems

end

mutual

/-- The spelling of a part builds the spelling in which its values are collapsed. -/
theorem SourcePart.builds_spell (a : SourcePart) (hfit : a.spell.length < Operand.countLimit) :
    Builds a.spell a.collapsed := by
  cases a with
  | value tree => exact tree.builds_spell hfit
  | call callee args =>
    simp only [SourcePart.spell, List.length_append] at hfit
    have hcallee := callee.builds_spell (by omega)
    have hargs := builds_spellParts args (by omega)
    exact (hcallee.append hargs).append (Builds.single rfl)

theorem builds_spellParts (args : List SourcePart)
    (hfit : (spellParts args).length < Operand.countLimit) :
    Builds (spellParts args) (collapsedParts args) := by
  cases args with
  | nil => exact Builds.nil
  | cons a args =>
    simp only [spellParts, List.length_append] at hfit
    have ha := a.builds_spell (by omega)
    have hargs := builds_spellParts args (by omega)
    exact ha.append hargs

end

end CallerFirst
