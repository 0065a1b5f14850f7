import CallerFirst.Json.Reader

/-!
# Operands of instructions

An operand is absent, a 64-bit integer, a binary64 number, a text, or a tuple of operands. In JSON
it is `null`, a number, a string or an array; `Operand.read` reads the whole value before it judges
its shape.
-/

namespace CallerFirst

/-- The operand of an instruction. -/
inductive Operand
  | missing
  | int (value : Int64)
  | real (value : Binary64)
  | text (value : String)
  | tuple (items : List Operand)
  deriving Inhabited

namespace Operand

/-! ### Equality -/

mutual

/-- Decides whether two operands are equal. -/
def decEq : (a b : Operand) → Decidable (a = b)
  | .missing, .missing => .isTrue rfl
  | .int m, .int n => decidable_of_iff (m = n) (by simp)
  | .real x, .real y => decidable_of_iff (x = y) (by simp)
  | .text s, .text t => decidable_of_iff (s = t) (by simp)
  | .tuple xs, .tuple ys =>
    match decEqList xs ys with
    | .isTrue h => .isTrue (by rw [h])
    | .isFalse h => .isFalse (by simpa using h)
  | .missing, .int _ | .missing, .real _ | .missing, .text _ | .missing, .tuple _
  | .int _, .missing | .int _, .real _ | .int _, .text _ | .int _, .tuple _
  | .real _, .missing | .real _, .int _ | .real _, .text _ | .real _, .tuple _
  | .text _, .missing | .text _, .int _ | .text _, .real _ | .text _, .tuple _
  | .tuple _, .missing | .tuple _, .int _ | .tuple _, .real _ | .tuple _, .text _ =>
    .isFalse (by simp)

/-- Decides whether two lists of operands are equal. -/
def decEqList : (xs ys : List Operand) → Decidable (xs = ys)
  | [], [] => .isTrue rfl
  | [], _ :: _ => .isFalse (by simp)
  | _ :: _, [] => .isFalse (by simp)
  | x :: xs, y :: ys =>
    match decEq x y, decEqList xs ys with
    | .isTrue h, .isTrue hs => .isTrue (by rw [h, hs])
    | .isFalse h, _ => .isFalse (by simp [h])
    | _, .isFalse hs => .isFalse (by simp [hs])

end

instance : DecidableEq Operand := decEq

/-! ### What an operand stands for -/

/-- The text of a text operand. -/
def text? : Operand → Option String
  | .text s => some s
  | _ => none

/-- The number of an integer operand that is not negative. -/
def count? : Operand → Option Nat
  | .int n => if 0 ≤ n.toInt then some n.toInt.toNat else none
  | _ => none

/-! ### Display -/

/-- Displayed numbers are always positional, without `.0`, and a tie goes upward. -/
def numberFormat : NumberFormat := ⟨.upward, false, none⟩

mutual

/-- How an operand is shown: an absent one as nothing, a tuple in parentheses. -/
def display : Operand → String
  | .missing => ""
  | .int n => toString n.toInt
  | .real x => String.ofList (numberFormat.write x)
  | .text s => s
  | .tuple items => "(" ++ ", ".intercalate (displayAll items) ++ ")"

/-- How each operand of a list is shown. -/
def displayAll : List Operand → List String
  | [] => []
  | item :: rest => item.display :: displayAll rest

end

/-! ### JSON -/

mutual

/-- The JSON value of an operand. -/
def toJson : Operand → Json
  | .missing => .null
  | .int n => .integer n.toInt
  | .real x => .real x
  | .text s => .string s
  | .tuple items => .array (toJsonAll items)

/-- The JSON value of each operand of a list. -/
def toJsonAll : List Operand → List Json
  | [] => []
  | item :: rest => item.toJson :: toJsonAll rest

end

/-- Whether a whole number is a 64-bit integer. -/
def IsWord (n : Int) : Prop := -9223372036854775808 ≤ n ∧ n ≤ 9223372036854775807

instance (n : Int) : Decidable (IsWord n) := inferInstanceAs (Decidable (_ ∧ _))

mutual

/-- The operand of a JSON value. Truth values and objects are none, and a whole number beyond 64
bits is a binary64 number. -/
def ofJson? : Json → Option Operand
  | .null => some .missing
  | .bool _ => none
  | .integer n =>
    if IsWord n then some (.int (Int64.ofInt n))
    else (Binary64.ofRatio? n.natAbs 1).map fun x => .real (x.withSign (n < 0))
  | .real x => some (.real x)
  | .string s => some (.text s)
  | .array items => (ofJsonAll? items).map .tuple
  | .object _ => none

/-- The operands of a list of JSON values. -/
def ofJsonAll? : List Json → Option (List Operand)
  | [] => some []
  | item :: rest =>
    match ofJson? item, ofJsonAll? rest with
    | some o, some os => some (o :: os)
    | _, _ => none

end

/-- Reads an operand; its text is read to the end before its shape is judged. -/
def read : Json.Reader Operand := fun depth cs =>
  match Json.Reader.value depth cs with
  | .error fault => .error fault
  | .ok (value, rest) =>
    match ofJson? value with
    | some operand => .ok (operand, rest)
    | none => .error .unexpected

/-- Reads an operand from a whole text. -/
def parse (text : String) : Except Json.Fault Operand := Json.Reader.run read Json.maxDepth text

end Operand

end CallerFirst
