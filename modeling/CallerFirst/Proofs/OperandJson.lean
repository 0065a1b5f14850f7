import CallerFirst.Operand
import CallerFirst.Proofs.Json.Values
import Mathlib.Tactic.Common

/-!
# Operands as JSON text

The kind of an operand is not written down: it is told from the shape of the JSON value.

* `Operand.RealFree`, `Operand.depth`: operands without binary64 numbers, and how deep they nest;
* `Operand.ofJson?_toJson`: the shape of a value tells the operand;
* `Operand.RealFree.restores`, `Operand.RealFree.refuses`: the text of an operand is read back when
  it may open as many containers as the operand nests, and is refused otherwise;
* `Operand.parse_compact`: the same for whole texts.
-/

namespace CallerFirst

open Json

namespace Operand

/-- No binary64 number stands anywhere in an operand. -/
inductive RealFree : Operand → Prop
  | missing : RealFree .missing
  | int (n : Int64) : RealFree (.int n)
  | text (s : String) : RealFree (.text s)
  | tuple {items : List Operand} (h : ∀ o ∈ items, RealFree o) : RealFree (.tuple items)

mutual

/-- How many tuples stand within each other. -/
def depth : Operand → Nat
  | .tuple items => depthAll items + 1
  | _ => 0

/-- The greatest depth in a list. -/
def depthAll : List Operand → Nat
  | [] => 0
  | item :: rest => max item.depth (depthAll rest)

end

theorem depthAll_le_iff {items : List Operand} {d : Nat} :
    depthAll items ≤ d ↔ ∀ o ∈ items, o.depth ≤ d := by
  induction items with
  | nil => simp [depthAll]
  | cons item items ih => rw [depthAll, Nat.max_le, ih, List.forall_mem_cons]

theorem depth_tuple (items : List Operand) : (tuple items).depth = depthAll items + 1 := rfl

theorem toJsonAll_eq_map (items : List Operand) : toJsonAll items = items.map toJson := by
  induction items with
  | nil => rfl
  | cons item items ih => rw [toJsonAll, ih, List.map_cons]

theorem toJson_tuple (items : List Operand) :
    (tuple items).toJson = .array (items.map toJson) := by
  rw [toJson, toJsonAll_eq_map]

/-! ### From shapes to operands -/

theorem isWord_toInt (n : Int64) : IsWord n.toInt := by
  have := n.le_toInt
  have := n.toInt_lt
  unfold IsWord
  omega

theorem ofJsonAll?_map {items : List Operand} (h : ∀ o ∈ items, ofJson? o.toJson = some o) :
    ofJsonAll? (items.map toJson) = some items := by
  induction items with
  | nil => rfl
  | cons item items ih =>
    obtain ⟨hitem, hitems⟩ := List.forall_mem_cons.1 h
    rw [List.map_cons, ofJsonAll?, hitem, ih hitems]

/-- The shape of a value tells the operand that it is made of. -/
theorem ofJson?_toJson {o : Operand} (h : o.RealFree) : ofJson? o.toJson = some o := by
  induction h with
  | missing => rfl
  | int n => rw [toJson, ofJson?, if_pos (isWord_toInt n), Int64.ofInt_toInt]
  | text s => rfl
  | tuple _ ih =>
    rw [toJson_tuple, ofJson?, ofJsonAll?_map ih]
    rfl

/-! ### Reading and refusing -/

variable {style : Style} {d : Nat} {o : Operand}

theorem RealFree.answers (hstyle : style.Spaced) (h : o.RealFree) (d : Nat) :
    (o.depth ≤ d → Restores style (Reader.value d) o.toJson o.toJson) ∧
      (d < o.depth → ∀ level,
        Refuses (Reader.value d) (o.toJson.writeAt style level) .malformed) := by
  induction h generalizing d with
  | missing => exact ⟨fun _ => restores_null d, fun hlt => absurd hlt (Nat.not_lt_zero d)⟩
  | int n =>
    refine ⟨fun _ => ?_, fun hlt => absurd hlt (Nat.not_lt_zero d)⟩
    obtain ⟨hlow, hhigh⟩ := isWord_toInt n
    exact restores_integer d (by omega) (by omega)
  | text s => exact ⟨fun _ => restores_text d s, fun hlt => absurd hlt (Nat.not_lt_zero d)⟩
  | @tuple items _ ih =>
    rw [toJson_tuple, depth_tuple]
    cases d with
    | zero => exact ⟨by omega, fun _ level => refuses_array_zero style level _⟩
    | succ d =>
      rw [Nat.add_le_add_iff_right, Nat.add_lt_add_iff_right]
      constructor
      · intro hle
        refine restores_array hstyle (List.forall_mem_map.2 fun o ho => ?_)
        exact (ih o ho d).1 (depthAll_le_iff.1 hle o ho)
      · intro hlt level
        have hdeep : ∃ o ∈ items, d < o.depth := by
          by_contra hnone
          refine Nat.not_le.2 hlt (depthAll_le_iff.2 fun o ho => Nat.not_lt.1 fun hdeep => ?_)
          exact hnone ⟨o, ho, hdeep⟩
        refine refuses_array hstyle (List.forall_mem_map.2 fun o ho => ?_) ?_
        · rcases Nat.lt_or_ge d o.depth with hlt | hle
          · exact Or.inr ((ih o ho d).2 hlt (level + 1))
          · exact Or.inl ⟨_, (ih o ho d).1 hle (level + 1)⟩
        · obtain ⟨o, ho, hdeep⟩ := hdeep
          exact ⟨o.toJson, List.mem_map_of_mem ho, (ih o ho d).2 hdeep (level + 1)⟩

theorem RealFree.restores (hstyle : style.Spaced) (h : o.RealFree) (hd : o.depth ≤ d) :
    Restores style (read d) o.toJson o := by
  intro level
  have hvalue := (h.answers hstyle d).1 hd level
  refine ⟨hvalue.begins, fun blanks cs hblanks hcs => ?_⟩
  simp only [read, hvalue.reads blanks cs hblanks hcs, ofJson?_toJson h]

theorem RealFree.refuses (hstyle : style.Spaced) (h : o.RealFree) (hd : d < o.depth) (level : Nat) :
    Refuses (read d) (o.toJson.writeAt style level) .malformed := by
  have hvalue := (h.answers hstyle d).2 hd level
  refine ⟨hvalue.begins, fun blanks cs hblanks hcs => ?_⟩
  simp only [read, hvalue.fails blanks cs hblanks hcs]

/-- **Operands are read back.** The text of an operand without binary64 numbers is read as that
operand if it nests at most 127 tuples deep, and is refused if it nests deeper. -/
theorem parse_compact (o : Operand) (h : o.RealFree) :
    parse (o.toJson.write Json.compact)
      = if o.depth ≤ 127 then .ok o else .error .malformed := by
  split
  · next hle => exact (h.restores spaced_compact hle).run
  · next hgt => exact (h.refuses spaced_compact (Nat.not_le.1 hgt) 0).run

/-- An operand with the extreme integers, an empty tuple, texts that look like JSON, and texts with
quotes, backslashes and control characters. -/
def awkward : Operand :=
  .tuple [.int (-9223372036854775808), .tuple [], .text "null", .tuple [.missing, .text ""],
    .text "[1,\"\\u0041\"]", .int 9223372036854775807, .text "\x00\x1f\x7f\n", .int 0, .text "-0",
    .text "größe → 𝔸"]

/-- An absent operand within so many tuples. -/
def nested : Nat → Operand
  | 0 => .missing
  | n + 1 => .tuple [nested n]

theorem realFree_nested (n : Nat) : (nested n).RealFree := by
  induction n with
  | zero => exact .missing
  | succ n ih => exact .tuple (by simpa using ih)

theorem depth_nested (n : Nat) : (nested n).depth = n := by
  induction n with
  | zero => rfl
  | succ n ih => simp [nested, depth, depthAll, ih]

/-- An awkward operand is read back, and the limit is exact. -/
theorem parse_compact_awkward :
    awkward.RealFree ∧ parse (awkward.toJson.write Json.compact) = .ok awkward ∧
      parse ((nested 127).toJson.write Json.compact) = .ok (nested 127) ∧
      parse ((nested 128).toJson.write Json.compact) = .error .malformed := by
  have hawkward : awkward.RealFree := by
    refine .tuple ?_
    simp [RealFree.int, RealFree.text, RealFree.tuple, RealFree.missing]
  refine ⟨hawkward, ?_, ?_, ?_⟩
  · rw [parse_compact awkward hawkward, if_pos (by decide)]
  · rw [parse_compact _ (realFree_nested 127), if_pos (Nat.le_of_eq (depth_nested 127))]
  · rw [parse_compact _ (realFree_nested 128), if_neg (by rw [depth_nested]; decide)]

end Operand

end CallerFirst
