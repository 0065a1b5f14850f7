import CallerFirst.Proofs.Shape
import Mathlib.Logic.Relation
import Mathlib.Tactic.Common

/-!
# Collapsing in place

The pass can work on one sequence: it looks at a position, replaces the values before it and the
instruction there by the collapsed one, and goes on right after that. A `Cursor` is a state of this
work. Its step `Cursor.advance?` checks every index and every subtraction, and is `none` where one
of them fails.

* `Pass.advance?_cursor`: at the place that a pass has reached, the checked step does not fail and
  does what the pass does;
* `Cursor.Follows`: the cursor stands where the pass stands, which holds at the start and is kept by
  every step (`Cursor.follows_of_reaches`);
* `Pass.filter_isInert_foldl_push`: the pass keeps the instructions that are neither values nor made
  into values;
* `normalForm?_shaped`: what a normal form looks like, and that working in place leads to it without
  a fault.
-/

namespace CallerFirst

/-! ### The checked step -/

/-- A sequence that is collapsed in place, the position that is looked at, and where the sequence
ends. -/
structure Cursor where
  ops : List Instruction
  position : Nat
  endIndex : Nat

namespace Cursor

/-- The instructions from `start` up to `stop`, if these are bounds of the sequence. -/
def slice? (ops : List Instruction) (start stop : Nat) : Option (List Instruction) :=
  if start ≤ stop ∧ stop ≤ ops.length then some ((ops.take stop).drop start) else none

/-- The difference of two numbers, if it is not negative. -/
def minus? (m n : Nat) : Option Nat := if n ≤ m then some (m - n) else none

/-- Leaves the instruction at the position as it is. -/
def skip (c : Cursor) : Cursor := { c with position := c.position + 1 }

/-- Puts `merged` in the place of the instructions from `start` to the position. -/
def splice? (c : Cursor) (start : Nat) (merged : Instruction) : Option Cursor := do
  let before ← slice? c.ops 0 start
  let after ← slice? c.ops (c.position + 1) c.ops.length
  let removed ← minus? c.position start
  let endIndex ← minus? c.endIndex removed
  return ⟨before ++ merged :: after, start + 1, endIndex⟩

/-- Looks at one position. The result is `none` when an index is out of range or a difference is
negative; that there are too few values is no such fault. -/
def advance? (c : Cursor) : Option Cursor := do
  let i ← c.ops[c.position]?
  match i.collapse? with
  | none => return c.skip
  | some how =>
    if how.width ≤ c.position then
      let start := c.position - how.width
      let values ← slice? c.ops start c.position
      if values.all Instruction.isValue then c.splice? start (how.merge values i) else return c.skip
    else return c.skip

/-- One step that does not fail. -/
def Advances (c d : Cursor) : Prop := c.advance? = some d

/-- The start of a sequence. -/
def atStart (ops : List Instruction) : Cursor := ⟨ops, 0, ops.length⟩

/-- How much of the sequence is left. -/
def remaining (c : Cursor) : Nat := c.ops.length - c.position

theorem slice?_append (before values after : List Instruction) :
    slice? (before ++ (values ++ after)) before.length (before.length + values.length)
      = some values := by
  rw [slice?, if_pos ⟨by omega, by simp⟩, ← List.append_assoc,
    List.take_left' (by simp), List.drop_left]

theorem minus?_of_le {m n : Nat} (h : n ≤ m) : minus? m n = some (m - n) := if_pos h

theorem splice?_append {before values after : List Instruction} {i merged : Instruction}
    {c : Cursor} (hops : c.ops = before ++ (values ++ i :: after))
    (hposition : c.position = before.length + values.length) (hend : values.length ≤ c.endIndex) :
    c.splice? before.length merged
      = some ⟨before ++ merged :: after, before.length + 1, c.endIndex - values.length⟩ := by
  have hbefore : slice? c.ops 0 before.length = some before := by
    rw [hops]
    simpa using slice?_append [] before (values ++ i :: after)
  have hafter : slice? c.ops (c.position + 1) c.ops.length = some after := by
    have hlast := slice?_append (before ++ (values ++ [i])) after []
    rw [hops, hposition]
    simpa [Nat.add_assoc, Nat.add_comm, Nat.add_left_comm] using hlast
  have hremoved : minus? c.position before.length = some values.length := by
    rw [hposition, minus?_of_le (Nat.le_add_right _ _), Nat.add_sub_cancel_left]
  simp only [splice?, hbefore, hafter, hremoved, minus?_of_le hend, Option.bind_eq_bind,
    Option.bind_some, Option.pure_def]

/-- What a step does when there are enough instructions before the position. -/
theorem advance?_append {before values after : List Instruction} {i : Instruction} {how : Collapse}
    (hhow : i.collapse? = some how) (hlen : values.length = how.width) {c : Cursor}
    (hops : c.ops = before ++ (values ++ i :: after))
    (hposition : c.position = before.length + values.length) :
    c.advance? = if values.all Instruction.isValue then c.splice? before.length (how.merge values i)
      else some c.skip := by
  have hi : c.ops[c.position]? = some i := by simp [hops, hposition]
  have hstart : c.position - how.width = before.length := by omega
  have hvalues : slice? c.ops before.length c.position = some values := by
    rw [hops, hposition, slice?_append]
  have hwidth : how.width ≤ c.position := by omega
  simp only [advance?, hi, hhow, hstart, hvalues, if_pos hwidth, Option.bind_eq_bind,
    Option.bind_some, Option.pure_def]

end Cursor

/-! ### The cursor and the pass -/

/-- The cursor at the place that a pass has reached when `rest` is still to come. -/
def Pass.cursor (p : Pass) (rest : List Instruction) : Cursor where
  ops := p.done.reverse ++ rest
  position := p.done.length
  endIndex := p.endIndex

namespace Pass

open Cursor

variable {p : Pass} {i : Instruction} {rest : List Instruction}

section Below

variable {values below : List Instruction} (hdone : p.done = values.reverse ++ below)
include hdone

theorem ops_cursor : (p.cursor (i :: rest)).ops = below.reverse ++ (values ++ i :: rest) := by
  simp [cursor, hdone]

theorem position_cursor :
    (p.cursor (i :: rest)).position = below.reverse.length + values.length := by
  simp [cursor, hdone, Nat.add_comm]

/-- Where the pass collapses values, the checked step splices. -/
theorem advance?_merge {how : Collapse} (hhow : i.collapse? = some how)
    (hlen : values.length = how.width) (hall : ∀ v ∈ values, v.isValue = true)
    (hend : values.length ≤ p.endIndex) :
    (p.cursor (i :: rest)).advance?
      = some ⟨below.reverse ++ how.merge values i :: rest, below.length + 1,
          p.endIndex - values.length⟩ := by
  rw [advance?_append hhow hlen (ops_cursor hdone) (position_cursor hdone),
    if_pos (by simpa using hall), splice?_append (ops_cursor hdone) (position_cursor hdone) hend,
    List.length_reverse]
  rfl

end Below

/-- Where the pass keeps an instruction, the checked step leaves it as it is. -/
theorem advance?_keep (h : ∀ how, i.collapse? = some how → ¬ Ready how p.done) :
    (p.cursor (i :: rest)).advance? = some (p.cursor (i :: rest)).skip := by
  have hi : (p.cursor (i :: rest)).ops[(p.cursor (i :: rest)).position]? = some i := by
    simp [cursor]
  cases hhow : i.collapse? with
  | none => simp [advance?, hi, hhow]
  | some how =>
    by_cases hwidth : how.width ≤ (p.cursor (i :: rest)).position
    · -- There are enough instructions before the position, but not all of them are values.
      have hdone : p.done = (p.done.take how.width).reverse.reverse ++ p.done.drop how.width := by
        simp
      have hlen : (p.done.take how.width).reverse.length = how.width := by
        rw [List.length_reverse, List.length_take]
        exact Nat.min_eq_left hwidth
      have hall : ¬ (p.done.take how.width).reverse.all Instruction.isValue = true := by
        intro hall
        exact h how hhow (ready_iff.2 ⟨_, _, hdone, hlen, List.all_eq_true.1 hall⟩)
      rw [advance?_append hhow hlen (ops_cursor hdone) (position_cursor hdone), if_neg hall]
    · simp [advance?, hi, hhow, hwidth]

/-- At the place that a pass has reached, the checked step is the step of the pass. -/
theorem advance?_cursor (h : p.endIndex = p.done.length + (rest.length + 1)) :
    (p.cursor (i :: rest)).advance? = some ((p.step i).cursor rest) := by
  rcases push_cases p.done i with ⟨how, values, below, hhow, hdone, hlen, hall, -⟩ | ⟨hkeep, -⟩
  · have hend : values.length ≤ p.endIndex := by
      rw [h, hdone, List.length_append, List.length_reverse]
      omega
    rw [advance?_merge hdone hhow hlen hall hend, step_merge hhow hdone hlen hall, ← hlen]
    simp [cursor]
  · rw [advance?_keep hkeep, step_keep hkeep]
    simp [cursor, skip]

end Pass

/-! ### The whole run in place -/

namespace Cursor

variable {ops : List Instruction} {c d : Cursor}

/-- The cursor stands where a pass over `ops` stands: the pass over what is left there ends as the
pass over `ops` does. -/
def Follows (c : Cursor) (ops : List Instruction) : Prop :=
  ∃ (p : Pass) (rest : List Instruction), c = p.cursor rest ∧
    p.endIndex = p.done.length + rest.length ∧ rest.foldl Pass.step p = Pass.run ops

theorem follows_atStart (ops : List Instruction) : (atStart ops).Follows ops :=
  ⟨⟨[], ops.length⟩, ops, rfl, by simp, rfl⟩

/-- Before the end, the step does not fail, keeps to the pass and leaves less to do. -/
theorem Follows.exists_advance (h : c.Follows ops) (hmore : c.position < c.ops.length) :
    ∃ d, c.advance? = some d ∧ d.Follows ops ∧ d.remaining < c.remaining := by
  obtain ⟨p, rest, rfl, hend, hrun⟩ := h
  cases rest with
  | nil => simp [Pass.cursor] at hmore
  | cons i rest =>
    have hfollows : ((p.step i).cursor rest).Follows ops :=
      ⟨p.step i, rest, rfl, Pass.endIndex_step hend i, hrun⟩
    refine ⟨_, Pass.advance?_cursor hend, hfollows, ?_⟩
    simp [remaining, Pass.cursor]

theorem position_lt_of_advances (h : Advances c d) : c.position < c.ops.length := by
  obtain ⟨i, hi, -⟩ := Option.bind_eq_some_iff.1 h
  exact (List.getElem?_eq_some_iff.1 hi).1

theorem Follows.advances (h : c.Follows ops) (hstep : Advances c d) : d.Follows ops := by
  obtain ⟨d', hd', hfollows, -⟩ := h.exists_advance (position_lt_of_advances hstep)
  rw [Advances, hd'] at hstep
  cases hstep
  exact hfollows

theorem follows_of_reaches (h : Relation.ReflTransGen Advances (atStart ops) c) :
    c.Follows ops := by
  induction h with
  | refl => exact follows_atStart ops
  | tail _ hstep ih => exact ih.advances hstep

theorem Follows.position_le (h : c.Follows ops) : c.position ≤ c.ops.length := by
  obtain ⟨p, rest, rfl, -, -⟩ := h
  simp [Pass.cursor]

/-- At the end of the sequence, the pass has ended. -/
theorem Follows.at_end (h : c.Follows ops) (hend : c.position = c.ops.length) :
    c.ops = (NormalForm.ofCut ops).instructions ∧ c.endIndex = (NormalForm.ofCut ops).endIndex := by
  obtain ⟨p, rest, rfl, -, hrun⟩ := h
  have hrest : rest = [] := by simpa [Pass.cursor] using hend
  subst hrest
  rw [NormalForm.ofCut_eq_run, ← hrun]
  simp [Pass.cursor]

theorem Follows.exists_end (h : c.Follows ops) :
    ∃ d, Relation.ReflTransGen Advances c d ∧ d.position = d.ops.length := by
  -- A splice shortens the sequence and moves the position back, but less always remains.
  induction hn : c.remaining using Nat.strongRecOn generalizing c with
  | ind n ih =>
    by_cases hmore : c.position < c.ops.length
    · obtain ⟨d, hd, hfollows, hless⟩ := h.exists_advance hmore
      obtain ⟨e, hreaches, hend⟩ := ih d.remaining (by omega) hfollows rfl
      exact ⟨e, hreaches.head hd, hend⟩
    · exact ⟨c, .refl, Nat.le_antisymm h.position_le (by omega)⟩

end Cursor

/-- Collapsing `ops` in place never fails, always goes forward and ends with `form`. -/
structure CollapsesInPlace (ops : List Instruction) (form : NormalForm) : Prop where
  /-- The position never leaves the sequence. -/
  position_le : ∀ c, Relation.ReflTransGen Cursor.Advances (.atStart ops) c →
    c.position ≤ c.ops.length
  /-- Before the end of the sequence every index is in range, no difference is negative, and less
  remains after the step than before it. -/
  goes_on : ∀ c, Relation.ReflTransGen Cursor.Advances (.atStart ops) c →
    c.position < c.ops.length → ∃ d, c.advance? = some d ∧ d.remaining < c.remaining
  /-- The end of the sequence is reached, and the normal form is there. -/
  ends : ∃ c, Relation.ReflTransGen Cursor.Advances (.atStart ops) c ∧
    c.position = c.ops.length ∧ c.ops = form.instructions ∧ c.endIndex = form.endIndex

theorem collapsesInPlace_ofCut (ops : List Instruction) : CollapsesInPlace ops (.ofCut ops) where
  position_le _ hc := (Cursor.follows_of_reaches hc).position_le
  goes_on _ hc hmore := by
    obtain ⟨d, hd, -, hless⟩ := (Cursor.follows_of_reaches hc).exists_advance hmore
    exact ⟨d, hd, hless⟩
  ends := by
    obtain ⟨c, hc, hend⟩ := (Cursor.follows_atStart ops).exists_end
    exact ⟨c, hc, hend, (Cursor.follows_of_reaches hc).at_end hend⟩

/-! ### What stays as it is -/

/-- The codes that neither stand for a value nor build one: calls, the instructions of maps and all
that is not interpreted. -/
def OpCode.isInert : OpCode → Bool
  | .call | .buildMap | .storeMap | .other => true
  | _ => false

theorem Instruction.isInert_of_isValue {i : Instruction} (h : i.isValue = true) :
    i.code.isInert = false := by
  obtain ⟨code, operand⟩ := i
  cases code <;> simp_all [isValue, OpCode.isValue, OpCode.isPlainLoad, OpCode.isCollapsed,
    OpCode.isInert]

theorem Instruction.isInert_of_collapse? {i : Instruction} {how : Collapse}
    (h : i.collapse? = some how) : i.code.isInert = false := by
  obtain ⟨code, operand⟩ := i
  cases code <;> simp_all [collapse?, OpCode.isInert]

theorem Pass.filter_isInert_push (done : List Instruction) (i : Instruction) :
    (push done i).filter (·.code.isInert) = (i :: done).filter (·.code.isInert) := by
  rcases push_cases done i with ⟨how, values, rest, hhow, rfl, -, hall, hpush⟩ | ⟨-, hpush⟩
  · have hvalues : values.reverse.filter (·.code.isInert) = [] := by
      refine List.filter_eq_nil_iff.2 fun v hv => ?_
      simp [Instruction.isInert_of_isValue (hall v (List.mem_reverse.1 hv))]
    have hmerged := Instruction.isInert_of_isValue (Collapse.isValue_merge hhow values)
    have hi := Instruction.isInert_of_collapse? hhow
    simp [hpush, hmerged, hi, hvalues]
  · rw [hpush]

/-- The pass keeps the inert instructions, in their order. -/
theorem Pass.filter_isInert_foldl_push (ops done : List Instruction) :
    (ops.foldl push done).filter (·.code.isInert)
      = (ops.reverse ++ done).filter (·.code.isInert) := by
  induction ops generalizing done with
  | nil => rfl
  | cons i ops ih =>
    rw [List.foldl_cons, ih, List.filter_append, filter_isInert_push, ← List.filter_append,
      List.reverse_cons, List.append_assoc]
    rfl

theorem filter_isInert_filter_ne_marker (ops : List Instruction) :
    (ops.filter fun i => i.code ≠ .lineMarker).filter (·.code.isInert)
      = ops.filter (·.code.isInert) := by
  rw [List.filter_filter]
  refine List.filter_congr fun i _ => ?_
  cases i.code <;> rfl

/-! ### The shape of a normal form -/

/-- What the normal form of a body looks like that has its last call after the instructions
`before`. -/
structure NormalForm.Shaped (form : NormalForm) (before : List Instruction) (last : Instruction) :
    Prop where
  length_eq : form.instructions.length = form.endIndex
  last_eq : form.instructions.getLast? = some last
  no_marker : ∀ i ∈ form.instructions, i.code ≠ .lineMarker
  inert_eq : form.instructions.filter (·.code.isInert)
    = (before ++ [last]).filter (·.code.isInert)
  in_place : CollapsesInPlace ((before ++ [last]).filter fun i => i.code ≠ .lineMarker) form

/-- **The shape of a normal form.** Every body with a call has one, and collapsing in place the body
that is cut after its last call leads to it, with every index in range. -/
theorem normalForm?_shaped (body : List Instruction) (h : ∃ i ∈ body, i.code = .call) :
    ∃ before last after form, body = before ++ last :: after ∧ last.code = .call ∧
      (∀ i ∈ after, i.code ≠ .call) ∧
      (lastCallEnd? body).bind (Cursor.slice? body 0) = some (before ++ [last]) ∧
      normalForm? body = some form ∧ form.Shaped before last := by
  obtain ⟨ops, hcut⟩ := exists_cut h
  have hform := normalForm?_eq_ofCut hcut
  obtain ⟨before, last, after, rfl, hlast, hafter, rfl⟩ := hcut
  have hslice : (lastCallEnd? (before ++ last :: after)).bind
      (Cursor.slice? (before ++ last :: after) 0) = some (before ++ [last]) := by
    rw [lastCallEnd?_append hlast hafter, Option.bind_some]
    simpa using Cursor.slice?_append [] (before ++ [last]) after
  refine ⟨before, last, after, _, rfl, hlast, hafter, hslice, hform, ?_⟩
  constructor
  case length_eq => exact List.length_reverse
  case last_eq =>
    have hends : (before ++ [last]).filter (fun i => i.code ≠ .lineMarker)
        = before.filter (fun i => i.code ≠ .lineMarker) ++ [last] := by
      simp [List.filter_append, hlast]
    rw [NormalForm.ofCut, hends, Pass.foldl_push_call hlast, List.getLast?_reverse, List.head?_cons]
  case no_marker =>
    intro i hi
    refine Pass.foldl_push_code_ne rfl (fun j hj => ?_) (by simp) i (List.mem_reverse.1 hi)
    exact of_decide_eq_true (List.mem_filter.1 hj).2
  case inert_eq =>
    rw [NormalForm.ofCut, List.filter_reverse, Pass.filter_isInert_foldl_push, List.append_nil,
      ← List.filter_reverse, List.reverse_reverse, filter_isInert_filter_ne_marker]
  case in_place => exact collapsesInPlace_ofCut _

/-- A tuple of nothing at the very start, a tuple of that tuple, which reaches back to the start, an
operator with too few values before it, and a map that gets a call as its value. -/
def boundaryBody : List Instruction :=
  [⟨.buildTuple, .int 0⟩, ⟨.lineMarker, .int 4⟩, ⟨.buildTuple, .int 1⟩, ⟨.binary .add, .missing⟩,
    ⟨.buildMap, .int 1⟩, ⟨.loadName, .text "f"⟩, ⟨.call, .int 0⟩, ⟨.storeMap, .missing⟩,
    ⟨.loadFast, .text "x"⟩, ⟨.slice .whole, .missing⟩, ⟨.call, .text "many"⟩, ⟨.other, .missing⟩]

theorem normalForm?_shaped_boundaryBody :
    (∃ i ∈ boundaryBody, i.code = .call) ∧
      ∃ before last after form, boundaryBody = before ++ last :: after ∧ last.code = .call ∧
        (∀ i ∈ after, i.code ≠ .call) ∧
        (lastCallEnd? boundaryBody).bind (Cursor.slice? boundaryBody 0) = some (before ++ [last]) ∧
        normalForm? boundaryBody = some form ∧ form.Shaped before last :=
  ⟨by decide, normalForm?_shaped boundaryBody (by decide)⟩

end CallerFirst
