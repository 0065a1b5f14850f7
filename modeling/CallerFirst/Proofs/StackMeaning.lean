import CallerFirst.Proofs.Rewriting
import Mathlib.Tactic.Common

/-!
# Normal forms keep the meaning of a body on a stack

A meaning says what each instruction does to a stack of operands, with the top first. What builds a
value leaves the tuple of what it was built from; about all other instructions, calls among them,
nothing is assumed.

* `StackMeaning`: what is assumed of the instructions that build values;
* `StackMeaning.run_merge`: a collapsed instruction does what the instructions did that it stands
  for;
* `StackMeaning.run_normalForm`: a normal form does what the body does up to its last call, whatever
  the meaning of the other instructions is.
-/

namespace CallerFirst

/-- Replaces the top `n` entries of a stack by the tuple of them, the deepest first. -/
def gather? (n : Nat) (stack : List Operand) : Option (List Operand) :=
  if n ≤ stack.length then some (.tuple (stack.take n).reverse :: stack.drop n) else none

/-- What instructions do to a stack of operands, where `none` is failure. -/
structure StackMeaning where
  exec : Instruction → List Operand → Option (List Operand)
  exec_value : ∀ (i : Instruction) (stack : List Operand), i.isValue = true →
    exec i stack = some (i.operand :: stack)
  exec_loadAttr : ∀ (name object : Operand) (stack : List Operand),
    exec ⟨.loadAttr, name⟩ (object :: stack) = some (.tuple [object, name] :: stack)
  exec_buildTuple : ∀ (operand : Operand) (n : Nat) (stack : List Operand),
    operand.count? = some n → exec ⟨.buildTuple, operand⟩ stack = gather? n stack
  exec_buildSlice : ∀ (operand : Operand) (n : Nat) (stack : List Operand),
    operand.count? = some n → exec ⟨.buildSlice, operand⟩ stack = gather? n stack
  exec_slice : ∀ (form : SliceForm) (operand : Operand) (stack : List Operand),
    exec ⟨.slice form, operand⟩ stack = gather? form.operandCount stack
  exec_binary : ∀ (operator : BinaryOperator) (operand : Operand) (stack : List Operand),
    exec ⟨.binary operator, operand⟩ stack = gather? 2 stack

theorem gather?_reverse_append (operands stack : List Operand) :
    gather? operands.length (operands.reverse ++ stack) = some (.tuple operands :: stack) := by
  have htake : (operands.reverse ++ stack).take operands.length = operands.reverse :=
    List.take_left' (by simp)
  have hdrop : (operands.reverse ++ stack).drop operands.length = stack :=
    List.drop_left' (by simp)
  unfold gather?
  rw [if_pos (by simp), htake, hdrop, List.reverse_reverse]

namespace StackMeaning

variable (m : StackMeaning)

/-- Runs a sequence from its start; the run fails where one of its instructions does. -/
def run (ops : List Instruction) (stack : List Operand) : Option (List Operand) :=
  ops.foldlM (fun stack i => m.exec i stack) stack

theorem run_cons (i : Instruction) (ops : List Instruction) (stack : List Operand) :
    m.run (i :: ops) stack = (m.exec i stack).bind (m.run ops) :=
  List.foldlM_cons

theorem run_append (ops ops' : List Instruction) (stack : List Operand) :
    m.run (ops ++ ops') stack = (m.run ops stack).bind (m.run ops') :=
  List.foldlM_append

/-- Values are pushed one after the other. -/
theorem run_values {values : List Instruction} (h : ∀ v ∈ values, v.isValue = true)
    (stack : List Operand) :
    m.run values stack = some ((values.map (·.operand)).reverse ++ stack) := by
  induction values generalizing stack with
  | nil => rfl
  | cons v values ih =>
    rw [run_cons, m.exec_value v stack (h v List.mem_cons_self), Option.bind_some,
      ih fun w hw => h w (List.mem_cons_of_mem v hw)]
    simp

/-! ### One collapse -/

/-- All but an attribute leave the tuple of what they take, without an operand of their own. -/
theorem exec_eq_gather? {i : Instruction} {c : Collapse} (hc : i.collapse? = some c)
    (hattr : i.code ≠ .loadAttr) (stack : List Operand) :
    m.exec i stack = gather? c.width stack ∧ c.keepsOperand = false := by
  obtain ⟨code, operand⟩ := i
  cases code with
  | loadAttr => exact absurd rfl hattr
  | buildTuple =>
    obtain ⟨n, hn, rfl⟩ := Option.map_eq_some_iff.1 hc
    exact ⟨m.exec_buildTuple operand n stack hn, rfl⟩
  | buildSlice =>
    obtain ⟨n, hn, rfl⟩ := Option.map_eq_some_iff.1 hc
    exact ⟨m.exec_buildSlice operand n stack hn, rfl⟩
  | slice form =>
    cases hc
    exact ⟨m.exec_slice form operand stack, rfl⟩
  | binary operator =>
    cases hc
    exact ⟨m.exec_binary operator operand stack, rfl⟩
  | _ => cases hc

/-- An instruction that builds a value finds its parts on top of the stack, and leaves there what
the collapsed instruction would have pushed. -/
theorem exec_collapse {i : Instruction} {c : Collapse} (hc : i.collapse? = some c)
    {values : List Instruction} (hlen : values.length = c.width) (stack : List Operand) :
    m.exec i ((values.map (·.operand)).reverse ++ stack)
      = some ((c.merge values i).operand :: stack) := by
  by_cases hattr : i.code = .loadAttr
  · obtain ⟨code, operand⟩ := i
    cases hattr
    cases hc
    obtain ⟨v, rfl⟩ := List.length_eq_one_iff.1 hlen
    exact m.exec_loadAttr operand v.operand stack
  · obtain ⟨hexec, hkeeps⟩ := m.exec_eq_gather? hc hattr ((values.map (·.operand)).reverse ++ stack)
    have hgather := gather?_reverse_append (values.map (·.operand)) stack
    rw [List.length_map, hlen] at hgather
    rw [hexec, hgather]
    simp [Collapse.merge, hkeeps]

theorem run_merge {i : Instruction} {c : Collapse} (hc : i.collapse? = some c)
    {values : List Instruction} (hlen : values.length = c.width)
    (hall : ∀ v ∈ values, v.isValue = true) (after : List Instruction) (stack : List Operand) :
    m.run (values ++ i :: after) stack = m.run (c.merge values i :: after) stack := by
  calc m.run (values ++ i :: after) stack
    _ = (m.exec i ((values.map (·.operand)).reverse ++ stack)).bind (m.run after) := by
      rw [run_append, m.run_values hall, Option.bind_some, run_cons]
    _ = (m.exec (c.merge values i) stack).bind (m.run after) := by
      rw [m.exec_collapse hc hlen, m.exec_value _ stack (Collapse.isValue_merge hc values)]
    _ = m.run (c.merge values i :: after) stack := (m.run_cons _ _ _).symm

/-! ### Any number of collapses -/

theorem run_of_collapses {ops ops' : List Instruction} (h : Collapses ops ops')
    (stack : List Operand) : m.run ops' stack = m.run ops stack := by
  obtain ⟨n, hn⟩ := h
  obtain ⟨before, values, after, i, c, hc, hlen, hall, -, rfl, rfl⟩ := collapseAt?_eq_some_iff.1 hn
  rw [run_append, run_append]
  congr 1
  funext reached
  exact (m.run_merge hc hlen hall after reached).symm

theorem run_of_reflTransGen {ops ops' : List Instruction}
    (h : Relation.ReflTransGen Collapses ops ops') (stack : List Operand) :
    m.run ops' stack = m.run ops stack := by
  induction h with
  | refl => rfl
  | tail _ hstep ih => rw [m.run_of_collapses hstep, ih]

/-- **A normal form keeps the meaning of a body.** The body cut after its last call and its normal
form end with the same stack, or both fail, whatever the other instructions mean. -/
theorem run_normalForm (body : List Instruction) (h : ∃ i ∈ body, i.code = .call) :
    ∃ ops form, CutAfterLastCall body ops ∧ normalForm? body = some form ∧
      ∀ (m : StackMeaning) (stack : List Operand),
        m.run form.instructions stack = m.run ops stack := by
  obtain ⟨ops, hcut⟩ := exists_cut h
  obtain ⟨form, hform, hinstr⟩ := normalForm?_of_cut hcut
  refine ⟨ops, form, hcut, hform, fun m stack => ?_⟩
  have hcollapses := collapses_foldl_push ops []
  rw [List.reverse_nil, List.nil_append, ← hinstr] at hcollapses
  exact m.run_of_reflTransGen hcollapses stack

/-- The meaning in which a call leaves the tuple of its callee and its arguments, and in which every
other instruction that builds no value fails. -/
def tupleCalls : StackMeaning where
  exec i stack :=
    if i.isValue then some (i.operand :: stack)
    else
      match i.code, stack with
      | .loadAttr, object :: rest => some (.tuple [object, i.operand] :: rest)
      | .buildTuple, stack | .buildSlice, stack => i.operand.count?.bind fun n => gather? n stack
      | .slice form, stack => gather? form.operandCount stack
      | .binary _, stack => gather? 2 stack
      | .call, stack => i.operand.count?.bind fun n => gather? (n + 1) stack
      | _, _ => none
  exec_value _ _ h := if_pos h
  exec_loadAttr _ _ _ := rfl
  exec_buildTuple operand n stack h := by
    show operand.count?.bind (fun n => gather? n stack) = gather? n stack
    rw [h, Option.bind_some]
  exec_buildSlice operand n stack h := by
    show operand.count?.bind (fun n => gather? n stack) = gather? n stack
    rw [h, Option.bind_some]
  exec_slice _ _ _ := rfl
  exec_binary _ _ _ := rfl

theorem run_normalForm_nestedTupleCall :
    (∃ i ∈ nestedTupleCall, i.code = .call) ∧
      ∃ ops form, CutAfterLastCall nestedTupleCall ops ∧
        normalForm? nestedTupleCall = some form ∧
        (∀ (m : StackMeaning) (stack : List Operand),
          m.run form.instructions stack = m.run ops stack) ∧
        tupleCalls.run ops [] = some [.tuple
          [.text "f", .tuple [.text "x", .tuple []], .tuple [.text "y", .text "a"]]] := by
  refine ⟨by decide, ?_⟩
  obtain ⟨ops, form, hcut, hform, hrun⟩ := run_normalForm nestedTupleCall (by decide)
  refine ⟨ops, form, hcut, hform, hrun, ?_⟩
  cases hform
  rw [← hrun]
  decide

end StackMeaning

end CallerFirst
