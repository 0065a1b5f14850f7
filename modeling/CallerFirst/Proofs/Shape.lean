import CallerFirst.Proofs.NormalForm
import Mathlib.Tactic.Common

/-!
# The shape of a normal form

* `normalForm?_eq_some_iff`: a normal form is what the pass leaves of a body that is cut after its
  last call, with the number of instructions left as its end index;
* `cutAfterLastCall_foldl_push`: what the pass leaves is itself cut after its last call;
* `normalForm?_instructions`: a normal form is its own normal form.
-/

namespace CallerFirst

namespace Pass

/-! ### The end index -/

/-- When `n + 1` instructions are still to be passed, `n` are so after one step. -/
theorem endIndex_step {p : Pass} {n : Nat} (h : p.endIndex = p.done.length + (n + 1))
    (i : Instruction) : (p.step i).endIndex = (p.step i).done.length + n := by
  rcases push_cases p.done i with ⟨c, values, rest, hc, hdone, hlen, hall, -⟩ | ⟨hkeep, -⟩
  · -- The values that are taken are there, so that the subtraction does not stop at zero.
    rw [step_merge hc hdone hlen hall]
    simp only [hdone, List.length_append, List.length_reverse, List.length_cons] at h ⊢
    omega
  · rw [step_keep hkeep]
    simp only [List.length_cons]
    omega

theorem endIndex_foldl_step (ops : List Instruction) {p : Pass}
    (h : p.endIndex = p.done.length + ops.length) :
    (ops.foldl step p).endIndex = (ops.foldl step p).done.length := by
  induction ops generalizing p with
  | nil => simpa using h
  | cons i ops ih => exact ih (endIndex_step h i)

theorem endIndex_run (ops : List Instruction) : (run ops).endIndex = (run ops).done.length :=
  endIndex_foldl_step ops (by simp)

end Pass

/-! ### What a normal form is made of -/

/-- The normal form of a sequence that is cut after its last call already. -/
def NormalForm.ofCut (ops : List Instruction) : NormalForm where
  instructions := (ops.foldl Pass.push []).reverse
  endIndex := (ops.foldl Pass.push []).length

theorem NormalForm.ofCut_eq_run (ops : List Instruction) :
    ofCut ops = ⟨(Pass.run ops).done.reverse, (Pass.run ops).endIndex⟩ := by
  rw [Pass.endIndex_run, Pass.done_run]
  rfl

theorem normalForm?_eq_ofCut {body ops : List Instruction} (h : CutAfterLastCall body ops) :
    normalForm? body = some (.ofCut ops) := by
  rw [normalForm?, trimmed?_of_cut h, Option.map_some, NormalForm.ofCut_eq_run]

theorem normalForm?_eq_some_iff {body : List Instruction} {form : NormalForm} :
    normalForm? body = some form ↔ ∃ ops, CutAfterLastCall body ops ∧ form = .ofCut ops := by
  constructor
  · intro h
    by_cases hcall : ∃ i ∈ body, i.code = .call
    · obtain ⟨ops, hcut⟩ := exists_cut hcall
      rw [normalForm?_eq_ofCut hcut, Option.some.injEq] at h
      exact ⟨ops, hcut, h.symm⟩
    · have hnone : lastCallEnd? body = none :=
        lastCallEnd?_eq_none fun i hi hcode => hcall ⟨i, hi, hcode⟩
      simp [normalForm?, trimmed?, hnone] at h
  · rintro ⟨ops, hcut, rfl⟩
    exact normalForm?_eq_ofCut hcut

/-- A sequence that is cut after its last call ends in that call and has no line markers. -/
theorem CutAfterLastCall.eq_append {body ops : List Instruction} (h : CutAfterLastCall body ops) :
    ∃ front last, ops = front ++ [last] ∧ last.code = .call ∧
      ∀ i ∈ front, i.code ≠ .lineMarker := by
  obtain ⟨before, last, after, -, hlast, -, rfl⟩ := h
  refine ⟨before.filter fun i => i.code ≠ .lineMarker, last, ?_, hlast, ?_⟩
  · simp [List.filter_append, hlast]
  · intro i hi
    simpa using (List.mem_filter.1 hi).2

/-- The pass puts a call on top of whatever is behind it. -/
theorem Pass.push_of_call {i : Instruction} (h : i.code = .call) (done : List Instruction) :
    push done i = i :: done := by
  apply push_keep
  intro c hc
  simp [Instruction.collapse?, h] at hc

theorem Pass.foldl_push_call {last : Instruction} (h : last.code = .call)
    (front done : List Instruction) :
    (front ++ [last]).foldl push done = last :: front.foldl push done := by
  rw [List.foldl_append, List.foldl_cons, List.foldl_nil, push_of_call h]

/-- What the pass leaves of a sequence that is cut after its last call is cut there too. -/
theorem cutAfterLastCall_foldl_push {body ops : List Instruction} (h : CutAfterLastCall body ops) :
    CutAfterLastCall (ops.foldl Pass.push []).reverse (ops.foldl Pass.push []).reverse := by
  obtain ⟨front, last, rfl, hlast, hfront⟩ := h.eq_append
  rw [Pass.foldl_push_call hlast, List.reverse_cons]
  refine ⟨_, last, [], rfl, hlast, by simp, ?_⟩
  symm
  refine List.filter_eq_self.2 fun i hi => ?_
  rw [decide_eq_true_iff]
  rcases List.mem_append.1 hi with hi | hi
  · exact Pass.foldl_push_code_ne rfl hfront (by simp) i (List.mem_reverse.1 hi)
  · rw [List.mem_singleton.1 hi, hlast]
    simp

/-- **A normal form is its own normal form**, with the same instructions and the same end. -/
theorem normalForm?_instructions (body : List Instruction) (form : NormalForm)
    (h : normalForm? body = some form) : normalForm? form.instructions = some form := by
  obtain ⟨ops, hcut, rfl⟩ := normalForm?_eq_some_iff.1 h
  -- The stack that the pass leaves is settled, so that a second pass builds the same stack again.
  have hsettled : Pass.Settled (ops.foldl Pass.push []) :=
    Pass.settled_foldl_push ops Pass.settled_nil
  have hagain : (ops.foldl Pass.push []).reverse.foldl Pass.push [] = ops.foldl Pass.push [] :=
    Pass.foldl_push_of_settled hsettled
  calc normalForm? (ops.foldl Pass.push []).reverse
    _ = some (.ofCut (ops.foldl Pass.push []).reverse) :=
      normalForm?_eq_ofCut (cutAfterLastCall_foldl_push hcut)
    _ = some (.ofCut ops) := by
      unfold NormalForm.ofCut
      rw [hagain]

/-- The body of `f((x.a, (y + 1)[:])) + …`: the attribute at its start has no object, and the
operator takes the result of a call, so that neither of the two collapses. -/
def partlyCollapsing : List Instruction :=
  [⟨.loadAttr, .text "k"⟩, ⟨.lineMarker, .int 3⟩, ⟨.loadGlobal, .text "f"⟩, ⟨.loadFast, .text "x"⟩,
    ⟨.loadAttr, .text "a"⟩, ⟨.loadFast, .text "y"⟩, ⟨.loadConst, .int 1⟩, ⟨.binary .add, .missing⟩,
    ⟨.slice .whole, .missing⟩, ⟨.buildTuple, .int 2⟩, ⟨.call, .int 1⟩, ⟨.binary .add, .missing⟩,
    ⟨.call, .int 0⟩, ⟨.other, .missing⟩]

/-- The normal form of `partlyCollapsing`. -/
def partlyCollapsed : NormalForm where
  instructions :=
    [⟨.loadAttr, .text "k"⟩, ⟨.loadGlobal, .text "f"⟩,
      ⟨.tupleValue, .tuple [.tuple [.text "x", .text "a"], .tuple [.tuple [.text "y", .int 1]]]⟩,
      ⟨.call, .int 1⟩, ⟨.binary .add, .missing⟩, ⟨.call, .int 0⟩]
  endIndex := 6

theorem normalForm?_instructions_partlyCollapsed :
    normalForm? partlyCollapsing = some partlyCollapsed ∧
      normalForm? partlyCollapsed.instructions = some partlyCollapsed :=
  ⟨by decide, normalForm?_instructions partlyCollapsing partlyCollapsed (by decide)⟩

end CallerFirst
