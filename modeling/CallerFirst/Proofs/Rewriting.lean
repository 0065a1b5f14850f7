import CallerFirst.Proofs.NormalForm
import Mathlib.Logic.Relation
import Mathlib.Tactic.Common

/-!
# Collapsing as rewriting

Instead of in one pass from left to right, the values of a sequence may be collapsed one at a time,
at any position where the values that an instruction takes stand right before it. The order does not
matter: collapsing always comes to an end, and the end is the normal form.

* `collapseAt?`: one collapse at a position;
* `foldl_push_of_collapses`: a collapse anywhere does not change the outcome of the pass;
* `builders_lt_of_collapses`: it uses up an instruction that builds a value;
* `reverse_push_append`: a step of the pass is the collapse at the position it has reached, so the
  pass itself is a sequence of collapses (`collapses_foldl_push`);
* `collapsesOnlyTo_normalForm`: normal forms are unique.
-/

namespace CallerFirst

/-- Collapses the instruction at position `n` together with the values right before it. The result
is `none` when no instruction that builds a value stands there or when the values are missing. -/
def collapseAt? (ops : List Instruction) (n : Nat) : Option (List Instruction) := do
  let i ← ops[n]?
  let c ← i.collapse?
  let values := (ops.take n).drop (n - c.width)
  if c.width ≤ n ∧ values.all Instruction.isValue then
    some (ops.take (n - c.width) ++ c.merge values i :: ops.drop (n + 1))
  else none

/-- One collapse, at some position. -/
def Collapses (ops ops' : List Instruction) : Prop := ∃ n, collapseAt? ops n = some ops'

/-- What a collapse at a position is made of. -/
theorem collapseAt?_eq_some_iff {ops ops' : List Instruction} {n : Nat} :
    collapseAt? ops n = some ops' ↔ ∃ before values after i c, i.collapse? = some c ∧
      values.length = c.width ∧ (∀ v ∈ values, v.isValue = true) ∧
      n = before.length + values.length ∧ ops = before ++ (values ++ i :: after) ∧
      ops' = before ++ c.merge values i :: after := by
  constructor
  · intro h
    obtain ⟨i, hi, h⟩ := Option.bind_eq_some_iff.1 h
    obtain ⟨c, hc, h⟩ := Option.bind_eq_some_iff.1 h
    obtain ⟨hn, rfl⟩ := List.getElem?_eq_some_iff.1 hi
    simp only [Option.ite_none_right_eq_some, Option.some.injEq, List.all_eq_true] at h
    obtain ⟨⟨hw, hall⟩, rfl⟩ := h
    refine ⟨ops.take (n - c.width), (ops.take n).drop (n - c.width), ops.drop (n + 1), _, c, hc,
      ?_, hall, ?_, ?_, rfl⟩
    · simp only [List.length_drop, List.length_take]
      omega
    · simp only [List.length_drop, List.length_take]
      omega
    · rw [← List.append_assoc, ← List.drop_eq_getElem_cons hn,
        ← Nat.min_eq_left (Nat.sub_le n c.width), ← List.take_take,
        Nat.min_eq_left (Nat.sub_le n c.width), List.take_append_drop, List.take_append_drop]
  · rintro ⟨before, values, after, i, c, hc, hlen, hall, rfl, rfl, rfl⟩
    have hi : (before ++ (values ++ i :: after))[before.length + values.length]? = some i := by
      simp
    have htake : (before ++ (values ++ i :: after)).take (before.length + values.length)
        = before ++ values := by
      rw [← List.append_assoc]
      exact List.take_left' (by simp)
    have hdrop : (before ++ (values ++ i :: after)).drop (before.length + values.length + 1)
        = after := by
      rw [← List.append_assoc, List.append_cons]
      exact List.drop_left' (by simp [Nat.add_assoc])
    have hstart : before.length + values.length - c.width = before.length := by omega
    simp only [collapseAt?, hi, hc, Option.bind_eq_bind, Option.bind_some, htake, hdrop, hstart,
      List.take_left, List.drop_left]
    exact if_pos ⟨by omega, by simpa using hall⟩

/-! ### A collapse does not change the outcome of the pass -/

theorem foldl_push_values {values : List Instruction} (h : ∀ v ∈ values, v.isValue = true)
    (done : List Instruction) : values.foldl Pass.push done = values.reverse ++ done := by
  induction values generalizing done with
  | nil => rfl
  | cons v values ih =>
    rw [List.foldl_cons, Pass.push_of_isValue (h v List.mem_cons_self),
      ih fun w hw => h w (List.mem_cons_of_mem v hw)]
    simp

theorem foldl_push_of_collapses {ops ops' : List Instruction} (h : Collapses ops ops') :
    ops'.foldl Pass.push [] = ops.foldl Pass.push [] := by
  obtain ⟨n, hn⟩ := h
  obtain ⟨before, values, after, i, c, hc, hlen, hall, -, rfl, rfl⟩ := collapseAt?_eq_some_iff.1 hn
  -- After `before`, both sequences leave the collapsed instruction on the same stack.
  rw [List.foldl_append, List.foldl_append, List.foldl_cons, List.foldl_append, List.foldl_cons,
    foldl_push_values hall, Pass.push_merge hc hlen hall,
    Pass.push_of_isValue (Collapse.isValue_merge hc values)]

theorem foldl_push_of_reflTransGen {ops ops' : List Instruction}
    (h : Relation.ReflTransGen Collapses ops ops') :
    ops'.foldl Pass.push [] = ops.foldl Pass.push [] := by
  induction h with
  | refl => rfl
  | tail _ hstep ih => rw [foldl_push_of_collapses hstep, ih]

/-! ### Collapsing comes to an end -/

/-- The number of instructions that build a value. -/
def builders (ops : List Instruction) : Nat := ops.countP fun i => i.collapse?.isSome

theorem builders_lt_of_collapses {ops ops' : List Instruction} (h : Collapses ops ops') :
    builders ops' < builders ops := by
  obtain ⟨n, hn⟩ := h
  obtain ⟨before, values, after, i, c, hc, -, -, -, rfl, rfl⟩ := collapseAt?_eq_some_iff.1 hn
  have hmerge := Instruction.collapse?_of_isValue (Collapse.isValue_merge hc values)
  simp only [builders, List.countP_append, List.countP_cons, hmerge, hc]
  simp
  omega

/-- No sequence of collapses goes on forever. -/
theorem exists_not_collapses (run : ℕ → List Instruction) :
    ∃ n, ¬ Collapses (run n) (run (n + 1)) := by
  by_contra hforever
  have hstep : ∀ n, Collapses (run n) (run (n + 1)) := by
    intro n
    by_contra hn
    exact hforever ⟨n, hn⟩
  have hdrop : ∀ n, builders (run n) + n ≤ builders (run 0) := by
    intro n
    induction n with
    | zero => simp
    | succ n ih =>
      have := builders_lt_of_collapses (hstep n)
      omega
  have := hdrop (builders (run 0) + 1)
  omega

/-! ### Where it ends -/

theorem settled_iff {ops : List Instruction} :
    Pass.Settled ops.reverse ↔ ∀ n, collapseAt? ops n = none := by
  constructor
  · intro h n
    by_contra hn
    obtain ⟨ops', hops'⟩ := Option.ne_none_iff_exists'.1 hn
    obtain ⟨before, values, after, i, c, hc, hlen, hall, -, rfl, -⟩ :=
      collapseAt?_eq_some_iff.1 hops'
    refine h i (values.reverse ++ before.reverse) ⟨after.reverse, by simp⟩ c hc ?_
    exact Pass.ready_iff.2 ⟨values, before.reverse, rfl, hlen, hall⟩
  · rintro h i rest ⟨above, habove⟩ c hc hready
    obtain ⟨values, below, rfl, hlen, hall⟩ := Pass.ready_iff.1 hready
    have hops : ops = below.reverse ++ (values ++ i :: above.reverse) := by
      rw [← List.reverse_reverse ops, ← habove]
      simp
    have hsome := collapseAt?_eq_some_iff.2
      ⟨below.reverse, values, above.reverse, i, c, hc, hlen, hall, rfl, hops, rfl⟩
    rw [h] at hsome
    cases hsome

/-- One step of the pass is the collapse at the position that it has reached, if there is one. -/
theorem reverse_push_append (done rest : List Instruction) (i : Instruction) :
    (Pass.push done i).reverse ++ rest
      = (collapseAt? (done.reverse ++ i :: rest) done.length).getD (done.reverse ++ i :: rest) := by
  rcases Pass.push_cases done i with ⟨c, values, below, hc, rfl, hlen, hall, hpush⟩ | ⟨hkeep, hpush⟩
  · have hsome : collapseAt? ((values.reverse ++ below).reverse ++ i :: rest)
        (values.reverse ++ below).length = some (below.reverse ++ c.merge values i :: rest) :=
      collapseAt?_eq_some_iff.2 ⟨below.reverse, values, rest, i, c, hc, hlen, hall,
        by simp [Nat.add_comm], by simp, rfl⟩
    rw [hpush, hsome, Option.getD_some, List.reverse_cons, List.append_assoc]
    rfl
  · have hnone : collapseAt? (done.reverse ++ i :: rest) done.length = none := by
      by_contra hn
      obtain ⟨ops', hops'⟩ := Option.ne_none_iff_exists'.1 hn
      obtain ⟨before, values, after, j, c, hc, hlen, hall, hpos, heq, -⟩ :=
        collapseAt?_eq_some_iff.1 hops'
      rw [← List.append_assoc] at heq
      obtain ⟨hdone, hj⟩ := List.append_inj heq (by simpa using hpos)
      cases hj
      refine hkeep c hc (Pass.ready_iff.2 ⟨values, before.reverse, ?_, hlen, hall⟩)
      rw [← List.reverse_reverse done, hdone, List.reverse_append]
    rw [hpush, hnone, Option.getD_none, List.reverse_cons, List.append_assoc]
    rfl

/-- The pass is a sequence of collapses. -/
theorem collapses_foldl_push (ops done : List Instruction) :
    Relation.ReflTransGen Collapses (done.reverse ++ ops) (ops.foldl Pass.push done).reverse := by
  induction ops generalizing done with
  | nil => simpa using Relation.ReflTransGen.refl
  | cons i ops ih =>
    refine Relation.ReflTransGen.trans ?_ (ih (Pass.push done i))
    rw [reverse_push_append]
    cases h : collapseAt? (done.reverse ++ i :: ops) done.length with
    | none => exact Relation.ReflTransGen.refl
    | some ops' => exact Relation.ReflTransGen.single ⟨done.length, h⟩

/-- Collapsing `ops` in any order comes to an end, and it can end in `form` and nowhere else. -/
structure CollapsesOnlyTo (ops form : List Instruction) : Prop where
  /-- No sequence of collapses goes on forever. -/
  ends : ∀ run : ℕ → List Instruction, run 0 = ops → ∃ n, ¬ Collapses (run n) (run (n + 1))
  /-- Some sequence of collapses leads to `form`. -/
  reaches : Relation.ReflTransGen Collapses ops form
  /-- In `form` no position can be collapsed. -/
  stuck : ∀ n, collapseAt? form n = none
  /-- A sequence of collapses that cannot go on has led to `form`. -/
  unique : ∀ last, Relation.ReflTransGen Collapses ops last → (∀ n, collapseAt? last n = none) →
    last = form

theorem collapsesOnlyTo_foldl_push (ops : List Instruction) :
    CollapsesOnlyTo ops (ops.foldl Pass.push []).reverse where
  ends run _ := exists_not_collapses run
  reaches := by simpa using collapses_foldl_push ops []
  stuck := settled_iff.1 <| by
    rw [List.reverse_reverse]
    exact Pass.settled_foldl_push ops Pass.settled_nil
  unique last hlast hstuck := by
    have hpass := Pass.foldl_push_of_settled (settled_iff.2 hstuck)
    rw [List.reverse_reverse, foldl_push_of_reflTransGen hlast] at hpass
    rw [hpass, List.reverse_reverse]

/-- **The pass computes the unique normal form.** In whatever order the values of a body, cut after
its last call, are collapsed, the end is the normal form of the body. -/
theorem collapsesOnlyTo_normalForm (body : List Instruction) (h : ∃ i ∈ body, i.code = .call) :
    ∃ ops form, CutAfterLastCall body ops ∧ normalForm? body = some form ∧
      CollapsesOnlyTo ops form.instructions := by
  obtain ⟨ops, hcut⟩ := exists_cut h
  obtain ⟨form, hform, hinstr⟩ := normalForm?_of_cut hcut
  refine ⟨ops, form, hcut, hform, ?_⟩
  rw [hinstr]
  exact collapsesOnlyTo_foldl_push ops

/-- The body of `f((x, ()), y.a)`, with a line marker inside and an instruction after the call. -/
def nestedTupleCall : List Instruction :=
  [⟨.loadName, .text "f"⟩, ⟨.loadFast, .text "x"⟩, ⟨.buildTuple, .int 0⟩, ⟨.lineMarker, .int 7⟩,
    ⟨.buildTuple, .int 2⟩, ⟨.loadFast, .text "y"⟩, ⟨.loadAttr, .text "a"⟩, ⟨.call, .int 2⟩,
    ⟨.other, .missing⟩]

theorem collapsesOnlyTo_normalForm_nestedTupleCall :
    (∃ i ∈ nestedTupleCall, i.code = .call) ∧
      ∃ ops form, CutAfterLastCall nestedTupleCall ops ∧
        normalForm? nestedTupleCall = some form ∧ CollapsesOnlyTo ops form.instructions :=
  ⟨by decide, collapsesOnlyTo_normalForm nestedTupleCall (by decide)⟩

end CallerFirst
