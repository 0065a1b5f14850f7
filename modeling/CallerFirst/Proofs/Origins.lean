import CallerFirst.Proofs.CallGrammar
import CallerFirst.Proofs.Findings
import CallerFirst.Proofs.Loading
import CallerFirst.Proofs.Shape
import Mathlib.Tactic.Common

/-!
# Where the parts of a call come from

The values that a call takes are instructions of a normal form, and these go back to the body.

* `StemsFrom`: what the pass leaves is an instruction of the body, or it is merged from values that
  stem from the body in their turn (`stemsFrom_of_mem_normalForm`);
* `StemsFrom.exists_load_of_member`: behind an attribute of a name there is a plain load of it;
* `Program.Calls.stemsFrom`: at whatever depth a call counts, its values stem from the body of the
  caller.
-/

namespace CallerFirst

/-! ### What the pass leaves -/

/-- Where an instruction comes from that the pass over `body` leaves. -/
inductive StemsFrom (body : List Instruction) : Instruction → Prop
  | kept {i : Instruction} (hi : i ∈ body) : StemsFrom body i
  | merged {i : Instruction} {c : Collapse} {values : List Instruction} (hi : i ∈ body)
      (hc : i.collapse? = some c) (hlen : values.length = c.width)
      (hall : ∀ v ∈ values, v.isValue = true) (hvalues : ∀ v ∈ values, StemsFrom body v) :
      StemsFrom body (c.merge values i)

theorem stemsFrom_push {body done : List Instruction} {i : Instruction} (hi : i ∈ body)
    (hdone : ∀ j ∈ done, StemsFrom body j) : ∀ j ∈ Pass.push done i, StemsFrom body j := by
  intro j hj
  rcases Pass.push_cases done i with ⟨c, values, rest, hc, rfl, hlen, hall, hpush⟩ | ⟨-, hpush⟩
  · rw [hpush] at hj
    rcases List.mem_cons.1 hj with rfl | hj
    · refine .merged hi hc hlen hall fun v hv => hdone v ?_
      exact List.mem_append_left _ (List.mem_reverse.2 hv)
    · exact hdone j (List.mem_append_right _ hj)
  · rw [hpush] at hj
    rcases List.mem_cons.1 hj with rfl | hj
    · exact .kept hi
    · exact hdone j hj

theorem stemsFrom_foldl_push {body ops done : List Instruction} (hops : ops ⊆ body)
    (hdone : ∀ i ∈ done, StemsFrom body i) : ∀ i ∈ ops.foldl Pass.push done, StemsFrom body i := by
  induction ops generalizing done with
  | nil => exact hdone
  | cons i ops ih =>
    have hi : i ∈ body := hops List.mem_cons_self
    exact ih (fun j hj => hops (List.mem_cons_of_mem i hj)) (stemsFrom_push hi hdone)

theorem CutAfterLastCall.subset {body ops : List Instruction} (h : CutAfterLastCall body ops) :
    ops ⊆ body := by
  obtain ⟨before, last, after, rfl, -, -, rfl⟩ := h
  intro i hi
  rw [List.append_cons]
  exact List.mem_append_left _ (List.mem_filter.1 hi).1

/-- What is in a normal form stems from the body. -/
theorem stemsFrom_of_mem_normalForm {body : List Instruction} {form : NormalForm}
    (h : normalForm? body = some form) : ∀ i ∈ form.instructions, StemsFrom body i := by
  obtain ⟨ops, hcut, rfl⟩ := normalForm?_eq_some_iff.1 h
  intro i hi
  exact stemsFrom_foldl_push hcut.subset (by simp) i (List.mem_reverse.1 hi)

namespace StemsFrom

variable {body : List Instruction} {i : Instruction}

/-- What is no collapsed value is in the body itself. -/
theorem mem_of_not_isCollapsed (h : StemsFrom body i) (hi : i.code.isCollapsed = false) :
    i ∈ body := by
  cases h with
  | kept hmem => exact hmem
  | merged _ hc =>
    rw [Collapse.isCollapsed_merge hc] at hi
    cases hi

/-- What has a text for an operand is in the body itself: merging leaves tuples. -/
theorem mem_of_text (h : StemsFrom body i) {text : String} (htext : i.operand = .text text) :
    i ∈ body := by
  cases h with
  | kept hmem => exact hmem
  | merged => cases htext

end StemsFrom

/-- Only an attribute is collapsed to an attribute. -/
theorem Instruction.collapse_of_attrValue {i : Instruction} {c : Collapse}
    (h : i.collapse? = some c) (hcode : c.code = .attrValue) : c = ⟨1, .attrValue, true⟩ := by
  obtain ⟨code, operand⟩ := i
  cases code with
  | loadAttr =>
    cases h
    rfl
  | buildTuple | buildSlice =>
    obtain ⟨n, -, rfl⟩ := Option.map_eq_some_iff.1 h
    cases hcode
  | slice form =>
    cases h
    cases hcode
  | binary operator =>
    cases h
    cases hcode
  | _ => cases h

/-- Behind an attribute of a name there is a plain load of that name. -/
theorem StemsFrom.exists_load_of_member {body : List Instruction} (hraw : Uncollapsed body)
    {object attr : String}
    (h : StemsFrom body ⟨.attrValue, .tuple [.text object, .text attr]⟩) :
    ∃ i ∈ body, i.code.isPlainLoad = true ∧ i.operand = .text object := by
  generalize hmember : (⟨.attrValue, .tuple [.text object, .text attr]⟩ : Instruction) = i at h
  cases h with
  | kept hi =>
    have := hraw i hi
    rw [← hmember] at this
    cases this
  | @merged j c values hj hc hlen hall hvalues =>
    obtain ⟨hcode, hoperand⟩ := Instruction.mk.inj hmember
    obtain rfl := Instruction.collapse_of_attrValue hc hcode.symm
    obtain ⟨v, rfl⟩ := List.length_eq_one_iff.1 hlen
    have htext : v.operand = .text object := by
      simp only [if_true, List.map_cons, List.map_nil, List.cons_append, List.nil_append,
        Operand.tuple.injEq, List.cons.injEq] at hoperand
      exact hoperand.1.symm
    -- A value that has been collapsed has a tuple for an operand, so this one is a load.
    have hbody : v ∈ body := (hvalues v List.mem_cons_self).mem_of_text htext
    have hvalue := hall v List.mem_cons_self
    rw [Instruction.isValue, OpCode.isValue, hraw v hbody, Bool.or_false] at hvalue
    exact ⟨v, hbody, hvalue, htext⟩

/-! ### The values of a call -/

theorem Spells.mem_of_value {ops : List Instruction} {parts : List Argument} (h : Spells ops parts)
    {i : Instruction} (hi : .value i ∈ parts) : i ∈ ops := by
  induction h with
  | nil => cases hi
  | value _ _ ih =>
    rcases List.mem_cons.1 hi with heq | hi
    · cases heq
      exact List.mem_cons_self
    · exact List.mem_cons_of_mem _ (ih hi)
  | call _ _ _ _ _ _ ih =>
    rcases List.mem_cons.1 hi with heq | hi
    · cases heq
    · exact List.mem_append_right _ (List.mem_cons_of_mem _ (ih hi))

/-- The parts of a call are spelled by some of the instructions of `ops`. -/
def SpelledWithin (ops : List Instruction) (e : CallExpr) : Prop :=
  ∃ segment, segment ⊆ ops ∧ Spells segment e.parts

theorem SpelledWithin.mono {ops ops' : List Instruction} {e : CallExpr} (h : SpelledWithin ops e)
    (hsub : ops ⊆ ops') : SpelledWithin ops' e := by
  obtain ⟨segment, hsegment, hspells⟩ := h
  exact ⟨segment, List.Subset.trans hsegment hsub, hspells⟩

theorem Spells.spelledWithin {ops : List Instruction} {parts : List Argument}
    (h : Spells ops parts) {e : CallExpr} (he : e.toArgument ∈ parts) : SpelledWithin ops e := by
  induction h with
  | nil => cases he
  | value _ _ ih =>
    rcases List.mem_cons.1 he with heq | he
    · cases heq
    · exact (ih he).mono (List.subset_cons_self _ _)
  | @call ops ops' last d source args parts hparts _ _ hd _ _ ih =>
    rcases List.mem_cons.1 he with heq | he
    · cases e
      cases d
      cases heq
      refine ⟨ops, List.subset_append_left _ _, ?_⟩
      rw [hd.parts_eq]
      exact hparts
    · refine (ih he).mono ?_
      exact List.Subset.trans (List.subset_cons_self last ops') (List.subset_append_right ops _)

theorem SpelledWithin.holds {ops : List Instruction} {e c : CallExpr} (h : SpelledWithin ops e)
    (hc : e.Holds c) : SpelledWithin ops c := by
  obtain ⟨segment, hsegment, hspells⟩ := h
  exact (hspells.spelledWithin (CallExpr.mem_nestedCalls_iff.1 hc)).mono hsegment

theorem scanned_subset (ops : List Instruction) : scanned ops ⊆ ops := by
  induction ops with
  | nil => exact List.Subset.refl _
  | cons i ops ih =>
    rw [scanned]
    split
    · exact List.cons_subset_cons i ih
    · exact List.subset_cons_of_subset i ih

/-- A scan makes the calls that it finds of the instructions that it reads. -/
theorem spelledWithin_of_mem_callSites {isClass : String → Bool} {ops : List Instruction}
    {sites : CallSites} (h : callSites? isClass ops = some sites) {e : CallExpr}
    (he : e ∈ sites.calls) : SpelledWithin ops e := by
  unfold callSites? at h
  split at h
  · next s hs =>
    cases h
    have harity := Scan.hasArity_of_run hs
    have hops : ∀ i ∈ scanned ops, i.isValue = true ∨ i.code = .call ∧ i.HasArity := by
      intro i hi
      exact (isValue_or_call_of_mem_scanned hi).imp_right fun hcall => ⟨hcall, harity i hi hcall⟩
    obtain rfl : s = (scanned ops).foldr (Scan.absorb isClass) {} :=
      Except.ok.inj (hs.symm.trans (reads_scanned isClass harity 0))
    have haccounts : Accounts isClass [] (scanned ops) _ := accounts_foldr_absorb {} rfl hops
    obtain ⟨leftover, rest, parts, hscanned, -, hspells, hfound⟩ := haccounts
    have hpart : e.toArgument ∈ parts := by
      rw [List.mem_reverse, hfound, List.append_nil, keptCalls, List.mem_filter,
        List.mem_filterMap] at he
      obtain ⟨⟨a, ha, hcall⟩, -⟩ := he
      rwa [← Argument.call?_eq_some_iff.1 hcall]
    refine (hspells.spelledWithin hpart).mono (List.Subset.trans ?_ (scanned_subset ops))
    rw [hscanned]
    exact List.subset_append_right leftover rest
  · cases h
    cases he
  · cases h

/-- At whatever depth a call counts, its values stem from the body of the caller. -/
theorem Program.Calls.stemsFrom {p : Program} {nested : Bool} {caller : String} {c : CallExpr}
    (h : p.Calls nested caller c) :
    ∃ f ∈ p.functions, f.id = caller ∧ ∀ i, .value i ∈ c.parts → StemsFrom f.body i := by
  have hspelled : ∃ f ∈ p.functions, f.id = caller ∧
      ∃ form, normalForm? f.body = some form ∧ SpelledWithin form.instructions c := by
    induction h with
    | @found f sites c hf hid hsites hc =>
      unfold Function.callSites? CallSites.ofBody? at hsites
      split at hsites
      · next form hform =>
        exact ⟨f, hf, hid, form, hform, spelledWithin_of_mem_callSites hsites hc⟩
      · cases hsites
        cases hc
    | inner _ _ hc ih =>
      obtain ⟨f, hf, hid, form, hform, houter⟩ := ih
      exact ⟨f, hf, hid, form, hform, houter.holds hc⟩
  obtain ⟨f, hf, hid, form, hform, segment, hsegment, hspells⟩ := hspelled
  refine ⟨f, hf, hid, fun i hi => ?_⟩
  exact stemsFrom_of_mem_normalForm hform i (hsegment (hspells.mem_of_value hi))

end CallerFirst
