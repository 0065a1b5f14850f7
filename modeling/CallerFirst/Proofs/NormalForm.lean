import CallerFirst.NormalForm
import Mathlib.Data.List.Basic
import Mathlib.Tactic.Common

/-!
# How a normal form comes about

The pass keeps the instructions behind it as a stack, the latest on top. `push` is what one
instruction does to that stack; the end index that the pass carries along has no part in it.

* `push_cases`: an instruction either takes the values on top of the stack and leaves the collapsed
  instruction in their place, or goes onto the stack as it is;
* `push_append`: it never reaches below an instruction that is no value;
* `Settled`: no instruction of the stack could collapse the values below it. The pass keeps every
  stack settled (`settled_push`), and it changes nothing in a sequence that is settled already
  (`foldl_push_of_settled`);
* `normalForm?_of_cut`: the normal form of a body is the pass over the body cut after its last call.
-/

namespace CallerFirst

/-! ### Instructions that collapse and instructions that are values -/

theorem Instruction.code_ne_of_isValue {i : Instruction} (h : i.isValue = true) {code : OpCode}
    (hcode : code.isValue = false) : i.code ≠ code := by
  rintro rfl
  rw [isValue, hcode] at h
  cases h

theorem Instruction.isValue_of_isPlainLoad {i : Instruction} (h : i.code.isPlainLoad = true) :
    i.isValue = true := by
  rw [isValue, OpCode.isValue, h, Bool.true_or]

theorem Instruction.isValue_of_isCollapsed {i : Instruction} (h : i.code.isCollapsed = true) :
    i.isValue = true := by
  rw [isValue, OpCode.isValue, h, Bool.or_true]

theorem Instruction.collapse?_of_isValue {i : Instruction} (h : i.isValue = true) :
    i.collapse? = none := by
  obtain ⟨code, operand⟩ := i
  cases code <;>
    simp_all [isValue, OpCode.isValue, OpCode.isPlainLoad, OpCode.isCollapsed, collapse?]

theorem Instruction.code_ne_of_collapse? {i : Instruction} {c : Collapse}
    (h : i.collapse? = some c) : i.code ≠ .call ∧ i.code ≠ .storeMap := by
  constructor <;>
  · intro hcode
    simp [collapse?, hcode] at h

/-- What collapsing leaves behind has a collapsed code. -/
theorem Collapse.isCollapsed_merge {i : Instruction} {c : Collapse} (h : i.collapse? = some c)
    (values : List Instruction) : (c.merge values i).code.isCollapsed = true := by
  obtain ⟨code, operand⟩ := i
  cases code with
  | loadAttr => cases h; rfl
  | slice form => cases h; rfl
  | binary operator => cases h; rfl
  | buildTuple | buildSlice =>
    obtain ⟨n, -, rfl⟩ := Option.map_eq_some_iff.1 h
    rfl
  | _ => cases h

/-- What collapsing leaves behind is a value. -/
theorem Collapse.isValue_merge {i : Instruction} {c : Collapse} (h : i.collapse? = some c)
    (values : List Instruction) : (c.merge values i).isValue = true :=
  Instruction.isValue_of_isCollapsed (isCollapsed_merge h values)

namespace Pass

theorem ready_iff {c : Collapse} {done : List Instruction} :
    Ready c done ↔ ∃ values rest : List Instruction, done = values.reverse ++ rest ∧
      values.length = c.width ∧ ∀ v ∈ values, v.isValue = true := by
  constructor
  · rintro ⟨hlen, hall⟩
    refine ⟨(done.take c.width).reverse, done.drop c.width, by simp, by simpa using hlen, ?_⟩
    simpa using hall
  · rintro ⟨values, rest, rfl, hlen, hall⟩
    have htake : (values.reverse ++ rest).take c.width = values.reverse :=
      List.take_left' (by simpa using hlen)
    refine ⟨?_, ?_⟩
    · rw [htake, List.length_reverse, hlen]
    · rw [htake]
      simpa using hall

/-! ### The two things that a step can do -/

theorem step_merge {p : Pass} {i : Instruction} {c : Collapse} (hc : i.collapse? = some c)
    {values rest : List Instruction} (hdone : p.done = values.reverse ++ rest)
    (hlen : values.length = c.width) (hall : ∀ v ∈ values, v.isValue = true) :
    p.step i = ⟨c.merge values i :: rest, p.endIndex - c.width⟩ := by
  have hready : Ready c p.done := ready_iff.2 ⟨values, rest, hdone, hlen, hall⟩
  have hw : c.width = values.reverse.length := by rw [List.length_reverse, hlen]
  simp only [step, hc, if_pos hready]
  rw [hdone, hw, List.take_left, List.drop_left, List.reverse_reverse]

theorem step_keep {p : Pass} {i : Instruction}
    (h : ∀ c, i.collapse? = some c → ¬ Ready c p.done) : p.step i = ⟨i :: p.done, p.endIndex⟩ := by
  unfold step
  split
  · rfl
  · next c hc => rw [if_neg (h c hc)]

/-! ### The stack of one pass -/

/-- What an instruction does to the stack of the instructions behind it. -/
def push (done : List Instruction) (i : Instruction) : List Instruction :=
  (step ⟨done, 0⟩ i).done

theorem done_step (p : Pass) (i : Instruction) : (p.step i).done = push p.done i := by
  unfold push step
  split
  · rfl
  · split <;> rfl

theorem done_foldl_step (ops : List Instruction) (p : Pass) :
    (ops.foldl step p).done = ops.foldl push p.done := by
  induction ops generalizing p with
  | nil => rfl
  | cons i ops ih => rw [List.foldl_cons, ih, done_step, List.foldl_cons]

theorem done_run (ops : List Instruction) : (run ops).done = ops.foldl push [] :=
  done_foldl_step ops _

theorem push_merge {i : Instruction} {c : Collapse} (hc : i.collapse? = some c)
    {values : List Instruction} (hlen : values.length = c.width)
    (hall : ∀ v ∈ values, v.isValue = true) (rest : List Instruction) :
    push (values.reverse ++ rest) i = c.merge values i :: rest := by
  rw [push, step_merge hc rfl hlen hall]

theorem push_keep {i : Instruction} {done : List Instruction}
    (h : ∀ c, i.collapse? = some c → ¬ Ready c done) : push done i = i :: done := by
  rw [push, step_keep h]

theorem push_of_isValue {i : Instruction} (h : i.isValue = true) (done : List Instruction) :
    push done i = i :: done :=
  push_keep fun c hc => by rw [Instruction.collapse?_of_isValue h] at hc; cases hc

/-- The two things that an instruction can do to the stack. -/
theorem push_cases (done : List Instruction) (i : Instruction) :
    (∃ (c : Collapse) (values rest : List Instruction), i.collapse? = some c ∧
      done = values.reverse ++ rest ∧ values.length = c.width ∧
      (∀ v ∈ values, v.isValue = true) ∧ push done i = c.merge values i :: rest) ∨
    ((∀ c, i.collapse? = some c → ¬ Ready c done) ∧ push done i = i :: done) := by
  by_cases h : ∃ c, i.collapse? = some c ∧ Ready c done
  · obtain ⟨c, hc, hready⟩ := h
    obtain ⟨values, rest, rfl, hlen, hall⟩ := ready_iff.1 hready
    exact Or.inl ⟨c, values, rest, hc, rfl, hlen, hall, push_merge hc hlen hall rest⟩
  · have hkeep : ∀ c, i.collapse? = some c → ¬ Ready c done := fun c hc hr => h ⟨c, hc, hr⟩
    exact Or.inr ⟨hkeep, push_keep hkeep⟩

/-! ### The pass makes nothing but values -/

theorem push_code_ne {code : OpCode} (hcode : code.isValue = false) {done : List Instruction}
    {i : Instruction} (hi : i.code ≠ code) (hdone : ∀ j ∈ done, j.code ≠ code) :
    ∀ j ∈ push done i, j.code ≠ code := by
  intro j hj
  rcases push_cases done i with ⟨c, values, rest, hc, rfl, -, -, hpush⟩ | ⟨-, hpush⟩
  · rw [hpush] at hj
    rcases List.mem_cons.1 hj with rfl | hj
    · exact Instruction.code_ne_of_isValue (Collapse.isValue_merge hc values) hcode
    · exact hdone j (List.mem_append_right _ hj)
  · rw [hpush] at hj
    rcases List.mem_cons.1 hj with rfl | hj
    · exact hi
    · exact hdone j hj

/-- A code that stands for no value is not left by the pass unless it was there before. -/
theorem foldl_push_code_ne {code : OpCode} (hcode : code.isValue = false)
    {ops done : List Instruction} (hops : ∀ i ∈ ops, i.code ≠ code)
    (hdone : ∀ i ∈ done, i.code ≠ code) : ∀ i ∈ ops.foldl push done, i.code ≠ code := by
  induction ops generalizing done with
  | nil => exact hdone
  | cons i ops ih =>
    have hi : i.code ≠ code := hops i List.mem_cons_self
    exact ih (fun j hj => hops j (List.mem_cons_of_mem i hj)) (push_code_ne hcode hi hdone)

/-! ### Nothing reaches below an instruction that is no value -/

theorem ready_append_iff {c : Collapse} {top rest : List Instruction}
    (hrest : ∀ i ∈ rest.head?, i.isValue = false) : Ready c (top ++ rest) ↔ Ready c top := by
  constructor
  · rintro ⟨hlen, hall⟩
    have hle : c.width ≤ top.length := by
      by_contra hlt
      obtain ⟨k, hk⟩ : ∃ k, c.width = top.length + (k + 1) := ⟨c.width - top.length - 1, by omega⟩
      cases rest with
      | nil => simp at hlen; omega
      | cons i rest =>
        rw [hk, List.take_length_add_append, List.take_succ_cons, List.all_append,
          List.all_cons] at hall
        simp [hrest i rfl] at hall
    have htake : (top ++ rest).take c.width = top.take c.width := List.take_append_of_le_length hle
    rw [htake] at hlen hall
    exact ⟨hlen, hall⟩
  · intro h
    obtain ⟨values, below, rfl, hlen, hall⟩ := ready_iff.1 h
    exact ready_iff.2 ⟨values, below ++ rest, by simp, hlen, hall⟩

theorem push_append {top rest : List Instruction} (hrest : ∀ i ∈ rest.head?, i.isValue = false)
    (i : Instruction) : push (top ++ rest) i = push top i ++ rest := by
  rcases push_cases top i with ⟨c, values, below, hc, rfl, hlen, hall, hpush⟩ | ⟨hkeep, hpush⟩
  · rw [hpush, List.append_assoc, push_merge hc hlen hall]
    rfl
  · rw [hpush, push_keep fun c hc => by rw [ready_append_iff hrest]; exact hkeep c hc]
    rfl

theorem foldl_push_append {rest : List Instruction} (hrest : ∀ i ∈ rest.head?, i.isValue = false)
    (ops top : List Instruction) : ops.foldl push (top ++ rest) = ops.foldl push top ++ rest := by
  induction ops generalizing top with
  | nil => rfl
  | cons i ops ih => rw [List.foldl_cons, push_append hrest, ih, List.foldl_cons]

/-! ### Settled stacks -/

/-- No instruction of the stack could collapse the values right below it. -/
def Settled (done : List Instruction) : Prop :=
  ∀ i rest, i :: rest <:+ done → ∀ c, i.collapse? = some c → ¬ Ready c rest

theorem settled_nil : Settled [] := by
  intro i rest h
  simp at h

theorem Settled.of_suffix {done rest : List Instruction} (h : Settled done) (hs : rest <:+ done) :
    Settled rest :=
  fun i below hi => h i below (hi.trans hs)

theorem Settled.cons {done : List Instruction} (h : Settled done) {i : Instruction}
    (hi : ∀ c, i.collapse? = some c → ¬ Ready c done) : Settled (i :: done) := by
  intro j rest hj
  rcases List.suffix_cons_iff.1 hj with heq | hj
  · cases heq
    exact hi
  · exact h j rest hj

theorem settled_push {done : List Instruction} (h : Settled done) (i : Instruction) :
    Settled (push done i) := by
  rcases push_cases done i with ⟨c, values, rest, hc, rfl, hlen, hall, hpush⟩ | ⟨hkeep, hpush⟩
  · rw [hpush]
    refine (h.of_suffix (List.suffix_append _ _)).cons fun d hd => ?_
    rw [Instruction.collapse?_of_isValue (Collapse.isValue_merge hc values)] at hd
    cases hd
  · rw [hpush]
    exact h.cons hkeep

theorem settled_foldl_push (ops : List Instruction) {done : List Instruction} (h : Settled done) :
    Settled (ops.foldl push done) := by
  induction ops generalizing done with
  | nil => exact h
  | cons i ops ih => exact ih (settled_push h i)

/-- The pass leaves a settled sequence as it is. -/
theorem foldl_push_of_settled {done : List Instruction} (h : Settled done) :
    done.reverse.foldl push [] = done := by
  induction done with
  | nil => rfl
  | cons i done ih =>
    rw [List.reverse_cons, List.foldl_append, ih (h.of_suffix (List.suffix_cons i done))]
    exact push_keep (h i done List.suffix_rfl)

end Pass

/-! ### The cut after the last call -/

/-- `ops` is the body up to its last call, without line markers. -/
def CutAfterLastCall (body ops : List Instruction) : Prop :=
  ∃ before last after, body = before ++ last :: after ∧ last.code = .call ∧
    (∀ i ∈ after, i.code ≠ .call) ∧ ops = (before ++ [last]).filter fun i => i.code ≠ .lineMarker

theorem exists_cut {body : List Instruction} (h : ∃ i ∈ body, i.code = .call) :
    ∃ ops, CutAfterLastCall body ops := by
  induction body with
  | nil => simp at h
  | cons j body ih =>
    by_cases hbody : ∃ i ∈ body, i.code = .call
    · obtain ⟨ops, before, last, after, rfl, hlast, hafter, -⟩ := ih hbody
      exact ⟨_, j :: before, last, after, rfl, hlast, hafter, rfl⟩
    · obtain ⟨i, hi, hcall⟩ := h
      rcases List.mem_cons.1 hi with rfl | hi
      · exact ⟨_, [], i, body, rfl, hcall, fun k hk hc => hbody ⟨k, hk, hc⟩, rfl⟩
      · exact absurd ⟨i, hi, hcall⟩ hbody

theorem lastCallEnd?_eq_none {body : List Instruction} (h : ∀ i ∈ body, i.code ≠ .call) :
    lastCallEnd? body = none := by
  induction body with
  | nil => rfl
  | cons i body ih =>
    rw [lastCallEnd?, ih fun j hj => h j (List.mem_cons_of_mem i hj)]
    exact if_neg (h i List.mem_cons_self)

theorem lastCallEnd?_append {before after : List Instruction} {last : Instruction}
    (hlast : last.code = .call) (hafter : ∀ i ∈ after, i.code ≠ .call) :
    lastCallEnd? (before ++ last :: after) = some (before.length + 1) := by
  induction before with
  | nil => simp [lastCallEnd?, lastCallEnd?_eq_none hafter, hlast]
  | cons i before ih => simp [lastCallEnd?, ih]

theorem trimmed?_of_cut {body ops : List Instruction} (h : CutAfterLastCall body ops) :
    trimmed? body = some ops := by
  obtain ⟨before, last, after, rfl, hlast, hafter, rfl⟩ := h
  rw [trimmed?, lastCallEnd?_append hlast hafter, Option.map_some, List.append_cons,
    List.take_left' (by simp)]

theorem normalForm?_of_cut {body ops : List Instruction} (h : CutAfterLastCall body ops) :
    ∃ form, normalForm? body = some form ∧
      form.instructions = (ops.foldl Pass.push []).reverse := by
  rw [normalForm?, trimmed?_of_cut h]
  exact ⟨_, rfl, congrArg List.reverse (Pass.done_run ops)⟩

end CallerFirst
