import CallerFirst.Proofs.CallSites
import Mathlib.Algebra.Ring.Int.Defs
import Mathlib.Tactic.Common

/-!
# The grammar that a scan parses

A call is spelled by its callee, then its arguments in order, then the instruction that calls, where
a callee or an argument is one value or a spelled call. A scan takes a sequence apart by this
grammar, from its end on, as far as that is possible.

* `scanned`: the instructions of a sequence that a scan takes into account;
* `Spells`, `SpellsCall`: the grammar;
* `Parses`: a sequence is a leftover in which no call ends, followed by values and spelled calls;
* `reads_scanned`, `Scan.hasArity_of_run`: a scan comes to its end exactly when each call that it
  takes into account has an arity;
* `Spells.foldr_absorb`: reading what spells some parts delivers them;
* `Accounts`: what the state of a scan says about the instructions read, kept by each of them
  (`Accounts.absorb`);
* `Unfinished.leavesAtMost`: counting values, no call can end in what is unfinished;
* `callSites?_parses`: the calls found are those of the parse.
-/

namespace CallerFirst

/-! ### The grammar -/

/-- The instructions that a scan takes into account: the values and the calls whose result does not
go into a map. -/
def scanned : List Instruction → List Instruction
  | [] => []
  | i :: rest =>
    if i.isValue ∨ i.code = .call ∧ ¬ rest.head?.any (·.code = .storeMap) then i :: scanned rest
    else scanned rest

/-- What a part is as a callee: a name, if it is a load of that name; a member, if it is the
collapsed attribute of a name; or else itself. -/
inductive Argument.CalledAs : Argument → Callee → Prop
  | name {i : Instruction} {text : String} (hload : i.code.isNameLoad = true)
      (htext : i.operand = .text text) : CalledAs (.value i) (.name text)
  | member {object attr : String} :
      CalledAs (.value ⟨.attrValue, .tuple [.text object, .text attr]⟩) (.member object attr)
  | computed {i : Instruction}
      (hname : ∀ text, i.code.isNameLoad = true → i.operand ≠ .text text)
      (hmember : ∀ object attr, i ≠ ⟨.attrValue, .tuple [.text object, .text attr]⟩) :
      CalledAs (.value i) (.computed (.value i))
  | result {arity : Nat} {parts : List Argument} :
      CalledAs (.call arity parts) (.computed (.call arity parts))

/-- A call is complete, with `source` as what is called and with the arguments `args`. -/
structure CallExpr.IsCallOf (e : CallExpr) (source : Argument) (args : List Argument) : Prop where
  parts_eq : e.parts = source :: args
  arity_eq : e.arity = args.length
  args_eq : e.args = args
  callee_eq : ∃ callee, e.callee? = some callee ∧ source.CalledAs callee

/-- Parts are spelled one after the other: a value by itself, and a call by what is called, its
arguments in order, and the instruction that calls with that many arguments. -/
inductive Spells : List Instruction → List Argument → Prop
  | nil : Spells [] []
  | value {i : Instruction} {ops : List Instruction} {parts : List Argument}
      (hi : i.isValue = true) (hrest : Spells ops parts) : Spells (i :: ops) (.value i :: parts)
  | call {ops ops' : List Instruction} {last : Instruction} {e : CallExpr} {source : Argument}
      {args parts : List Argument} (hparts : Spells ops (source :: args))
      (hlast : last.code = .call) (hcount : last.operand.count? = some args.length)
      (he : e.IsCallOf source args) (hrest : Spells ops' parts) :
      Spells (ops ++ last :: ops') (e.toArgument :: parts)

/-- A segment spells one complete call. -/
def SpellsCall (segment : List Instruction) (e : CallExpr) : Prop := Spells segment [e.toArgument]

/-- A sequence is a leftover, in which no call ends, followed by values and spelled calls. -/
structure Parses (ops leftover : List Instruction) (parts : List Argument) : Prop where
  spelled : ∃ rest, ops = leftover ++ rest ∧ Spells rest parts
  /-- The leftover is empty or ends in an instruction that calls. -/
  last_call : ∀ i ∈ leftover.getLast?, i.code = .call
  /-- No call that is completely spelled ends the leftover. -/
  incomplete : ∀ (suffix : List Instruction) (e : CallExpr), suffix <:+ leftover →
    ¬ SpellsCall suffix e

/-- Whether the callee of a call is the plain name of a class. -/
def CallExpr.constructs (isClass : String → Bool) (e : CallExpr) : Bool :=
  match e.callee? with
  | some (.name name) => isClass name
  | _ => false

/-- The calls among some parts, without those that construct an object. -/
def keptCalls (isClass : String → Bool) (parts : List Argument) : List CallExpr :=
  (parts.filterMap Argument.call?).filter fun e => !e.constructs isClass

/-! ### Callees -/

theorem Argument.calledAs_toCallee (a : Argument) : a.CalledAs a.toCallee := by
  unfold toCallee
  split
  · exact .member
  · next i hmember =>
    split
    · next name hload htext => exact .name hload htext
    · next hname =>
      refine .computed (fun text hload htext => ?_) fun object attr hi => ?_
      · exact hname text hload htext
      · exact hmember object attr (by rw [hi])
  · exact .result

theorem CallExpr.isCallOf_mk (source : Argument) (args : List Argument) :
    IsCallOf ⟨args.length, source :: args⟩ source args where
  parts_eq := rfl
  arity_eq := rfl
  args_eq := by simp [CallExpr.args, isComplete]
  callee_eq := by
    refine ⟨source.toCallee, ?_, source.calledAs_toCallee⟩
    simp [callee?, calleePart?, isComplete]

theorem CallExpr.IsCallOf.eq_mk {e : CallExpr} {source : Argument} {args : List Argument}
    (h : e.IsCallOf source args) : e = ⟨args.length, source :: args⟩ := by
  rw [← h.parts_eq, ← h.arity_eq]

theorem CallExpr.isConstructor_eq_constructs (isClass : String → Bool) (e : CallExpr) :
    e.isConstructor isClass = e.constructs isClass := by
  unfold isConstructor calleeName? constructs
  cases e.callee? with
  | none => rfl
  | some callee => cases callee <;> rfl

theorem keptCalls_cons (isClass : String → Bool) (a : Argument) (parts : List Argument) :
    keptCalls isClass (a :: parts) = keptCalls isClass [a] ++ keptCalls isClass parts := by
  rw [keptCalls, keptCalls, keptCalls, ← List.filter_append, ← List.filterMap_append]
  rfl

/-! ### Reading what is scanned -/

namespace Scan

variable {isClass : String → Bool} {s : Scan}

/-- Takes an instruction that is scanned: a call is opened, and a value is fed. -/
def absorb (isClass : String → Bool) (i : Instruction) (s : Scan) : Scan :=
  if i.code = .call then { s with pending := ⟨i.operand.count?.getD 0, []⟩ :: s.pending }
  else s.feed isClass i

theorem absorb_value {i : Instruction} (hi : i.isValue = true) :
    absorb isClass i s = s.deliver isClass (.value i) := by
  rw [absorb, if_neg (Instruction.code_ne_of_isValue hi rfl), feed_eq_deliver]

theorem absorb_call {i : Instruction} (hi : i.code = .call) {arity : Nat}
    (hcount : i.operand.count? = some arity) :
    absorb isClass i s = { s with pending := ⟨arity, []⟩ :: s.pending } := by
  rw [absorb, if_pos hi, hcount, Option.getD_some]

/-- A call whose result goes into a map is passed over. -/
theorem Reads.stored {ops : List Instruction} {i : Instruction} (h : Reads isClass ops s)
    (hi : i.code = .call) (hnext : ops.head?.any (·.code = .storeMap) = true) :
    Reads isClass (i :: ops) s := by
  refine h.cons fun index => ?_
  rw [step, if_pos hi, if_pos hnext]

end Scan

/-- The call `i` gives an arity that can be represented. -/
def Instruction.HasArity (i : Instruction) : Prop :=
  ∃ n ∈ i.operand.count?, n < CallExpr.arityLimit

instance (i : Instruction) : Decidable i.HasArity :=
  inferInstanceAs (Decidable (∃ n ∈ i.operand.count?, n < CallExpr.arityLimit))

/-- A scan reads a sequence by absorbing the instructions that it takes into account. -/
theorem reads_scanned (isClass : String → Bool) {ops : List Instruction}
    (h : ∀ i ∈ scanned ops, i.code = .call → i.HasArity) :
    Scan.Reads isClass ops ((scanned ops).foldr (Scan.absorb isClass) {}) := by
  induction ops with
  | nil => exact Scan.Reads.nil
  | cons i rest ih =>
    rw [scanned] at h ⊢
    split
    · next htaken =>
      rw [if_pos htaken] at h
      have hrest := ih fun j hj => h j (List.mem_cons_of_mem i hj)
      rw [List.foldr_cons]
      by_cases hvalue : i.isValue = true
      · rw [Scan.absorb_value hvalue, ← Scan.feed_eq_deliver]
        exact hrest.value hvalue
      · obtain ⟨hcall, hnext⟩ := htaken.resolve_left hvalue
        obtain ⟨n, hcount, hn⟩ := h i List.mem_cons_self hcall
        rw [Scan.absorb_call hcall hcount]
        refine hrest.call (fun j hj hstore => hnext ?_) hcall hcount hn
        rw [Option.mem_def.1 hj]
        simpa using hstore
    · next hpassed =>
      rw [if_neg hpassed] at h
      obtain ⟨hvalue, hstored⟩ := not_or.1 hpassed
      by_cases hcall : i.code = .call
      · have hnext : rest.head?.any (·.code = .storeMap) = true := by
          by_contra hunstored
          exact hstored ⟨hcall, hunstored⟩
        exact (ih h).stored hcall hnext
      · exact (ih h).skip hcall (by simpa using hvalue)

theorem Scan.hasArity_of_openCall {s t : Scan} {index : Nat} {i : Instruction}
    (h : s.openCall index i.operand = .ok t) : i.HasArity := by
  unfold openCall at h
  split at h
  · cases h
  · next arity hcount =>
    by_cases hlt : arity < CallExpr.arityLimit
    · exact ⟨arity, hcount, hlt⟩
    · rw [CallExpr.new?, if_neg hlt] at h
      cases h

/-- Where a scan comes to an end, each call that it takes into account has an arity. -/
theorem Scan.hasArity_of_run {isClass : String → Bool} {ops : List Instruction} {index : Nat}
    {s : Scan} (h : run isClass index ops = .ok s) :
    ∀ i ∈ scanned ops, i.code = .call → i.HasArity := by
  induction ops generalizing index s with
  | nil => simp [scanned]
  | cons j ops ih =>
    rw [run] at h
    split at h
    · cases h
    · next r hr =>
      intro i hi hcall
      rw [scanned] at hi
      split at hi
      · next htaken =>
        rcases List.mem_cons.1 hi with rfl | hi
        · have hnext := (htaken.resolve_left fun hvalue =>
            Instruction.code_ne_of_isValue hvalue rfl hcall).2
          rw [step, if_pos hcall, if_neg hnext] at h
          exact hasArity_of_openCall h
        · exact ih hr i hi hcall
      · exact ih hr i hi hcall

/-! ### Reading what is spelled -/

section Delivery

variable {isClass : String → Bool}

/-- Arguments that are delivered, the last one first, are added to a pending call that has room. -/
theorem Scan.foldr_deliver {s : Scan} {arity : Nat} {known : List Argument} {outer : List CallExpr}
    (hs : s.pending = ⟨arity, known⟩ :: outer) (args : List Argument)
    (hroom : args.length + known.length ≤ arity) :
    args.foldr (fun a s => s.deliver isClass a) s
      = { s with pending := ⟨arity, args ++ known⟩ :: outer } := by
  induction args with
  | nil => simp [← hs]
  | cons a args ih =>
    rw [List.length_cons] at hroom
    have hlt : (args ++ known).length < arity := by
      rw [List.length_append]
      omega
    rw [List.foldr_cons, ih (by omega), deliver_of_lt rfl hlt, List.cons_append]

/-- Reading what spells some parts delivers them, the last one first. -/
theorem Spells.foldr_absorb {ops : List Instruction} {parts : List Argument} (h : Spells ops parts)
    (s : Scan) :
    ops.foldr (Scan.absorb isClass) s = parts.foldr (fun a s => s.deliver isClass a) s := by
  induction h generalizing s with
  | nil => rfl
  | value hi _ ih => rw [List.foldr_cons, List.foldr_cons, ih, Scan.absorb_value hi]
  | @call ops ops' last e source args parts _ hlast hcount he _ ihparts ihrest =>
    -- The instruction that calls opens the call, the arguments fill it and the callee completes it.
    rw [List.foldr_append, List.foldr_cons, ihrest, Scan.absorb_call hlast hcount, ihparts,
      List.foldr_cons, Scan.foldr_deliver rfl args (by simp), Scan.deliver_of_eq rfl (by simp),
      List.foldr_cons, he.eq_mk, List.append_nil]
    rfl

/-- What is delivered while no call is pending is found, if it is a call and constructs no
object. -/
theorem Scan.deliver_idle (s : Scan) (hs : s.pending = []) (a : Argument) :
    (s.deliver isClass a).pending = [] ∧
      (s.deliver isClass a).found = keptCalls isClass [a] ++ s.found := by
  cases a with
  | value i => simp [deliver, hs, keptCalls, Argument.call?]
  | call arity parts =>
    have hadd : s.deliver isClass (.call arity parts) = s.add isClass ⟨arity, parts⟩ := by
      simp [deliver, hs]
    rw [hadd, add, CallExpr.isConstructor_eq_constructs]
    by_cases hclass : (⟨arity, parts⟩ : CallExpr).constructs isClass = true
    · simp [hclass, hs, keptCalls, Argument.call?]
    · simp [hclass, hs, keptCalls, Argument.call?]

theorem Scan.foldr_deliver_idle (s : Scan) (hs : s.pending = []) (parts : List Argument) :
    (parts.foldr (fun a s => s.deliver isClass a) s).pending = [] ∧
      (parts.foldr (fun a s => s.deliver isClass a) s).found
        = keptCalls isClass parts ++ s.found := by
  induction parts with
  | nil => exact ⟨hs, rfl⟩
  | cons a parts ih =>
    obtain ⟨hpending, hfound⟩ := ih
    rw [List.foldr_cons, keptCalls_cons isClass a parts, List.append_assoc, ← hfound]
    exact deliver_idle _ hpending a

end Delivery

/-! ### What a scan has read -/

theorem Spells.append {ops ops' : List Instruction} {parts parts' : List Argument}
    (h : Spells ops parts) (h' : Spells ops' parts') : Spells (ops ++ ops') (parts ++ parts') := by
  induction h with
  | nil => exact h'
  | value hi _ ih => exact .value hi ih
  | call hparts hlast hcount he _ _ ih =>
    rw [List.append_assoc]
    exact .call hparts hlast hcount he ih

/-- What stands for pending calls, the innermost first: the parts known of each, and the instruction
that calls. At least the callee of each is missing. -/
inductive Unfinished : List Instruction → List CallExpr → Prop
  | nil : Unfinished [] []
  | cons {ops ops' : List Instruction} {last : Instruction} {arity : Nat} {known : List Argument}
      {pending : List CallExpr} (hknown : Spells ops known) (hlast : last.code = .call)
      (hcount : last.operand.count? = some arity) (hle : known.length ≤ arity)
      (hrest : Unfinished ops' pending) :
      Unfinished (ops ++ last :: ops') (⟨arity, known⟩ :: pending)

/-- The state of a scan tells what `ops` are, which have been read since the calls `before` were
found: the pending calls, as far as they are spelled, and then spelled parts, of which the calls
have been found. -/
def Accounts (isClass : String → Bool) (before : List CallExpr) (ops : List Instruction)
    (s : Scan) : Prop :=
  ∃ leftover rest parts, ops = leftover ++ rest ∧ Unfinished leftover s.pending ∧
    Spells rest parts ∧ s.found = keptCalls isClass parts ++ before

section Accounts

variable {isClass : String → Bool} {before : List CallExpr}

/-- A part that is read is one more part of what is read. -/
theorem Accounts.deliver {s : Scan} {ops segment : List Instruction} {a : Argument}
    (h : Accounts isClass before ops s) (ha : Spells segment [a]) :
    Accounts isClass before (segment ++ ops) (s.deliver isClass a) := by
  obtain ⟨leftover, rest, parts, rfl, hleft, hparts, hfound⟩ := h
  obtain ⟨pending, found, log⟩ := s
  dsimp only at hleft hfound
  -- A call that the part completes is delivered to the next pending call in its turn.
  induction hleft generalizing segment a with
  | nil =>
    obtain ⟨hpending', hfound'⟩ : (Scan.deliver isClass ⟨[], found, log⟩ a).pending = [] ∧
        (Scan.deliver isClass ⟨[], found, log⟩ a).found = keptCalls isClass [a] ++ found :=
      Scan.deliver_idle ⟨[], found, log⟩ rfl a
    refine ⟨[], segment ++ rest, a :: parts, rfl, ?_, ha.append hparts, ?_⟩
    · rw [hpending']
      exact .nil
    · rw [hfound', hfound, keptCalls_cons isClass a parts, List.append_assoc]
  | @cons ops ops' last arity known pending hknown hlast hcount hle hrest ih =>
    have hsegment : Spells (segment ++ ops) (a :: known) := ha.append hknown
    rcases Nat.lt_or_eq_of_le hle with hlt | heq
    · rw [Scan.deliver_of_lt rfl hlt]
      refine ⟨(segment ++ ops) ++ last :: ops', rest, parts, by simp, ?_, hparts, hfound⟩
      exact .cons hsegment hlast hcount hlt hrest
    · subst heq
      have hcall : Spells (segment ++ ops ++ [last]) [.call known.length (a :: known)] :=
        .call hsegment hlast hcount (CallExpr.isCallOf_mk a known) .nil
      rw [Scan.deliver_of_eq rfl rfl]
      simpa using ih hcall

theorem Accounts.absorb {s : Scan} {ops : List Instruction} (h : Accounts isClass before ops s)
    {i : Instruction} (hi : i.isValue = true ∨ i.code = .call ∧ i.HasArity) :
    Accounts isClass before (i :: ops) (s.absorb isClass i) := by
  rcases hi with hvalue | ⟨hcall, n, hcount, -⟩
  · rw [Scan.absorb_value hvalue]
    exact h.deliver (.value hvalue .nil)
  · obtain ⟨leftover, rest, parts, rfl, hleft, hparts, hfound⟩ := h
    rw [Scan.absorb_call hcall hcount]
    refine ⟨i :: leftover, rest, parts, rfl, ?_, hparts, hfound⟩
    exact .cons .nil hcall hcount (Nat.zero_le n) hleft

/-- What is read on top of a state without pending calls is accounted for. -/
theorem accounts_foldr_absorb (s : Scan) (hs : s.pending = []) {ops : List Instruction}
    (h : ∀ i ∈ ops, i.isValue = true ∨ i.code = .call ∧ i.HasArity) :
    Accounts isClass s.found ops (ops.foldr (Scan.absorb isClass) s) := by
  induction ops with
  | nil => exact ⟨[], [], [], rfl, hs ▸ .nil, .nil, rfl⟩
  | cons i ops ih =>
    have hops := ih fun j hj => h j (List.mem_cons_of_mem i hj)
    exact hops.absorb (h i List.mem_cons_self)

end Accounts

/-! ### No call ends in what is unfinished -/

/-- How many values an instruction leaves on a stack beyond those that it takes: a call takes its
callee and its arguments and leaves its result. -/
def Instruction.surplus (i : Instruction) : Int :=
  if i.code = .call then -(i.operand.count?.getD 0 : Nat) else 1

/-- How many values a sequence leaves beyond those that it takes. -/
def surplus (ops : List Instruction) : Int := (ops.map Instruction.surplus).sum

@[simp]
theorem surplus_nil : surplus [] = 0 := rfl

@[simp]
theorem surplus_cons (i : Instruction) (ops : List Instruction) :
    surplus (i :: ops) = i.surplus + surplus ops := List.sum_cons

@[simp]
theorem surplus_append (ops ops' : List Instruction) :
    surplus (ops ++ ops') = surplus ops + surplus ops' := by
  simp [surplus]

theorem Instruction.surplus_of_isValue {i : Instruction} (hi : i.isValue = true) :
    i.surplus = 1 := if_neg (code_ne_of_isValue hi rfl)

theorem Instruction.surplus_of_call {i : Instruction} (hi : i.code = .call) {n : Nat}
    (hcount : i.operand.count? = some n) : i.surplus = -n := by
  rw [surplus, if_pos hi, hcount, Option.getD_some]

theorem suffix_append_cases {suffix ops ops' : List Instruction} (h : suffix <:+ ops ++ ops') :
    suffix <:+ ops' ∨ ∃ front, front <:+ ops ∧ suffix = front ++ ops' := by
  obtain ⟨skipped, hskipped⟩ := h
  rcases List.append_eq_append_iff.1 hskipped with ⟨front, rfl, rfl⟩ | ⟨back, rfl, rfl⟩
  · exact Or.inr ⟨front, ⟨skipped, rfl⟩, rfl⟩
  · exact Or.inl ⟨back, rfl⟩

/-- What spells some parts leaves one value for each of them. -/
theorem Spells.surplus_eq {ops : List Instruction} {parts : List Argument} (h : Spells ops parts) :
    surplus ops = parts.length := by
  induction h with
  | nil => rfl
  | value hi _ ih =>
    rw [surplus_cons, Instruction.surplus_of_isValue hi, ih, List.length_cons]
    omega
  | call _ hlast hcount _ _ ihparts ihrest =>
    rw [surplus_append, surplus_cons, Instruction.surplus_of_call hlast hcount, ihparts, ihrest,
      List.length_cons, List.length_cons]
    omega

/-- No part of a sequence at its end leaves more than `n` values. -/
def LeavesAtMost (ops : List Instruction) (n : Int) : Prop :=
  ∀ suffix, suffix <:+ ops → surplus suffix ≤ n

namespace LeavesAtMost

variable {ops ops' : List Instruction} {m n : Int}

theorem nil (hn : 0 ≤ n) : LeavesAtMost [] n := by
  intro suffix hsuffix
  rw [List.suffix_nil.1 hsuffix]
  exact hn

theorem append (h : LeavesAtMost ops m) (h' : LeavesAtMost ops' n) (hm : 0 ≤ m) :
    LeavesAtMost (ops ++ ops') (m + n) := by
  intro suffix hsuffix
  rcases suffix_append_cases hsuffix with hback | ⟨front, hfront, rfl⟩
  · have := h' suffix hback
    omega
  · have := h front hfront
    have := h' ops' List.suffix_rfl
    rw [surplus_append]
    omega

theorem concat (h : LeavesAtMost ops m) (i : Instruction) (hn : 0 ≤ n) (hle : m + i.surplus ≤ n) :
    LeavesAtMost (ops ++ [i]) n := by
  intro suffix hsuffix
  rcases List.suffix_concat_iff.1 hsuffix with rfl | ⟨front, rfl, hfront⟩
  · simpa using hn
  · have := h front hfront
    rw [surplus_append, surplus_cons, surplus_nil]
    omega

end LeavesAtMost

theorem Spells.leavesAtMost {ops : List Instruction} {parts : List Argument}
    (h : Spells ops parts) : LeavesAtMost ops parts.length := by
  induction h with
  | nil => exact LeavesAtMost.nil (by simp)
  | @value i ops parts hi _ ih =>
    have hvalue : LeavesAtMost ([] ++ [i]) 1 := by
      refine (LeavesAtMost.nil (Int.le_refl 0)).concat i (by omega) ?_
      rw [Instruction.surplus_of_isValue hi]
      omega
    have := hvalue.append ih (by omega)
    simpa [Int.add_comm] using this
  | @call ops ops' last e source args parts _ hlast hcount _ _ ihparts ihrest =>
    rw [List.length_cons] at ihparts
    have hcall : LeavesAtMost (ops ++ [last]) 1 := by
      refine ihparts.concat last (by omega) ?_
      rw [Instruction.surplus_of_call hlast hcount]
      omega
    have := hcall.append ihrest (by omega)
    simpa [Int.add_comm] using this

theorem Unfinished.leavesAtMost {ops : List Instruction} {pending : List CallExpr}
    (h : Unfinished ops pending) : LeavesAtMost ops 0 := by
  induction h with
  | nil => exact LeavesAtMost.nil (Int.le_refl 0)
  | @cons ops ops' last arity known pending hknown hlast hcount hle _ ih =>
    have hcall : LeavesAtMost (ops ++ [last]) 0 := by
      refine hknown.leavesAtMost.concat last (by omega) ?_
      rw [Instruction.surplus_of_call hlast hcount]
      omega
    have := hcall.append ih (by omega)
    simpa using this

theorem Unfinished.not_spellsCall {ops suffix : List Instruction} {pending : List CallExpr}
    (h : Unfinished ops pending) (hsuffix : suffix <:+ ops) (e : CallExpr) :
    ¬ SpellsCall suffix e := by
  intro hcall
  have hone : surplus suffix = 1 := hcall.surplus_eq
  have := h.leavesAtMost suffix hsuffix
  omega

theorem Unfinished.last_call {ops : List Instruction} {pending : List CallExpr}
    (h : Unfinished ops pending) : ∀ i ∈ ops.getLast?, i.code = .call := by
  induction h with
  | nil => simp
  | @cons ops ops' last arity known pending _ hlast _ _ hrest ih =>
    intro i hi
    rw [List.getLast?_append, List.getLast?_cons] at hi
    cases hback : ops'.getLast? with
    | none =>
      rw [hback] at hi
      cases hi
      exact hlast
    | some j =>
      rw [hback] at hi
      cases hi
      exact ih j hback

/-! ### The parse -/

theorem isValue_or_call_of_mem_scanned {ops : List Instruction} {i : Instruction}
    (h : i ∈ scanned ops) : i.isValue = true ∨ i.code = .call := by
  induction ops with
  | nil => cases h
  | cons j rest ih =>
    rw [scanned] at h
    split at h
    · next htaken =>
      rcases List.mem_cons.1 h with rfl | h
      · exact htaken.imp_right And.left
      · exact ih h
    · exact ih h

theorem Accounts.parses {isClass : String → Bool} {before : List CallExpr}
    {ops : List Instruction} {s : Scan} (h : Accounts isClass before ops s) :
    ∃ leftover parts, Parses ops leftover parts := by
  obtain ⟨leftover, rest, parts, hops, hleft, hparts, -⟩ := h
  refine ⟨leftover, parts, ⟨rest, hops, hparts⟩, hleft.last_call, ?_⟩
  intro suffix e hsuffix
  exact hleft.not_spellsCall hsuffix e

theorem mem_getLast?_of_suffix {ops suffix : List Instruction} (h : suffix <:+ ops)
    {i : Instruction} (hi : i ∈ suffix.getLast?) : i ∈ ops.getLast? := by
  obtain ⟨front, rfl⟩ := h
  rw [List.getLast?_append, Option.mem_def.1 hi]
  rfl

theorem Spells.eq_nil {ops : List Instruction} (h : Spells ops []) : ops = [] := by
  cases h
  rfl

/-- A sequence in which no value and no spelled call ends spells nothing. -/
theorem Spells.parts_eq_nil {ops : List Instruction} {parts : List Argument} (h : Spells ops parts)
    (hlast : ∀ i ∈ ops.getLast?, i.code = .call)
    (hincomplete : ∀ suffix e, suffix <:+ ops → ¬ SpellsCall suffix e) : parts = [] := by
  induction h with
  | nil => rfl
  | @value i ops parts hi hrest ih =>
    have hback : ops <:+ i :: ops := List.suffix_cons i ops
    have hnil : parts = [] :=
      ih (fun j hj => hlast j (mem_getLast?_of_suffix hback hj)) fun suffix e hsuffix =>
        hincomplete suffix e (hsuffix.trans hback)
    subst hnil
    cases hrest.eq_nil
    exact absurd (hlast i rfl) (Instruction.code_ne_of_isValue hi rfl)
  | @call ops ops' last e source args parts hparts hcode hcount he hrest _ ih =>
    have hback : ops' <:+ ops ++ last :: ops' :=
      (List.suffix_cons last ops').trans (List.suffix_append ops _)
    have hnil : parts = [] :=
      ih (fun j hj => hlast j (mem_getLast?_of_suffix hback hj)) fun suffix e hsuffix =>
        hincomplete suffix e (hsuffix.trans hback)
    subst hnil
    cases hrest.eq_nil
    exact absurd (.call hparts hcode hcount he .nil) (hincomplete _ e List.suffix_rfl)

/-- Of a sequence that is parsed, the scan finds the calls of the parse. -/
theorem Parses.found_eq {isClass : String → Bool} {ops leftover : List Instruction}
    {parts : List Argument} (h : Parses ops leftover parts)
    (hops : ∀ i ∈ ops, i.isValue = true ∨ i.code = .call ∧ i.HasArity) :
    (ops.foldr (Scan.absorb isClass) {}).found = keptCalls isClass parts := by
  obtain ⟨rest, rfl, hspells⟩ := h.spelled
  -- After the spelled parts no call is pending, and so the leftover is read like a sequence of its
  -- own.
  obtain ⟨hpending, hfound⟩ :
      (rest.foldr (Scan.absorb isClass) {}).pending = [] ∧
        (rest.foldr (Scan.absorb isClass) {}).found = keptCalls isClass parts := by
    rw [hspells.foldr_absorb]
    simpa using Scan.foldr_deliver_idle {} rfl parts
  have haccounts : Accounts isClass (keptCalls isClass parts) leftover
      ((leftover ++ rest).foldr (Scan.absorb isClass) {}) := by
    rw [List.foldr_append, ← hfound]
    exact accounts_foldr_absorb _ hpending fun i hi => hops i (List.mem_append_left rest hi)
  obtain ⟨left, rest', parts', rfl, -, hspells', hfound'⟩ := haccounts
  have hback : rest' <:+ left ++ rest' := List.suffix_append left rest'
  have hnil : parts' = [] :=
    hspells'.parts_eq_nil (fun i hi => h.last_call i (mem_getLast?_of_suffix hback hi))
      fun suffix e hsuffix => h.incomplete suffix e (hsuffix.trans hback)
  rw [hfound', hnil]
  rfl

/-- **A scan parses its grammar**, if each call that it scans has an arity. The calls found are
those of the parse, the last one first, but for those that construct an object. -/
theorem callSites?_parses (isClass : String → Bool) (ops : List Instruction)
    (h : ∀ i ∈ scanned ops, i.code = .call → i.HasArity) :
    (∃ leftover parts, Parses (scanned ops) leftover parts) ∧
      ∀ leftover parts, Parses (scanned ops) leftover parts →
        ∃ sites, callSites? isClass ops = some sites ∧
          sites.calls = (keptCalls isClass parts).reverse := by
  have hops : ∀ i ∈ scanned ops, i.isValue = true ∨ i.code = .call ∧ i.HasArity := by
    intro i hi
    rcases isValue_or_call_of_mem_scanned hi with hvalue | hcall
    · exact Or.inl hvalue
    · exact Or.inr ⟨hcall, h i hi hcall⟩
  constructor
  · have haccounts : Accounts isClass [] (scanned ops) _ := accounts_foldr_absorb {} rfl hops
    exact haccounts.parses
  · intro leftover parts hparses
    have hread := reads_scanned isClass h 0
    refine ⟨_, by rw [callSites?, hread], ?_⟩
    rw [hparses.found_eq hops]

/-- The end of a call with two arguments, then `f(Widget(), x)`, a constant, `shop.run()`, a call
whose result goes into a map, and `Widget()`. -/
def mixedCalls : List Instruction :=
  [⟨.loadFast, .text "p"⟩, ⟨.call, .int 2⟩,
    ⟨.loadName, .text "f"⟩, ⟨.loadName, .text "Widget"⟩, ⟨.call, .int 0⟩, ⟨.loadFast, .text "x"⟩,
    ⟨.other, .missing⟩, ⟨.call, .int 2⟩,
    ⟨.loadConst, .int 5⟩,
    ⟨.attrValue, .tuple [.text "shop", .text "run"]⟩, ⟨.call, .int 0⟩,
    ⟨.loadName, .text "g"⟩, ⟨.call, .text "many"⟩, ⟨.storeMap, .missing⟩,
    ⟨.loadName, .text "Widget"⟩, ⟨.call, .int 0⟩]

theorem callSites?_parses_mixedCalls :
    (∀ i ∈ scanned mixedCalls, i.code = .call → i.HasArity) ∧
      (∃ leftover parts, Parses (scanned mixedCalls) leftover parts) ∧
      ∀ leftover parts, Parses (scanned mixedCalls) leftover parts →
        ∃ sites, callSites? (· == "Widget") mixedCalls = some sites ∧
          sites.calls = (keptCalls (· == "Widget") parts).reverse :=
  ⟨by decide, callSites?_parses (· == "Widget") mixedCalls (by decide)⟩

end CallerFirst
