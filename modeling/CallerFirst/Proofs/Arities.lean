import CallerFirst.Proofs.CallSites
import Mathlib.Algebra.Ring.Int.Defs
import Mathlib.Tactic.Common

/-!
# Calls without a usable arity

The operand of a call says how many arguments it takes. It is of no use when it is no count
(`Operand.Malformed`), or a count too large for a call to be represented (`Operand.Oversized`). A
scan goes from the end of a sequence to its start, and such a call stops it.

* `CountedCall`: a call at a position, as long as its result does not go into a map; `BadCall`: one
  whose operand is of no use;
* `Scan.exists_run_of_no_badCall`, `Scan.run_of_badCall`: a scan comes to the start of a sequence
  when there is no bad call, and otherwise stops at the last one;
* `callSites?_decided_by_last_badCall`: so the last bad call alone decides what is found.
-/

namespace CallerFirst

/-! ### Operands of no use -/

namespace Operand

/-- The operand is no integer, or a negative one. -/
def Malformed (o : Operand) : Prop := ∀ n, o = .int n → n.toInt < 0

/-- The operand is an integer that is too large for an arity. -/
def Oversized (o : Operand) : Prop := ∃ n, o = .int n ∧ (CallExpr.arityLimit : Int) ≤ n.toInt

/-- The operand tells no arity that can be represented. -/
def Useless (o : Operand) : Prop := o.Malformed ∨ o.Oversized

theorem malformed_iff {o : Operand} : o.Malformed ↔ o.count? = none := by
  cases o with
  | int n => simp [Malformed, count?]
  | missing | real x | text s | tuple items => simp [Malformed, count?]

theorem oversized_iff {o : Operand} :
    o.Oversized ↔ ∃ n, o.count? = some n ∧ CallExpr.arityLimit ≤ n := by
  cases o with
  | int n =>
    simp only [Oversized, count?, int.injEq, exists_eq_left', Option.ite_none_right_eq_some,
      Option.some.injEq]
    constructor
    · intro h
      exact ⟨n.toInt.toNat, ⟨by omega, rfl⟩, by omega⟩
    · rintro ⟨count, ⟨hn, rfl⟩, h⟩
      omega
  | missing | real x | text s | tuple items => simp [Oversized, count?]

/-- An operand is of no use exactly when it gives no arity below the limit. -/
theorem not_useless_iff {o : Operand} :
    ¬ o.Useless ↔ ∃ n, o.count? = some n ∧ n < CallExpr.arityLimit := by
  rw [Useless, malformed_iff, oversized_iff]
  cases o.count? with
  | none => simp
  | some n => simp

theorem oversized_of_le {n : Int64} (h : 2 ^ 62 ≤ n.toInt) : (int n).Oversized := by
  have hlimit : (CallExpr.arityLimit : Int) ≤ 2 ^ 62 := by decide
  exact ⟨n, rfl, Int.le_trans hlimit h⟩

theorem not_useless_of_le {n : Int64} (hn : 0 ≤ n.toInt) (h : n.toInt ≤ 100000) :
    ¬ (int n).Useless := by
  have hlimit : 100000 < CallExpr.arityLimit := by decide
  exact not_useless_iff.2 ⟨n.toInt.toNat, if_pos hn, by omega⟩

end Operand

/-! ### Bad calls -/

/-- A call with this operand stands at position `k`, and its result does not go into a map. -/
structure CountedCall (ops : List Instruction) (k : Nat) (operand : Operand) : Prop where
  call : ops[k]? = some ⟨.call, operand⟩
  unstored : ∀ next, ops[k + 1]? = some next → next.code ≠ .storeMap

/-- At position `k` stands a call that counts and whose operand is of no use. -/
def BadCall (ops : List Instruction) (k : Nat) : Prop :=
  ∃ operand, CountedCall ops k operand ∧ operand.Useless

section Positions

variable {ops : List Instruction} {operand : Operand}

theorem countedCall_append (front : List Instruction) {k : Nat} :
    CountedCall (front ++ ops) (front.length + k) operand ↔ CountedCall ops k operand := by
  have hget : ∀ m, (front ++ ops)[front.length + m]? = ops[m]? := fun m => by
    rw [List.getElem?_append_right (Nat.le_add_right _ _), Nat.add_sub_cancel_left]
  constructor
  · rintro ⟨hcall, hstore⟩
    exact ⟨hget k ▸ hcall, fun next hnext => hstore next (by rw [Nat.add_assoc, hget, hnext])⟩
  · rintro ⟨hcall, hstore⟩
    refine ⟨(hget k).trans hcall, fun next hnext => hstore next ?_⟩
    rwa [Nat.add_assoc, hget] at hnext

theorem badCall_append (front : List Instruction) {k : Nat} :
    BadCall (front ++ ops) (front.length + k) ↔ BadCall ops k := by
  simp only [BadCall, countedCall_append]

theorem badCall_cons_succ {i : Instruction} {k : Nat} :
    BadCall (i :: ops) (k + 1) ↔ BadCall ops k := by
  rw [Nat.add_comm]
  exact badCall_append [i]

theorem unstored_iff {i : Instruction} :
    Unstored ops ↔ ∀ next, (i :: ops)[0 + 1]? = some next → next.code ≠ .storeMap := by
  cases ops with
  | nil => simp [Unstored]
  | cons j ops => simp [Unstored]

end Positions

/-! ### Scanning past calls -/

namespace Scan

variable (isClass : String → Bool) (s : Scan) {operand : Operand} (index : Nat)

theorem openCall_of_malformed (h : operand.Malformed) :
    ∃ log, s.openCall index operand = .error (.unreadable log) := by
  rw [openCall, Operand.malformed_iff.1 h]
  exact ⟨_, rfl⟩

theorem openCall_of_oversized (h : operand.Oversized) :
    s.openCall index operand = .error .oversized := by
  obtain ⟨n, hcount, hn⟩ := Operand.oversized_iff.1 h
  simp only [openCall, hcount, CallExpr.new?, if_neg (Nat.not_lt.2 hn)]

theorem exists_openCall (h : ¬ operand.Useless) : ∃ t, s.openCall index operand = .ok t := by
  obtain ⟨n, hcount, hn⟩ := Operand.not_useless_iff.1 h
  simp only [openCall, hcount, CallExpr.new?, if_pos hn]
  exact ⟨_, rfl⟩

/-- A call that counts is opened. -/
theorem step_call {ops : List Instruction} (h : Unstored ops) :
    s.step isClass index ⟨.call, operand⟩ ops.head? = s.openCall index operand := by
  have hstore : ops.head?.any (·.code = .storeMap) = false := by
    cases hops : ops.head? with
    | none => rfl
    | some next => simpa using h next hops
  rw [step, if_pos rfl, hstore]
  rfl

/-- Only a bad call stops a scan. -/
theorem exists_step {ops : List Instruction} {i : Instruction} (h : ¬ BadCall (i :: ops) 0) :
    ∃ t, s.step isClass index i ops.head? = .ok t := by
  obtain ⟨code, operand⟩ := i
  by_cases hcall : code = .call
  · subst hcall
    by_cases hstore : Unstored ops
    · rw [step_call isClass s index hstore]
      refine exists_openCall s index fun huseless => h ⟨operand, ⟨rfl, ?_⟩, huseless⟩
      exact unstored_iff.1 hstore
    · have hany : ops.head?.any (·.code = .storeMap) = true := by
        simpa [Unstored, Option.any_eq_true] using hstore
      exact ⟨s, by rw [step, if_pos rfl, if_pos hany]⟩
  · rw [step, if_neg hcall]
    split
    · exact ⟨_, rfl⟩
    · exact ⟨_, rfl⟩

theorem exists_run_of_no_badCall {ops : List Instruction} (h : ∀ k, ¬ BadCall ops k) :
    ∃ s, run isClass index ops = .ok s := by
  induction ops generalizing index with
  | nil => exact ⟨{}, rfl⟩
  | cons i ops ih =>
    obtain ⟨s, hs⟩ := ih (index + 1) fun k hbad => h (k + 1) (badCall_cons_succ.2 hbad)
    obtain ⟨t, ht⟩ := exists_step isClass s index (h 0)
    exact ⟨t, by rw [run, hs]; exact ht⟩

/-- What stands before the place where a scan stops is not looked at. -/
theorem run_append_of_error (front : List Instruction) {back : List Instruction}
    {stop : ScanStop} (h : run isClass (index + front.length) back = .error stop) :
    run isClass index (front ++ back) = .error stop := by
  induction front generalizing index with
  | nil => exact h
  | cons i front ih =>
    have hrest : run isClass (index + 1) (front ++ back) = .error stop :=
      ih (index + 1) (by rwa [List.length_cons, Nat.add_comm _ 1, ← Nat.add_assoc] at h)
    rw [List.cons_append, run, hrest]

/-- A scan comes to the last bad call and opens it, after it has read all that follows. -/
theorem exists_run_of_countedCall {ops : List Instruction} {k : Nat}
    (hcall : CountedCall ops k operand) (hlast : ∀ m, k < m → ¬ BadCall ops m) :
    ∃ s : Scan, run isClass k (ops.drop k) = s.openCall k operand := by
  obtain ⟨hk, heq⟩ := List.getElem?_eq_some_iff.1 hcall.call
  have hdrop : ops.drop k = ⟨.call, operand⟩ :: ops.drop (k + 1) := by
    rw [List.drop_eq_getElem_cons hk, heq]
  have hgood : ∀ m, ¬ BadCall (ops.drop (k + 1)) m := by
    intro m hbad
    have hwhole : BadCall ops (k + 1 + m) := by
      have hmoved := badCall_append (ops.take (k + 1)) |>.2 hbad
      rwa [List.take_append_drop, List.length_take_of_le hk] at hmoved
    exact hlast (k + 1 + m) (by omega) hwhole
  have hunstored : Unstored (ops.drop (k + 1)) := by
    intro next hnext
    rw [Option.mem_def, List.head?_drop] at hnext
    exact hcall.unstored next hnext
  obtain ⟨s, hs⟩ := exists_run_of_no_badCall isClass (k + 1) hgood
  exact ⟨s, by rw [hdrop, run, hs]; exact step_call isClass s k hunstored⟩

/-- A scan stops where it cannot open the last bad call, whatever stands before it. -/
theorem run_of_badCall {ops : List Instruction} {k : Nat} (hcall : CountedCall ops k operand)
    (hlast : ∀ m, k < m → ¬ BadCall ops m) :
    (operand.Malformed → ∃ log, run isClass 0 ops = .error (.unreadable log)) ∧
    (operand.Oversized → run isClass 0 ops = .error .oversized) := by
  obtain ⟨s, hs⟩ := exists_run_of_countedCall isClass hcall hlast
  have hlen : (ops.take k).length = k :=
    List.length_take_of_le (Nat.le_of_lt (List.getElem?_eq_some_iff.1 hcall.call).1)
  have hwhole : ∀ stop, s.openCall k operand = .error stop →
      run isClass 0 ops = .error stop := by
    intro stop hstop
    rw [← List.take_append_drop k ops]
    refine run_append_of_error isClass 0 (ops.take k) ?_
    rw [hlen, Nat.zero_add, hs, hstop]
  constructor
  · intro h
    obtain ⟨log, hlog⟩ := openCall_of_malformed s k h
    exact ⟨log, hwhole _ hlog⟩
  · exact fun h => hwhole _ (openCall_of_oversized s k h)

/-- The operand of a call whose result goes into a map is not looked at. -/
theorem run_set_of_stored {ops : List Instruction} {k : Nat} {i next : Instruction}
    (hi : ops[k]? = some i) (hcall : i.code = .call) (hnext : ops[k + 1]? = some next)
    (hstore : next.code = .storeMap) (operand : Operand) :
    run isClass index (ops.set k ⟨.call, operand⟩) = run isClass index ops := by
  induction ops generalizing k index with
  | nil => rfl
  | cons j ops ih =>
    cases k with
    | zero =>
      cases hi
      have hany : ops.head?.any (·.code = .storeMap) = true := by
        rw [List.getElem?_cons_succ, ← List.head?_eq_getElem?] at hnext
        simp [hnext, hstore]
      rw [List.set_cons_zero, run, run]
      split
      · rfl
      · rw [step, step, if_pos rfl, if_pos hcall, if_pos hany, if_pos hany]
    | succ k =>
      rw [List.getElem?_cons_succ] at hi hnext
      -- The instruction after the first one keeps its code, and only that is looked at.
      have hhead : (ops.set k ⟨.call, operand⟩).head?.any (·.code = .storeMap)
          = ops.head?.any (·.code = .storeMap) := by
        cases k with
        | zero =>
          rw [← List.head?_eq_getElem?] at hi
          cases ops with
          | nil => rfl
          | cons first ops =>
            cases hi
            simp [hcall]
        | succ k => cases ops <;> rfl
      rw [List.set_cons_succ, run, run, ih (index + 1) hi hnext]
      split
      · rfl
      · rw [step, step, hhead]

end Scan

/-- **The last bad call decides.** If its operand is malformed, nothing is found, and if it is
oversized, there is no result. The operands of calls whose results go into a map do not matter. -/
theorem callSites?_decided_by_last_badCall (isClass : String → Bool) (ops : List Instruction) :
    ((∀ k, ¬ BadCall ops k) →
      ∃ s, Scan.run isClass 0 ops = .ok s ∧
        callSites? isClass ops = some ⟨s.found.reverse, s.log⟩) ∧
    (∀ k operand, CountedCall ops k operand → (∀ m, k < m → ¬ BadCall ops m) →
      (operand.Malformed → ∃ log, callSites? isClass ops = some ⟨[], log⟩) ∧
      (operand.Oversized → callSites? isClass ops = none)) ∧
    (∀ k i next, ops[k]? = some i → i.code = .call → ops[k + 1]? = some next →
      next.code = .storeMap →
      ∀ operand, callSites? isClass (ops.set k ⟨.call, operand⟩) = callSites? isClass ops) ∧
    ∀ n : Int64, (2 ^ 62 ≤ n.toInt → (Operand.int n).Oversized) ∧
      (0 ≤ n.toInt → n.toInt ≤ 100000 → ¬ (Operand.int n).Useless) := by
  refine ⟨fun hgood => ?_, fun k operand hcall hlast => ?_, ?_, ?_⟩
  · obtain ⟨s, hs⟩ := Scan.exists_run_of_no_badCall isClass 0 hgood
    exact ⟨s, hs, by rw [callSites?, hs]⟩
  · obtain ⟨hmalformed, hoversized⟩ := Scan.run_of_badCall isClass hcall hlast
    constructor
    · intro h
      obtain ⟨log, hlog⟩ := hmalformed h
      exact ⟨log, by rw [callSites?, hlog]⟩
    · intro h
      rw [callSites?, hoversized h]
  · intro k i next hi hcall hnext hstore operand
    rw [callSites?, callSites?, Scan.run_set_of_stored isClass 0 hi hcall hnext hstore]
  · exact fun n => ⟨Operand.oversized_of_le, Operand.not_useless_of_le⟩

/-- Two calls with the given operands before the complete call `h()`; a call with a text for an
operand goes into a map. -/
def mixedArities (first second : Operand) : List Instruction :=
  [⟨.loadName, .text "f"⟩, ⟨.call, first⟩, ⟨.loadName, .text "g"⟩, ⟨.call, second⟩,
    ⟨.loadName, .text "h"⟩, ⟨.call, .int 0⟩, ⟨.call, .text "key"⟩, ⟨.storeMap, .missing⟩]

theorem not_badCall_mixedArities (first second : Operand) {k : Nat} (hk : 3 < k) :
    ¬ BadCall (mixedArities first second) k := by
  rintro ⟨operand, ⟨hcall, hstore⟩, huseless⟩
  match k with
  | 4 => cases hcall
  | 5 =>
    cases hcall
    exact Operand.not_useless_iff.2 ⟨0, rfl, by decide⟩ huseless
  | 6 => exact hstore ⟨.storeMap, .missing⟩ rfl rfl
  | 7 => cases hcall
  | n + 8 => cases hcall

theorem callSites?_decided_by_last_badCall_mixedArities :
    (∃ log, callSites? (fun _ => false) (mixedArities (.int 4611686018427387904) (.int (-1)))
      = some ⟨[], log⟩) ∧
    callSites? (fun _ => false) (mixedArities (.int (-1)) (.int 4611686018427387904)) = none := by
  have hcounted : ∀ first second, CountedCall (mixedArities first second) 3 second :=
    fun first second => ⟨rfl, by simp [mixedArities]⟩
  have hlast : ∀ first second m, 3 < m → ¬ BadCall (mixedArities first second) m :=
    fun first second _ => not_badCall_mixedArities first second
  constructor
  · refine ((callSites?_decided_by_last_badCall _ _).2.1 3 _ (hcounted _ _) (hlast _ _)).1 ?_
    rintro n ⟨⟩
    decide
  · refine ((callSites?_decided_by_last_badCall _ _).2.1 3 _ (hcounted _ _) (hlast _ _)).2 ?_
    exact ⟨4611686018427387904, rfl, by decide⟩

end CallerFirst
