import CallerFirst.CallExpr
import Mathlib.Tactic.Common

/-!
# Feeding a call

A call is given its parts one after the other, the last argument first and the callee at the end.
It takes parts as long as it has room (`CallExpr.foldl_feed_of_le`); then it is complete and stays
as it is (`CallExpr.foldl_feed_of_isComplete`). What it holds can therefore be said of the list of
parts alone: `CallExpr.FedWith` does, and `CallExpr.fedWith_foldl_feed` shows that it holds of every
list.
-/

namespace CallerFirst

/-- The call whose result is called. -/
def Callee.call? : Callee → Option CallExpr
  | .name _ => none
  | .member _ _ => none
  | .computed source => source.call?

/-- What is called is the result of a call exactly if the part is a call. -/
theorem Argument.call?_toCallee (a : Argument) : a.toCallee.call? = a.call? := by
  unfold toCallee
  split
  · rfl
  · split <;> rfl
  · rfl

namespace CallExpr

variable {e : CallExpr} {n : Nat}

theorem nestedCalls_eq_append (e : CallExpr) :
    e.nestedCalls = e.args.filterMap Argument.call? ++ (e.callee?.bind Callee.call?).toList := by
  rw [nestedCalls, List.filterMap_append, callee?]
  congr 1
  cases e.calleePart? with
  | none => rfl
  | some a =>
    rw [Option.toList_some, Option.map_some, Option.bind_some, Argument.call?_toCallee]
    cases hcall : a.call? with
    | none => rw [List.filterMap_cons_none hcall]; rfl
    | some c => rw [List.filterMap_cons_some hcall]; rfl

/-! ### The two phases -/

/-- As long as there is room, each part goes in front of those before it. -/
theorem foldl_feed_of_le (fed : List Argument) {known : List Argument}
    (h : fed.length + known.length ≤ n + 1) :
    fed.foldl feed ⟨n, known⟩ = ⟨n, fed.reverse ++ known⟩ := by
  induction fed generalizing known with
  | nil => rfl
  | cons a fed ih =>
    rw [List.length_cons] at h
    have hroom : known.length ≤ n := by omega
    have hfeed : feed ⟨n, known⟩ a = ⟨n, a :: known⟩ := if_pos hroom
    rw [List.foldl_cons, hfeed, ih (by rw [List.length_cons]; omega), List.reverse_cons,
      List.append_assoc, List.singleton_append]

theorem feed_of_isComplete (h : e.isComplete = true) (a : Argument) : e.feed a = e := by
  have hlen : e.parts.length = e.arity + 1 := by simpa [isComplete] using h
  rw [feed, if_neg (by omega)]

/-- A complete call takes no further parts. -/
theorem foldl_feed_of_isComplete (h : e.isComplete = true) (fed : List Argument) :
    fed.foldl feed e = e := by
  induction fed with
  | nil => rfl
  | cons a fed ih => rw [List.foldl_cons, feed_of_isComplete h, ih]

theorem isComplete_reverse (args : List Argument) (callee : Argument) :
    isComplete ⟨args.length, callee :: args.reverse⟩ = true := by
  simp [isComplete]

/-- The part that follows the arguments completes the call. -/
theorem foldl_feed_append (args : List Argument) (callee : Argument) (more : List Argument) :
    (args ++ callee :: more).foldl feed ⟨args.length, []⟩
      = ⟨args.length, callee :: args.reverse⟩ := by
  have hfill : (args ++ [callee]).foldl feed ⟨args.length, []⟩
      = ⟨args.length, callee :: args.reverse⟩ := by
    rw [foldl_feed_of_le _ (by simp), List.append_nil, List.reverse_concat]
  rw [List.append_cons, List.foldl_append, hfill,
    foldl_feed_of_isComplete (isComplete_reverse args callee)]

/-! ### The closed form -/

/-- What a call that takes `n` arguments is once it has been given the parts `fed`. -/
structure FedWith (n : Nat) (fed : List Argument) (e : CallExpr) : Prop where
  arity_eq : e.arity = n
  /-- The first `n` parts, or all if there are fewer, are the arguments, in reverse order. -/
  args_eq : e.args = (fed.take n).reverse
  /-- The part after them is the callee. -/
  callee?_eq : e.callee? = fed[n]?.map Argument.toCallee
  isComplete_iff : e.isComplete = true ↔ n < fed.length
  /-- All that comes after the callee leaves the call as it is. -/
  feed_eq : n < fed.length → ∀ a, e.feed a = e
  /-- Directly inside are the calls among the arguments, in source order, and then the call whose
  result is called. -/
  nestedCalls_eq : e.nestedCalls = (fed.take n).reverse.filterMap Argument.call?
    ++ ((fed[n]?.map Argument.toCallee).bind Callee.call?).toList

/-- Before the callee has come. -/
theorem fedWith_reverse {fed : List Argument} (h : fed.length ≤ n) :
    FedWith n fed ⟨n, fed.reverse⟩ := by
  have hpart : isComplete ⟨n, fed.reverse⟩ = false := by
    simp only [isComplete, List.length_reverse, beq_eq_false_iff_ne]
    omega
  have hargs : args ⟨n, fed.reverse⟩ = (fed.take n).reverse := by
    simp [args, hpart, List.take_of_length_le h]
  have hcallee : callee? ⟨n, fed.reverse⟩ = fed[n]?.map Argument.toCallee := by
    simp [callee?, calleePart?, hpart, List.getElem?_eq_none h]
  refine ⟨rfl, hargs, hcallee, by simp [hpart, h], by omega, ?_⟩
  rw [nestedCalls_eq_append, hargs, hcallee]

/-- After the callee has come. -/
theorem fedWith_append (args : List Argument) (callee : Argument) (more : List Argument) :
    FedWith args.length (args ++ callee :: more) ⟨args.length, callee :: args.reverse⟩ := by
  have hwhole := isComplete_reverse args callee
  have hargs : CallExpr.args ⟨args.length, callee :: args.reverse⟩
      = ((args ++ callee :: more).take args.length).reverse := by
    simp [CallExpr.args, hwhole]
  have hcallee : callee? ⟨args.length, callee :: args.reverse⟩
      = (args ++ callee :: more)[args.length]?.map Argument.toCallee := by
    simp [callee?, calleePart?, hwhole]
  refine ⟨rfl, hargs, hcallee, by simp [hwhole], fun _ => feed_of_isComplete hwhole, ?_⟩
  rw [nestedCalls_eq_append, hargs, hcallee]

/-- **Feeding in closed form**, for a call of whatever arity and whatever parts. A call of which
nothing is known can be made exactly if its arguments fit into one block of memory. -/
theorem fedWith_foldl_feed (n : Nat) (fed : List Argument) :
    FedWith n fed (fed.foldl feed ⟨n, []⟩) ∧
      ∀ e, new? n = some e ↔ n * argumentBytes ≤ maxBlockBytes ∧ e = ⟨n, []⟩ := by
  constructor
  · rcases Nat.lt_or_ge n fed.length with hlt | hge
    · -- Cut the parts where the arguments end; the next one is the callee.
      obtain ⟨args, callee, more, rfl, rfl⟩ :
          ∃ args callee more, fed = args ++ callee :: more ∧ args.length = n := by
        refine ⟨fed.take n, fed[n], fed.drop (n + 1), ?_, ?_⟩
        · rw [← List.drop_eq_getElem_cons hlt, List.take_append_drop]
        · exact List.length_take_of_le (Nat.le_of_lt hlt)
      rw [foldl_feed_append]
      exact fedWith_append args callee more
    · rw [foldl_feed_of_le fed (Nat.le_succ_of_le hge), List.append_nil]
      exact fedWith_reverse hge
  · intro e
    rw [new?, Option.ite_none_right_eq_some, Option.some.injEq, lt_arityLimit_iff,
      eq_comm (a := e)]

end CallExpr

end CallerFirst
