import CallerFirst.Proofs.TestOrder
import Mathlib.Data.Prod.Lex
import Mathlib.Data.String.Basic
import Mathlib.Tactic.Common

/-!
# The rule behind a test order

A sweep keeps a stack and counts edges. What it places can also be said without either: of the
functions whose callers are all placed, the next one is that whose latest caller was placed last,
and of several such functions the greatest.

* `CallGraph.Ready`, `CallGraph.key`, `CallGraph.IsNext`: the rule;
* `Sweep.Valid.mem_frontier_iff_ready`: the stack holds the functions that are ready;
* `Sweep.Stacked.step`: the stack stays in descending order of keys, so that its top is the next
  function by the rule;
* `testOrder_getElem?_iff_isNext`: so each place of a test order is decided by the rule alone.
-/

namespace CallerFirst

/-! ### The rule -/

namespace CallGraph

variable {g : CallGraph} {placed more : List String} {id : String}

/-- A function that is in the graph or called may be placed: it is not placed, but all its callers
are. -/
structure Ready (g : CallGraph) (placed : List String) (id : String) : Prop where
  known : id ∈ g.nodes ∨ ∃ caller, g.Calls caller id
  fresh : id ∉ placed
  callers : ∀ caller, g.Calls caller id → caller ∈ placed

/-- Where the latest caller of a function stands in an order, or `-1` if it has no caller. -/
def latestCaller (g : CallGraph) (ordered : List String) (id : String) : Int :=
  ((g.properEdges.filter (·.target = id)).map
    fun e => (ordered.idxOf e.source : Int)).foldr max (-1)

/-- Functions that may be placed are compared by their latest caller and then by id. -/
def key (g : CallGraph) (ordered : List String) (id : String) : Int ×ₗ String :=
  toLex (g.latestCaller ordered id, id)

/-- Of the functions that may be placed after the first `k` of an order, `id` has the greatest
key. -/
structure IsNext (g : CallGraph) (ordered : List String) (k : Nat) (id : String) : Prop where
  ready : g.Ready (ordered.take k) id
  greatest : ∀ other, g.Ready (ordered.take k) other → g.key ordered other ≤ g.key ordered id

theorem foldr_max_le_iff {l : List Int} {a b : Int} :
    l.foldr max a ≤ b ↔ a ≤ b ∧ ∀ x ∈ l, x ≤ b := by
  induction l with
  | nil => simp
  | cons x l ih =>
    rw [List.foldr_cons, max_le_iff, ih, List.forall_mem_cons]
    tauto

/-- The place of the latest caller is the least one that no caller comes after. -/
theorem latestCaller_le_iff {ordered : List String} {b : Int} :
    g.latestCaller ordered id ≤ b ↔
      -1 ≤ b ∧ ∀ caller, g.Calls caller id → (ordered.idxOf caller : Int) ≤ b := by
  rw [latestCaller, foldr_max_le_iff]
  refine and_congr_right fun _ => ⟨fun h caller hcall => ?_, fun h => ?_⟩
  · refine h _ (List.mem_map.2 ⟨⟨caller, id⟩, ?_, rfl⟩)
    simpa [mem_properEdges] using hcall
  · intro x hx
    obtain ⟨e, he, rfl⟩ := List.mem_map.1 hx
    obtain ⟨hmem, htarget⟩ := List.mem_filter.1 he
    exact h _ (of_decide_eq_true htarget ▸ mem_properEdges.1 hmem)

theorem neg_one_le_latestCaller (g : CallGraph) (ordered : List String) (id : String) :
    -1 ≤ g.latestCaller ordered id :=
  (latestCaller_le_iff.1 le_rfl).1

theorem le_latestCaller (ordered : List String) {caller : String} (h : g.Calls caller id) :
    (ordered.idxOf caller : Int) ≤ g.latestCaller ordered id :=
  (latestCaller_le_iff.1 le_rfl).2 caller h

/-- Once all callers are placed, what is placed later does not change the latest one. -/
theorem latestCaller_append (h : ∀ caller, g.Calls caller id → caller ∈ placed) :
    g.latestCaller (placed ++ more) id = g.latestCaller placed id := by
  have hidx : ∀ caller, g.Calls caller id → (placed ++ more).idxOf caller = placed.idxOf caller :=
    fun caller hcall => List.idxOf_append_of_mem (h caller hcall)
  refine le_antisymm ?_ ?_ <;> rw [latestCaller_le_iff]
  · refine ⟨neg_one_le_latestCaller _ _ _, fun caller hcall => ?_⟩
    rw [hidx caller hcall]
    exact le_latestCaller _ hcall
  · refine ⟨neg_one_le_latestCaller _ _ _, fun caller hcall => ?_⟩
    rw [← hidx caller hcall]
    exact le_latestCaller _ hcall

theorem latestCaller_lt (h : ∀ caller, g.Calls caller id → caller ∈ placed) :
    g.latestCaller placed id < placed.length := by
  have hle : g.latestCaller placed id ≤ placed.length - 1 := by
    refine latestCaller_le_iff.2 ⟨by omega, fun caller hcall => ?_⟩
    have := List.idxOf_lt_length_of_mem (h caller hcall)
    omega
  omega

/-- The function placed last is the latest caller of those it calls. -/
theorem latestCaller_concat {node : String} (hcall : g.Calls node id) (hfresh : node ∉ placed)
    (h : ∀ caller, g.Calls caller id → caller ∈ placed ++ [node]) :
    g.latestCaller (placed ++ [node]) id = placed.length := by
  have hlt := latestCaller_lt h
  have hle := le_latestCaller (placed ++ [node]) hcall
  rw [List.idxOf_append_of_notMem hfresh] at hle
  simp only [List.length_append, List.length_singleton, List.idxOf_cons_self] at hlt hle
  omega

theorem key_append (h : ∀ caller, g.Calls caller id → caller ∈ placed) :
    g.key (placed ++ more) id = g.key placed id := by
  rw [key, key, latestCaller_append h]

theorem key_lt_iff {ordered : List String} {other : String} :
    g.key ordered other < g.key ordered id ↔
      g.latestCaller ordered other < g.latestCaller ordered id ∨
        g.latestCaller ordered other = g.latestCaller ordered id ∧ other < id :=
  Prod.Lex.toLex_lt_toLex

theorem key_injective {ordered : List String} : Function.Injective (g.key ordered) :=
  fun _ _ h => congrArg Prod.snd (toLex.injective h)

/-- What is placed later does not change which function comes next after the first `k`. -/
theorem IsNext.append {k : Nat} (h : g.IsNext placed k id) (hk : k ≤ placed.length) :
    g.IsNext (placed ++ more) k id := by
  have htake : (placed ++ more).take k = placed.take k := List.take_append_of_le_length hk
  have hkey : ∀ other, g.Ready (placed.take k) other →
      g.key (placed ++ more) other = g.key placed other :=
    fun other hother => key_append fun caller hcall =>
      List.mem_of_mem_take (hother.callers caller hcall)
  refine ⟨htake ▸ h.ready, fun other hother => ?_⟩
  rw [htake] at hother
  rw [hkey other hother, hkey id h.ready]
  exact h.greatest other hother

/-- At most one function comes next. -/
theorem IsNext.unique {ordered : List String} {k : Nat} {other : String}
    (h : g.IsNext ordered k id) (hother : g.IsNext ordered k other) : id = other :=
  key_injective (le_antisymm (hother.greatest id h.ready) (h.greatest other hother.ready))

end CallGraph

/-! ### The stack of a sweep -/

namespace Sweep

variable {g : CallGraph} {s : Sweep}

/-- The functions placed, the first one first. -/
def placed (s : Sweep) : List String := s.ordered.reverse

@[simp]
theorem mem_placed {id : String} : id ∈ s.placed ↔ id ∈ s.ordered := List.mem_reverse

/-- The stack holds the functions that may be placed. -/
theorem Valid.mem_frontier_iff_ready (h : Valid g.nodes.toList g.properEdges s) {id : String} :
    id ∈ s.frontier ↔ g.Ready s.placed id := by
  have hknown : (s.incoming.get? id).isSome ↔ id ∈ g.nodes ∨ ∃ caller, g.Calls caller id := by
    rw [h.isSome_incoming]
    refine or_congr Iff.rfl ⟨?_, ?_⟩
    · rintro ⟨e, he, rfl⟩
      exact ⟨e.source, CallGraph.mem_properEdges.1 he⟩
    · rintro ⟨caller, hcall⟩
      exact ⟨⟨caller, id⟩, CallGraph.mem_properEdges.2 hcall, rfl⟩
  have hcallers : unused g.properEdges s.consumed id = 0 ↔
      ∀ caller, g.Calls caller id → caller ∈ s.placed := by
    rw [unused_eq_zero]
    constructor
    · intro hused caller hcall
      have hedge := hused ⟨caller, id⟩ (CallGraph.mem_properEdges.2 hcall) rfl
      exact mem_placed.2 ((h.mem_consumed _).1 hedge).2
    · rintro hplaced e he rfl
      exact (h.mem_consumed e).2 ⟨he, mem_placed.1 (hplaced _ (CallGraph.mem_properEdges.1 he))⟩
  rw [h.mem_frontier]
  constructor
  · rintro ⟨hcount, hfresh⟩
    refine ⟨hknown.1 (by rw [hcount]; rfl), by simpa using hfresh, hcallers.1 ?_⟩
    exact (h.count_eq id 0 hcount).symm
  · rintro ⟨hid, hfresh, hall⟩
    obtain ⟨count, hcount⟩ := Option.isSome_iff_exists.1 (hknown.2 hid)
    have hzero : count = 0 := (h.count_eq id count hcount).trans (hcallers.2 hall)
    exact ⟨hzero ▸ hcount, by simpa using hfresh⟩

/-- Using up edges puts some of their targets onto the stack, one after the other. -/
theorem exists_frontier_foldl_consume (batch : List Edge) (s : Sweep) :
    ∃ pushed : List String, (batch.foldl consume s).frontier = pushed.reverse ++ s.frontier ∧
      pushed.Sublist (batch.map Edge.target) := by
  induction batch generalizing s with
  | nil => exact ⟨[], rfl, .slnil⟩
  | cons e batch ih =>
    obtain ⟨pushed, hfrontier, hsub⟩ := ih (s.consume e)
    rw [List.foldl_cons, List.map_cons]
    rcases frontier_consume s e with hsame | hmore
    · exact ⟨pushed, by rw [hfrontier, hsame], hsub.cons _⟩
    · exact ⟨e.target :: pushed, by rw [hfrontier, hmore]; simp, hsub.cons_cons _⟩

/-- The edges from a function are in ascending order of their targets. -/
theorem pairwise_targets (g : CallGraph) (node : String) :
    ((g.properEdges.filter (·.source = node)).map Edge.target).Pairwise (· < ·) := by
  have hascending : (g.properEdges.filter (·.source = node)).Pairwise
      fun a b => compare a b = .lt :=
    (g.edges.ascending.filter _).filter _
  refine List.pairwise_map.2 (hascending.imp_of_mem fun {a b} ha hb hlt => ?_)
  have hsource : a.source = b.source := by
    rw [of_decide_eq_true (List.mem_filter.1 ha).2, of_decide_eq_true (List.mem_filter.1 hb).2]
  have hlt : (compare a.source b.source).then (compare a.target b.target) = .lt := hlt
  rw [hsource, Std.LawfulEqOrd.compare_eq_iff_eq.2 rfl, Ordering.eq_then] at hlt
  exact compare_lt_iff_lt.1 hlt

/-! ### Steps and runs -/

/-- What holds of the stack between two steps: it is in descending order of keys, and all that has
been placed was placed by the rule. -/
structure Stacked (g : CallGraph) (s : Sweep) : Prop
    extends Valid g.nodes.toList g.properEdges s where
  descending : s.frontier.Pairwise fun a b => g.key s.placed b < g.key s.placed a
  isNext : ∀ k id, s.placed[k]? = some id → g.IsNext s.placed k id

theorem stacked_start (g : CallGraph) : Stacked g (start g.nodes.toList g.properEdges) where
  toValid := valid_start _ _
  descending := by
    have hids : (start g.nodes.toList g.properEdges).frontier.Pairwise fun a b => b < a := by
      refine List.pairwise_reverse.2 (List.pairwise_map.2 (.filter _ ?_))
      exact (countIncoming _ _).ascending.imp compare_lt_iff_lt.1
    -- Nothing is placed, so whatever is on the stack has no callers.
    have hcallers : ∀ id ∈ (start g.nodes.toList g.properEdges).frontier,
        g.latestCaller [] id = -1 := by
      intro id hid
      have hready := (valid_start _ _).mem_frontier_iff_ready.1 hid
      have hlt := CallGraph.latestCaller_lt hready.callers
      have hle := g.neg_one_le_latestCaller [] id
      simp only [placed, start, List.reverse_nil, List.length_nil] at hlt
      omega
    refine hids.imp_of_mem fun ha hb hlt => CallGraph.key_lt_iff.2 (Or.inr ⟨?_, hlt⟩)
    exact (hcallers _ hb).trans (hcallers _ ha).symm
  isNext k id h := by simp [placed, start] at h

/-- The top of the stack comes next. -/
theorem Stacked.isNext_top (h : Stacked g s) {node : String} {rest : List String}
    (hs : s.frontier = node :: rest) : g.IsNext s.placed s.placed.length node := by
  have hmem : ∀ id, g.Ready (s.placed.take s.placed.length) id ↔ id = node ∨ id ∈ rest := by
    intro id
    rw [List.take_length, ← h.mem_frontier_iff_ready, hs, List.mem_cons]
  refine ⟨(hmem node).2 (Or.inl rfl), fun other hother => ?_⟩
  rcases (hmem other).1 hother with rfl | hrest
  · exact le_rfl
  · exact ((List.pairwise_cons.1 (hs ▸ h.descending)).1 other hrest).le

theorem placed_step {node : String} {rest : List String} (hs : s.frontier = node :: rest)
    (edges : List Edge) : (s.step edges).placed = s.placed ++ [node] := by
  rw [placed, ordered_step hs, List.reverse_cons, placed]

/-- What a step pushes has the function just placed as its latest caller, and all that was on the
stack before has an earlier one. -/
theorem Stacked.descending_step (h : Stacked g s) {node : String} {rest : List String}
    (hs : s.frontier = node :: rest) :
    (s.step g.properEdges).frontier.Pairwise
      fun a b => g.key (s.placed ++ [node]) b < g.key (s.placed ++ [node]) a := by
  have hvalid : Valid g.nodes.toList g.properEdges (s.step g.properEdges) :=
    h.toValid.step g.nodup_properEdges
  obtain ⟨pushed, hfrontier, hsub⟩ := exists_frontier_foldl_consume
    (g.properEdges.filter (·.source = node))
    { s with ordered := node :: s.ordered, frontier := rest }
  have hstep : (s.step g.properEdges).frontier = pushed.reverse ++ rest := by
    rw [step_of_frontier hs, hfrontier]
  have hfresh : node ∉ s.placed :=
    (h.mem_frontier_iff_ready.1 (hs ▸ List.mem_cons_self)).fresh
  have hpushed : ∀ id ∈ pushed, g.latestCaller (s.placed ++ [node]) id = s.placed.length := by
    intro id hid
    have hcall : g.Calls node id := by
      obtain ⟨e, he, rfl⟩ := List.mem_map.1 (hsub.subset hid)
      obtain ⟨hmem, hsource⟩ := List.mem_filter.1 he
      exact of_decide_eq_true hsource ▸ CallGraph.mem_properEdges.1 hmem
    have hready : g.Ready (s.placed ++ [node]) id := by
      rw [← placed_step hs g.properEdges]
      exact hvalid.mem_frontier_iff_ready.1 (by simp [hstep, hid])
    exact CallGraph.latestCaller_concat hcall hfresh hready.callers
  have hrest : ∀ id ∈ rest, ∀ caller, g.Calls caller id → caller ∈ s.placed := fun id hid =>
    (h.mem_frontier_iff_ready.1 (hs ▸ List.mem_cons_of_mem node hid)).callers
  rw [hstep]
  refine List.pairwise_append.2 ⟨List.pairwise_reverse.2 ?_, ?_, ?_⟩
  · have hids := (pairwise_targets g node).sublist hsub
    refine hids.imp_of_mem fun ha hb hlt => CallGraph.key_lt_iff.2 (Or.inr ⟨?_, hlt⟩)
    exact (hpushed _ ha).trans (hpushed _ hb).symm
  · refine (List.pairwise_cons.1 (hs ▸ h.descending)).2.imp_of_mem fun ha hb hlt => ?_
    rwa [CallGraph.key_append (hrest _ ha), CallGraph.key_append (hrest _ hb)]
  · intro id hid other hother
    refine CallGraph.key_lt_iff.2 (Or.inl ?_)
    rw [hpushed id (List.mem_reverse.1 hid), CallGraph.latestCaller_append (hrest other hother)]
    exact CallGraph.latestCaller_lt (hrest other hother)

theorem Stacked.step (h : Stacked g s) : Stacked g (s.step g.properEdges) := by
  cases hs : s.frontier with
  | nil =>
    have hsame : s.step g.properEdges = s := by rw [Sweep.step, hs]
    rwa [hsame]
  | cons node rest =>
    have hplaced := placed_step hs g.properEdges
    refine ⟨h.toValid.step g.nodup_properEdges, hplaced ▸ h.descending_step hs, fun k id hk => ?_⟩
    rw [hplaced] at hk ⊢
    rcases Nat.lt_trichotomy k s.placed.length with hlt | heq | hgt
    · rw [List.getElem?_append_left hlt] at hk
      exact (h.isNext k id hk).append hlt.le
    · subst heq
      rw [List.getElem?_concat_length] at hk
      cases hk
      exact (h.isNext_top hs).append le_rfl
    · rw [List.getElem?_eq_none (by rw [List.length_append]; exact hgt)] at hk
      cases hk

theorem Stacked.run (h : Stacked g s) (fuel : Nat) :
    Stacked g (Sweep.run g.properEdges fuel s) := by
  induction fuel generalizing s with
  | zero => exact h
  | succ fuel ih =>
    rw [Sweep.run]
    split
    · exact h
    · exact ih h.step

end Sweep

/-- **A test order follows one rule.** At each place stands the one function that comes next by the
rule, and after the last place there is none left. -/
theorem testOrder_getElem?_iff_isNext (g : CallGraph) (known : List String) (o : TestOrder)
    (h : testOrder g known = .ok o) (k : Nat) (id : String) :
    o.ordered[k]? = some id ↔ g.IsNext o.ordered k id := by
  obtain ⟨hnone, rfl⟩ := testOrder_eq_ok_iff.1 h
  have hstacked : Sweep.Stacked g (Sweep.final g) := (Sweep.stacked_start g).run _
  refine ⟨hstacked.isNext k id, fun hnext => ?_⟩
  cases hk : (Sweep.final g).ordered.reverse[k]? with
  | some other => rw [hnext.unique (hstacked.isNext k other hk)]
  | none =>
    -- All functions stand before this place, and the next one would be one of them.
    have hall : (Sweep.final g).ordered.reverse.take k = (Sweep.final g).ordered.reverse :=
      List.take_of_length_le (List.getElem?_eq_none_iff.1 hk)
    have hready := hnext.ready
    rw [hall] at hready
    exact absurd ((CallGraph.isOrderOf_final hnone known).mem_ordered id |>.2 hready.known)
      hready.fresh

/-- A graph in which a function waits on the stack while those called by a later one are placed. -/
def waitingGraph : CallGraph where
  nodes := .ofList ["alone", "main"]
  edges := .ofList [⟨"main", "early"⟩, ⟨"main", "late"⟩, ⟨"late", "deep"⟩, ⟨"early", "last"⟩,
    ⟨"deep", "last"⟩, ⟨"late", "late"⟩]

theorem testOrder_getElem?_iff_isNext_waitingGraph :
    testOrder waitingGraph [] = .ok ⟨[], ["main", "late", "deep", "early", "last", "alone"]⟩ ∧
      ∀ k id, ["main", "late", "deep", "early", "last", "alone"][k]? = some id ↔
        waitingGraph.IsNext ["main", "late", "deep", "early", "last", "alone"] k id :=
  ⟨rfl, testOrder_getElem?_iff_isNext waitingGraph [] _ rfl⟩

end CallerFirst
