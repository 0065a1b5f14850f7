import CallerFirst.Proofs.Sweep
import Mathlib.Logic.Relation
import Mathlib.Order.Preorder.Finite
import Mathlib.Tactic.Common

/-!
# Which graphs have a test order, and what it looks like

* `testOrder_isOrderOf`: a test order has each function of the graph once and every caller before
  its callees;
* `testOrder_error_iff`: there is none exactly when some function lies on a cycle or behind one, or
  calls without being in the graph or being called, and the error names the edges from all such
  functions.
-/

namespace CallerFirst

namespace CallGraph

/-- A function calls another one. Calls of itself do not count. -/
def Calls (g : CallGraph) (caller callee : String) : Prop :=
  caller ≠ callee ∧ (⟨caller, callee⟩ : Edge) ∈ g.edges

/-- A function lies on a cycle of calls. There are at least two functions on it. -/
def OnCycle (g : CallGraph) (id : String) : Prop := Relation.TransGen g.Calls id id

/-- A caller that is neither a function of the graph nor called. -/
def Dangling (g : CallGraph) (id : String) : Prop :=
  (∃ callee, g.Calls id callee) ∧ id ∉ g.nodes ∧ ∀ caller, ¬ g.Calls caller id

/-- A function lies on a cycle or is dangling, or it is called, directly or not, by one that does
or is. -/
def Blocked (g : CallGraph) (id : String) : Prop :=
  ∃ root, (g.OnCycle root ∨ g.Dangling root) ∧ Relation.ReflTransGen g.Calls root id

/-- An edge that no test order can respect: a call from a function that is blocked. -/
def Obstructs (g : CallGraph) (e : Edge) : Prop :=
  g.Calls e.source e.target ∧ g.Blocked e.source

theorem mem_properEdges {g : CallGraph} {e : Edge} :
    e ∈ g.properEdges ↔ g.Calls e.source e.target := by
  simp [properEdges, Calls, Edge.isLoop, SortedSet.mem_def, and_comm]

theorem nodup_properEdges (g : CallGraph) : g.properEdges.Nodup := g.edges.nodup_toList.filter _

end CallGraph

/-! ### The end of a sweep -/

namespace Sweep

variable {g : CallGraph} {s : Sweep}

/-- A sweep over a graph that leaves nothing to be placed. -/
structure Finished (g : CallGraph) (s : Sweep) : Prop
    extends Valid g.nodes.toList g.properEdges s where
  frontier_nil : s.frontier = []

/-- The sweep that makes a test order. -/
def final (g : CallGraph) : Sweep :=
  let first := start g.nodes.toList g.properEdges
  run g.properEdges first.incoming.size first

theorem finished_final (g : CallGraph) : Finished g (final g) where
  toValid := (valid_start _ _).run g.nodup_properEdges _
  frontier_nil := (valid_start _ _).frontier_run g.nodup_properEdges (Nat.le_add_left _ _)

/-- The callers of a function that is placed are placed, further down. -/
theorem Valid.mem_of_transGen (h : Valid g.nodes.toList g.properEdges s) {a b : String}
    (hab : Relation.TransGen g.Calls a b) {below : List String} (hb : b :: below <:+ s.ordered) :
    a ∈ below := by
  induction hab generalizing below with
  | single hcall => exact h.callers _ _ hb ⟨_, _⟩ (CallGraph.mem_properEdges.2 hcall) rfl
  | tail _ hcall ih =>
    have hmem := h.callers _ _ hb ⟨_, _⟩ (CallGraph.mem_properEdges.2 hcall) rfl
    obtain ⟨above, further, rfl⟩ := List.append_of_mem hmem
    have hsuffix : _ :: further <:+ s.ordered :=
      (List.suffix_append above _).trans ((List.suffix_cons _ _).trans hb)
    exact List.mem_append_right _ (List.mem_cons_of_mem _ (ih hsuffix))

theorem exists_suffix_of_mem {l : List String} {id : String} (h : id ∈ l) :
    ∃ below, id :: below <:+ l := by
  obtain ⟨above, below, rfl⟩ := List.append_of_mem h
  exact ⟨below, List.suffix_append _ _⟩

theorem Valid.not_blocked (h : Valid g.nodes.toList g.properEdges s) {id : String}
    (hid : id ∈ s.ordered) : ¬ g.Blocked id := by
  rintro ⟨root, hroot, hreach⟩
  -- Callers are placed before callees, so what blocks a function that is placed is placed too.
  have hplaced : root ∈ s.ordered := by
    rcases Relation.reflTransGen_iff_eq_or_transGen.1 hreach with rfl | htrans
    · exact hid
    · obtain ⟨below, hsuffix⟩ := exists_suffix_of_mem hid
      exact hsuffix.subset (List.mem_cons_of_mem _ (h.mem_of_transGen htrans hsuffix))
  rcases hroot with hcycle | ⟨-, hnode, hcalled⟩
  · obtain ⟨below, hsuffix⟩ := exists_suffix_of_mem hplaced
    have hmem := h.mem_of_transGen hcycle hsuffix
    exact (List.nodup_cons.1 (hsuffix.sublist.nodup h.nodup_ordered)).1 hmem
  · have hsome := (h.isSome_incoming root).1 (by rw [h.count_ordered root hplaced]; rfl)
    rcases hsome with hmem | ⟨e, he, rfl⟩
    · exact hnode hmem
    · exact hcalled e.source (CallGraph.mem_properEdges.1 he)

/-- In the end a function is missing because one of its callers is. -/
theorem Finished.exists_caller (h : Finished g s) {id : String} (hid : id ∉ s.ordered)
    (hknown : id ∈ g.nodes ∨ ∃ caller, g.Calls caller id) :
    ∃ caller, g.Calls caller id ∧ caller ∉ s.ordered := by
  have hsome : (s.incoming.get? id).isSome := by
    refine (h.isSome_incoming id).2 ?_
    rcases hknown with hnode | ⟨caller, hcall⟩
    · exact Or.inl hnode
    · exact Or.inr ⟨⟨caller, id⟩, CallGraph.mem_properEdges.2 hcall, rfl⟩
  obtain ⟨count, hcount⟩ := Option.isSome_iff_exists.1 hsome
  have hne : unused g.properEdges s.consumed id ≠ 0 := by
    rw [← h.count_eq id count hcount]
    rintro rfl
    have := (h.mem_frontier id).2 ⟨hcount, hid⟩
    rw [h.frontier_nil] at this
    cases this
  obtain ⟨e, he, rfl, hun⟩ : ∃ e ∈ g.properEdges, e.target = id ∧ e ∉ s.consumed := by
    by_contra hall
    refine hne (unused_eq_zero.2 fun e he htarget => ?_)
    by_contra hun
    exact hall ⟨e, he, htarget, hun⟩
  refine ⟨e.source, CallGraph.mem_properEdges.1 he, fun hsource => hun ?_⟩
  exact (h.mem_consumed e).2 ⟨he, hsource⟩

end Sweep

/-! ### Missing functions are blocked -/

/-- In a finite set in which each element has a predecessor, some element comes before itself. -/
theorem exists_transGen_self {α : Type} {r : α → α → Prop} {t : Set α} (hfin : t.Finite)
    (hne : t.Nonempty) (hpred : ∀ a ∈ t, ∃ b ∈ t, r b a) : ∃ a ∈ t, Relation.TransGen r a a := by
  obtain ⟨a, ha⟩ := hne
  choose! f hmem hrel using hpred
  -- Going from predecessor to predecessor never leaves the set, so it comes to an element twice.
  have horbit : ∀ n, f^[n] a ∈ t := by
    intro n
    induction n with
    | zero => exact ha
    | succ n ih => rw [Function.iterate_succ_apply']; exact hmem _ ih
  have hback : ∀ m n, Relation.TransGen r (f^[m + n + 1] a) (f^[m] a) := by
    intro m n
    induction n with
    | zero => rw [Function.iterate_succ_apply']; exact .single (hrel _ (horbit m))
    | succ n ih =>
      rw [Function.iterate_succ_apply']
      exact .head (hrel _ (horbit _)) ih
  obtain ⟨m, n, hlt, heq⟩ := hfin.exists_lt_map_eq_of_forall_mem horbit
  obtain ⟨k, rfl⟩ := Nat.exists_eq_add_of_lt hlt
  refine ⟨f^[m] a, horbit m, ?_⟩
  have := hback m k
  rwa [← heq] at this

namespace CallGraph

variable {g : CallGraph}

theorem Blocked.of_onCycle {id : String} (h : g.OnCycle id) : g.Blocked id :=
  ⟨id, Or.inl h, .refl⟩

theorem Blocked.callee {a b : String} (h : g.Blocked a)
    (hreach : Relation.ReflTransGen g.Calls a b) : g.Blocked b := by
  obtain ⟨root, hroot, ha⟩ := h
  exact ⟨root, hroot, ha.trans hreach⟩

end CallGraph

theorem Sweep.Finished.blocked_of_not_mem {g : CallGraph} {s : Sweep} (h : Sweep.Finished g s)
    {id : String} (hcalls : ∃ callee, g.Calls id callee) (hid : id ∉ s.ordered) : g.Blocked id := by
  by_contra hfree
  -- The callers of `id`, directly or not, that are missing: each of them has a caller among them.
  let missing : Set String :=
    {a | (∃ b, g.Calls a b) ∧ a ∉ s.ordered ∧ Relation.ReflTransGen g.Calls a id}
  have hfin : missing.Finite := by
    refine (List.finite_toSet (g.properEdges.map Edge.source)).subset ?_
    rintro a ⟨⟨b, hab⟩, -, -⟩
    exact List.mem_map.2 ⟨⟨a, b⟩, CallGraph.mem_properEdges.2 hab, rfl⟩
  have hpred : ∀ a ∈ missing, ∃ b ∈ missing, g.Calls b a := by
    rintro a ⟨hcalls, ha, hreach⟩
    have hknown : a ∈ g.nodes ∨ ∃ caller, g.Calls caller a := by
      by_contra hno
      rw [not_or, not_exists] at hno
      exact hfree ⟨a, Or.inr ⟨hcalls, hno⟩, hreach⟩
    obtain ⟨b, hba, hb⟩ := h.exists_caller ha hknown
    exact ⟨b, ⟨⟨a, hba⟩, hb, .head hba hreach⟩, hba⟩
  obtain ⟨a, ⟨-, -, hreach⟩, hcycle⟩ := exists_transGen_self hfin ⟨id, hcalls, hid, .refl⟩ hpred
  exact hfree ((CallGraph.Blocked.of_onCycle hcycle).callee hreach)

/-! ### The outcome -/

/-- The edges that a test order of a graph cannot respect, in ascending order. -/
def CallGraph.obstructions (g : CallGraph) : List Edge :=
  g.properEdges.filter fun e => e ∉ (Sweep.final g).consumed

theorem testOrder_eq (g : CallGraph) (known : List String) :
    testOrder g known
      = if g.obstructions.isEmpty then
          .ok ⟨known.filter fun id => id ∉ g.nodes, (Sweep.final g).ordered.reverse⟩
        else .error ⟨g.obstructions⟩ := rfl

theorem CallGraph.mem_obstructions {g : CallGraph} {e : Edge} :
    e ∈ g.obstructions ↔ g.Obstructs e := by
  have h := Sweep.finished_final g
  simp only [obstructions, List.mem_filter, decide_eq_true_iff, h.mem_consumed]
  constructor
  · rintro ⟨he, hun⟩
    have hcalls := mem_properEdges.1 he
    exact ⟨hcalls, h.blocked_of_not_mem ⟨_, hcalls⟩ fun hsource => hun ⟨he, hsource⟩⟩
  · rintro ⟨hcalls, hblocked⟩
    exact ⟨mem_properEdges.2 hcalls, fun ⟨_, hsource⟩ => h.not_blocked hsource hblocked⟩

theorem CallGraph.obstructions_eq_nil {g : CallGraph} :
    g.obstructions = [] ↔ ∀ e, ¬ g.Obstructs e := by
  rw [List.eq_nil_iff_forall_not_mem]
  simp only [mem_obstructions]

theorem testOrder_eq_error_iff {g : CallGraph} {known : List String} {err : CycleError} :
    testOrder g known = .error err ↔ (∃ e, g.Obstructs e) ∧ err = ⟨g.obstructions⟩ := by
  rw [testOrder_eq]
  split
  · next hnil =>
    have hnone := CallGraph.obstructions_eq_nil.1 (List.isEmpty_iff.1 hnil)
    simp [hnone]
  · next hne =>
    have hsome : ∃ e, g.Obstructs e := by
      by_contra hno
      exact hne (List.isEmpty_iff.2 (CallGraph.obstructions_eq_nil.2 (not_exists.1 hno)))
    simp [hsome, eq_comm]

/-- Both ends of every edge are functions of the graph. -/
def CallGraph.Closed (g : CallGraph) : Prop :=
  ∀ e ∈ g.edges, e.source ∈ g.nodes ∧ e.target ∈ g.nodes

/-- A graph that has been put together from functions and edges. -/
inductive CallGraph.Built : CallGraph → Prop
  | empty : Built .empty
  | addNode {g : CallGraph} (id : String) : Built g → Built (g.addNode id)
  | addEdge {g : CallGraph} (caller callee : String) : Built g → Built (g.addEdge caller callee)

theorem CallGraph.Built.closed {g : CallGraph} (h : g.Built) : g.Closed := by
  induction h with
  | empty => intro e he; simp [CallGraph.empty] at he
  | addNode id _ ih =>
    intro e he
    obtain ⟨hs, ht⟩ := ih e he
    exact ⟨SortedSet.mem_insert.2 (Or.inr hs), SortedSet.mem_insert.2 (Or.inr ht)⟩
  | addEdge caller callee _ ih =>
    intro e he
    simp only [CallGraph.addEdge, SortedSet.mem_insert] at he ⊢
    rcases he with rfl | he
    · simp
    · obtain ⟨hs, ht⟩ := ih e he
      simp [hs, ht]

/-- In a closed graph only cycles block. -/
theorem CallGraph.Closed.blocked_iff {g : CallGraph} (h : g.Closed) {id : String} :
    g.Blocked id ↔ ∃ root, g.OnCycle root ∧ Relation.ReflTransGen g.Calls root id := by
  constructor
  · rintro ⟨root, hcycle | ⟨⟨callee, -, hedge⟩, hnode, -⟩, hreach⟩
    · exact ⟨root, hcycle, hreach⟩
    · exact absurd (h _ hedge).1 hnode
  · rintro ⟨root, hcycle, hreach⟩
    exact ⟨root, Or.inl hcycle, hreach⟩

/-- **Exact reports of cycles.** There is no test order exactly when some edge obstructs it, in a
closed graph exactly when there is a cycle, and the error lists the obstructing edges in order. -/
theorem testOrder_error_iff (g : CallGraph) (known : List String) :
    ((∃ err, testOrder g known = .error err) ↔ ∃ e, g.Obstructs e) ∧
    (∀ err, testOrder g known = .error err →
      err.edges.Pairwise (fun a b => compare a b = .lt) ∧ ∀ e, e ∈ err.edges ↔ g.Obstructs e) ∧
    (g.Built → g.Closed) ∧
    (g.Closed →
      ((∃ err, testOrder g known = .error err) ↔ ∃ id, g.OnCycle id) ∧
      ∀ err, testOrder g known = .error err → ∀ e, e ∈ err.edges ↔
        g.Calls e.source e.target ∧
          ∃ root, g.OnCycle root ∧ Relation.ReflTransGen g.Calls root e.source) := by
  have hfails : (∃ err, testOrder g known = .error err) ↔ ∃ e, g.Obstructs e := by
    simp [testOrder_eq_error_iff]
  have hedges : ∀ err, testOrder g known = .error err → ∀ e, e ∈ err.edges ↔ g.Obstructs e := by
    intro err herr e
    rw [(testOrder_eq_error_iff.1 herr).2]
    exact CallGraph.mem_obstructions
  refine ⟨hfails, fun err herr => ⟨?_, hedges err herr⟩, CallGraph.Built.closed, fun hclosed => ?_⟩
  · rw [(testOrder_eq_error_iff.1 herr).2]
    exact (g.edges.ascending.filter _).filter _
  · refine ⟨hfails.trans ⟨?_, ?_⟩, fun err herr e => ?_⟩
    · rintro ⟨e, -, hblocked⟩
      obtain ⟨root, hcycle, -⟩ := hclosed.blocked_iff.1 hblocked
      exact ⟨root, hcycle⟩
    · rintro ⟨id, hcycle⟩
      obtain ⟨callee, hcall, -⟩ := Relation.TransGen.head'_iff.1 hcycle
      exact ⟨⟨id, callee⟩, hcall, .of_onCycle hcycle⟩
    · rw [hedges err herr e, CallGraph.Obstructs, hclosed.blocked_iff]

/-! ### What a test order is -/

/-- An order of a graph in which callers come before callees, with the known functions outside of
the graph. -/
structure TestOrder.IsOrderOf (o : TestOrder) (g : CallGraph) (known : List String) : Prop where
  nodup : o.ordered.Nodup
  /-- The functions in order are those of the graph and those that are called. -/
  mem_ordered : ∀ id, id ∈ o.ordered ↔ id ∈ g.nodes ∨ ∃ caller, g.Calls caller id
  /-- Both ends of a call are in order, the caller first. -/
  caller_first : ∀ caller callee, g.Calls caller callee →
    ∃ i j, o.position? caller = some i ∧ o.position? callee = some j ∧ i < j
  isolated_eq : o.isolated = known.filter fun id => id ∉ g.nodes

theorem idxOf?_append_cons {front back : List String} {id : String} (h : id ∉ front) :
    (front ++ id :: back).idxOf? id = some front.length := by
  induction front with
  | nil => simp [List.idxOf?_cons]
  | cons other front ih =>
    rw [List.mem_cons, not_or] at h
    simp [List.idxOf?_cons, ih h.2, Ne.symm h.1]

/-- What lies further down among the functions placed stands earlier in the order. -/
theorem TestOrder.position?_lt {o : TestOrder} {placed : List String}
    (ho : o.ordered = placed.reverse) (hnodup : placed.Nodup) {a b : String} {below : List String}
    (hb : b :: below <:+ placed) (ha : a ∈ below) :
    ∃ i j, o.position? a = some i ∧ o.position? b = some j ∧ i < j := by
  obtain ⟨later, rfl⟩ := hb
  obtain ⟨between, earlier, rfl⟩ := List.append_of_mem ha
  have hrest := List.nodup_cons.1 (List.nodup_append.1 hnodup).2.1
  -- The order once more, cut at each of the two functions.
  have hlist : o.ordered = earlier.reverse ++ a :: (between.reverse ++ b :: later.reverse) := by
    rw [ho]
    simp
  have hlist' : o.ordered = (earlier.reverse ++ a :: between.reverse) ++ b :: later.reverse := by
    rw [hlist]
    simp
  have hearlier : a ∉ earlier.reverse := by
    have := (List.nodup_cons.1 (List.nodup_append.1 hrest.2).2.1).1
    simpa using this
  have hbefore : b ∉ earlier.reverse ++ a :: between.reverse := by
    have := hrest.1
    simp only [List.mem_append, List.mem_cons, List.mem_reverse] at this ⊢
    tauto
  refine ⟨earlier.reverse.length, (earlier.reverse ++ a :: between.reverse).length, ?_, ?_, ?_⟩
  · rw [position?, hlist, idxOf?_append_cons hearlier]
  · rw [position?, hlist', idxOf?_append_cons hbefore]
  · simp

/-- When nothing obstructs an order, every caller is placed. -/
theorem CallGraph.source_mem_ordered {g : CallGraph} (h : g.obstructions = []) :
    ∀ e ∈ g.properEdges, e.source ∈ (Sweep.final g).ordered := by
  intro e he
  by_contra hsource
  have hmem : e ∈ g.obstructions :=
    List.mem_filter.2 ⟨he, by simp [(Sweep.finished_final g).mem_consumed, hsource]⟩
  rw [h] at hmem
  cases hmem

theorem Sweep.Finished.mem_ordered_iff {g : CallGraph} {s : Sweep} (h : Sweep.Finished g s)
    (hall : ∀ e ∈ g.properEdges, e.source ∈ s.ordered) (id : String) :
    id ∈ s.ordered ↔ id ∈ g.nodes ∨ ∃ caller, g.Calls caller id := by
  constructor
  · intro hid
    rcases (h.isSome_incoming id).1 (by rw [h.count_ordered id hid]; rfl) with hnode | ⟨e, he, rfl⟩
    · exact Or.inl hnode
    · exact Or.inr ⟨e.source, CallGraph.mem_properEdges.1 he⟩
  · intro hknown
    by_contra hid
    obtain ⟨caller, hcall, hmissing⟩ := h.exists_caller hid hknown
    exact hmissing (hall ⟨caller, id⟩ (CallGraph.mem_properEdges.2 hcall))

/-- When nothing obstructs an order, the sweep makes one. -/
theorem CallGraph.isOrderOf_final {g : CallGraph} (h : g.obstructions = []) (known : List String) :
    TestOrder.IsOrderOf
      ⟨known.filter fun id => id ∉ g.nodes, (Sweep.final g).ordered.reverse⟩ g known := by
  have hfin := Sweep.finished_final g
  have hall := CallGraph.source_mem_ordered h
  constructor
  case nodup => exact List.nodup_reverse.2 hfin.nodup_ordered
  case mem_ordered =>
    intro id
    rw [List.mem_reverse]
    exact hfin.mem_ordered_iff hall id
  case caller_first =>
    intro caller callee hcall
    have hcallee := (hfin.mem_ordered_iff hall callee).2 (Or.inr ⟨caller, hcall⟩)
    obtain ⟨below, hsuffix⟩ := Sweep.exists_suffix_of_mem hcallee
    have hcaller : caller ∈ below := hfin.callers callee below hsuffix ⟨caller, callee⟩
      (CallGraph.mem_properEdges.2 hcall) rfl
    exact TestOrder.position?_lt rfl hfin.nodup_ordered hsuffix hcaller
  case isolated_eq => rfl

theorem testOrder_eq_ok_iff {g : CallGraph} {known : List String} {o : TestOrder} :
    testOrder g known = .ok o ↔ g.obstructions = [] ∧
      o = ⟨known.filter fun id => id ∉ g.nodes, (Sweep.final g).ordered.reverse⟩ := by
  rw [testOrder_eq]
  split
  · next hnil => simp [List.isEmpty_iff.1 hnil, eq_comm]
  · next hne =>
    have hsome : g.obstructions ≠ [] := fun hnil => hne (List.isEmpty_iff.2 hnil)
    simp [hsome]

/-- **Test orders are sound**: each function of the graph is there once, every caller before its
callees, and the known functions outside of the graph are isolated. -/
theorem testOrder_isOrderOf (g : CallGraph) (known : List String) (o : TestOrder)
    (h : testOrder g known = .ok o) : o.IsOrderOf g known := by
  obtain ⟨hnone, rfl⟩ := testOrder_eq_ok_iff.1 h
  exact CallGraph.isOrderOf_final hnone known

/-- A graph with a function that calls itself and with targets that are not among its functions. -/
def looseGraph : CallGraph where
  nodes := .ofList ["main", "solo"]
  edges := .ofList [⟨"main", "load"⟩, ⟨"load", "parse"⟩, ⟨"main", "parse"⟩, ⟨"parse", "parse"⟩]

theorem testOrder_isOrderOf_looseGraph :
    testOrder looseGraph ["spare", "main", "load"]
        = .ok ⟨["spare", "load"], ["solo", "main", "load", "parse"]⟩ ∧
      TestOrder.IsOrderOf ⟨["spare", "load"], ["solo", "main", "load", "parse"]⟩ looseGraph
        ["spare", "main", "load"] :=
  ⟨rfl, testOrder_isOrderOf looseGraph _ _ rfl⟩

end CallerFirst
