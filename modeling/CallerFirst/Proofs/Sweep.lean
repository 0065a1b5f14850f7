import CallerFirst.TestOrder
import CallerFirst.Proofs.Collection
import Mathlib.Data.List.Basic
import Mathlib.Tactic.Common

/-!
# The invariant of a sweep

A sweep keeps a count for each function, the stack of functions that may be placed, the functions
placed and the edges used up. `Ledger` says how the counts and the stack fit the rest, and holds
after each single edge (`Ledger.consume`); `Valid` adds what holds after all the edges of a function
have been used up, and holds after each step (`Valid.step`). A sweep that runs long enough leaves
nothing to be placed (`Valid.frontier_run`).
-/

namespace CallerFirst

namespace Sweep

variable {nodes : List String} {edges : List Edge} {s : Sweep}

/-- How many edges into a function are not used up. -/
def unused (edges : List Edge) (consumed : SortedSet Edge) (id : String) : Nat :=
  edges.countP fun e => e.target = id ∧ e ∉ consumed

theorem unused_eq_zero {consumed : SortedSet Edge} {id : String} :
    unused edges consumed id = 0 ↔ ∀ e ∈ edges, e.target = id → e ∈ consumed := by
  simp [unused]

/-- Using up an edge lowers the count of its target by one and no other count. -/
theorem unused_insert (hnodup : edges.Nodup) {consumed : SortedSet Edge} {e : Edge} (he : e ∈ edges)
    (hun : e ∉ consumed) (id : String) :
    unused edges consumed id
      = unused edges (consumed.insert e) id + if e.target = id then 1 else 0 := by
  obtain ⟨front, back, rfl⟩ := List.append_of_mem he
  -- The edge occurs once, so elsewhere in the list the same edges are counted.
  have hother : ∀ l : List Edge, e ∉ l →
      unused l (consumed.insert e) id = unused l consumed id := by
    intro l hl
    refine List.countP_congr fun d hd => ?_
    have hne : d ≠ e := fun h => hl (h ▸ hd)
    simp [hne]
  have hfront : e ∉ front := fun h => (List.nodup_append.1 hnodup).2.2 e h e List.mem_cons_self rfl
  have hback : e ∉ back := (List.nodup_cons.1 (List.nodup_append.1 hnodup).2.1).1
  have hfront := hother front hfront
  have hback := hother back hback
  simp only [unused, List.countP_append, List.countP_cons] at hfront hback ⊢
  rw [hfront, hback]
  simp [hun]
  omega

/-! ### Using up one edge -/

/-- The counts are right, and the stack holds the functions whose count is zero and that are not
placed. -/
structure Ledger (nodes : List String) (edges : List Edge) (s : Sweep) : Prop where
  /-- There is a count for each function of the graph and for each target of an edge. -/
  isSome_incoming : ∀ id, (s.incoming.get? id).isSome ↔ id ∈ nodes ∨ ∃ e ∈ edges, e.target = id
  /-- A count is the number of edges that are not used up. -/
  count_eq : ∀ id count, s.incoming.get? id = some count → count = unused edges s.consumed id
  nodup_frontier : s.frontier.Nodup
  mem_frontier : ∀ id, id ∈ s.frontier ↔ s.incoming.get? id = some 0 ∧ id ∉ s.ordered
  /-- No edge into a function that is placed is left. -/
  count_ordered : ∀ id ∈ s.ordered, s.incoming.get? id = some 0

@[simp]
theorem ordered_consume (s : Sweep) (e : Edge) : (s.consume e).ordered = s.ordered := by
  unfold consume
  dsimp only
  split
  · split <;> rfl
  · rfl

@[simp]
theorem consumed_consume (s : Sweep) (e : Edge) :
    (s.consume e).consumed = s.consumed.insert e := by
  unfold consume
  dsimp only
  split
  · split <;> rfl
  · rfl

/-- Using up an edge puts its target onto the stack, or nothing. -/
theorem frontier_consume (s : Sweep) (e : Edge) :
    (s.consume e).frontier = s.frontier ∨ (s.consume e).frontier = e.target :: s.frontier := by
  unfold consume
  dsimp only
  split
  · split
    · exact Or.inr rfl
    · exact Or.inl rfl
  · exact Or.inl rfl

theorem consume_of_count {e : Edge} {count : Nat}
    (h : s.incoming.get? e.target = some (count + 1)) :
    s.consume e
      = { ordered := s.ordered
          frontier := if count = 0 then e.target :: s.frontier else s.frontier
          incoming := s.incoming.insert e.target count
          consumed := s.consumed.insert e } := by
  simp only [consume, h, Nat.add_sub_cancel]
  split <;> rfl

/-- What is on the stack is not placed. -/
theorem Ledger.nodup_append (h : Ledger nodes edges s) (hordered : s.ordered.Nodup) :
    (s.ordered ++ s.frontier).Nodup := by
  refine List.nodup_append.2 ⟨hordered, h.nodup_frontier, ?_⟩
  rintro a ha b hb rfl
  exact ((h.mem_frontier a).1 hb).2 ha

/-- An edge that is not used up is counted. -/
theorem Ledger.exists_count (h : Ledger nodes edges s) {e : Edge} (he : e ∈ edges)
    (hun : e ∉ s.consumed) : ∃ count, s.incoming.get? e.target = some (count + 1) := by
  have hsome := (h.isSome_incoming e.target).2 (Or.inr ⟨e, he, rfl⟩)
  obtain ⟨count, hcount⟩ := Option.isSome_iff_exists.1 hsome
  have hne : count ≠ 0 := by
    rw [h.count_eq _ _ hcount]
    intro hzero
    exact hun (unused_eq_zero.1 hzero e he rfl)
  obtain ⟨n, rfl⟩ := Nat.exists_eq_succ_of_ne_zero hne
  exact ⟨n, hcount⟩

theorem Ledger.consume (h : Ledger nodes edges s) (hnodup : edges.Nodup) {e : Edge} (he : e ∈ edges)
    (hun : e ∉ s.consumed) : Ledger nodes edges (s.consume e) := by
  obtain ⟨count, hcount⟩ := h.exists_count he hun
  -- The target still waits for this edge, so it is neither on the stack nor placed.
  have hfrontier : e.target ∉ s.frontier := by
    rw [h.mem_frontier, hcount]
    simp
  have hordered : e.target ∉ s.ordered := by
    intro hmem
    have := h.count_ordered _ hmem
    rw [hcount] at this
    simp at this
  have hunused := unused_insert hnodup he hun
  rw [consume_of_count hcount]
  constructor
  case isSome_incoming =>
    intro id
    rw [SortedMap.get?_insert]
    split
    · next hid => simpa [hid] using Or.inr ⟨e, he, rfl⟩
    · exact h.isSome_incoming id
  case count_eq =>
    intro id n hn
    rw [SortedMap.get?_insert] at hn
    split at hn
    · next hid =>
      cases hn
      have := h.count_eq _ _ hcount
      rw [hunused, if_pos rfl] at this
      rw [hid]
      exact Nat.succ.inj this
    · next hid =>
      rw [h.count_eq _ _ hn, hunused, if_neg (Ne.symm hid), Nat.add_zero]
  case nodup_frontier =>
    dsimp only
    split
    · exact List.nodup_cons.2 ⟨hfrontier, h.nodup_frontier⟩
    · exact h.nodup_frontier
  case mem_frontier =>
    intro id
    rw [SortedMap.get?_insert]
    by_cases hid : id = e.target
    · subst hid
      by_cases hzero : count = 0 <;> simp [hzero, hordered, hfrontier]
    · have hsame : id ∈ (if count = 0 then e.target :: s.frontier else s.frontier)
          ↔ id ∈ s.frontier := by
        split <;> simp [hid]
      rw [if_neg hid, hsame]
      exact h.mem_frontier id
  case count_ordered =>
    intro id hid
    have hne : id ≠ e.target := fun heq => hordered (heq ▸ hid)
    rw [SortedMap.get?_insert, if_neg hne]
    exact h.count_ordered id hid

@[simp]
theorem ordered_foldl_consume (batch : List Edge) (s : Sweep) :
    (batch.foldl consume s).ordered = s.ordered := by
  induction batch generalizing s with
  | nil => rfl
  | cons e batch ih => rw [List.foldl_cons, ih, ordered_consume]

@[simp]
theorem mem_consumed_foldl_consume (batch : List Edge) (s : Sweep) (e : Edge) :
    e ∈ (batch.foldl consume s).consumed ↔ e ∈ batch ∨ e ∈ s.consumed := by
  induction batch generalizing s with
  | nil => simp
  | cons d batch ih =>
    rw [List.foldl_cons, ih, consumed_consume, SortedSet.mem_insert, List.mem_cons]
    tauto

/-- Using up some edges, one after the other. -/
theorem Ledger.foldl_consume (hnodup : edges.Nodup) {batch : List Edge} (hbatch : batch.Nodup)
    (h : Ledger nodes edges s) (hun : ∀ e ∈ batch, e ∈ edges ∧ e ∉ s.consumed) :
    Ledger nodes edges (batch.foldl Sweep.consume s) := by
  induction batch generalizing s with
  | nil => exact h
  | cons e batch ih =>
    obtain ⟨hfresh, hbatch⟩ := List.nodup_cons.1 hbatch
    obtain ⟨he, hune⟩ := hun e List.mem_cons_self
    refine ih hbatch (h.consume hnodup he hune) fun d hd => ?_
    obtain ⟨hmem, hund⟩ := hun d (List.mem_cons_of_mem e hd)
    have hne : d ≠ e := fun heq => hfresh (heq ▸ hd)
    exact ⟨hmem, by simp [hne, hund]⟩

/-! ### The start -/

theorem get?_foldl_count (edges : List Edge) (m : SortedMap String Nat) (id : String) :
    (edges.foldl (fun m e => m.update e.target fun n => n.getD 0 + 1) m).get? id
      = if ∃ e ∈ edges, e.target = id then
          some ((m.get? id).getD 0 + edges.countP fun e => e.target = id)
        else m.get? id := by
  induction edges generalizing m with
  | nil => simp
  | cons e edges ih =>
    rw [List.foldl_cons, ih, SortedMap.get?_update]
    by_cases he : e.target = id
    · subst he
      by_cases hmore : ∃ d ∈ edges, d.target = e.target
      · simp [hmore]
        omega
      · have hnone : edges.countP (fun d => d.target = e.target) = 0 := by
          simpa using hmore
        simp [hmore, hnone]
    · simp [he, Ne.symm he]

theorem get?_countIncoming (nodes : List String) (edges : List Edge) (id : String) :
    (countIncoming nodes edges).get? id
      = if id ∈ nodes ∨ ∃ e ∈ edges, e.target = id then
          some (edges.countP fun e => e.target = id)
        else none := by
  have hnodes : (SortedMap.ofList (nodes.map fun n => (n, 0))).get? id
      = if id ∈ nodes then some 0 else none := by
    rw [SortedMap.get?_ofList]
    cases hfind : (nodes.map fun n => (n, 0)).reverse.find? fun e => e.1 = id with
    | none =>
      have hid : id ∉ nodes := by
        intro hid
        simpa using List.find?_eq_none.1 hfind (id, 0) (by simpa using hid)
      rw [if_neg hid]
      rfl
    | some e =>
      obtain ⟨n, hn, rfl⟩ := List.mem_map.1 (List.mem_reverse.1 (List.mem_of_find?_eq_some hfind))
      have hid : n = id := by simpa using List.find?_some hfind
      rw [if_pos (hid ▸ hn)]
      rfl
  rw [countIncoming, get?_foldl_count, hnodes]
  by_cases hedge : ∃ e ∈ edges, e.target = id
  · by_cases hid : id ∈ nodes <;> simp [hedge, hid]
  · have hnone : edges.countP (fun e => e.target = id) = 0 := by
      simpa using hedge
    simp [hedge, hnone]

theorem ledger_start (nodes : List String) (edges : List Edge) :
    Ledger nodes edges (start nodes edges) := by
  constructor
  case isSome_incoming =>
    intro id
    simp only [start, get?_countIncoming]
    split <;> simp_all
  case count_eq =>
    intro id count hcount
    simp only [start, get?_countIncoming, Option.ite_none_right_eq_some,
      Option.some.injEq] at hcount
    simp [start, unused, ← hcount.2]
  case nodup_frontier =>
    refine List.nodup_reverse.2 ?_
    exact (List.filter_sublist.map _).nodup (countIncoming nodes edges).nodup_keys
  case mem_frontier =>
    intro id
    simp [start, ← SortedMap.mem_entries_iff]
  case count_ordered =>
    intro id hid
    cases hid

/-! ### Steps and runs -/

/-- What holds between two steps of a sweep. -/
structure Valid (nodes : List String) (edges : List Edge) (s : Sweep) : Prop
    extends Ledger nodes edges s where
  /-- The edges used up are those from the functions placed. -/
  mem_consumed : ∀ e, e ∈ s.consumed ↔ e ∈ edges ∧ e.source ∈ s.ordered
  nodup_ordered : s.ordered.Nodup
  /-- The callers of a function were placed before it. -/
  callers : ∀ id below, id :: below <:+ s.ordered → ∀ e ∈ edges, e.target = id → e.source ∈ below

theorem valid_start (nodes : List String) (edges : List Edge) :
    Valid nodes edges (start nodes edges) where
  toLedger := ledger_start nodes edges
  mem_consumed e := by simp [start]
  nodup_ordered := List.nodup_nil
  callers id below h := by simp [start] at h

/-- The next function leaves the stack and is placed. -/
theorem Ledger.place (h : Ledger nodes edges s) {id : String} {rest : List String}
    (hs : s.frontier = id :: rest) :
    Ledger nodes edges { s with ordered := id :: s.ordered, frontier := rest } := by
  obtain ⟨hfresh, hrest⟩ := List.nodup_cons.1 (hs ▸ h.nodup_frontier)
  obtain ⟨hcount, -⟩ := (h.mem_frontier id).1 (hs ▸ List.mem_cons_self)
  constructor
  case isSome_incoming => exact h.isSome_incoming
  case count_eq => exact h.count_eq
  case nodup_frontier => exact hrest
  case mem_frontier =>
    intro other
    have hother := h.mem_frontier other
    rw [hs, List.mem_cons] at hother
    by_cases heq : other = id
    · subst heq
      simp [hfresh]
    · simpa [heq] using hother
  case count_ordered =>
    intro other hother
    rcases List.mem_cons.1 hother with rfl | hother
    · exact hcount
    · exact h.count_ordered other hother

/-- Only edges from functions placed are used up, so those from a function on the stack are not. -/
theorem Valid.not_mem_consumed (h : Valid nodes edges s) {id : String} (hid : id ∈ s.frontier) :
    ∀ e ∈ edges.filter (·.source = id), e ∈ edges ∧ e ∉ s.consumed := by
  intro e he
  obtain ⟨hmem, hsource⟩ := List.mem_filter.1 he
  refine ⟨hmem, fun hcons => ((h.mem_frontier id).1 hid).2 ?_⟩
  rw [← of_decide_eq_true hsource]
  exact ((h.mem_consumed e).1 hcons).2

theorem Valid.step (h : Valid nodes edges s) (hnodup : edges.Nodup) :
    Valid nodes edges (s.step edges) := by
  unfold Sweep.step
  split
  · exact h
  · next id rest hs =>
    obtain ⟨hcount, hplaced⟩ := (h.mem_frontier id).1 (hs ▸ List.mem_cons_self)
    have hbatch := h.not_mem_consumed (hs ▸ List.mem_cons_self)
    have hledger := (h.toLedger.place hs).foldl_consume hnodup (hnodup.filter _) hbatch
    refine ⟨hledger, fun e => ?_, ?_, ?_⟩
    · rw [mem_consumed_foldl_consume, ordered_foldl_consume, h.mem_consumed, List.mem_filter,
        List.mem_cons, decide_eq_true_iff]
      tauto
    · rw [ordered_foldl_consume]
      exact List.nodup_cons.2 ⟨hplaced, h.nodup_ordered⟩
    · rw [ordered_foldl_consume]
      intro other below hsuffix e he htarget
      rcases List.suffix_cons_iff.1 hsuffix with heq | hsuffix
      · -- No edge into the function is left, so all its callers are among those placed.
        cases heq
        have hzero := h.count_eq _ _ hcount
        exact ((h.mem_consumed e).1 (unused_eq_zero.1 hzero.symm e he htarget)).2
      · exact h.callers other below hsuffix e he htarget

theorem Valid.run (h : Valid nodes edges s) (hnodup : edges.Nodup) (fuel : Nat) :
    Valid nodes edges (Sweep.run edges fuel s) := by
  induction fuel generalizing s with
  | zero => exact h
  | succ fuel ih =>
    rw [Sweep.run]
    split
    · exact h
    · exact ih (h.step hnodup)

theorem step_of_frontier {id : String} {rest : List String} (hs : s.frontier = id :: rest)
    (edges : List Edge) :
    s.step edges = (edges.filter (·.source = id)).foldl consume
      { s with ordered := id :: s.ordered, frontier := rest } := by
  rw [step, hs]

theorem ordered_step {id : String} {rest : List String} (hs : s.frontier = id :: rest) :
    (s.step edges).ordered = id :: s.ordered := by
  rw [step_of_frontier hs, ordered_foldl_consume]

/-- Each function is placed once, so there are no more of them than counts. -/
theorem Valid.length_le (h : Valid nodes edges s) :
    s.ordered.length + s.frontier.length ≤ (countIncoming nodes edges).size := by
  have hnodup := h.nodup_append h.nodup_ordered
  have hsub : s.ordered ++ s.frontier ⊆ (countIncoming nodes edges).keys := by
    intro id hid
    have hcount : s.incoming.get? id = some 0 := by
      rcases List.mem_append.1 hid with hid | hid
      · exact h.count_ordered id hid
      · exact ((h.mem_frontier id).1 hid).1
    have hknown := (h.isSome_incoming id).1 (by rw [hcount]; rfl)
    rw [SortedMap.mem_keys_iff, get?_countIncoming, if_pos hknown]
    rfl
  have hlen := hnodup.length_le_of_subset hsub
  rw [List.length_append, SortedMap.keys, List.length_map] at hlen
  exact hlen

/-- A run that may place as many functions as there are counts leaves none to be placed. -/
theorem Valid.frontier_run (h : Valid nodes edges s) (hnodup : edges.Nodup) {fuel : Nat}
    (hfuel : (countIncoming nodes edges).size ≤ s.ordered.length + fuel) :
    (Sweep.run edges fuel s).frontier = [] := by
  induction fuel generalizing s with
  | zero =>
    have := h.length_le
    exact List.eq_nil_of_length_eq_zero (by rw [Sweep.run]; omega)
  | succ fuel ih =>
    rw [Sweep.run]
    split
    · next hempty => exact List.isEmpty_iff.1 hempty
    · next hne =>
      obtain ⟨id, rest, hs⟩ := List.exists_cons_of_ne_nil (mt List.isEmpty_iff.2 hne)
      refine ih (h.step hnodup) ?_
      rw [ordered_step hs, List.length_cons]
      omega

end Sweep

end CallerFirst
