import CallerFirst.Proofs.TestOrder
import Mathlib.Logic.Relation
import Mathlib.Tactic.Common

/-!
# Each moment of a sweep

A step of a sweep places a function and then uses up the edges from it, one after the other. Here
the steps are taken apart into these actions, and a `Moment` lies between two of them. It remembers
how many steps have begun and all that has gone onto the stack.

* `Moment.Next`: one action;
* `Moment.Kept`: what each action keeps (`Moment.Kept.next`), also in the midst of a step;
* `Moment.Sound`: what this means for the counts, the stack and the length of the sweep;
* `moments_sound`: every moment of a sweep over a graph is sound, and the sweep ends.
-/

namespace CallerFirst

namespace Sweep

/-- A moment of a sweep, between two actions. -/
structure Moment where
  state : Sweep
  /-- The edges from the function placed last that are still to be used up. Between two steps there
  are none. -/
  batch : List Edge
  /-- How many steps have begun. -/
  steps : Nat
  /-- All that has gone onto the stack, the latest first. -/
  pushed : List String

namespace Moment

/-- The moment before the first step. -/
def first (g : CallGraph) : Moment :=
  let s := start g.nodes.toList g.properEdges
  ⟨s, [], 0, s.frontier⟩

/-- One action of a sweep. -/
inductive Next (edges : List Edge) : Moment → Moment → Prop
  /-- A step begins: the top of the stack is placed, and the edges from it are to be used up. -/
  | place {s : Sweep} {id : String} {rest : List String} {steps : Nat} {pushed : List String}
      (hs : s.frontier = id :: rest) :
      Next edges ⟨s, [], steps, pushed⟩
        ⟨{ s with ordered := id :: s.ordered, frontier := rest }, edges.filter (·.source = id),
          steps + 1, pushed⟩
  /-- The next edge is used up, by which `more` goes onto the stack. -/
  | use {s : Sweep} {e : Edge} {batch : List Edge} {steps : Nat} {pushed more : List String}
      (hs : (s.consume e).frontier = more ++ s.frontier) :
      Next edges ⟨s, e :: batch, steps, pushed⟩ ⟨s.consume e, batch, steps, more ++ pushed⟩

/-- From one moment a sweep comes to another one. -/
def LeadsTo (edges : List Edge) : Moment → Moment → Prop := Relation.ReflTransGen (Next edges)

/-- A moment of the sweep over a graph. -/
def Occurs (g : CallGraph) (m : Moment) : Prop := LeadsTo g.properEdges (first g) m

/-! ### What each action keeps -/

/-- What holds at each moment of the sweep over a graph. -/
structure Kept (g : CallGraph) (m : Moment) : Prop where
  ledger : Ledger g.nodes.toList g.properEdges m.state
  nodup_batch : m.batch.Nodup
  /-- The edges that are still to be used up have not been. -/
  fresh_batch : ∀ e ∈ m.batch, e ∈ g.properEdges ∧ e ∉ m.state.consumed
  /-- At the end of the step the sweep is valid. -/
  valid_after : Valid g.nodes.toList g.properEdges (m.batch.foldl consume m.state)
  /-- Each step places one function. -/
  steps_eq : m.steps = m.state.ordered.length
  /-- What has gone onto the stack is placed or still there. -/
  perm_pushed : m.pushed.Perm (m.state.ordered ++ m.state.frontier)

variable {g : CallGraph} {m n : Moment}

theorem kept_first (g : CallGraph) : Kept g (first g) where
  ledger := ledger_start _ _
  nodup_batch := List.nodup_nil
  fresh_batch := by simp [first]
  valid_after := valid_start _ _
  steps_eq := rfl
  perm_pushed := .refl _

theorem Kept.next (h : Kept g m) (hnext : Next g.properEdges m n) : Kept g n := by
  cases hnext with
  | @place s id rest steps pushed hs =>
    -- No edge was left to be used up, so the step before has ended and its state is valid.
    have hvalid : Valid g.nodes.toList g.properEdges s := h.valid_after
    constructor
    case ledger => exact h.ledger.place hs
    case nodup_batch => exact g.nodup_properEdges.filter _
    case fresh_batch => exact hvalid.not_mem_consumed (hs ▸ List.mem_cons_self)
    case valid_after => exact step_of_frontier hs _ ▸ hvalid.step g.nodup_properEdges
    case steps_eq => exact congrArg (· + 1) h.steps_eq
    case perm_pushed =>
      have hpushed := h.perm_pushed
      simp only [hs] at hpushed
      exact hpushed.trans List.perm_middle
  | @use s e batch steps pushed more hs =>
    obtain ⟨hother, hnodup⟩ := List.nodup_cons.1 h.nodup_batch
    obtain ⟨⟨he, hun⟩, hbatch⟩ := List.forall_mem_cons.1 h.fresh_batch
    constructor
    case ledger => exact h.ledger.consume g.nodup_properEdges he hun
    case nodup_batch => exact hnodup
    case fresh_batch =>
      intro d hd
      have hne : d ≠ e := fun heq => hother (heq ▸ hd)
      exact ⟨(hbatch d hd).1, by simp [hne, (hbatch d hd).2]⟩
    case valid_after =>
      -- Using up one more of the edges does not change where the step ends.
      exact h.valid_after
    case steps_eq => simpa using h.steps_eq
    case perm_pushed =>
      have hpushed := (h.perm_pushed.append_left more).trans
        (List.perm_append_comm_assoc more s.ordered s.frontier)
      simpa [hs] using hpushed

theorem Occurs.kept (h : Occurs g m) : Kept g m := by
  induction h with
  | refl => exact kept_first g
  | tail _ hnext ih => exact ih.next hnext

/-! ### What this means -/

/-- What a moment of the sweep over a graph tells about the counts, the stack and the length of the
sweep. -/
structure Sound (g : CallGraph) (m : Moment) : Prop where
  /-- Between two steps, the counts are those of the edges that are not used up, the stack has the
  functions whose count is zero and that are not placed, each once, and the edges used up are those
  from the functions placed. -/
  valid : m.batch = [] → m.state.Valid g.nodes.toList g.properEdges
  /-- The edge that is used up next has not been used up before. The count of its target is not
  zero, and is lowered by one. -/
  lowers : ∀ e rest, m.batch = e :: rest → e ∉ m.state.consumed ∧
    ∃ count, m.state.incoming.get? e.target = some (count + 1) ∧
      (m.state.consume e).incoming.get? e.target = some count
  /-- No function goes onto the stack twice. -/
  nodup_pushed : m.pushed.Nodup
  /-- There are no more steps than counts. -/
  steps_le : m.steps ≤ (start g.nodes.toList g.properEdges).incoming.size

theorem Kept.sound (h : Kept g m) : Sound g m := by
  have hafter := h.valid_after
  have hordered : m.state.ordered.Nodup := by simpa using hafter.nodup_ordered
  constructor
  case valid =>
    intro hbatch
    rwa [hbatch] at hafter
  case lowers =>
    intro e rest hbatch
    obtain ⟨he, hun⟩ := h.fresh_batch e (hbatch ▸ List.mem_cons_self)
    obtain ⟨count, hcount⟩ := h.ledger.exists_count he hun
    refine ⟨hun, count, hcount, ?_⟩
    rw [consume_of_count hcount, SortedMap.get?_insert, if_pos rfl]
  case nodup_pushed => exact h.perm_pushed.nodup_iff.2 (h.ledger.nodup_append hordered)
  case steps_le =>
    have hle := hafter.length_le
    rw [ordered_foldl_consume, ← h.steps_eq] at hle
    exact (Nat.le_add_right _ _).trans hle

/-! ### The end of a sweep -/

/-- There is at most one next moment. -/
theorem next_rightUnique (edges : List Edge) : Relator.RightUnique (Next edges) := by
  rintro m n n' hn hn'
  cases hn with
  | place hs =>
    cases hn' with
    | place hs' =>
      rw [hs] at hs'
      cases hs'
      rfl
  | use hs =>
    cases hn' with
    | use hs' =>
      rw [hs] at hs'
      rw [List.append_cancel_right hs']

/-- The edges that are still to be used up are used up. -/
theorem exists_leadsTo_foldl (edges batch : List Edge) (s : Sweep) (steps : Nat)
    (pushed : List String) :
    ∃ pushed', LeadsTo edges ⟨s, batch, steps, pushed⟩
      ⟨batch.foldl consume s, [], steps, pushed'⟩ := by
  induction batch generalizing s pushed with
  | nil => exact ⟨pushed, .refl⟩
  | cons e batch ih =>
    obtain ⟨more, hmore⟩ : ∃ more, (s.consume e).frontier = more ++ s.frontier := by
      rcases frontier_consume s e with hsame | hpush
      · exact ⟨[], hsame⟩
      · exact ⟨[e.target], hpush⟩
    obtain ⟨pushed', hrest⟩ := ih (s.consume e) (more ++ pushed)
    exact ⟨pushed', .head (.use hmore) hrest⟩

/-- The actions of a run, one after the other. -/
theorem exists_leadsTo_run (edges : List Edge) (fuel : Nat) (s : Sweep) (steps : Nat)
    (pushed : List String) :
    ∃ steps' pushed', LeadsTo edges ⟨s, [], steps, pushed⟩
      ⟨run edges fuel s, [], steps', pushed'⟩ := by
  induction fuel generalizing s steps pushed with
  | zero => exact ⟨steps, pushed, .refl⟩
  | succ fuel ih =>
    rw [run]
    split
    · exact ⟨steps, pushed, .refl⟩
    · next hne =>
      obtain ⟨id, rest, hs⟩ := List.exists_cons_of_ne_nil (mt List.isEmpty_iff.2 hne)
      obtain ⟨between, hbatch⟩ := exists_leadsTo_foldl edges (edges.filter (·.source = id))
        { s with ordered := id :: s.ordered, frontier := rest } (steps + 1) pushed
      rw [← step_of_frontier hs] at hbatch
      obtain ⟨steps', pushed', hrun⟩ := ih (s.step edges) (steps + 1) between
      exact ⟨steps', pushed', .head (.place hs) (hbatch.trans hrun)⟩

/-- Whatever state a run passes through belongs to a moment between two steps. -/
theorem exists_occurs_run (g : CallGraph) (fuel : Nat) :
    ∃ m, Occurs g m ∧ m.batch = [] ∧
      m.state = run g.properEdges fuel (start g.nodes.toList g.properEdges) := by
  obtain ⟨steps, pushed, hrun⟩ := exists_leadsTo_run g.properEdges fuel
    (start g.nodes.toList g.properEdges) 0 (start g.nodes.toList g.properEdges).frontier
  exact ⟨_, hrun, rfl, rfl⟩

/-- Nothing follows when no edge is to be used up and the stack is empty. -/
theorem not_next {edges : List Edge} (hbatch : m.batch = []) (hfrontier : m.state.frontier = []) :
    ¬ Next edges m n := by
  rintro (⟨hs⟩ | _)
  · simp [hs] at hfrontier
  · cases hbatch

/-- Every moment leads to one at which nothing is left to be done. -/
theorem leadsTo_last {last : Moment} (hlast : Occurs g last)
    (hend : ∀ n, ¬ Next g.properEdges last n) (h : Occurs g m) :
    LeadsTo g.properEdges m last := by
  rcases h.total_of_right_unique (next_rightUnique _) hlast with hml | hlm
  · exact hml
  · rcases hlm.cases_head with rfl | ⟨n, hnext, -⟩
    · exact .refl
    · exact absurd hnext (hend n)

end Moment

/-- **The invariant of a sweep** holds at each moment of it. A run of whatever length is at such a
moment, and each moment leads to the one at which the stack is empty. -/
theorem moments_sound (g : CallGraph) :
    (∀ m, Moment.Occurs g m → m.Sound g) ∧
    (∀ fuel, ∃ m, Moment.Occurs g m ∧ m.batch = [] ∧
      m.state = run g.properEdges fuel (start g.nodes.toList g.properEdges)) ∧
    ∃ last : Moment, last.batch = [] ∧ last.state.frontier = [] ∧ last.state = final g ∧
      ∀ m, Moment.Occurs g m → Moment.LeadsTo g.properEdges m last := by
  refine ⟨fun m hm => hm.kept.sound, Moment.exists_occurs_run g, ?_⟩
  obtain ⟨last, hlast, hbatch, hstate⟩ :=
    Moment.exists_occurs_run g (start g.nodes.toList g.properEdges).incoming.size
  have hfinal : last.state = final g := hstate
  have hempty : last.state.frontier = [] := by rw [hfinal, (finished_final g).frontier_nil]
  refine ⟨last, hbatch, hempty, hfinal, fun m hm => ?_⟩
  exact Moment.leadsTo_last hlast (fun n => Moment.not_next hbatch hempty) hm

/-- The sweep over `looseGraph` when `main` has just been placed. -/
def atMain : Sweep where
  ordered := ["main", "solo"]
  frontier := []
  incoming := .ofList [("load", 1), ("main", 0), ("parse", 2), ("solo", 0)]
  consumed := .empty

/-- A moment in the midst of the second step of that sweep: of the edges from `main`, the one to
`load` is used up, so that `load` is on the stack, and the one to `parse` is not. -/
def amidMain : Moment where
  state := atMain.consume ⟨"main", "load"⟩
  batch := [⟨"main", "parse"⟩]
  steps := 2
  pushed := ["load", "solo", "main"]

theorem moments_sound_amidMain :
    Moment.Occurs looseGraph amidMain ∧ amidMain.Sound looseGraph ∧
      ∃ last : Moment, last.state.ordered.reverse = ["solo", "main", "load", "parse"] ∧
        Moment.LeadsTo looseGraph.properEdges amidMain last := by
  have hmain : Moment.Occurs looseGraph
      ⟨atMain, [⟨"main", "load"⟩, ⟨"main", "parse"⟩], 2, ["solo", "main"]⟩ :=
    .tail (.tail .refl (.place rfl)) (.place rfl)
  have hoccurs : Moment.Occurs looseGraph amidMain :=
    hmain.tail (@Moment.Next.use _ _ _ _ _ _ ["load"] rfl)
  obtain ⟨hsound, -, last, -, -, hstate, hleads⟩ := moments_sound looseGraph
  exact ⟨hoccurs, hsound _ hoccurs, last, by rw [hstate]; rfl, hleads _ hoccurs⟩

end Sweep

end CallerFirst
