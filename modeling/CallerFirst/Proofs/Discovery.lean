import CallerFirst.Discovery
import CallerFirst.Proofs.Collection
import Mathlib.Data.List.Induction
import Mathlib.Tactic.Common

/-!
# What the calls of a program add up to

* `SymbolIndex.resolveCall_eq_function_iff`: which calls are calls of a function;
* `Findings.Collects.ofProgram?`: what the calls of a program add up to, when it is known what each
  of them adds;
* `Findings.mem_edges_ofProgram?`: the edges of a call graph are the calls of functions among the
  calls that count;
* `Findings.spanned_ofProgram?`: its nodes are the ends of its edges;
* `Findings.mem_ids_of_mem_edges`: both ends of an edge are functions of the program.
-/

namespace CallerFirst

/-! ### The index of a program -/

namespace SymbolIndex

theorem isSome_get?_ofProgram {p : Program} {id : String} :
    ((ofProgram p).functions.get? id).isSome ↔ id ∈ p.ids := by
  rw [ofProgram, SortedMap.isSome_get?_ofList, List.map_map]
  rfl

/-- When no two functions have one id, the index finds the signature of each function. -/
theorem get?_ofProgram_eq_some_iff {p : Program} (h : p.ids.Nodup) {id : String}
    {signature : Signature} :
    (ofProgram p).functions.get? id = some signature ↔
      ∃ f ∈ p.functions, f.id = id ∧ f.signature = signature := by
  have hkeys : ((p.functions.map fun f => (f.id, f.signature)).map Prod.fst).Nodup := by
    rw [List.map_map]
    exact h
  rw [ofProgram, SortedMap.get?_ofList_eq_some_iff hkeys, List.mem_map]
  simp only [Prod.mk.injEq]

theorem isClass_ofProgram {p : Program} {name : String} :
    (ofProgram p).isClass name = true ↔ ∃ d ∈ p.classes, d.name = name := by
  rw [isClass, SortedMap.contains, ofProgram, SortedMap.isSome_get?_ofList, List.map_map,
    List.mem_map]
  rfl

theorem isSome_resolve?_iff {index : SymbolIndex} {id : String} {count : Nat} :
    (index.resolve? id count).isSome ↔
      ∃ signature, index.functions.get? id = some signature ∧ signature.arity = count := by
  rw [Option.isSome_iff_exists]
  simp only [resolve?, Option.filter_eq_some_iff, decide_eq_true_eq]

/-- A call is a call of a function when it names one that takes that many arguments. -/
theorem resolveCall_eq_function_iff {index : SymbolIndex} {c : CallExpr} {id : String} :
    index.resolveCall c = .function id ↔ c.callee? = some (.name id) ∧
      ∃ signature, index.functions.get? id = some signature ∧
        signature.arity = c.args.length := by
  rw [← isSome_resolve?_iff]
  unfold resolveCall
  split
  · next name hcallee =>
    rw [hcallee]
    split
    · next hsome =>
      constructor
      · intro h
        cases h
        exact ⟨rfl, hsome⟩
      · rintro ⟨h, -⟩
        cases h
        rfl
    · next hnone =>
      constructor
      · intro h
        cases h
      · rintro ⟨h, hsome⟩
        cases h
        exact absurd hsome hnone
  · next object attr hcallee =>
    rw [hcallee]
    split <;> simp
  · next hname _ =>
    constructor
    · intro h
      cases h
    · rintro ⟨h, -⟩
      exact (hname id h).elim

/-- A call is a call of a method when it calls an attribute of a class. -/
theorem resolveCall_eq_classMethod_iff {index : SymbolIndex} {c : CallExpr}
    {owner method : String} :
    index.resolveCall c = .classMethod owner method ↔
      c.callee? = some (.member owner method) ∧ index.isClass owner = true := by
  unfold resolveCall
  split
  · next name hcallee =>
    rw [hcallee]
    split <;> simp
  · next object attr hcallee =>
    rw [hcallee]
    split
    · next hclass =>
      constructor
      · intro h
        cases h
        exact ⟨rfl, hclass⟩
      · rintro ⟨h, -⟩
        cases h
        rfl
    · next hclass =>
      constructor
      · intro h
        cases h
      · rintro ⟨h, hclass'⟩
        cases h
        exact absurd hclass' hclass
  · next hmember =>
    constructor
    · intro h
      cases h
    · rintro ⟨h, -⟩
      exact (hmember owner method h).elim

end SymbolIndex

/-! ### Nodes and edges -/

/-- The functions of the graph are the ends of its edges. -/
def CallGraph.Spanned (g : CallGraph) : Prop :=
  ∀ id, id ∈ g.nodes ↔ ∃ e ∈ g.edges, e.source = id ∨ e.target = id

theorem CallGraph.spanned_empty : CallGraph.empty.Spanned := by
  intro id
  simp [CallGraph.empty]

theorem CallGraph.Spanned.addEdge {g : CallGraph} (h : g.Spanned) (caller callee : String) :
    (g.addEdge caller callee).Spanned := by
  intro id
  simp only [CallGraph.addEdge, SortedSet.mem_insert, h id]
  constructor
  · rintro (rfl | rfl | ⟨e, he, hid⟩)
    · exact ⟨⟨caller, id⟩, Or.inl rfl, Or.inr rfl⟩
    · exact ⟨⟨id, callee⟩, Or.inl rfl, Or.inl rfl⟩
    · exact ⟨e, Or.inr he, hid⟩
  · rintro ⟨e, rfl | he, hid⟩
    · rcases hid with rfl | rfl
      · exact Or.inr (Or.inl rfl)
      · exact Or.inl rfl
    · exact Or.inr (Or.inr ⟨e, he, hid⟩)

/-- What a fold adds, when each of its steps adds what `R` says. -/
theorem foldl_adds {α β : Type} {f : β → α → β} {R : α → Prop} {Q : β → Prop}
    (h : ∀ s a, Q (f s a) ↔ R a ∨ Q s) (l : List α) (s : β) :
    Q (l.foldl f s) ↔ (∃ a ∈ l, R a) ∨ Q s := by
  induction l generalizing s with
  | nil => simp
  | cons a l ih =>
    rw [List.foldl_cons, ih, h]
    simp only [List.mem_cons]
    grind

namespace Findings

variable {index : SymbolIndex} {nested : Bool} {e : Edge}

/-- An edge is one of the calls that count for a function. -/
def Contributes (index : SymbolIndex) (nested : Bool) (calls : String × List CallExpr)
    (e : Edge) : Prop :=
  ∃ c ∈ countedCalls nested calls.2,
    calls.1 = e.source ∧ index.resolveCall c = .function e.target

/-- A statement about findings that each call extends by what `R` says of it. The log has no part
in it. -/
structure Collects (index : SymbolIndex) (R : String → CallExpr → Prop) (Q : Findings → Prop) :
    Prop where
  note_iff : ∀ (caller : String) (s : Findings) (c : CallExpr),
    Q (note index caller s c) ↔ R caller c ∨ Q s
  log_iff : ∀ (s : Findings) (log : List LogRecord), Q { s with log } ↔ Q s
  not_empty : ¬ Q empty

/-- The ids of functions with the calls of each, if they can all be found. -/
theorem mem_zip_callSites {functions : List Function} {sites : List CallSites}
    (h : functions.mapM (Function.callSites? index) = some sites) {calls : String × List CallExpr} :
    calls ∈ (functions.map (·.id)).zip (sites.map (·.calls)) ↔
      ∃ f ∈ functions, ∃ found, f.callSites? index = some found ∧ calls = (f.id, found.calls) := by
  induction functions generalizing sites with
  | nil =>
    cases h
    simp
  | cons f functions ih =>
    rw [List.mapM_cons] at h
    obtain ⟨found, hfound, h⟩ := Option.bind_eq_some_iff.1 h
    obtain ⟨more, hmore, h⟩ := Option.bind_eq_some_iff.1 h
    cases h
    simp only [List.map_cons, List.zip_cons_cons, List.mem_cons, ih hmore, exists_eq_or_imp, hfound,
      Option.some.injEq, exists_eq_left']

namespace Collects

variable {R : String → CallExpr → Prop} {Q : Findings → Prop}

theorem merge (hQ : Collects index R Q) (s : Findings) (calls : String × List CallExpr) :
    Q (merge index nested s calls) ↔ (∃ c ∈ countedCalls nested calls.2, R calls.1 c) ∨ Q s := by
  unfold Findings.merge
  split
  · next hempty =>
    have hnone : countedCalls nested calls.2 = [] := by
      rw [List.isEmpty_iff.1 hempty]
      cases nested <;> rfl
    simp [hnone, hQ.log_iff]
  · exact foldl_adds (hQ.note_iff calls.1) _ s

/-- What the findings of a program say is what the calls that count for its functions say. -/
theorem ofProgram? (hQ : Collects index R Q) {p : Program} {found : Findings}
    (h : ofProgram? index nested p = some found) :
    Q found ↔ ∃ f ∈ p.functions, ∃ sites, f.callSites? index = some sites ∧
      ∃ c ∈ countedCalls nested sites.calls, R f.id c := by
  obtain ⟨sites, hsites, rfl⟩ := Option.map_eq_some_iff.1 h
  have hempty (log : List LogRecord) : ¬ Q { empty with log } := by
    rw [hQ.log_iff]
    exact hQ.not_empty
  rw [foldl_adds hQ.merge, or_iff_left (hempty _)]
  constructor
  · rintro ⟨calls, hcalls, hR⟩
    obtain ⟨f, hf, found, hfound, rfl⟩ := (mem_zip_callSites hsites).1 hcalls
    exact ⟨f, hf, found, hfound, hR⟩
  · rintro ⟨f, hf, found, hfound, hR⟩
    exact ⟨_, (mem_zip_callSites hsites).2 ⟨f, hf, found, hfound, rfl⟩, hR⟩

end Collects

theorem collects_edge (index : SymbolIndex) (e : Edge) :
    Collects index (fun caller c => caller = e.source ∧ index.resolveCall c = .function e.target)
      fun s => e ∈ s.graph.edges where
  note_iff caller s c := by
    obtain ⟨source, target⟩ := e
    unfold note
    cases index.resolveCall c with
    | function callee => simp [CallGraph.addEdge, eq_comm]
    | classMethod owner method => simp
    | unresolved => simp
  log_iff _ _ := Iff.rfl
  not_empty := SortedSet.not_mem_empty e

/-- The edges of a call graph are the calls of functions among the calls that count. -/
theorem mem_edges_ofProgram? {p : Program} {found : Findings}
    (h : ofProgram? index nested p = some found) :
    e ∈ found.graph.edges ↔ ∃ f ∈ p.functions, ∃ sites, f.callSites? index = some sites ∧
      Contributes index nested (f.id, sites.calls) e :=
  (collects_edge index e).ofProgram? h

/-- Both ends of an edge are functions of the program. -/
theorem mem_ids_of_mem_edges {p : Program} {found : Findings}
    (h : ofProgram? (.ofProgram p) nested p = some found) (he : e ∈ found.graph.edges) :
    e.source ∈ p.ids ∧ e.target ∈ p.ids := by
  obtain ⟨f, hf, sites, -, c, -, hsource, hresolved⟩ := (mem_edges_ofProgram? h).1 he
  obtain ⟨-, signature, hget, -⟩ := SymbolIndex.resolveCall_eq_function_iff.1 hresolved
  constructor
  · rw [← hsource]
    exact List.mem_map.2 ⟨f, hf, rfl⟩
  · rw [← SymbolIndex.isSome_get?_ofProgram, hget]
    rfl

/-! ### What every call keeps -/

/-- What holds of no findings, whatever the log says, and is kept by each call holds of the findings
of a program. -/
theorem ofProgram?_of_note {P : Findings → Prop} (hempty : P empty)
    (hlog : ∀ (s : Findings) (log : List LogRecord), P s → P { s with log })
    (hnote : ∀ (s : Findings) (caller : String) (c : CallExpr), P s → P (note index caller s c))
    {p : Program} {found : Findings} (h : ofProgram? index nested p = some found) : P found := by
  obtain ⟨sites, -, rfl⟩ := Option.map_eq_some_iff.1 h
  refine List.foldlRecOn (motive := P) _ _ (hlog _ _ hempty) fun s hs calls _ => ?_
  unfold merge
  split
  · exact hlog _ _ hs
  · exact List.foldlRecOn (motive := P) _ _ hs fun s hs c _ => hnote s calls.1 c hs

/-- The graph is put together from edges. -/
theorem spanned_ofProgram? {p : Program} {found : Findings}
    (h : ofProgram? index nested p = some found) : found.graph.Spanned := by
  refine ofProgram?_of_note (P := fun s => s.graph.Spanned) CallGraph.spanned_empty
    (fun _ _ hs => hs) (fun s caller c hs => ?_) h
  unfold note
  split
  · exact hs.addEdge _ _
  · exact hs
  · exact hs

/-- The calls of a program add up to something exactly if those of each function can be found. -/
theorem isSome_ofProgram?_iff {p : Program} :
    (ofProgram? index nested p).isSome ↔ ∀ f ∈ p.functions, (f.callSites? index).isSome := by
  rw [ofProgram?, Option.isSome_map]
  induction p.functions with
  | nil => simp
  | cons f functions ih =>
    rw [List.mapM_cons, List.forall_mem_cons, ← ih]
    cases f.callSites? index with
    | none => simp
    | some sites => cases functions.mapM (Function.callSites? index) <;> simp

end Findings

end CallerFirst
