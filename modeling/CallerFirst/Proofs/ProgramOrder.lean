import CallerFirst.Proofs.Analysis
import CallerFirst.Proofs.ClassUse
import CallerFirst.Proofs.Findings
import Mathlib.Tactic.Common

/-!
# The order of a program does not matter

Each part of an analysis is determined by what it says, and what it says depends on which functions
and classes a program has, not on where they stand.

* `CallGraph.Spanned.ext_edges`, `ClassMethods.Filled.ext_records`: a call graph is determined by
  its edges, and class methods by what they record;
* `SymbolIndex.ofProgram_congr`, `Findings.ofProgram?_congr`, `ClassUse.ofProgram_congr`: two
  programs with the same functions and the same classes have the same index, findings and class use;
* `analyze_reorders`: when a program is reordered, its analysis fails in the same way, or it gives
  the same result, with the isolated functions in the new order.
-/

namespace CallerFirst

/-! ### What determines the findings -/

theorem CallGraph.Spanned.ext_edges {g h : CallGraph} (hg : g.Spanned) (hh : h.Spanned)
    (hedges : ∀ e, e ∈ g.edges ↔ e ∈ h.edges) : g = h := by
  have hnodes : g.nodes = h.nodes := by
    refine SortedSet.ext_mem fun id => ?_
    rw [hg id, hh id]
    simp only [hedges]
  exact congrArg₂ CallGraph.mk hnodes (SortedSet.ext_mem hedges)

namespace ClassMethods

variable {m n : ClassMethods} {function : String} {classes : SortedMap String (SortedSet String)}

/-- A class is there with a method. -/
def Lists (classes : SortedMap String (SortedSet String)) (entry : String × String) : Prop :=
  ∃ methods, classes.get? entry.1 = some methods ∧ entry.2 ∈ methods

theorem records_iff {owner method : String} :
    m.Records function owner method ↔
      ∃ classes, m.entries.get? function = some classes ∧ Lists classes (owner, method) := by
  simp only [Records, methods?, Lists, Option.bind_eq_some_iff]
  grind

theorem Filled.exists_mem (h : m.Filled) (hget : m.entries.get? function = some classes)
    {owner : String} {methods : SortedSet String} (howner : classes.get? owner = some methods) :
    ∃ method, method ∈ methods :=
  h.exists_method function owner methods (Option.bind_eq_some_iff.2 ⟨classes, hget, howner⟩)

theorem Filled.exists_lists (h : m.Filled) (hget : m.entries.get? function = some classes) :
    ∃ entry, Lists classes entry := by
  obtain ⟨owner, howner⟩ := h.exists_class function classes hget
  obtain ⟨methods, hmethods⟩ := Option.isSome_iff_exists.1 howner
  obtain ⟨method, hmethod⟩ := h.exists_mem hget hmethods
  exact ⟨(owner, method), methods, hmethods, hmethod⟩

/-- What is recorded determines everything. -/
theorem Filled.ext_records (hm : m.Filled) (hn : n.Filled)
    (h : ∀ function owner method,
      m.Records function owner method ↔ n.Records function owner method) : m = n := by
  have hentries : m.entries = n.entries := by
    refine SortedMap.ext_of_seen (fun _ _ => hm.exists_lists) (fun _ _ => hn.exists_lists) ?_ ?_
    · intro function a b ha hb hlists
      refine SortedMap.ext_of_seen (fun _ _ => hm.exists_mem ha) (fun _ _ => hn.exists_mem hb)
        (fun _ _ _ _ _ hsame => SortedSet.ext_mem hsame) fun owner method => ?_
      exact hlists (owner, method)
    · rintro function ⟨owner, method⟩
      rw [← records_iff, ← records_iff]
      exact h function owner method
  exact congrArg ClassMethods.mk hentries

end ClassMethods

/-! ### The same functions and classes -/

/-- `q` has the functions and the classes of `p`, in any order. -/
structure Program.Reorders (p q : Program) : Prop where
  functions : p.functions.Perm q.functions
  classes : p.classes.Perm q.classes

/-- Classes of one name are declared alike. -/
def Program.ClassesAgree (p : Program) : Prop :=
  ∀ c ∈ p.classes, ∀ d ∈ p.classes, c.name = d.name → c.qualname = d.qualname

instance (p : Program) : Decidable p.ClassesAgree :=
  inferInstanceAs (Decidable (∀ c ∈ p.classes, ∀ d ∈ p.classes,
    c.name = d.name → c.qualname = d.qualname))

variable {p q : Program}

/-- The entries of the classes in an index do not contradict each other. -/
theorem Program.ClassesAgree.entries_agree (h : p.ClassesAgree) :
    ∀ d ∈ p.classes.map (fun c => (c.name, c)), ∀ e ∈ p.classes.map (fun c => (c.name, c)),
      d.1 = e.1 → d = e := by
  simp only [List.forall_mem_map]
  intro c hc d hd hname
  have hqualname := h c hc d hd hname
  cases c
  cases d
  cases hname
  cases hqualname
  rfl

theorem SymbolIndex.class?_ofProgram_eq_some_iff (h : p.ClassesAgree) {name : String}
    {decl : ClassDecl} :
    (ofProgram p).class? name = some decl ↔ decl ∈ p.classes ∧ decl.name = name := by
  rw [class?, ofProgram, SortedMap.get?_ofList_eq_some_iff_of_agree h.entries_agree, List.mem_map]
  constructor
  · rintro ⟨c, hc, heq⟩
    cases heq
    exact ⟨hc, rfl⟩
  · rintro ⟨hdecl, rfl⟩
    exact ⟨decl, hdecl, rfl⟩

theorem SymbolIndex.ofProgram_congr (hids : p.ids.Nodup) (hclasses : p.ClassesAgree)
    (h : p.Reorders q) : ofProgram p = ofProgram q := by
  have hfunctions : (ofProgram p).functions = (ofProgram q).functions := by
    refine SortedMap.ofList_congr ?_ fun e => (h.functions.map _).mem_iff
    simp only [List.forall_mem_map]
    intro f hf g hg hid
    rw [List.inj_on_of_nodup_map hids hf hg hid]
  have hclasses' : (ofProgram p).classes = (ofProgram q).classes := by
    exact SortedMap.ofList_congr hclasses.entries_agree fun e => (h.classes.map _).mem_iff
  exact congrArg₂ SymbolIndex.mk hfunctions hclasses'

section Functions

variable {index : SymbolIndex} {nested : Bool} (hmem : ∀ f, f ∈ p.functions ↔ f ∈ q.functions)
include hmem

theorem Findings.Collects.congr {R : String → CallExpr → Prop} {Q : Findings → Prop}
    (hQ : Collects index R Q) {found found' : Findings}
    (h : Findings.ofProgram? index nested p = some found)
    (h' : Findings.ofProgram? index nested q = some found') : Q found ↔ Q found' := by
  rw [hQ.ofProgram? h, hQ.ofProgram? h']
  simp only [hmem]

theorem Findings.isSome_ofProgram?_congr :
    (ofProgram? index nested p).isSome ↔ (ofProgram? index nested q).isSome := by
  simp only [isSome_ofProgram?_iff, hmem]

/-- From the same functions the same is found. -/
theorem Findings.ofProgram?_congr {found found' : Findings}
    (h : ofProgram? index nested p = some found) (h' : ofProgram? index nested q = some found') :
    found.graph = found'.graph ∧ found.methods = found'.methods := by
  constructor
  · refine (spanned_ofProgram? h).ext_edges (spanned_ofProgram? h') fun e => ?_
    exact (collects_edge index e).congr hmem h h'
  · refine (filled_ofProgram? h).ext_records (filled_ofProgram? h') fun function owner method => ?_
    exact (collects_method index function owner method).congr hmem h h'

theorem ClassUse.ofProgram_congr (marker : String) :
    ofProgram index marker p = ofProgram index marker q := by
  refine ext_uses (filled_ofProgram marker p) (filled_ofProgram marker q)
    (declares_ofProgram marker p) (declares_ofProgram marker q) fun function name => ?_
  simp only [uses_ofProgram, hmem]

end Functions

/-! ### Test orders of one graph -/

section Known

variable {g : CallGraph} {known known' : List String}

/-- What keeps a graph from being ordered does not depend on the functions that are known. -/
theorem testOrder_error_congr {err : CycleError} (h : testOrder g known = .error err) :
    testOrder g known' = .error err :=
  testOrder_eq_error_iff.2 (testOrder_eq_error_iff.1 h)

theorem filter_eq_filter_mem (hsub : ∀ id ∈ known, id ∈ known') (keep : String → Bool) :
    known.filter keep = known.filter fun id => id ∈ known'.filter keep := by
  refine List.filter_congr fun id hid => ?_
  rw [Bool.eq_iff_iff, decide_eq_true_eq, List.mem_filter, and_iff_right (hsub id hid)]

/-- When the functions that are known are reordered, so are the isolated ones, and nothing else
changes. -/
theorem exists_testOrder_perm {o : TestOrder} (h : testOrder g known = .ok o)
    (hperm : known.Perm known') :
    ∃ o', testOrder g known' = .ok o' ∧ o.ordered = o'.ordered ∧
      (o.isolated = known.filter fun id => id ∈ o'.isolated) ∧
      o'.isolated = known'.filter fun id => id ∈ o.isolated := by
  obtain ⟨hnone, rfl⟩ := testOrder_eq_ok_iff.1 h
  exact ⟨_, testOrder_eq_ok_iff.2 ⟨hnone, rfl⟩, rfl,
    filter_eq_filter_mem (fun _ => hperm.mem_iff.1) _,
    filter_eq_filter_mem (fun _ => hperm.mem_iff.2) _⟩

end Known

/-! ### The whole -/

/-- Two analyses, of `p` and of `q`, say the same; each lists the isolated functions in the order of
its own program. -/
structure Analysis.SameApartFromOrder (p q : Program) (a b : Analysis) : Prop where
  totalFunctions : a.totalFunctions = b.totalFunctions
  callGraph : a.callGraph = b.callGraph
  classMethods : a.classMethods = b.classMethods
  classUse : a.classUse = b.classUse
  ordered : a.order.ordered = b.order.ordered
  isolated_left : a.order.isolated = p.ids.filter fun id => id ∈ b.order.isolated
  isolated_right : b.order.isolated = q.ids.filter fun id => id ∈ a.order.isolated

/-- Two outcomes are one failure, or two analyses that say the same. -/
inductive SameOutcome (p q : Program) :
    Except AnalysisError Analysis → Except AnalysisError Analysis → Prop
  | failed (err : AnalysisError) : SameOutcome p q (.error err) (.error err)
  | analyzed {a b : Analysis} (h : a.SameApartFromOrder p q b) : SameOutcome p q (.ok a) (.ok b)

/-- **The order of a program does not matter.** Every reordering of it fails with the same error, or
has the same result, in which only the isolated functions follow the new order. -/
theorem analyze_reorders (settings : Settings) (p q : Program) (hids : p.ids.Nodup)
    (hclasses : p.ClassesAgree) (h : p.Reorders q) :
    SameOutcome p q (analyze settings p).outcome (analyze settings q).outcome := by
  have hindex := SymbolIndex.ofProgram_congr hids hclasses h
  have hmem : ∀ f, f ∈ p.functions ↔ f ∈ q.functions := fun f => h.functions.mem_iff
  have hids' : p.ids.Perm q.ids := h.functions.map _
  cases hp : Findings.ofProgram? (.ofProgram p) settings.nestedCalls p with
  | none =>
    have hq : Findings.ofProgram? (.ofProgram q) settings.nestedCalls q = none := by
      rw [← hindex, ← Option.not_isSome_iff_eq_none, ← Findings.isSome_ofProgram?_congr hmem, hp]
      simp
    rw [analyze_eq_error_iff.2 (Or.inl ⟨hp, rfl⟩), analyze_eq_error_iff.2 (Or.inl ⟨hq, rfl⟩)]
    exact .failed _
  | some found =>
    obtain ⟨found', hq⟩ := Option.isSome_iff_exists.1
      ((Findings.isSome_ofProgram?_congr hmem).1 (Option.isSome_iff_exists.2 ⟨found, hp⟩))
    obtain ⟨hgraph, hmethods⟩ := Findings.ofProgram?_congr hmem hp hq
    rw [hindex] at hq
    cases horder : testOrder found.graph p.ids with
    | error cycle =>
      have horder' : testOrder found'.graph q.ids = .error cycle := by
        rw [← hgraph]
        exact testOrder_error_congr horder
      rw [analyze_eq_error_iff.2 (Or.inr ⟨found, cycle, hp, horder, rfl⟩),
        analyze_eq_error_iff.2 (Or.inr ⟨found', cycle, hq, horder', rfl⟩)]
      exact .failed _
    | ok order =>
      obtain ⟨order', horder', hordered, hleft, hright⟩ := exists_testOrder_perm horder hids'
      rw [hgraph] at horder'
      rw [analyze_eq_ok_iff.2 ⟨found, order, hp, horder, rfl⟩,
        analyze_eq_ok_iff.2 ⟨found', order', hq, horder', rfl⟩]
      refine .analyzed ?_
      constructor
      case totalFunctions => exact h.functions.length_eq
      case callGraph => exact hgraph
      case classMethods => exact hmethods
      case classUse =>
        rw [Analysis.assemble, Analysis.assemble, hindex]
        exact ClassUse.ofProgram_congr hmem _
      case ordered => exact hordered
      case isolated_left => exact hleft
      case isolated_right => exact hright

/-- The function `main` calls `g(Shop.run())`, and nothing calls `tidy` and `close`. -/
def marketProgram : Program where
  functions :=
    [⟨⟨.plain "main", 0⟩,
        [⟨.loadName, .text "g"⟩, ⟨.loadName, .text "Shop"⟩, ⟨.loadAttr, .text "run"⟩,
          ⟨.call, .int 0⟩, ⟨.call, .int 1⟩]⟩,
      ⟨⟨.plain "tidy", 0⟩, []⟩, ⟨⟨.plain "g", 1⟩, []⟩, ⟨⟨.plain "close", 0⟩, []⟩]
  classes := [⟨"Shop", "market.Shop"⟩, .ofName "Till", ⟨"Shop", "market.Shop"⟩]

/-- `marketProgram` from its end to its start. -/
def reversedMarket : Program where
  functions := marketProgram.functions.reverse
  classes := marketProgram.classes.reverse

theorem analyze_reorders_marketProgram :
    marketProgram.ids.Nodup ∧ marketProgram.ClassesAgree ∧ marketProgram.Reorders reversedMarket ∧
      ∃ a b, (analyze {} marketProgram).outcome = .ok a ∧ a.order.isolated = ["tidy", "close"] ∧
        (analyze {} reversedMarket).outcome = .ok b ∧ b.order.isolated = ["close", "tidy"] ∧
        a.SameApartFromOrder marketProgram reversedMarket b := by
  have hids : marketProgram.ids.Nodup := by decide
  have hclasses : marketProgram.ClassesAgree := by
    unfold Program.ClassesAgree
    decide
  have hperm : marketProgram.Reorders reversedMarket :=
    ⟨(List.reverse_perm _).symm, (List.reverse_perm _).symm⟩
  have hleft : (analyze {} marketProgram).outcome.map (·.order.isolated)
      = .ok ["tidy", "close"] := by decide +kernel
  have hright : (analyze {} reversedMarket).outcome.map (·.order.isolated)
      = .ok ["close", "tidy"] := by decide +kernel
  obtain ⟨a, ha, halone⟩ := exists_ok_of_map_eq_ok hleft
  obtain ⟨b, hb, hbalone⟩ := exists_ok_of_map_eq_ok hright
  have hsame := analyze_reorders {} marketProgram reversedMarket hids hclasses hperm
  rw [ha, hb] at hsame
  cases hsame with
  | analyzed h => exact ⟨hids, hclasses, hperm, a, b, ha, halone, hb, hbalone, h⟩

end CallerFirst
