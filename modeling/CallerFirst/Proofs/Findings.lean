import CallerFirst.Proofs.Analysis
import CallerFirst.Proofs.CallSites
import CallerFirst.Proofs.Discovery
import Mathlib.Logic.Relation
import Mathlib.Tactic.Common

/-!
# The findings of a program are exact

The calls that count for a function are those found in its body and, if calls inside of calls count
as well, whatever is reached from these by going inward.

* `CallExpr.mem_allCalls_iff`: the calls at any depth of a call are those reached by going inward;
* `Program.Calls`: the calls that count for a function;
* `ClassMethods.records_record`, `ClassMethods.Filled`: what recording a method adds, and that it
  leaves nothing empty;
* `Findings.exactFor_ofProgram?`: the call graph and the class methods hold what the calls that
  count say, and nothing else;
* `Findings.mem_edges_class_iff`: an edge to the name of a class comes from a call inside of another
  call and from nowhere else.
-/

namespace CallerFirst

/-! ### Calls inside of calls -/

/-- `inner` stands directly inside of `outer`. -/
def CallExpr.Holds (outer inner : CallExpr) : Prop := inner ∈ outer.nestedCalls

theorem mem_visitOrder {α : Type} {arity : Nat} {parts : List α} {x : α} :
    x ∈ visitOrder arity parts ↔ x ∈ parts := by
  unfold visitOrder
  split
  · cases parts with
    | nil => simp
    | cons first rest => simp [or_comm]
  · exact Iff.rfl

theorem CallExpr.mem_nestedCalls_iff {e c : CallExpr} :
    c ∈ e.nestedCalls ↔ c.toArgument ∈ e.parts := by
  have hparts (a : Argument) : a ∈ e.args ++ e.calleePart?.toList ↔ a ∈ e.parts := by
    unfold args calleePart?
    split
    · cases e.parts with
      | nil => simp
      | cons first rest => simp [or_comm]
    · simp
  simp only [nestedCalls, List.mem_filterMap, Argument.call?_eq_some_iff, hparts, exists_eq_right]

theorem allCallsOf_eq_map (parts : List Argument) :
    allCallsOf parts = parts.map Argument.allCalls := by
  induction parts with
  | nil => rfl
  | cons a parts ih => rw [allCallsOf, ih, List.map_cons]

/-- The calls at any depth of a call are itself and those of the calls directly inside of it. -/
theorem CallExpr.mem_allCalls_cases {e c : CallExpr} :
    c ∈ e.allCalls ↔ c = e ∨ ∃ d, e.Holds d ∧ c ∈ d.allCalls := by
  obtain ⟨arity, parts⟩ := e
  have hinside : c ∈ (visitOrder arity (allCallsOf parts)).flatten ↔
      ∃ a ∈ parts, c ∈ a.allCalls := by
    simp only [List.mem_flatten, mem_visitOrder, allCallsOf_eq_map, List.mem_map,
      exists_exists_and_eq_and]
  show c ∈ (⟨arity, parts⟩ :: (visitOrder arity (allCallsOf parts)).flatten) ↔ _
  rw [List.mem_cons, hinside]
  refine or_congr_right ⟨?_, ?_⟩
  · rintro ⟨a, ha, hc⟩
    cases a with
    | value i => cases hc
    | call n inner => exact ⟨⟨n, inner⟩, mem_nestedCalls_iff.2 ha, hc⟩
  · rintro ⟨d, hd, hc⟩
    exact ⟨d.toArgument, mem_nestedCalls_iff.1 hd, hc⟩

theorem CallExpr.Holds.sizeOf_lt {e d : CallExpr} (h : e.Holds d) : sizeOf d < sizeOf e := by
  have hlt := List.sizeOf_lt_of_mem (mem_nestedCalls_iff.1 h)
  obtain ⟨arity, parts⟩ := e
  obtain ⟨n, inner⟩ := d
  simp only [toArgument, Argument.call.sizeOf_spec] at hlt
  simp only [CallExpr.mk.sizeOf_spec]
  omega

theorem CallExpr.reaches_of_mem_allCalls {e c : CallExpr} (h : c ∈ e.allCalls) :
    Relation.ReflTransGen Holds e c := by
  rcases mem_allCalls_cases.1 h with rfl | ⟨d, hd, hc⟩
  · exact .refl
  · exact .head hd (reaches_of_mem_allCalls hc)
termination_by sizeOf e
decreasing_by exact hd.sizeOf_lt

/-- The calls at any depth of a call are those that are reached by going inward. -/
theorem CallExpr.mem_allCalls_iff {e c : CallExpr} :
    c ∈ e.allCalls ↔ Relation.ReflTransGen Holds e c := by
  constructor
  · exact reaches_of_mem_allCalls
  · intro h
    induction h using Relation.ReflTransGen.head_induction_on with
    | refl => exact mem_allCalls_cases.2 (Or.inl rfl)
    | head hstep _ ih => exact mem_allCalls_cases.2 (Or.inr ⟨_, hstep, ih⟩)

/-! ### The calls that count -/

/-- The calls that count for the function `caller` of a program: those found in its body, and the
calls inside of these if nested calls count. -/
inductive Program.Calls (p : Program) (nested : Bool) (caller : String) : CallExpr → Prop
  | found {f : Function} {sites : CallSites} {c : CallExpr} (hf : f ∈ p.functions)
      (hid : f.id = caller) (hsites : f.callSites? (.ofProgram p) = some sites)
      (hc : c ∈ sites.calls) : Calls p nested caller c
  | inner {outer c : CallExpr} (hnested : nested = true) (houter : Calls p nested caller outer)
      (hc : c ∈ outer.nestedCalls) : Calls p nested caller c

theorem Program.calls_iff {p : Program} {nested : Bool} {caller : String} {c : CallExpr} :
    p.Calls nested caller c ↔ ∃ f ∈ p.functions, f.id = caller ∧
      ∃ sites, f.callSites? (.ofProgram p) = some sites ∧
        c ∈ countedCalls nested sites.calls := by
  constructor
  · intro h
    induction h with
    | @found f sites c hf hid hsites hc =>
      refine ⟨f, hf, hid, sites, hsites, ?_⟩
      cases nested with
      | false => exact hc
      | true => exact List.mem_flatMap.2 ⟨c, hc, CallExpr.mem_allCalls_iff.2 .refl⟩
    | inner hnested _ hc ih =>
      obtain ⟨f, hf, hid, sites, hsites, houter⟩ := ih
      subst hnested
      obtain ⟨top, htop, hreach⟩ := List.mem_flatMap.1 houter
      have hreach' := (CallExpr.mem_allCalls_iff.1 hreach).tail hc
      exact ⟨f, hf, hid, sites, hsites,
        List.mem_flatMap.2 ⟨top, htop, CallExpr.mem_allCalls_iff.2 hreach'⟩⟩
  · rintro ⟨f, hf, hid, sites, hsites, hc⟩
    cases nested with
    | false => exact .found hf hid hsites hc
    | true =>
      obtain ⟨top, htop, hmem⟩ := List.mem_flatMap.1 hc
      have hreach := CallExpr.mem_allCalls_iff.1 hmem
      clear hc hmem
      induction hreach with
      | refl => exact .found hf hid hsites htop
      | tail _ hstep ih => exact .inner rfl ih hstep

/-! ### Class methods -/

namespace ClassMethods

/-- A method is recorded for a function and a class. -/
def Records (m : ClassMethods) (function owner method : String) : Prop :=
  ∃ methods, m.methods? function owner = some methods ∧ method ∈ methods

/-- No function is there without a class, and no class without a method. -/
structure Filled (m : ClassMethods) : Prop where
  exists_class : ∀ function classes, m.entries.get? function = some classes →
    ∃ owner, classes.contains owner = true
  exists_method : ∀ function owner methods, m.methods? function owner = some methods →
    ∃ method, method ∈ methods

theorem methods?_record (m : ClassMethods) (f c x function owner : String) :
    (m.record f c x).methods? function owner
      = if function = f ∧ owner = c then some (((m.methods? f c).getD .empty).insert x)
        else m.methods? function owner := by
  have hget (key : String) :
      ((m.entries.get? f).getD .empty).get? key = m.methods? f key := by
    unfold methods?
    cases m.entries.get? f with
    | none => rfl
    | some classes => rfl
  by_cases hfunction : function = f
  · subst hfunction
    have hclasses : (m.record function c x).methods? function owner
        = (((m.entries.get? function).getD .empty).update c fun methods =>
            (methods.getD .empty).insert x).get? owner := by
      simp only [methods?, record, SortedMap.get?_update_self, Option.bind_some]
    rw [hclasses, SortedMap.get?_update, hget, hget]
    simp only [true_and]
  · rw [if_neg fun h => hfunction h.1, methods?, record, SortedMap.get?_update_of_ne _ _ hfunction]
    rfl

/-- Recording a method adds that method and nothing else. -/
theorem records_record {m : ClassMethods} {function owner method f c x : String} :
    (m.record f c x).Records function owner method ↔
      (function = f ∧ owner = c ∧ method = x) ∨ m.Records function owner method := by
  unfold Records
  rw [methods?_record]
  split
  · next h =>
    obtain ⟨rfl, rfl⟩ := h
    simp only [Option.some.injEq, exists_eq_left', SortedSet.mem_insert, true_and]
    refine or_congr_right ?_
    cases m.methods? function owner with
    | none => simp
    | some methods => simp
  · next h =>
    rw [or_iff_right]
    rintro ⟨hf, hc, -⟩
    exact h ⟨hf, hc⟩

theorem filled_empty : empty.Filled where
  exists_class := by simp [empty]
  exists_method := by simp [empty, methods?]

theorem Filled.record {m : ClassMethods} (h : m.Filled) (f c x : String) :
    (m.record f c x).Filled where
  exists_class function classes hclasses := by
    rw [ClassMethods.record, SortedMap.get?_update] at hclasses
    split at hclasses
    · cases hclasses
      exact ⟨c, by rw [SortedMap.contains, SortedMap.get?_update_self]; rfl⟩
    · exact h.exists_class function classes hclasses
  exists_method function owner methods hmethods := by
    rw [methods?_record] at hmethods
    split at hmethods
    · cases hmethods
      exact ⟨x, SortedSet.mem_insert.2 (Or.inl rfl)⟩
    · exact h.exists_method function owner methods hmethods

end ClassMethods

/-! ### Exactness -/

namespace Findings

variable {index : SymbolIndex} {nested : Bool} {p : Program} {found : Findings}

theorem collects_method (index : SymbolIndex) (function owner method : String) :
    Collects index
      (fun caller c => caller = function ∧ index.resolveCall c = .classMethod owner method)
      fun s => s.methods.Records function owner method where
  note_iff caller s c := by
    unfold note
    cases index.resolveCall c with
    | function callee => simp
    | classMethod o m => simp [ClassMethods.records_record, eq_comm]
    | unresolved => simp
  log_iff _ _ := Iff.rfl
  not_empty := by simp [empty, ClassMethods.empty, ClassMethods.Records, ClassMethods.methods?]

theorem filled_ofProgram? (h : ofProgram? index nested p = some found) : found.methods.Filled := by
  refine ofProgram?_of_note (P := fun s => s.methods.Filled) ClassMethods.filled_empty
    (fun _ _ hs => hs) (fun s caller c hs => ?_) h
  unfold note
  split
  · exact hs
  · exact hs.record _ _ _
  · exact hs

/-- What is collected from a program is collected from the calls that count for its functions. -/
theorem Collects.iff_calls {R : CallExpr → Prop} {Q : Findings → Prop} {caller : String}
    (hQ : Collects (.ofProgram p) (fun id c => id = caller ∧ R c) Q)
    (h : Findings.ofProgram? (.ofProgram p) nested p = some found) :
    Q found ↔ ∃ c, p.Calls nested caller c ∧ R c := by
  rw [hQ.ofProgram? h]
  simp only [Program.calls_iff]
  constructor
  · rintro ⟨f, hf, sites, hsites, c, hc, hid, hR⟩
    exact ⟨c, ⟨f, hf, hid, sites, hsites, hc⟩, hR⟩
  · rintro ⟨c, ⟨f, hf, hid, sites, hsites, hc⟩, hR⟩
    exact ⟨f, hf, sites, hsites, c, hc, hid, hR⟩

/-- When no two functions have one id, an edge is a call that counts, of a function of the program
that takes that many arguments. -/
theorem mem_edges_iff_calls (hids : p.ids.Nodup)
    (h : ofProgram? (.ofProgram p) nested p = some found) (e : Edge) :
    e ∈ found.graph.edges ↔ ∃ c, p.Calls nested e.source c ∧ c.callee? = some (.name e.target) ∧
      ∃ f ∈ p.functions, f.id = e.target ∧ f.signature.arity = c.args.length := by
  rw [(collects_edge (.ofProgram p) e).iff_calls h]
  simp only [SymbolIndex.resolveCall_eq_function_iff, SymbolIndex.get?_ofProgram_eq_some_iff hids]
  refine exists_congr fun c => and_congr_right fun _ => and_congr_right fun _ => ?_
  constructor
  · rintro ⟨signature, ⟨f, hf, hid, rfl⟩, harity⟩
    exact ⟨f, hf, hid, harity⟩
  · rintro ⟨f, hf, hid, harity⟩
    exact ⟨f.signature, ⟨f, hf, hid, rfl⟩, harity⟩

/-- The findings hold what the calls that count say, and nothing else. -/
structure ExactFor (found : Findings) (p : Program) (nested : Bool) : Prop where
  /-- An edge is a call of a function of the program that takes that many arguments. -/
  mem_edges : ∀ e : Edge, e ∈ found.graph.edges ↔
    ∃ c, p.Calls nested e.source c ∧ c.callee? = some (.name e.target) ∧
      ∃ f ∈ p.functions, f.id = e.target ∧ f.signature.arity = c.args.length
  /-- A method that is recorded is called on a class of the program. -/
  mem_methods : ∀ function owner method, found.methods.Records function owner method ↔
    ∃ c, p.Calls nested function c ∧ c.callee? = some (.member owner method) ∧
      ∃ d ∈ p.classes, d.name = owner
  /-- The functions of the graph are the ends of its edges. -/
  mem_nodes : ∀ id, id ∈ found.graph.nodes ↔
    ∃ e ∈ found.graph.edges, e.source = id ∨ e.target = id
  /-- No function is there without a class, and no class without a method. -/
  filled : found.methods.Filled

/-- **The findings of a program are exact**, whether or not calls inside of calls count. There are
some exactly if the calls of each function can be found. -/
theorem exactFor_ofProgram? (p : Program) (nested : Bool) (hids : p.ids.Nodup) :
    ((ofProgram? (.ofProgram p) nested p).isSome ↔
        ∀ f ∈ p.functions, (f.callSites? (.ofProgram p)).isSome) ∧
      ∀ found, ofProgram? (.ofProgram p) nested p = some found → found.ExactFor p nested := by
  refine ⟨isSome_ofProgram?_iff, fun found h => ?_⟩
  constructor
  case mem_edges => exact mem_edges_iff_calls hids h
  case mem_methods =>
    intro function owner method
    rw [(collects_method (.ofProgram p) function owner method).iff_calls h]
    simp only [SymbolIndex.resolveCall_eq_classMethod_iff, SymbolIndex.isClass_ofProgram]
  case mem_nodes => exact spanned_ofProgram? h
  case filled => exact filled_ofProgram? h

/-- The function `main` calls `g(f(), Shop.run())`, where `Shop` is a class. -/
def shopProgram : Program where
  functions :=
    [⟨⟨.plain "main", 0⟩,
        [⟨.loadName, .text "g"⟩, ⟨.loadName, .text "f"⟩, ⟨.call, .int 0⟩,
          ⟨.loadName, .text "Shop"⟩, ⟨.loadAttr, .text "run"⟩, ⟨.call, .int 0⟩, ⟨.call, .int 2⟩]⟩,
      ⟨⟨.plain "f", 0⟩, []⟩, ⟨⟨.plain "g", 2⟩, []⟩]
  classes := [.ofName "Shop"]

theorem exactFor_ofProgram?_shopProgram :
    shopProgram.ids.Nodup ∧
      ∃ found, ofProgram? (.ofProgram shopProgram) true shopProgram = some found ∧
        found.graph.edges.toList = [⟨"main", "f"⟩, ⟨"main", "g"⟩] ∧
        found.ExactFor shopProgram true := by
  have hids : shopProgram.ids.Nodup := by decide
  have hedges : (ofProgram? (.ofProgram shopProgram) true shopProgram).map (·.graph.edges.toList)
      = some [⟨"main", "f"⟩, ⟨"main", "g"⟩] := by decide +kernel
  obtain ⟨found, hfound, hlist⟩ := Option.map_eq_some_iff.1 hedges
  exact ⟨hids, found, hfound, hlist, (exactFor_ofProgram? shopProgram true hids).2 found hfound⟩

/-! ### Names of classes -/

/-- A call that is found in a body, and not only inside of another call, calls no class. -/
theorem not_class_of_mem_calls {f : Function} {sites : CallSites}
    (h : f.callSites? (.ofProgram p) = some sites) {c : CallExpr} (hc : c ∈ sites.calls)
    {name : String} (hname : c.callee? = some (.name name)) :
    ¬ ∃ d ∈ p.classes, d.name = name := by
  rw [← SymbolIndex.isClass_ofProgram]
  unfold Function.callSites? CallSites.ofBody? at h
  split at h
  · obtain ⟨-, hconstructor⟩ := of_mem_callSites h hc
    simpa [CallExpr.isConstructor, CallExpr.calleeName?, hname] using hconstructor
  · cases h
    cases hc

/-- **An edge to the name of a class comes from a nested call**: one inside of another call that
calls that name while a function has it as well and takes that many arguments. -/
theorem mem_edges_class_iff (text : String) (settings : Settings) (p : Program) (found : Findings)
    (hp : Program.parse text = .ok p)
    (h : ofProgram? (.ofProgram p) settings.nestedCalls p = some found) (e : Edge)
    (hclass : ∃ d ∈ p.classes, d.name = e.target) :
    e ∈ found.graph.edges ↔ settings.nestedCalls = true ∧
      ∃ outer c, p.Calls true e.source outer ∧ c ∈ outer.nestedCalls ∧
        c.callee? = some (.name e.target) ∧
        ∃ f ∈ p.functions, f.id = e.target ∧ f.signature.arity = c.args.length := by
  rw [mem_edges_iff_calls (Program.nodup_ids_of_parse hp) h]
  constructor
  · rintro ⟨c, hcalls, hname, hfunction⟩
    cases hcalls with
    | found hf hid hsites hc => exact absurd hclass (not_class_of_mem_calls hsites hc hname)
    | @inner outer _ hnested houter hc =>
      rw [hnested] at houter
      exact ⟨hnested, outer, c, houter, hc, hname, hfunction⟩
  · rintro ⟨hnested, outer, c, houter, hc, hname, hfunction⟩
    rw [hnested]
    exact ⟨c, .inner rfl houter hc, hname, hfunction⟩

/-- A dump in which `f` calls `g(Widget())`, and `Widget` is a class and a function. -/
def widgetDump : String :=
  "[[[\"f\",null,0,[[\"LOAD_NAME\",\"g\"],[\"LOAD_NAME\",\"Widget\"],[\"CALL\",0],[\"CALL\",1]]],"
    ++ "[\"g\",null,1],[\"Widget\",null,0]],[[\"Widget\"]]]"

/-- The program of `widgetDump`. -/
def widgetProgram : Program where
  functions :=
    [⟨⟨.plain "f", 0⟩,
        [⟨.loadName, .text "g"⟩, ⟨.loadName, .text "Widget"⟩, ⟨.call, .int 0⟩, ⟨.call, .int 1⟩]⟩,
      ⟨⟨.plain "g", 1⟩, []⟩, ⟨⟨.plain "Widget", 0⟩, []⟩]
  classes := [.ofName "Widget"]

theorem parse_widgetDump : Program.parse widgetDump = .ok widgetProgram := by decide +kernel

theorem exists_findings_widgetProgram :
    ∃ found, ofProgram? (.ofProgram widgetProgram) true widgetProgram = some found ∧
      found.graph.edges.toList = [⟨"f", "Widget"⟩, ⟨"f", "g"⟩] := by
  apply Option.map_eq_some_iff.1
  decide +kernel

theorem mem_edges_class_iff_widgetProgram :
    Program.parse widgetDump = .ok widgetProgram ∧
      (∃ d ∈ widgetProgram.classes, d.name = "Widget") ∧
      ∃ found, ofProgram? (.ofProgram widgetProgram) true widgetProgram = some found ∧
        ∃ outer c, widgetProgram.Calls true "f" outer ∧ c ∈ outer.nestedCalls ∧
          c.callee? = some (.name "Widget") ∧
          ∃ f ∈ widgetProgram.functions, f.id = "Widget" ∧ f.signature.arity = c.args.length := by
  obtain ⟨found, hfound, hedges⟩ := exists_findings_widgetProgram
  have hclass : ∃ d ∈ widgetProgram.classes, d.name = "Widget" := by decide
  have hmem : (⟨"f", "Widget"⟩ : Edge) ∈ found.graph.edges := by
    rw [SortedSet.mem_def, hedges]
    exact List.mem_cons_self
  exact ⟨parse_widgetDump, hclass, found, hfound,
    ((mem_edges_class_iff widgetDump { nestedCalls := true } widgetProgram found parse_widgetDump
      hfound ⟨"f", "Widget"⟩ hclass).1 hmem).2⟩

/-- A nested call of a class can be an edge. -/
theorem exists_edge_to_class :
    ¬ ∀ (text : String) (settings : Settings) (p : Program) (found : Findings),
      Program.parse text = .ok p →
        ofProgram? (.ofProgram p) settings.nestedCalls p = some found →
          ∀ e ∈ found.graph.edges, ¬ ∃ d ∈ p.classes, d.name = e.target := by
  intro hall
  obtain ⟨found, hfound, hedges⟩ := exists_findings_widgetProgram
  refine hall widgetDump { nestedCalls := true } widgetProgram found parse_widgetDump hfound
    ⟨"f", "Widget"⟩ ?_ (by decide)
  rw [SortedSet.mem_def, hedges]
  exact List.mem_cons_self

end Findings

end CallerFirst
