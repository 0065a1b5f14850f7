import CallerFirst.Proofs.Analysis
import CallerFirst.Proofs.Findings
import CallerFirst.Proofs.Origins
import CallerFirst.Proofs.RoundTrip
import Mathlib.Tactic.Common

/-!
# Calls inside of calls

* `CallGraph.Obstructs.mono`: what obstructs a test order of a closed graph does so in every graph
  with the same calls and more;
* `analyze_nestedCalls`: counting the calls inside of calls only adds to what is found, so that a
  program that can be ordered with them can be ordered without them;
* `SourceCall.reaches_toCallExpr_iff`: the calls at any depth of a call expression are those at any
  depth of the call that was written;
* `isSome_ofBody?_of_representable`: the calls of a body can be found when no arity in it is too
  large;
* `exists_ofBody?_eq`, `Program.calls_spelled_iff`: which calls are found in a body that consists of
  written calls, and which of them count;
* `mem_edges_spelled_iff`: which edges come from a body that is made of written calls. Calls inside
  of a call that constructs an object are found only if that call is itself inside of another one.
-/

namespace CallerFirst

/-! ### More calls -/

namespace CallGraph

variable {g h : CallGraph} {id : String}

theorem OnCycle.mono (hcalls : ∀ a b, g.Calls a b → h.Calls a b) (hid : g.OnCycle id) :
    h.OnCycle id :=
  Relation.TransGen.mono hcalls _ _ hid

/-- What obstructs a test order of a closed graph does so in every graph with more calls. -/
theorem Obstructs.mono (hg : g.Closed) (hcalls : ∀ a b, g.Calls a b → h.Calls a b) {e : Edge}
    (he : g.Obstructs e) : h.Obstructs e := by
  obtain ⟨hcall, hblocked⟩ := he
  obtain ⟨root, hcycle, hreach⟩ := hg.blocked_iff.1 hblocked
  have hreach' := Relation.ReflTransGen.mono hcalls _ _ hreach
  exact ⟨hcalls _ _ hcall, root, Or.inl (hcycle.mono hcalls), hreach'⟩

theorem Spanned.closed (hg : g.Spanned) : g.Closed := by
  intro e he
  exact ⟨(hg _).2 ⟨e, he, Or.inl rfl⟩, (hg _).2 ⟨e, he, Or.inr rfl⟩⟩

end CallGraph

/-- All that is found is found in `more` as well. -/
structure Findings.Within (found more : Findings) : Prop where
  nodes : ∀ id ∈ found.graph.nodes, id ∈ more.graph.nodes
  edges : ∀ e ∈ found.graph.edges, e ∈ more.graph.edges
  methods : ∀ function owner method, found.methods.Records function owner method →
    more.methods.Records function owner method

theorem Program.Calls.nested {p : Program} {caller : String} {c : CallExpr}
    (h : p.Calls false caller c) : p.Calls true caller c := by
  cases h with
  | found hf hid hsites hc => exact .found hf hid hsites hc
  | inner hnested => cases hnested

/-- What is collected without nested calls is collected with them. -/
theorem Findings.Collects.nested {p : Program} {caller : String} {R : CallExpr → Prop}
    {Q : Findings → Prop} (hQ : Collects (.ofProgram p) (fun id c => id = caller ∧ R c) Q)
    {plain full : Findings} (hplain : Findings.ofProgram? (.ofProgram p) false p = some plain)
    (hfull : Findings.ofProgram? (.ofProgram p) true p = some full) (h : Q plain) : Q full := by
  obtain ⟨c, hc, hR⟩ := (hQ.iff_calls hplain).1 h
  exact (hQ.iff_calls hfull).2 ⟨c, hc.nested, hR⟩

/-- Counting nested calls only adds to what is found. -/
theorem Findings.within_nested {p : Program} {plain full : Findings}
    (hplain : Findings.ofProgram? (.ofProgram p) false p = some plain)
    (hfull : Findings.ofProgram? (.ofProgram p) true p = some full) : plain.Within full := by
  have hedges : ∀ e ∈ plain.graph.edges, e ∈ full.graph.edges := fun e he =>
    (collects_edge (.ofProgram p) e).nested hplain hfull he
  constructor
  case nodes =>
    intro id hid
    obtain ⟨e, he, hend⟩ := (spanned_ofProgram? hplain id).1 hid
    exact (spanned_ofProgram? hfull id).2 ⟨e, hedges e he, hend⟩
  case edges => exact hedges
  case methods =>
    intro function owner method h
    exact (collects_method (.ofProgram p) function owner method).nested hplain hfull h

/-- When there is a test order of all that is found, there is one of a part of it. -/
theorem Findings.Within.testOrder {found more : Findings} (h : found.Within more)
    (hspanned : found.graph.Spanned) {known : List String} {o : TestOrder}
    (ho : CallerFirst.testOrder more.graph known = .ok o) :
    ∃ o', CallerFirst.testOrder found.graph known = .ok o' := by
  obtain ⟨hnone, -⟩ := testOrder_eq_ok_iff.1 ho
  refine ⟨_, testOrder_eq_ok_iff.2 ⟨?_, rfl⟩⟩
  refine CallGraph.obstructions_eq_nil.2 fun e he => ?_
  refine CallGraph.obstructions_eq_nil.1 hnone e (he.mono hspanned.closed ?_)
  exact fun a b hab => ⟨hab.1, h.edges _ hab.2⟩

/-- **Nested calls only add.** When an analysis with nested calls succeeds, so does the one without
them, and the order that the former gives is right for the call graph of the latter. -/
theorem analyze_nestedCalls (settings : Settings) (p : Program) :
    ((Findings.ofProgram? (.ofProgram p) false p).isSome ↔
        (Findings.ofProgram? (.ofProgram p) true p).isSome) ∧
      (∀ plain full, Findings.ofProgram? (.ofProgram p) false p = some plain →
        Findings.ofProgram? (.ofProgram p) true p = some full → plain.Within full) ∧
      ∀ full, (analyze { settings with nestedCalls := true } p).outcome = .ok full →
        ∃ plain, (analyze { settings with nestedCalls := false } p).outcome = .ok plain ∧
          (∀ e ∈ plain.callGraph.edges, e.source ≠ e.target →
            ∃ i j, full.order.position? e.source = some i ∧
              full.order.position? e.target = some j ∧ i < j) ∧
          full.order.isolated.Sublist plain.order.isolated := by
  have hsome : (Findings.ofProgram? (.ofProgram p) false p).isSome ↔
      (Findings.ofProgram? (.ofProgram p) true p).isSome := by
    rw [Findings.isSome_ofProgram?_iff, Findings.isSome_ofProgram?_iff]
  refine ⟨hsome, fun _ _ => Findings.within_nested, fun full hfull => ?_⟩
  obtain ⟨found, order, hfound, horder, rfl⟩ := analyze_eq_ok_iff.1 hfull
  obtain ⟨plain, hplain⟩ := Option.isSome_iff_exists.1 (hsome.2 (by rw [hfound]; rfl))
  have hwithin := Findings.within_nested hplain hfound
  obtain ⟨order', horder'⟩ := hwithin.testOrder (Findings.spanned_ofProgram? hplain) horder
  refine ⟨_, analyze_eq_ok_iff.2 ⟨plain, order', hplain, horder', rfl⟩, ?_, ?_⟩
  · intro e he hne
    obtain ⟨hnone, rfl⟩ := testOrder_eq_ok_iff.1 horder
    exact (CallGraph.isOrderOf_final hnone p.ids).caller_first _ _ ⟨hne, hwithin.edges e he⟩
  · obtain ⟨-, rfl⟩ := testOrder_eq_ok_iff.1 horder
    obtain ⟨-, rfl⟩ := testOrder_eq_ok_iff.1 horder'
    refine List.monotone_filter_right p.ids fun id hid => ?_
    simp only [decide_eq_true_eq] at hid ⊢
    exact fun hnode => hid (hwithin.nodes id hnode)

/-- The function `main` calls `g(f())`. -/
def nestedProgram : Program where
  functions :=
    [⟨⟨.plain "main", 0⟩,
        [⟨.loadName, .text "g"⟩, ⟨.loadName, .text "f"⟩, ⟨.call, .int 0⟩, ⟨.call, .int 1⟩]⟩,
      ⟨⟨.plain "f", 0⟩, []⟩, ⟨⟨.plain "g", 1⟩, []⟩]
  classes := []

theorem analyze_nestedCalls_nestedProgram :
    (∃ plain full, Findings.ofProgram? (.ofProgram nestedProgram) false nestedProgram = some plain ∧
        Findings.ofProgram? (.ofProgram nestedProgram) true nestedProgram = some full ∧
        plain.Within full) ∧
      ∃ plain full, (analyze { nestedCalls := true } nestedProgram).outcome = .ok full ∧
        full.order = ⟨[], ["main", "g", "f"]⟩ ∧
        (analyze { nestedCalls := false } nestedProgram).outcome = .ok plain ∧
        full.order.isolated.Sublist plain.order.isolated := by
  have hsome : ∀ nested,
      (Findings.ofProgram? (.ofProgram nestedProgram) nested nestedProgram).isSome := by
    decide +kernel
  obtain ⟨plain, hplain⟩ := Option.isSome_iff_exists.1 (hsome false)
  obtain ⟨full, hfull⟩ := Option.isSome_iff_exists.1 (hsome true)
  refine ⟨⟨plain, full, hplain, hfull,
    (analyze_nestedCalls {} nestedProgram).2.1 plain full hplain hfull⟩, ?_⟩
  have horder : (analyze { nestedCalls := true } nestedProgram).outcome.map (·.order)
      = .ok ⟨[], ["main", "g", "f"]⟩ := by decide +kernel
  obtain ⟨a, ha, heq⟩ := exists_ok_of_map_eq_ok horder
  obtain ⟨b, hb, -, hsublist⟩ := (analyze_nestedCalls {} nestedProgram).2.2 a ha
  exact ⟨b, a, ha, heq, hb, hsublist⟩

/-! ### Calls inside of written calls -/

theorem Argument.toCallee_eq_name_iff {a : Argument} {name : String} :
    a.toCallee = .name name ↔
      ∃ i, a = .value i ∧ i.code.isNameLoad = true ∧ i.operand = .text name := by
  constructor
  · intro h
    have hcalled := a.calledAs_toCallee
    rw [h] at hcalled
    cases hcalled with
    | name hload htext => exact ⟨_, rfl, hload, htext⟩
  · rintro ⟨⟨code, operand⟩, rfl, hload, rfl⟩
    simp [toCallee, hload]

namespace SourceCall

variable {e : SourceCall} {c : CallExpr} {name : String}

/-- `inner` stands directly inside of `outer`: it is what is called, or an argument. -/
def Holds (outer inner : SourceCall) : Prop := inner.toPart ∈ outer.callee :: outer.args

/-- The callee of a call is a plain name. -/
def Names (e : SourceCall) (name : String) : Prop :=
  ∃ code plain, e.callee = .value (.load code plain (.text name)) ∧ code.isNameLoad = true

theorem args_toCallExpr (e : SourceCall) :
    e.toCallExpr.args = e.args.map SourcePart.toArgument := by
  simp [toCallExpr, CallExpr.args, CallExpr.isComplete]

theorem callee?_eq_name_iff : e.toCallExpr.callee? = some (.name name) ↔ e.Names name := by
  rw [callee?_toCallExpr, Option.some.injEq, Argument.toCallee_eq_name_iff]
  constructor
  · rintro ⟨i, hi, hload, htext⟩
    cases hcallee : e.callee with
    | call callee args =>
      rw [hcallee, SourcePart.toArgument] at hi
      cases hi
    | value tree =>
      rw [hcallee, SourcePart.toArgument] at hi
      cases hi
      -- Of all values only a load has the code of a load.
      cases tree with
      | load code plain operand => exact ⟨code, plain, by rw [hcallee, ← htext]; rfl, hload⟩
      | _ => cases hload
  · rintro ⟨code, plain, hcallee, hload⟩
    exact ⟨⟨code, .text name⟩, by rw [hcallee]; rfl, hload, rfl⟩

theorem isConstruction_iff {isClass : String → Bool} :
    e.isConstruction isClass = true ↔ ∃ name, e.Names name ∧ isClass name = true := by
  rw [← isConstructor_toCallExpr, CallExpr.isConstructor_eq_constructs, CallExpr.constructs]
  simp only [← callee?_eq_name_iff]
  cases e.toCallExpr.callee? with
  | none => simp
  | some callee => cases callee <;> simp

/-- What stands directly inside of a call expression stands there in the call that was written. -/
theorem holds_toCallExpr_iff : e.toCallExpr.Holds c ↔ ∃ d, e.Holds d ∧ d.toCallExpr = c := by
  have hparts : e.toCallExpr.parts = (e.callee :: e.args).map SourcePart.toArgument := rfl
  rw [CallExpr.Holds, CallExpr.mem_nestedCalls_iff, hparts, List.mem_map]
  constructor
  · rintro ⟨part, hpart, heq⟩
    cases part with
    | value tree => cases heq
    | call callee args =>
      refine ⟨⟨callee, args⟩, hpart, ?_⟩
      have hcall := (⟨callee, args⟩ : SourceCall).toArgument_toPart
      rw [toPart, heq] at hcall
      exact (Argument.call?_eq_some_iff.2 hcall).symm.trans (Argument.call?_eq_some_iff.2 rfl)
        |> Option.some.inj
  · rintro ⟨d, hd, rfl⟩
    exact ⟨d.toPart, hd, d.toArgument_toPart⟩

/-- The calls at any depth of a call expression are those at any depth of the call that was
written. -/
theorem reaches_toCallExpr_iff :
    Relation.ReflTransGen CallExpr.Holds e.toCallExpr c ↔
      ∃ d, Relation.ReflTransGen Holds e d ∧ d.toCallExpr = c := by
  constructor
  · intro h
    induction h with
    | refl => exact ⟨e, .refl, rfl⟩
    | tail _ hstep ih =>
      obtain ⟨d, hd, rfl⟩ := ih
      obtain ⟨inner, hinner, rfl⟩ := holds_toCallExpr_iff.1 hstep
      exact ⟨inner, hd.tail hinner, rfl⟩
  · rintro ⟨d, hd, rfl⟩
    exact hd.lift toCallExpr fun _ inner hinner => holds_toCallExpr_iff.2 ⟨inner, hinner, rfl⟩

end SourceCall

/-! ### Arities that can be represented -/

theorem Scan.step_ne_oversized {isClass : String → Bool} {s : Scan} {index : Nat} {i : Instruction}
    {next : Option Instruction}
    (h : i.code = .call → ∀ n ∈ i.operand.count?, n < CallExpr.arityLimit) :
    s.step isClass index i next ≠ .error .oversized := by
  unfold step
  split
  · next hcall =>
    split
    · simp
    · unfold openCall
      split
      · simp
      · next arity hcount => simp [CallExpr.new?, h hcall arity hcount]
  · split <;> simp

theorem Scan.run_ne_oversized {isClass : String → Bool} {ops : List Instruction}
    (h : Representable ops) (index : Nat) : run isClass index ops ≠ .error .oversized := by
  induction ops generalizing index with
  | nil => simp [run]
  | cons i ops ih =>
    have hrest := ih (fun j hj => h j (List.mem_cons_of_mem i hj)) (index + 1)
    rw [run]
    split
    · next stop hstop =>
      rintro heq
      rw [hstop, heq] at hrest
      exact hrest rfl
    · exact step_ne_oversized (h i List.mem_cons_self)

/-- The calls of a body can be found when no arity in it is too large. -/
theorem isSome_ofBody?_of_representable {isClass : String → Bool} {body : List Instruction}
    (h : Representable body) : (CallSites.ofBody? isClass body).isSome := by
  unfold CallSites.ofBody?
  split
  · next form hform =>
    have hops : Representable form.instructions := by
      intro i hi hcall
      have hbody : i ∈ body := (stemsFrom_of_mem_normalForm hform i hi).mem_of_not_isCollapsed
        (by rw [hcall]; rfl)
      exact h i hbody hcall
    unfold callSites?
    split
    · rfl
    · rfl
    · next hstop => exact absurd hstop (Scan.run_ne_oversized hops 0)
  · rfl

/-! ### The calls of a body that is written -/

/-- The body that consists of written calls and nothing else. -/
def SpelledBody.ofCalls (first : SourceCall) (more : List SourceCall) : SpelledBody where
  first := ⟨[], first⟩
  more := more.map fun e => ⟨[], e⟩
  tail := []
  gap_ne_call := by simp
  tail_ne_call := by simp
  unstored := by simp [Unstored, withoutMarkers]

theorem SpelledBody.spell_ofCalls (first : SourceCall) (more : List SourceCall) :
    (ofCalls first more).spell = (first :: more).flatMap SourceCall.spell := by
  simp [spell, pieces, ofCalls, Piece.spell, List.flatMap_map]

theorem SpelledBody.calls_ofCalls (first : SourceCall) (more : List SourceCall) :
    (ofCalls first more).calls = first :: more := by
  simp [calls, pieces, ofCalls, Function.comp_def]

/-- In a body that consists of written calls these are found, but for those that construct an
object. -/
theorem exists_ofBody?_eq (isClass : String → Bool) (calls : List SourceCall)
    (hfit : (calls.flatMap SourceCall.spell).length < Operand.countLimit)
    (hcalls : Representable (calls.flatMap SourceCall.spell)) :
    ∃ log, CallSites.ofBody? isClass (calls.flatMap SourceCall.spell)
      = some ⟨(callExprs isClass calls).reverse, log⟩ := by
  cases calls with
  | nil => exact ⟨[], rfl⟩
  | cons first more =>
    let b : SpelledBody := .ofCalls first more
    rw [← SpelledBody.spell_ofCalls] at hfit hcalls ⊢
    have hlen : (b.unmarked.flatMap Piece.spell).length < Operand.countLimit :=
      Nat.lt_of_le_of_lt (SpelledBody.length_unmarked_le rfl) hfit
    obtain ⟨log, hreads⟩ := reads_collapsedPieces isClass hlen
      (SpelledBody.representable_unmarked rfl hcalls) b.unmarked_gap_ne_call b.unstored_unmarked
    rw [b.calls_unmarked, SpelledBody.calls_ofCalls] at hreads
    refine ⟨log, ?_⟩
    rw [ofBody?_of_cut isClass (SpelledBody.cut rfl), foldl_push_pieces hlen (by simp),
      List.append_nil, List.reverse_reverse, callSites?, hreads 0]

theorem Function.exists_callSites?_eq {f : Function} {calls : List SourceCall}
    (hbody : f.body = calls.flatMap SourceCall.spell) (hfit : f.body.length < Operand.countLimit)
    (hcalls : Representable f.body) (index : SymbolIndex) :
    ∃ log, f.callSites? index = some ⟨(callExprs index.isClass calls).reverse, log⟩ := by
  rw [Function.callSites?, hbody]
  rw [hbody] at hfit hcalls
  exact exists_ofBody?_eq index.isClass calls hfit hcalls

/-- The calls that count for a function whose body consists of written calls: those at any depth of
a written call, unless the outermost one constructs an object. -/
theorem Program.calls_spelled_iff {p : Program} (hids : p.ids.Nodup) {f : Function}
    (hf : f ∈ p.functions) {calls : List SourceCall}
    (hbody : f.body = calls.flatMap SourceCall.spell) (hfit : f.body.length < Operand.countLimit)
    (hcalls : Representable f.body) {c : CallExpr} :
    p.Calls true f.id c ↔ ∃ e ∈ calls, (¬ ∃ d ∈ p.classes, e.Names d.name) ∧
      ∃ inner, Relation.ReflTransGen SourceCall.Holds e inner ∧ inner.toCallExpr = c := by
  obtain ⟨log, hsites⟩ := Function.exists_callSites?_eq hbody hfit hcalls (.ofProgram p)
  have hkept (e : SourceCall) : (!e.isConstruction (SymbolIndex.ofProgram p).isClass) = true ↔
      ¬ ∃ d ∈ p.classes, e.Names d.name := by
    rw [Bool.not_eq_true', Bool.eq_false_iff, Ne, SourceCall.isConstruction_iff]
    refine not_congr ?_
    simp only [SymbolIndex.isClass_ofProgram]
    grind
  rw [Program.calls_iff]
  constructor
  · rintro ⟨g, hg, hid, sites, hsites', hc⟩
    obtain rfl : g = f := List.inj_on_of_nodup_map hids hg hf hid
    obtain rfl := Option.some.inj (hsites'.symm.trans hsites)
    obtain ⟨top, htop, hreach⟩ := List.mem_flatMap.1 hc
    obtain ⟨e, he, rfl⟩ := List.mem_map.1 (List.mem_reverse.1 htop)
    obtain ⟨he, hname⟩ := List.mem_filter.1 he
    exact ⟨e, he, (hkept e).1 hname,
      SourceCall.reaches_toCallExpr_iff.1 (CallExpr.mem_allCalls_iff.1 hreach)⟩
  · rintro ⟨e, he, hname, hreach⟩
    have htop : e.toCallExpr ∈ callExprs (SymbolIndex.ofProgram p).isClass calls :=
      List.mem_map_of_mem (List.mem_filter.2 ⟨he, (hkept e).2 hname⟩)
    have hreach' := CallExpr.mem_allCalls_iff.2 (SourceCall.reaches_toCallExpr_iff.2 hreach)
    exact ⟨f, hf, rfl, _, hsites,
      List.mem_flatMap.2 ⟨_, List.mem_reverse.2 htop, hreach'⟩⟩

/-- **Nested calls are found.** The edges from a function whose body consists of written calls are
the calls at any depth of one that constructs no object, by plain name and with fitting arity. -/
theorem mem_edges_spelled_iff (p : Program) (hids : p.ids.Nodup) (f : Function)
    (hf : f ∈ p.functions) (calls : List SourceCall)
    (hbody : f.body = calls.flatMap SourceCall.spell) (hfit : f.body.length < Operand.countLimit)
    (hcalls : ∀ g ∈ p.functions, Representable g.body) :
    ∃ found, Findings.ofProgram? (.ofProgram p) true p = some found ∧
      ∀ callee, (⟨f.id, callee⟩ : Edge) ∈ found.graph.edges ↔
        ∃ e ∈ calls, (¬ ∃ d ∈ p.classes, e.Names d.name) ∧
          ∃ c, Relation.ReflTransGen SourceCall.Holds e c ∧ c.Names callee ∧
            ∃ g ∈ p.functions, g.id = callee ∧ g.signature.arity = c.args.length := by
  have hsome : (Findings.ofProgram? (.ofProgram p) true p).isSome := by
    refine Findings.isSome_ofProgram?_iff.2 fun g hg => ?_
    exact isSome_ofBody?_of_representable (hcalls g hg)
  obtain ⟨found, hfound⟩ := Option.isSome_iff_exists.1 hsome
  refine ⟨found, hfound, fun callee => ?_⟩
  rw [Findings.mem_edges_iff_calls hids hfound]
  simp only [Program.calls_spelled_iff hids hf hbody hfit (hcalls f hf)]
  constructor
  · rintro ⟨_, ⟨e, he, hname, c, hreach, rfl⟩, hcallee, g, hg, hid, harity⟩
    rw [SourceCall.args_toCallExpr, List.length_map] at harity
    exact ⟨e, he, hname, c, hreach, SourceCall.callee?_eq_name_iff.1 hcallee, g, hg, hid, harity⟩
  · rintro ⟨e, he, hname, c, hreach, hcallee, g, hg, hid, harity⟩
    rw [← List.length_map SourcePart.toArgument, ← SourceCall.args_toCallExpr] at harity
    exact ⟨_, ⟨e, he, hname, c, hreach, rfl⟩, SourceCall.callee?_eq_name_iff.2 hcallee,
      g, hg, hid, harity⟩

theorem OpCode.isPlainLoad_loadName : OpCode.loadName.isPlainLoad = true := rfl

/-- The value that a plain name has. -/
def ValueTree.named (name : String) : ValueTree :=
  .load .loadName OpCode.isPlainLoad_loadName (.text name)

/-- A call by plain name. -/
def SourceCall.named (name : String) (args : List SourcePart) : SourceCall :=
  ⟨.value (.named name), args⟩

theorem SourceCall.names_named (name : String) (args : List SourcePart) :
    (named name args).Names name :=
  ⟨.loadName, rfl, rfl, rfl⟩

theorem SourceCall.eq_of_names_named {name other : String} {args : List SourcePart}
    (h : (named name args).Names other) : other = name := by
  obtain ⟨code, plain, hcallee, -⟩ := h
  cases hcallee
  rfl

/-- The call `Widget(g())`. -/
def widgetOfCall : SourceCall := .named "Widget" [(SourceCall.named "g" []).toPart]

theorem widgetOfCall_holds : widgetOfCall.Holds (.named "g" []) :=
  List.mem_cons_of_mem _ List.mem_cons_self

/-- The function `main` calls what is given, `g` takes no argument and `h` takes one, and `Widget`
is a class. -/
def callingProgram (calls : List SourceCall) : Program where
  functions := [⟨⟨.plain "main", 0⟩, calls.flatMap SourceCall.spell⟩,
    ⟨⟨.plain "g", 0⟩, []⟩, ⟨⟨.plain "h", 1⟩, []⟩]
  classes := [.ofName "Widget"]

/-- The calls `print(Widget(g()))` and `store.put(h(left))`. -/
def wrappedCalls : List SourceCall :=
  [.named "print" [widgetOfCall.toPart],
    ⟨.value (.attr (.named "store") (.text "put")),
      [(SourceCall.named "h" [.value (.named "left")]).toPart]⟩]

theorem mem_edges_spelled_iff_wrappedCalls :
    (callingProgram wrappedCalls).ids.Nodup ∧
      (wrappedCalls.flatMap SourceCall.spell).length < Operand.countLimit ∧
      (∀ g ∈ (callingProgram wrappedCalls).functions, Representable g.body) ∧
      ∃ found, Findings.ofProgram? (.ofProgram (callingProgram wrappedCalls)) true
          (callingProgram wrappedCalls) = some found ∧
        (⟨"main", "g"⟩ : Edge) ∈ found.graph.edges ∧
        (⟨"main", "h"⟩ : Edge) ∈ found.graph.edges := by
  have hids : (callingProgram wrappedCalls).ids.Nodup := by decide
  have hfit : (wrappedCalls.flatMap SourceCall.spell).length < Operand.countLimit := by
    decide +kernel
  have hcalls : ∀ g ∈ (callingProgram wrappedCalls).functions, Representable g.body := by
    decide +kernel
  obtain ⟨found, hfound, hedges⟩ := mem_edges_spelled_iff (callingProgram wrappedCalls) hids
    ⟨⟨.plain "main", 0⟩, wrappedCalls.flatMap SourceCall.spell⟩ List.mem_cons_self wrappedCalls rfl
    hfit hcalls
  refine ⟨hids, hfit, hcalls, found, hfound, (hedges "g").2 ?_, (hedges "h").2 ?_⟩
  · refine ⟨_, List.mem_cons_self, ?_, .named "g" [], ?_, SourceCall.names_named _ _,
      ⟨⟨.plain "g", 0⟩, []⟩, by simp [callingProgram], rfl, rfl⟩
    · rintro ⟨d, hd, hname⟩
      have hother : ∀ d ∈ (callingProgram wrappedCalls).classes, d.name ≠ "print" := by decide
      exact hother d hd (SourceCall.eq_of_names_named hname)
    · exact .tail (.single (List.mem_cons_of_mem _ List.mem_cons_self)) widgetOfCall_holds
  · refine ⟨_, List.mem_cons_of_mem _ List.mem_cons_self, ?_, _,
      .single (List.mem_cons_of_mem _ List.mem_cons_self), SourceCall.names_named _ _,
      ⟨⟨.plain "h", 1⟩, []⟩, by simp [callingProgram], rfl, rfl⟩
    rintro ⟨d, hd, code, plain, hcallee, -⟩
    cases hcallee

/-- A call inside of one that constructs an object is lost. -/
theorem exists_nested_call_without_edge :
    ¬ ∀ (p : Program) (found : Findings) (f : Function) (calls : List SourceCall), p.ids.Nodup →
      Findings.ofProgram? (.ofProgram p) true p = some found → f ∈ p.functions →
        f.body = calls.flatMap SourceCall.spell →
          ∀ e ∈ calls, ∀ c, Relation.ReflTransGen SourceCall.Holds e c →
            ∀ callee, c.Names callee → (¬ ∃ d ∈ p.classes, d.name = callee) →
              (∃ g ∈ p.functions, g.id = callee ∧ g.signature.arity = c.args.length) →
                (⟨f.id, callee⟩ : Edge) ∈ found.graph.edges := by
  intro hall
  have hnone : (Findings.ofProgram? (.ofProgram (callingProgram [widgetOfCall])) true
      (callingProgram [widgetOfCall])).map (·.graph.edges.toList) = some [] := by decide +kernel
  obtain ⟨found, hfound, hedges⟩ := Option.map_eq_some_iff.1 hnone
  have hmem := hall (callingProgram [widgetOfCall]) found _ [widgetOfCall] (by decide) hfound
    List.mem_cons_self rfl widgetOfCall List.mem_cons_self (.named "g" [])
    (.single widgetOfCall_holds) "g" (SourceCall.names_named _ _) (by decide)
    ⟨⟨⟨.plain "g", 0⟩, []⟩, by simp [callingProgram], rfl, rfl⟩
  rw [SortedSet.mem_def, hedges] at hmem
  cases hmem

end CallerFirst
