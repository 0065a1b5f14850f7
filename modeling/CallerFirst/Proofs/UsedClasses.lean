import CallerFirst.Proofs.ProgramOrder
import Mathlib.Data.String.Basic
import Mathlib.Tactic.Common

/-!
# Class use says exactly what the bodies load

* `Function.Loads`, `Program.Counts`: a body loads a name, and the name is that of a class that
  counts. Neither speaks of the way in which class use is collected;
* `ClassUse.lex_pairs`: pairs come in ascending order;
* `ClassUse.ofProgram_exactFor`: the class use of a program has a pair for each class that counts
  for a function, and declares the classes of these pairs, in whatever order the program is gone
  through.
-/

namespace CallerFirst

/-- The body of a function has a plain load of a name, be it before or after the last call. -/
def Function.Loads (f : Function) (name : String) : Prop :=
  ∃ i ∈ f.body, i.code.isPlainLoad = true ∧ i.operand = .text name

/-- A name that a function loads is that of a class, and is not private. -/
structure Program.Counts (p : Program) (marker : String) (f : Function) (name : String) : Prop where
  loads : f.Loads name
  isClass : ∃ c ∈ p.classes, c.name = name
  not_private : marker = "" ∨ ¬ marker.toList <+: name.toList

theorem Program.counts_iff {p : Program} {marker : String} {f : Function} {name : String} :
    p.Counts marker f name ↔
      name ∈ usedClasses marker (SymbolIndex.ofProgram p).isClass f.body := by
  have hprivate : isPrivate marker name = false ↔
      marker = "" ∨ ¬ marker.toList <+: name.toList := by
    rw [← Bool.not_eq_true, isPrivate_iff, not_and_or, not_not]
  rw [mem_usedClasses, SymbolIndex.isClass_ofProgram, hprivate]
  constructor
  · rintro ⟨hloads, hclass, hopen⟩
    exact ⟨hopen, hclass, hloads⟩
  · rintro ⟨hopen, hclass, hloads⟩
    exact ⟨hloads, hclass, hopen⟩

/-- A class of the program is declared as the program has it. -/
theorem SymbolIndex.eq_declaration_iff {p : Program} (h : p.ClassesAgree) {name : String}
    (hname : ∃ c ∈ p.classes, c.name = name) {decl : ClassDecl} :
    decl = (ofProgram p).declaration name ↔ decl ∈ p.classes ∧ decl.name = name := by
  obtain ⟨c, hc⟩ := hname
  have hclass : (ofProgram p).class? name = some c := (class?_ofProgram_eq_some_iff h).2 hc
  rw [← class?_ofProgram_eq_some_iff h, declaration, hclass, Option.getD_some, Option.some.injEq,
    eq_comm]

namespace ClassUse

/-! ### The order of the pairs -/

theorem lt_functions (u : ClassUse) : u.functions.Pairwise (· < ·) :=
  List.pairwise_map.2 (u.uses.ascending.imp compare_lt_iff_lt.1)

theorem lex_pairs (u : ClassUse) : u.pairs.Pairwise (Prod.Lex (· < ·) (· < ·)) := by
  rw [pairs, List.pairwise_flatMap]
  constructor
  · rintro ⟨function, names⟩ -
    refine List.pairwise_map.2 (names.ascending.imp fun hlt => ?_)
    exact Prod.Lex.right _ (compare_lt_iff_lt.1 hlt)
  · refine u.uses.ascending.imp fun hlt x hx y hy => ?_
    obtain ⟨name, -, rfl⟩ := List.mem_map.1 hx
    obtain ⟨name', -, rfl⟩ := List.mem_map.1 hy
    exact Prod.Lex.left _ _ (compare_lt_iff_lt.1 hlt)

/-! ### Exactness -/

/-- A function is listed when it uses a class. -/
theorem Filled.mem_functions_iff {u : ClassUse} (h : u.Filled) {function : String} :
    function ∈ u.functions ↔ ∃ name, u.Uses function name := by
  rw [functions, SortedMap.mem_keys_iff, Option.isSome_iff_exists]
  constructor
  · rintro ⟨names, hget⟩
    obtain ⟨name, hname⟩ := h function names hget
    exact ⟨name, names, hget, hname⟩
  · rintro ⟨name, names, hget, -⟩
    exact ⟨names, hget⟩

theorem uses_ofProgram_iff_counts {marker : String} {p : Program} {function name : String} :
    (ofProgram (.ofProgram p) marker p).Uses function name ↔
      ∃ f ∈ p.functions, f.id = function ∧ p.Counts marker f name := by
  simp only [uses_ofProgram, Program.counts_iff]

/-- The classes that are used are there as the program declares them. -/
theorem get?_classes_ofProgram {marker : String} {p : Program} (h : p.ClassesAgree) {name : String}
    {decl : ClassDecl} :
    (ofProgram (.ofProgram p) marker p).classes.get? name = some decl ↔
      (∃ function, (ofProgram (.ofProgram p) marker p).Uses function name) ∧
        decl ∈ p.classes ∧ decl.name = name := by
  rw [declares_ofProgram marker p name decl]
  refine and_congr_right ?_
  rintro ⟨function, huses⟩
  obtain ⟨f, -, -, hcounts⟩ := uses_ofProgram_iff_counts.1 huses
  exact SymbolIndex.eq_declaration_iff h hcounts.isClass

/-- Class use says of a program exactly which classes count for which functions. -/
structure ExactFor (u : ClassUse) (marker : String) (p : Program) : Prop where
  mem_pairs : ∀ function name, (function, name) ∈ u.pairs ↔
    ∃ f ∈ p.functions, f.id = function ∧ p.Counts marker f name
  lex_pairs : u.pairs.Pairwise (Prod.Lex (· < ·) (· < ·))
  mem_functions : ∀ function, function ∈ u.functions ↔
    ∃ f ∈ p.functions, f.id = function ∧ ∃ name, p.Counts marker f name
  lt_functions : u.functions.Pairwise (· < ·)
  /-- A class of a pair is there with its declaration, and no other class is. -/
  get?_classes : ∀ name decl, u.classes.get? name = some decl ↔
    (∃ function, (function, name) ∈ u.pairs) ∧ decl ∈ p.classes ∧ decl.name = name

/-- **Class use is exact**, in whatever order the symbols of a program are indexed and its functions
gone through: it has the pairs of a function and a class that counts for it, and no others. -/
theorem ofProgram_exactFor (marker : String) (p indexed visited : Program) (hids : p.ids.Nodup)
    (hclasses : p.ClassesAgree) (hindexed : p.Reorders indexed) (hvisited : p.Reorders visited) :
    (ofProgram (.ofProgram indexed) marker visited).ExactFor marker p := by
  rw [← SymbolIndex.ofProgram_congr hids hclasses hindexed,
    ← ofProgram_congr (fun f => hvisited.functions.mem_iff) marker]
  constructor
  case mem_pairs =>
    intro function name
    rw [mem_pairs_iff, uses_ofProgram_iff_counts]
  case lex_pairs => exact ClassUse.lex_pairs _
  case mem_functions =>
    intro function
    rw [(filled_ofProgram marker p).mem_functions_iff]
    simp only [uses_ofProgram_iff_counts]
    constructor
    · rintro ⟨name, f, hf, hid, hcounts⟩
      exact ⟨f, hf, hid, name, hcounts⟩
    · rintro ⟨f, hf, hid, name, hcounts⟩
      exact ⟨name, f, hf, hid, hcounts⟩
  case lt_functions => exact ClassUse.lt_functions _
  case get?_classes =>
    intro name decl
    simp only [mem_pairs_iff]
    exact get?_classes_ofProgram hclasses

end ClassUse

/-- The function `open` loads `Till` after its last call, and the private `_Lock`; `Till.count`
loads `Shop` and `Till`, and nothing that `close` loads is the name of a class. -/
def tillProgram : Program where
  functions :=
    [⟨⟨.plain "open", 0⟩,
        [⟨.loadName, .text "close"⟩, ⟨.call, .int 0⟩, ⟨.loadFast, .text "Till"⟩,
          ⟨.loadGlobal, .text "_Lock"⟩]⟩,
      ⟨⟨.method "Till" "count", 1⟩,
        [⟨.loadGlobal, .text "Till"⟩, ⟨.loadConst, .text "Shop"⟩, ⟨.loadGlobal, .text "Till"⟩]⟩,
      ⟨⟨.plain "close", 0⟩, [⟨.loadName, .text "shutters"⟩, ⟨.loadAttr, .text "Till"⟩]⟩]
  classes :=
    [⟨"Till", "market.Till"⟩, .ofName "_Lock", ⟨"Shop", "market.Shop"⟩, ⟨"Till", "market.Till"⟩]

/-- `tillProgram` from its end to its start. -/
def reversedTill : Program where
  functions := tillProgram.functions.reverse
  classes := tillProgram.classes.reverse

theorem ClassUse.ofProgram_exactFor_tillProgram :
    tillProgram.ids.Nodup ∧ tillProgram.ClassesAgree ∧ tillProgram.Reorders reversedTill ∧
      (ofProgram (.ofProgram reversedTill) "_" tillProgram).pairs
        = [("Till.count", "Shop"), ("Till.count", "Till"), ("open", "Till")] ∧
      (ofProgram (.ofProgram reversedTill) "_" tillProgram).ExactFor "_" tillProgram := by
  have hids : tillProgram.ids.Nodup := by decide
  have hclasses : tillProgram.ClassesAgree := by decide
  have hreversed : tillProgram.Reorders reversedTill :=
    ⟨(List.reverse_perm _).symm, (List.reverse_perm _).symm⟩
  exact ⟨hids, hclasses, hreversed, by decide +kernel,
    ofProgram_exactFor "_" tillProgram reversedTill tillProgram hids hclasses hreversed
      ⟨.refl _, .refl _⟩⟩

end CallerFirst
