import CallerFirst.Drawing.Basic
import CallerFirst.Proofs.UsedClasses
import Mathlib.Data.List.Forall2
import Mathlib.Tactic.Common

/-!
# Drawings of class use

Class use keeps two maps: the classes of each function, and the declaration of each class. A drawing
takes the ids of classes from the declarations, and its edges from the uses.

* `ClassUse.Named`: each class is declared under the name by which it is found;
* `Drawing.nodes_ofClassUse`: the nodes of such a class use;
* `Drawing.forall_joins`: its edges lead from the node of a function to the node of a class;
* `ClassUse.coherent_ofHistory`: whatever is added, in whatever order, the two maps and the drawing
  fit together;
* `Drawing.nodup_ids_ofClassUse_iff`: when the ids in a drawing are different;
* `analyze_nodup_ids_iff`: the same for what an analysis draws.
-/

namespace CallerFirst

/-! ### Declarations under their names -/

theorem SymbolIndex.name_of_class? {p : Program} {name : String} {decl : ClassDecl}
    (h : (ofProgram p).class? name = some decl) : decl.name = name := by
  obtain ⟨c, -, heq⟩ := List.mem_map.1 (SortedMap.mem_of_get?_ofList h)
  cases heq
  rfl

theorem SymbolIndex.name_declaration (p : Program) (name : String) :
    ((ofProgram p).declaration name).name = name := by
  unfold declaration
  cases hclass : (ofProgram p).class? name with
  | none => rfl
  | some decl => exact name_of_class? hclass

/-- Each class is declared under the name by which it is found. -/
def ClassUse.Named (u : ClassUse) : Prop :=
  ∀ name decl, u.classes.get? name = some decl → decl.name = name

theorem ClassUse.Declares.named {u : ClassUse} {p : Program} (h : u.Declares (.ofProgram p)) :
    u.Named := by
  intro name decl hget
  rw [((h name decl).1 hget).2, SymbolIndex.name_declaration]

theorem ClassUse.Declares.mem_keys_iff {u : ClassUse} {index : SymbolIndex} (h : u.Declares index)
    {name : String} : name ∈ u.classes.keys ↔ ∃ function, u.Uses function name := by
  rw [SortedMap.mem_keys_iff, Option.isSome_iff_exists]
  simp only [h name, exists_and_left, exists_eq, and_true]

/-! ### Nodes and edges -/

namespace Drawing

variable {u : ClassUse} {title : String}

theorem classId_of_get? {name : String} {decl : ClassDecl} (h : u.classes.get? name = some decl) :
    classId u name = "class:" ++ decl.qualname := by
  rw [classId, h]
  rfl

/-- The nodes of a drawing: the functions, then the classes with their qualified names as ids. -/
theorem nodes_ofClassUse (h : u.Named) :
    (ofClassUse title u).nodes = u.functions.map Node.ofFunction
      ++ u.classes.entries.map fun e => ⟨"class:" ++ e.2.qualname, e.1, .classNode⟩ := by
  refine congrArg (u.functions.map Node.ofFunction ++ ·) (List.map_congr_left ?_)
  rintro ⟨name, decl⟩ he
  have hget := SortedMap.mem_entries_iff.1 he
  -- The id is looked up under the declared name, and this is the name of the entry.
  have hname : decl.name = name := h name decl hget
  simp only [hname, classId_of_get? hget]

/-- An edge leads from the node of the function of a pair to the node of its class. -/
structure Joins (d : Drawing) (e : Edge) (pair : String × String) : Prop where
  source : ∃ n ∈ d.nodes, n.id = e.source ∧ n.label = pair.1 ∧ n.kind ≠ .classNode
  target : ∃ n ∈ d.nodes, n.id = e.target ∧ n.label = pair.2 ∧ n.kind = .classNode

theorem forall_joins {p : Program} (hfilled : u.Filled) (h : u.Declares (.ofProgram p)) :
    List.Forall₂ (ofClassUse title u).Joins (ofClassUse title u).edges u.pairs := by
  refine List.forall₂_map_left_iff.2 (List.forall₂_same.2 ?_)
  rintro ⟨function, name⟩ hpair
  have huses := ClassUse.mem_pairs_iff.1 hpair
  have hfunction : function ∈ u.functions := hfilled.mem_functions_iff.2 ⟨name, huses⟩
  have hget := (h name _).2 ⟨⟨function, huses⟩, rfl⟩
  constructor
  · refine ⟨.ofFunction function, ?_, rfl, rfl, ?_⟩
    · rw [nodes_ofClassUse h.named]
      exact List.mem_append_left _ (List.mem_map_of_mem hfunction)
    · unfold Node.ofFunction
      split <;> simp
  · refine ⟨⟨classId u name, name, .classNode⟩, ?_, rfl, rfl, rfl⟩
    rw [nodes_ofClassUse h.named, classId_of_get? hget]
    exact List.mem_append_right _ (List.mem_map_of_mem (SortedMap.mem_entries_iff.2 hget))

end Drawing

/-! ### After any history -/

namespace ClassUse

/-- The two maps fit together, and they fit what has been added and what is drawn of them. -/
structure CoherentAfter (u : ClassUse) (index : SymbolIndex)
    (history : List (String × SortedSet String)) : Prop where
  uses_iff : ∀ function name, u.Uses function name ↔ Adds history function name
  /-- No function is there without a class. -/
  filled : u.Filled
  /-- The classes declared are those used. -/
  mem_classes : ∀ name, name ∈ u.classes.keys ↔ ∃ function, u.Uses function name
  named : u.Named
  /-- A history that adds the same leads to the same. -/
  determined : ∀ history',
    (∀ function name, Adds history' function name ↔ Adds history function name) →
      ofHistory index history' = u
  /-- The pairs of the class use are those that have been added. -/
  mem_pairs : ∀ function name, (function, name) ∈ u.pairs ↔ Adds history function name
  /-- The edges of the drawing are those of the pairs, one by one. -/
  joins : ∀ title, List.Forall₂ (Drawing.ofClassUse title u).Joins
    (Drawing.ofClassUse title u).edges u.pairs

/-- **Class use stays coherent**, whatever functions and classes are added to it, in whatever order,
be the classes known or not. -/
theorem coherent_ofHistory (p : Program) (history : List (String × SortedSet String)) :
    (ofHistory (.ofProgram p) history).CoherentAfter (.ofProgram p) history := by
  have hfilled : (ofHistory (.ofProgram p) history).Filled := filled_ofHistory history
  have hdeclares : (ofHistory (.ofProgram p) history).Declares (.ofProgram p) :=
    declares_ofHistory history
  constructor
  case uses_iff => exact fun function name => uses_ofHistory
  case filled => exact hfilled
  case mem_classes => exact fun name => hdeclares.mem_keys_iff
  case named => exact hdeclares.named
  case determined =>
    intro history' hsame
    refine ext_uses (filled_ofHistory history') hfilled (declares_ofHistory history') hdeclares ?_
    intro function name
    rw [uses_ofHistory, uses_ofHistory, hsame]
  case mem_pairs =>
    intro function name
    rw [mem_pairs_iff, uses_ofHistory]
  case joins => exact fun title => Drawing.forall_joins hfilled hdeclares

end ClassUse

/-! ### Ids -/

namespace Drawing

variable {u : ClassUse} {title : String}

theorem nodup_ids_ofCallGraph (title : String) (g : CallGraph) :
    ((ofCallGraph title g).nodes.map (·.id)).Nodup := by
  have hids : (ofCallGraph title g).nodes.map (·.id) = g.nodes.toList := by
    simp [ofCallGraph, Node.ofFunction, Function.comp_def]
  rw [hids]
  exact g.nodes.nodup_toList

theorem ids_ofClassUse (h : u.Named) :
    (ofClassUse title u).nodes.map (·.id)
      = u.functions ++ u.classes.entries.map fun e => "class:" ++ e.2.qualname := by
  rw [nodes_ofClassUse h, List.map_append, List.map_map, List.map_map]
  simp [Node.ofFunction, Function.comp_def]

/-- The ids in a drawing are different when no two classes have one qualified name, and no function
has the id of a class. -/
theorem nodup_ids_ofClassUse_iff (h : u.Named) :
    ((ofClassUse title u).nodes.map (·.id)).Nodup ↔
      (∀ name decl name' decl', u.classes.get? name = some decl →
        u.classes.get? name' = some decl' → decl.qualname = decl'.qualname → name = name') ∧
      ∀ function ∈ u.functions, ∀ name decl, u.classes.get? name = some decl →
        function ≠ "class:" ++ decl.qualname := by
  have hfunctions : u.functions.Nodup := u.uses.nodup_keys
  have hentries : u.classes.entries.Nodup := .of_map _ u.classes.nodup_keys
  rw [ids_ofClassUse h, List.nodup_append, and_iff_right hfunctions,
    List.nodup_map_iff_inj_on hentries]
  -- The functions differ among themselves, so that only the classes and the two together are left.
  refine and_congr ⟨?_, ?_⟩ ⟨?_, ?_⟩
  · intro hinj name decl name' decl' hget hget' hqualname
    have heq := hinj (name, decl) (SortedMap.mem_entries_iff.2 hget) (name', decl')
      (SortedMap.mem_entries_iff.2 hget') (congrArg ("class:" ++ ·) hqualname)
    exact congrArg Prod.fst heq
  · rintro hname ⟨name, decl⟩ he ⟨name', decl'⟩ he' hids
    have hget := SortedMap.mem_entries_iff.1 he
    have hget' := SortedMap.mem_entries_iff.1 he'
    have hqualname : decl.qualname = decl'.qualname := (String.append_right_inj _).1 hids
    obtain rfl := hname name decl name' decl' hget hget' hqualname
    rw [hget] at hget'
    cases hget'
    rfl
  · intro hapart function hfunction name decl hget
    exact hapart function hfunction _ (List.mem_map_of_mem (SortedMap.mem_entries_iff.2 hget))
  · intro hapart function hfunction id hid
    obtain ⟨⟨name, decl⟩, he, rfl⟩ := List.mem_map.1 hid
    exact hapart function hfunction name decl (SortedMap.mem_entries_iff.1 he)

end Drawing

/-- The classes that are used can be told apart by their qualified names, and none of them has the
id of a function that uses a class. -/
structure ClassUse.IdsApart (u : ClassUse) (p : Program) : Prop where
  classes : ∀ c ∈ p.classes, ∀ d ∈ p.classes, (∃ function, u.Uses function c.name) →
    (∃ function, u.Uses function d.name) → c.qualname = d.qualname → c.name = d.name
  functions : ∀ function name, u.Uses function name → ∀ c ∈ p.classes,
    (∃ other, u.Uses other c.name) → function ≠ "class:" ++ c.qualname

theorem Drawing.nodup_ids_ofProgram_iff {marker : String} {p : Program} (h : p.ClassesAgree)
    (title : String) :
    ((ofClassUse title (.ofProgram (.ofProgram p) marker p)).nodes.map (·.id)).Nodup ↔
      (ClassUse.ofProgram (.ofProgram p) marker p).IdsApart p := by
  have hnamed : (ClassUse.ofProgram (.ofProgram p) marker p).Named :=
    (ClassUse.declares_ofProgram marker p).named
  have hfilled : (ClassUse.ofProgram (.ofProgram p) marker p).Filled :=
    ClassUse.filled_ofProgram marker p
  rw [nodup_ids_ofClassUse_iff hnamed]
  simp only [ClassUse.get?_classes_ofProgram h, hfilled.mem_functions_iff]
  constructor
  · rintro ⟨hclasses, hfunctions⟩
    constructor
    · intro c hc d hd hused hused'
      exact hclasses c.name c d.name d ⟨hused, hc, rfl⟩ ⟨hused', hd, rfl⟩
    · intro function name huses c hc hused
      exact hfunctions function ⟨name, huses⟩ c.name c ⟨hused, hc, rfl⟩
  · rintro ⟨hclasses, hfunctions⟩
    constructor
    · rintro _ c _ d ⟨hused, hc, rfl⟩ ⟨hused', hd, rfl⟩
      exact hclasses c hc d hd hused hused'
    · rintro function ⟨name, huses⟩ _ c ⟨hused, hc, rfl⟩
      exact hfunctions function name huses c hc hused

/-- **When the ids in a drawing are different**: always for a call graph, and for class use exactly
when the classes used can be told apart by their ids, and from the functions. -/
theorem analyze_nodup_ids_iff (settings : Settings) (p : Program) (a : Analysis)
    (hclasses : p.ClassesAgree) (ha : (analyze settings p).outcome = .ok a) (title : String) :
    ((Drawing.ofCallGraph title a.callGraph).nodes.map (·.id)).Nodup ∧
      (((Drawing.ofClassUse title a.classUse).nodes.map (·.id)).Nodup ↔ a.classUse.IdsApart p) := by
  refine ⟨Drawing.nodup_ids_ofCallGraph title a.callGraph, ?_⟩
  obtain ⟨found, order, -, -, rfl⟩ := analyze_eq_ok_iff.1 ha
  exact Drawing.nodup_ids_ofProgram_iff hclasses title

/-- A function `Widget` that loads the class of its name and another class. -/
def widgetShop : Program where
  functions :=
    [⟨⟨.plain "Widget", 0⟩, [⟨.loadGlobal, .text "Widget"⟩, ⟨.loadName, .text "Part"⟩]⟩]
  classes := [⟨"Widget", "shop.Widget"⟩, ⟨"Part", "shop.Part"⟩, ⟨"Spare", "shop.Part"⟩]

theorem analyze_nodup_ids_iff_widgetShop :
    widgetShop.ClassesAgree ∧ ∃ a, (analyze {} widgetShop).outcome = .ok a ∧
      ((Drawing.ofCallGraph "shop" a.callGraph).nodes.map (·.id)).Nodup ∧
      (((Drawing.ofClassUse "shop" a.classUse).nodes.map (·.id)).Nodup ↔
        a.classUse.IdsApart widgetShop) ∧
      (Drawing.ofClassUse "shop" a.classUse).nodes.map (·.id)
        = ["Widget", "class:shop.Part", "class:shop.Widget"] := by
  have hclasses : widgetShop.ClassesAgree := by decide
  have hids : (analyze {} widgetShop).outcome.map
      (fun a => (Drawing.ofClassUse "shop" a.classUse).nodes.map (·.id))
      = .ok ["Widget", "class:shop.Part", "class:shop.Widget"] := by decide +kernel
  obtain ⟨a, ha, hids⟩ := exists_ok_of_map_eq_ok hids
  obtain ⟨hcalls, huses⟩ := analyze_nodup_ids_iff {} widgetShop a hclasses ha "shop"
  exact ⟨hclasses, a, ha, hcalls, huses, hids⟩

/-! ### One id for two nodes -/

/-- Classes of one name are declared alike in a dump, and yet the drawing of class use has two nodes
with one id. -/
def DrawsOneIdTwice (text : String) : Prop :=
  ∃ p a, Program.parse text = .ok p ∧ p.ClassesAgree ∧ (analyze {} p).outcome = .ok a ∧
    ¬ ((Drawing.ofClassUse "class dependency" a.classUse).nodes.map (·.id)).Nodup

theorem drawsOneIdTwice_of_ids {text : String} {p : Program} {ids : List String}
    (hp : Program.parse text = .ok p) (hclasses : p.ClassesAgree)
    (hids : (analyze {} p).outcome.map
      (fun a => (Drawing.ofClassUse "class dependency" a.classUse).nodes.map (·.id)) = .ok ids)
    (hrepeat : ¬ ids.Nodup) : DrawsOneIdTwice text := by
  obtain ⟨a, ha, rfl⟩ := exists_ok_of_map_eq_ok hids
  exact ⟨p, a, hp, hclasses, ha, hrepeat⟩

/-- A dump in which `main` loads the class `shop.Widget` under two names. -/
def aliasDump : String :=
  "[[[\"main\",null,0,[[\"LOAD_NAME\",\"Widget\"],[\"LOAD_NAME\",\"Gadget\"]]]],"
    ++ "[[\"Widget\",\"shop.Widget\"],[\"Gadget\",\"shop.Widget\"]]]"

/-- The program of `aliasDump`. -/
def aliasProgram : Program where
  functions :=
    [⟨⟨.plain "main", 0⟩, [⟨.loadName, .text "Widget"⟩, ⟨.loadName, .text "Gadget"⟩]⟩]
  classes := [⟨"Widget", "shop.Widget"⟩, ⟨"Gadget", "shop.Widget"⟩]

/-- A dump in which a function has the id of the class that it loads. -/
def markedDump : String :=
  "[[[\"class:Widget\",null,0,[[\"LOAD_NAME\",\"Widget\"]]]],[[\"Widget\"]]]"

/-- The program of `markedDump`. -/
def markedProgram : Program where
  functions := [⟨⟨.plain "class:Widget", 0⟩, [⟨.loadName, .text "Widget"⟩]⟩]
  classes := [.ofName "Widget"]

/-- Two classes can have one id in a drawing, and so can a function and a class. -/
theorem exists_id_of_two_nodes : DrawsOneIdTwice aliasDump ∧ DrawsOneIdTwice markedDump := by
  have hids : (analyze {} aliasProgram).outcome.map
      (fun a => (Drawing.ofClassUse "class dependency" a.classUse).nodes.map (·.id))
      = .ok ["main", "class:shop.Widget", "class:shop.Widget"] := by decide +kernel
  have hids' : (analyze {} markedProgram).outcome.map
      (fun a => (Drawing.ofClassUse "class dependency" a.classUse).nodes.map (·.id))
      = .ok ["class:Widget", "class:Widget"] := by decide +kernel
  exact ⟨drawsOneIdTwice_of_ids (by decide +kernel) (by decide) hids (by decide),
    drawsOneIdTwice_of_ids (by decide +kernel) (by decide) hids' (by decide)⟩

end CallerFirst
