import CallerFirst.ClassUse
import CallerFirst.Proofs.Analysis
import CallerFirst.Proofs.Origins
import Mathlib.Tactic.Common

/-!
# What class use says, and how it agrees with the class methods

* `mem_usedClasses`: the classes that a body uses are those that its plain loads name;
* `ClassUse.uses_insert`, `ClassUse.uses_ofHistory`: which function uses which class, after one
  addition and after many. The class use of a program is a case of it (`ClassUse.uses_ofProgram`);
* `ClassUse.Filled`, `ClassUse.Declares`: no function is there without a class, and the declarations
  are those of the classes used. With these the uses determine everything (`ClassUse.ext_uses`);
* `analyze_uses_of_records`: when a method of a class is recorded for a function, the function uses
  the class, unless the class is private.
-/

namespace CallerFirst

/-! ### The classes of a body -/

theorem Operand.text?_eq_some_iff {operand : Operand} {text : String} :
    operand.text? = some text ↔ operand = .text text := by
  cases operand <;> simp [text?]

theorem isPrivate_iff {marker name : String} :
    isPrivate marker name = true ↔ marker ≠ "" ∧ marker.toList <+: name.toList := by
  simp [isPrivate]

theorem Instruction.usedClass?_eq_some_iff {marker : String} {isClass : String → Bool}
    {i : Instruction} {name : String} :
    i.usedClass? marker isClass = some name ↔ i.code.isPlainLoad = true ∧
      i.operand = .text name ∧ isPrivate marker name = false ∧ isClass name = true := by
  unfold usedClass?
  split
  · next hload =>
    simp only [Option.filter_eq_some_iff, Operand.text?_eq_some_iff, hload, true_and,
      Bool.and_eq_true, Bool.not_eq_eq_eq_not, Bool.not_true]
  · next hload => simp [hload]

/-- The classes that a body uses are those that its plain loads name, private ones apart. -/
theorem mem_usedClasses {marker : String} {isClass : String → Bool} {body : List Instruction}
    {name : String} :
    name ∈ usedClasses marker isClass body ↔ isPrivate marker name = false ∧
      isClass name = true ∧ ∃ i ∈ body, i.code.isPlainLoad = true ∧ i.operand = .text name := by
  simp only [usedClasses, SortedSet.mem_ofList, List.mem_filterMap,
    Instruction.usedClass?_eq_some_iff]
  constructor
  · rintro ⟨i, hi, hload, htext, hopen, hclass⟩
    exact ⟨hopen, hclass, i, hi, hload, htext⟩
  · rintro ⟨hopen, hclass, i, hi, hload, htext⟩
    exact ⟨i, hi, hload, htext, hopen, hclass⟩

/-! ### Which function uses which class -/

/-- How a class is declared: under its own name, if it is not known. -/
def SymbolIndex.declaration (index : SymbolIndex) (name : String) : ClassDecl :=
  (index.class? name).getD (.ofName name)

namespace ClassUse

variable {index : SymbolIndex} {u v : ClassUse} {function name : String}

/-- A function uses a class. -/
def Uses (u : ClassUse) (function name : String) : Prop :=
  ∃ names, u.uses.get? function = some names ∧ name ∈ names

/-- No function is there without a class. -/
def Filled (u : ClassUse) : Prop :=
  ∀ function names, u.uses.get? function = some names → ∃ name, name ∈ names

/-- The classes declared are those used, each as the index has it. -/
def Declares (u : ClassUse) (index : SymbolIndex) : Prop :=
  ∀ name decl, u.classes.get? name = some decl ↔
    (∃ function, u.Uses function name) ∧ decl = index.declaration name

theorem mem_pairs_iff : (function, name) ∈ u.pairs ↔ u.Uses function name := by
  simp only [pairs, List.mem_flatMap, List.mem_map, Prod.mk.injEq]
  constructor
  · rintro ⟨⟨f, names⟩, hentry, n, hn, rfl, rfl⟩
    exact ⟨names, SortedMap.mem_entries_iff.1 hentry, hn⟩
  · rintro ⟨names, hget, hn⟩
    exact ⟨(function, names), SortedMap.mem_entries_iff.2 hget, name, hn, rfl, rfl⟩

theorem insert_of_isEmpty {names : SortedSet String} (h : names.isEmpty = true) (f : String) :
    u.insert index f names = u := if_pos h

/-- Adding the classes of a function adds these uses and nothing else. -/
theorem uses_insert {f : String} {names : SortedSet String} :
    (u.insert index f names).Uses function name ↔
      (f = function ∧ name ∈ names) ∨ u.Uses function name := by
  cases hempty : names.isEmpty with
  | true =>
    have hnone : name ∉ names := by
      rw [SortedSet.mem_def, List.isEmpty_iff.1 hempty]
      exact List.not_mem_nil
    simp [insert_of_isEmpty hempty, hnone]
  | false =>
    simp only [Uses, insert, hempty, Bool.false_eq_true, if_false, SortedMap.get?_update]
    by_cases hfunction : function = f
    · subst hfunction
      cases u.uses.get? function with
      | none => simp
      | some known => simp [or_comm]
    · simp [hfunction, Ne.symm hfunction]

theorem Filled.insert (h : u.Filled) (f : String) (names : SortedSet String) :
    (u.insert index f names).Filled := by
  cases hempty : names.isEmpty with
  | true => rwa [insert_of_isEmpty hempty]
  | false =>
    obtain ⟨first, hfirst⟩ := List.exists_mem_of_ne_nil _ (List.isEmpty_eq_false_iff.1 hempty)
    intro function used hget
    simp only [ClassUse.insert, hempty, Bool.false_eq_true, if_false, SortedMap.get?_update] at hget
    split at hget
    · cases hget
      exact ⟨first, SortedSet.mem_union.2 (Or.inr hfirst)⟩
    · exact h function used hget

/-- A class keeps its first declaration. -/
theorem get?_foldl_declare (names : List String) (classes : SortedMap String ClassDecl) :
    (names.foldl (declare index) classes).get? name
      = if name ∈ names then some ((classes.get? name).getD (index.declaration name))
        else classes.get? name := by
  induction names generalizing classes with
  | nil => simp
  | cons first names ih =>
    rw [List.foldl_cons, ih, declare, SortedMap.get?_update]
    by_cases hname : name = first
    · subst hname
      simp [SymbolIndex.declaration]
    · simp [hname]

theorem Declares.insert (h : u.Declares index) (f : String) (names : SortedSet String) :
    (u.insert index f names).Declares index := by
  cases hempty : names.isEmpty with
  | true => rwa [insert_of_isEmpty hempty]
  | false =>
    intro name decl
    have hclasses : (u.insert index f names).classes.get? name
        = if name ∈ names then some ((u.classes.get? name).getD (index.declaration name))
          else u.classes.get? name := by
      simp only [ClassUse.insert, hempty, Bool.false_eq_true, if_false]
      exact get?_foldl_declare names.toList u.classes
    have huses : (∃ function, (u.insert index f names).Uses function name) ↔
        name ∈ names ∨ ∃ function, u.Uses function name := by
      simp only [uses_insert, exists_or, exists_and_right, exists_eq', true_and]
    rw [hclasses, huses]
    split
    · next hname =>
      -- What was declared before was declared by the same index.
      have hsame : (u.classes.get? name).getD (index.declaration name)
          = index.declaration name := by
        cases hget : u.classes.get? name with
        | none => rfl
        | some known => exact ((h name known).1 hget).2
      simp [hsame, hname, eq_comm]
    · next hname => simp [hname, h name decl]

/-! ### Histories -/

/-- What is there after the classes of functions have been added one after the other. -/
def ofHistory (index : SymbolIndex) (history : List (String × SortedSet String)) : ClassUse :=
  history.foldl (fun u e => u.insert index e.1 e.2) empty

/-- Somewhere in a history, a class is added for a function. -/
def Adds (history : List (String × SortedSet String)) (function name : String) : Prop :=
  ∃ e ∈ history, e.1 = function ∧ name ∈ e.2

variable {history : List (String × SortedSet String)}

theorem uses_ofHistory :
    (ofHistory index history).Uses function name ↔ Adds history function name := by
  have hempty : ¬ empty.Uses function name := by simp [Uses, empty]
  have hadds (u : ClassUse) (e : String × SortedSet String) :
      (u.insert index e.1 e.2).Uses function name ↔
        (e.1 = function ∧ name ∈ e.2) ∨ u.Uses function name := uses_insert
  have hfold := foldl_adds (Q := fun u => u.Uses function name) hadds history empty
  rwa [or_iff_left hempty] at hfold

/-- What holds of no uses and is kept by adding the classes of a function holds after every
history. -/
theorem ofHistory_of_insert {P : ClassUse → Prop} (hempty : P empty)
    (hinsert : ∀ u f names, P u → P (u.insert index f names))
    (history : List (String × SortedSet String)) : P (ofHistory index history) :=
  List.foldlRecOn (motive := P) _ _ hempty fun u hu e _ => hinsert u e.1 e.2 hu

theorem filled_ofHistory (history : List (String × SortedSet String)) :
    (ofHistory index history).Filled :=
  ofHistory_of_insert (by simp [Filled, empty]) (fun _ f names h => h.insert f names) history

theorem declares_ofHistory (history : List (String × SortedSet String)) :
    (ofHistory index history).Declares index :=
  ofHistory_of_insert (P := fun u => u.Declares index) (by simp [Declares, Uses, empty])
    (fun _ f names h => h.insert f names) history

/-- The history of a program: each function with the classes that it uses. -/
theorem ofProgram_eq_ofHistory (marker : String) (p : Program) :
    ofProgram index marker p = ofHistory index
      (p.functions.map fun f => (f.id, usedClasses marker index.isClass f.body)) := by
  rw [ofHistory, List.foldl_map]
  rfl

theorem uses_ofProgram {marker : String} {p : Program} :
    (ofProgram index marker p).Uses function name ↔
      ∃ f ∈ p.functions, f.id = function ∧ name ∈ usedClasses marker index.isClass f.body := by
  rw [ofProgram_eq_ofHistory, uses_ofHistory]
  simp only [Adds, List.mem_map, exists_exists_and_eq_and]

theorem filled_ofProgram (marker : String) (p : Program) : (ofProgram index marker p).Filled := by
  rw [ofProgram_eq_ofHistory]
  exact filled_ofHistory _

theorem declares_ofProgram (marker : String) (p : Program) :
    (ofProgram index marker p).Declares index := by
  rw [ofProgram_eq_ofHistory]
  exact declares_ofHistory _

/-- The uses determine everything. -/
theorem ext_uses (hu : u.Filled) (hv : v.Filled) (hu' : u.Declares index) (hv' : v.Declares index)
    (h : ∀ function name, u.Uses function name ↔ v.Uses function name) : u = v := by
  have huses : u.uses = v.uses :=
    SortedMap.ext_of_seen hu hv (fun _ _ _ _ _ hsame => SortedSet.ext_mem hsame) h
  have hclasses : u.classes = v.classes := by
    refine SortedMap.ext_get? fun name => Option.ext fun decl => ?_
    rw [hu' name decl, hv' name decl]
    simp only [h]
  exact congrArg₂ ClassUse.mk huses hclasses

end ClassUse

/-! ### Class methods and class use -/

/-- A part that is called as an attribute of a name is that collapsed attribute. -/
theorem CallExpr.value_mem_parts_of_member {c : CallExpr} {object attr : String}
    (h : c.callee? = some (.member object attr)) :
    .value ⟨.attrValue, .tuple [.text object, .text attr]⟩ ∈ c.parts := by
  obtain ⟨part, hpart, hcallee⟩ := Option.map_eq_some_iff.1 h
  have hmem : part ∈ c.parts := by
    unfold calleePart? at hpart
    split at hpart
    · exact List.mem_of_mem_head? hpart
    · cases hpart
  have hcalled := part.calledAs_toCallee
  rw [hcallee] at hcalled
  cases hcalled
  exact hmem

/-- **Class methods and class use agree.** When a method of a class is recorded for a function, the
function uses the class, or the name of the class starts with the private prefix. -/
theorem analyze_uses_of_records (text : String) (settings : Settings) (p : Program) (a : Analysis)
    (hp : Program.parse text = .ok p) (ha : (analyze settings p).outcome = .ok a)
    (function owner method : String) (h : a.classMethods.Records function owner method) :
    (settings.privateMarker ≠ "" ∧ settings.privateMarker.toList <+: owner.toList) ∨
      (function, owner) ∈ a.classUse.pairs := by
  obtain ⟨found, order, hfound, -, rfl⟩ := analyze_eq_ok_iff.1 ha
  obtain ⟨c, hcalls, hresolved⟩ :=
    ((Findings.collects_method (.ofProgram p) function owner method).iff_calls hfound).1 h
  obtain ⟨hcallee, hclass⟩ := SymbolIndex.resolveCall_eq_classMethod_iff.1 hresolved
  -- The callee goes back to a plain load of the class in the body of the function.
  obtain ⟨f, hf, hid, hstems⟩ := hcalls.stemsFrom
  obtain ⟨i, hi, hload, htext⟩ := (hstems _ (CallExpr.value_mem_parts_of_member hcallee))
    |>.exists_load_of_member (Program.uncollapsed_of_parse hp f hf)
  cases hprivate : isPrivate settings.privateMarker owner with
  | true => exact Or.inl (isPrivate_iff.1 hprivate)
  | false =>
    refine Or.inr (ClassUse.mem_pairs_iff.2 (ClassUse.uses_ofProgram.2 ⟨f, hf, hid, ?_⟩))
    exact mem_usedClasses.2 ⟨hprivate, hclass, i, hi, hload, htext⟩

/-- A dump in which `main` calls `g(Shop.run())`, and `Shop` is a class. -/
def shopDump : String :=
  "[[[\"main\",null,0,[[\"LOAD_NAME\",\"g\"],[\"LOAD_FAST\",\"Shop\"],[\"LOAD_ATTR\",\"run\"],"
    ++ "[\"CALL\",0],[\"CALL\",1]]],[\"g\",null,1]],[[\"Shop\"]]]"

/-- The program of `shopDump`. -/
def smallShop : Program where
  functions :=
    [⟨⟨.plain "main", 0⟩,
        [⟨.loadName, .text "g"⟩, ⟨.loadFast, .text "Shop"⟩, ⟨.loadAttr, .text "run"⟩,
          ⟨.call, .int 0⟩, ⟨.call, .int 1⟩]⟩,
      ⟨⟨.plain "g", 1⟩, []⟩]
  classes := [.ofName "Shop"]

theorem analyze_uses_of_records_smallShop :
    Program.parse shopDump = .ok smallShop ∧
      ∃ a, (analyze { nestedCalls := true } smallShop).outcome = .ok a ∧
        a.classMethods.Records "main" "Shop" "run" ∧
        (("_" ≠ "" ∧ "_".toList <+: "Shop".toList) ∨ ("main", "Shop") ∈ a.classUse.pairs) := by
  have hparse : Program.parse shopDump = .ok smallShop := by decide +kernel
  have hmethods : (analyze { nestedCalls := true } smallShop).outcome.map
      (fun a => (a.classMethods.methods? "main" "Shop").map (·.toList)) = .ok (some ["run"]) := by
    decide +kernel
  obtain ⟨a, ha, hget⟩ := exists_ok_of_map_eq_ok hmethods
  obtain ⟨methods, hget, hlist⟩ := Option.map_eq_some_iff.1 hget
  have hrecords : a.classMethods.Records "main" "Shop" "run" := by
    refine ⟨methods, hget, ?_⟩
    rw [SortedSet.mem_def, hlist]
    exact List.mem_cons_self
  exact ⟨hparse, a, ha, hrecords,
    analyze_uses_of_records shopDump { nestedCalls := true } smallShop a hparse ha "main" "Shop"
      "run" hrecords⟩

end CallerFirst
