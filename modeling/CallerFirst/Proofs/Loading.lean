import CallerFirst.Dump
import CallerFirst.Proofs.Discovery
import Mathlib.Data.List.Forall2
import Mathlib.Data.List.Nodup
import Mathlib.Tactic.Common

/-!
# Programs that are loaded from dumps

A dump is made into a program when no two of its functions have one id, be they plain functions or
methods.

* `IsFirstRepeat`: the first id that has occurred before (`firstRepeat?_eq_some_iff`);
* `OpCode.ofSourceName_eq_iff`: which source names are those of which code;
* `Dump.toProgram_eq_ok_iff`, `Dump.toProgram_eq_error_iff`: when a dump is made into a program, and
  into which, and what is reported otherwise;
* `Program.nodup_ids_of_parse`, `Program.uncollapsed_of_parse`: in a program that is loaded each id
  is there once, and no instruction has a collapsed code;
* `Dump.LoadsAs`: how the parts of a program correspond to those of its dump, and what its index
  finds;
* `Program.parse_loads`: a text that is read as a dump is loaded as that program, or the first
  repeated id is reported.
-/

namespace CallerFirst

/-! ### Repeated ids -/

theorem firstRepeat?_eq_none_iff {l seen : List String} :
    firstRepeat? seen l = none ↔ l.Nodup ∧ ∀ x ∈ l, x ∉ seen := by
  induction l generalizing seen with
  | nil => simp [firstRepeat?]
  | cons x l ih =>
    rw [firstRepeat?]
    split
    · next hseen => simp [hseen]
    · next hnew =>
      rw [ih]
      simp only [List.nodup_cons, List.mem_cons, forall_eq_or_imp, not_or]
      grind

/-- An element stands in a list after it has occurred before, and no element before that does. -/
def IsFirstRepeat (l : List String) (x : String) : Prop :=
  ∃ before after, l = before ++ x :: after ∧ x ∈ before ∧ before.Nodup

/-- What is found is the first element that has occurred before, in the list or among those seen. -/
theorem firstRepeat?_seen_eq_some_iff {l seen : List String} {x : String} :
    firstRepeat? seen l = some x ↔ ∃ before after, l = before ++ x :: after ∧
      (x ∈ before ∨ x ∈ seen) ∧ before.Nodup ∧ ∀ y ∈ before, y ∉ seen := by
  induction l generalizing seen with
  | nil => simp [firstRepeat?]
  | cons y l ih =>
    rw [firstRepeat?]
    split
    · next hseen =>
      constructor
      · intro h
        cases h
        exact ⟨[], l, rfl, Or.inr hseen, List.nodup_nil, by simp⟩
      · rintro ⟨before, after, hl, -, -, hfresh⟩
        cases before with
        | nil =>
          cases hl
          rfl
        | cons z before =>
          cases hl
          exact absurd hseen (hfresh y List.mem_cons_self)
    · next hnew =>
      rw [ih]
      constructor
      · rintro ⟨before, after, rfl, hx, hnodup, hfresh⟩
        refine ⟨y :: before, after, rfl, ?_, ?_, ?_⟩
        · simp only [List.mem_cons] at hx ⊢
          tauto
        · exact List.nodup_cons.2 ⟨fun hy => hfresh y hy List.mem_cons_self, hnodup⟩
        · refine List.forall_mem_cons.2 ⟨hnew, fun z hz hzseen => ?_⟩
          exact hfresh z hz (List.mem_cons_of_mem y hzseen)
      · rintro ⟨before, after, hl, hx, hnodup, hfresh⟩
        cases before with
        | nil =>
          cases hl
          exact absurd (hx.resolve_left List.not_mem_nil) hnew
        | cons z before =>
          cases hl
          obtain ⟨hy, hnodup⟩ := List.nodup_cons.1 hnodup
          obtain ⟨-, hfresh⟩ := List.forall_mem_cons.1 hfresh
          refine ⟨before, after, rfl, ?_, hnodup, fun z hz hzseen => ?_⟩
          · simp only [List.mem_cons] at hx ⊢
            tauto
          · rcases List.mem_cons.1 hzseen with rfl | hzseen
            · exact hy hz
            · exact hfresh z hz hzseen

theorem firstRepeat?_eq_some_iff {l : List String} {x : String} :
    firstRepeat? [] l = some x ↔ IsFirstRepeat l x := by
  rw [firstRepeat?_seen_eq_some_iff]
  simp [IsFirstRepeat]

/-! ### The names of codes -/

namespace OpCode

variable {name : String} {code : OpCode}

/-- The source names of a code, in capitals. A call and a line marker have two, and the codes that
no name stands for have none. -/
def spellings : OpCode → List String
  | .call => ["CALL_FUNCTION", "CALL"]
  | .lineMarker => ["SETLINENO", "SET_LINENO"]
  | .other | .attrValue | .tupleValue | .sliceValue | .binaryValue _ => []
  | code => [code.name]

/-- No two entries of the table have one name. -/
theorem lookup_sourceNames_iff :
    sourceNames.lookup name = some code ↔ (name, code) ∈ sourceNames := by
  constructor
  · intro h
    obtain ⟨front, back, hnames, -⟩ := List.lookup_eq_some_iff.1 h
    rw [hnames]
    exact List.mem_append_right _ List.mem_cons_self
  · have hall : ∀ e ∈ sourceNames, sourceNames.lookup e.1 = some e.2 := by decide +kernel
    exact hall (name, code)

/-- The table has the spellings of each code. -/
theorem mem_sourceNames_iff : (name, code) ∈ sourceNames ↔ name ∈ code.spellings := by
  constructor
  · have hall : ∀ e ∈ sourceNames, e.1 ∈ e.2.spellings := by decide +kernel
    exact hall (name, code)
  · intro h
    cases code with
    | slice form =>
      obtain rfl := List.mem_singleton.1 h
      have hform : form ∈ SliceForm.all := by cases form <;> decide
      simp [sourceNames, OpCode.name, hform]
    | binary operator =>
      obtain rfl := List.mem_singleton.1 h
      have hoperator : operator ∈ BinaryOperator.all := by cases operator <;> decide
      simp [sourceNames, OpCode.name, hoperator]
    | _ => simp_all [spellings, sourceNames, OpCode.name]

/-- A source name is that of a code when it is one of the spellings, up to case. -/
theorem ofSourceName_eq_iff (h : code ≠ .other) :
    ofSourceName name = code ↔ capitals name ∈ code.spellings := by
  rw [← mem_sourceNames_iff, ← lookup_sourceNames_iff, ofSourceName, Option.getD_eq_iff]
  simp [h.symm]

theorem isCollapsed_ofSourceName (name : String) : (ofSourceName name).isCollapsed = false := by
  have hall : ∀ e ∈ sourceNames, e.2.isCollapsed = false := by decide
  unfold ofSourceName
  cases h : sourceNames.lookup (capitals name) with
  | none => rfl
  | some code => exact hall (capitals name, code) (lookup_sourceNames_iff.1 h)

end OpCode

/-! ### Making a program -/

/-- No instruction has a collapsed code. -/
def Uncollapsed (body : List Instruction) : Prop := ∀ i ∈ body, i.code.isCollapsed = false

theorem DumpInstruction.isCollapsed_toInstruction (i : DumpInstruction) :
    i.toInstruction.code.isCollapsed = false := by
  simp only [toInstruction, OpCode.isCollapsed_ofSourceName]

namespace Dump

variable {d : Dump} {p : Program}

/-- The ids of the functions, in the order of the dump. -/
def ids (d : Dump) : List String := d.functions.map (·.fullName.id)

theorem toProgram_eq (d : Dump) :
    d.toProgram = match firstRepeat? [] d.ids with
      | some id => .error (.duplicate id)
      | none => .ok ⟨d.functions.map DumpFunction.toFunction,
          d.classes.map DumpClass.toClassDecl⟩ := by
  have hids : (d.functions.map DumpFunction.toFunction).map (·.id) = d.ids := by
    rw [List.map_map]
    rfl
  rw [← hids]
  rfl

/-- A dump is made into a program exactly when its ids are different. -/
theorem toProgram_eq_ok_iff :
    d.toProgram = .ok p ↔ d.ids.Nodup ∧
      p = ⟨d.functions.map DumpFunction.toFunction, d.classes.map DumpClass.toClassDecl⟩ := by
  have hnone : firstRepeat? [] d.ids = none ↔ d.ids.Nodup := by
    rw [firstRepeat?_eq_none_iff]
    simp
  rw [← hnone, toProgram_eq]
  cases firstRepeat? [] d.ids with
  | none => simp [eq_comm]
  | some id => simp

/-- Otherwise the first id that is repeated is reported. -/
theorem toProgram_eq_error_iff {err : DumpError} :
    d.toProgram = .error err ↔ ∃ id, IsFirstRepeat d.ids id ∧ err = .duplicate id := by
  simp only [← firstRepeat?_eq_some_iff]
  rw [toProgram_eq]
  cases firstRepeat? [] d.ids with
  | none => simp
  | some id => simp [eq_comm]

theorem ids_of_toProgram (h : d.toProgram = .ok p) : p.ids = d.ids := by
  obtain ⟨-, rfl⟩ := toProgram_eq_ok_iff.1 h
  exact List.map_map

theorem nodup_ids_of_toProgram (h : d.toProgram = .ok p) : p.ids.Nodup := by
  rw [ids_of_toProgram h]
  exact (toProgram_eq_ok_iff.1 h).1

theorem uncollapsed_of_toProgram (h : d.toProgram = .ok p) :
    ∀ f ∈ p.functions, Uncollapsed f.body := by
  obtain ⟨-, rfl⟩ := toProgram_eq_ok_iff.1 h
  intro f hf i hi
  obtain ⟨df, -, rfl⟩ := List.mem_map.1 hf
  obtain ⟨di, -, rfl⟩ := List.mem_map.1 hi
  exact di.isCollapsed_toInstruction

end Dump

namespace Program

variable {text : String} {p : Program}

theorem parse_of_read {d : Dump} (h : Dump.read text = .ok d) : parse text = d.toProgram := by
  unfold parse
  rw [h]

theorem exists_toProgram_of_parse (h : parse text = .ok p) :
    ∃ d, Dump.read text = .ok d ∧ d.toProgram = .ok p := by
  unfold parse at h
  split at h
  · cases h
  · next d hd => exact ⟨d, hd, h⟩

theorem nodup_ids_of_parse (h : parse text = .ok p) : p.ids.Nodup := by
  obtain ⟨d, -, hd⟩ := exists_toProgram_of_parse h
  exact Dump.nodup_ids_of_toProgram hd

/-- The programs that are read from dumps have no collapsed codes. -/
theorem uncollapsed_of_parse (h : parse text = .ok p) : ∀ f ∈ p.functions, Uncollapsed f.body := by
  obtain ⟨d, -, hd⟩ := exists_toProgram_of_parse h
  exact Dump.uncollapsed_of_toProgram hd

end Program

/-! ### The parts of a program -/

/-- An instruction has the code whose name it has in the dump, in whatever case, and keeps the
operand. The code is not a collapsed one. -/
structure DumpInstruction.LoadsAs (i : DumpInstruction) (j : Instruction) : Prop where
  code_iff : ∀ code ≠ OpCode.other, j.code = code ↔ OpCode.capitals i.op ∈ code.spellings
  operand : j.operand = i.arg
  uncollapsed : j.code.isCollapsed = false

/-- A function is a method of its class, or a plain function when it has none. -/
structure DumpFunction.LoadsAs (f : DumpFunction) (g : Function) : Prop where
  plain : f.owner = none → g.signature.name = .plain f.name
  method : ∀ owner, f.owner = some owner → g.signature.name = .method owner f.name
  arity : g.signature.arity = f.arity
  body : List.Forall₂ DumpInstruction.LoadsAs f.instructions g.body

/-- A class is declared under its qualified name, or under its own when it has none. -/
structure DumpClass.LoadsAs (c : DumpClass) (e : ClassDecl) : Prop where
  name : e.name = c.name
  qualified : ∀ qualname, c.qualname = some qualname → e.qualname = qualname
  unqualified : c.qualname = none → e.qualname = c.name

/-- The functions and classes of a program are those of the dump, one by one, and its index finds
the signatures of the dump and no others. -/
structure Dump.LoadsAs (d : Dump) (p : Program) : Prop where
  functions : List.Forall₂ DumpFunction.LoadsAs d.functions p.functions
  classes : List.Forall₂ DumpClass.LoadsAs d.classes p.classes
  resolve_iff : ∀ (id : String) (count : Nat) (signature : Signature),
    (SymbolIndex.ofProgram p).resolve? id count = some signature ↔
      ∃ f ∈ d.functions, f.fullName.id = id ∧ f.arity = count ∧ signature = ⟨f.fullName, f.arity⟩

theorem DumpInstruction.loadsAs_toInstruction (i : DumpInstruction) :
    i.LoadsAs i.toInstruction where
  code_iff _ h := OpCode.ofSourceName_eq_iff h
  operand := rfl
  uncollapsed := i.isCollapsed_toInstruction

theorem DumpFunction.loadsAs_toFunction (f : DumpFunction) : f.LoadsAs f.toFunction where
  plain h := by simp [toFunction, fullName, h]
  method owner h := by simp [toFunction, fullName, h]
  arity := rfl
  body := List.forall₂_map_right_iff.2
    (List.forall₂_same.2 fun i _ => i.loadsAs_toInstruction)

theorem DumpClass.loadsAs_toClassDecl (c : DumpClass) : c.LoadsAs c.toClassDecl where
  name := rfl
  qualified qualname h := by simp [toClassDecl, h]
  unqualified h := by simp [toClassDecl, h]

/-- Since the ids are different, no function hides another in the index. -/
theorem Dump.resolve?_eq_some_iff {d : Dump} {p : Program} (h : d.toProgram = .ok p) (id : String)
    (count : Nat) (signature : Signature) :
    (SymbolIndex.ofProgram p).resolve? id count = some signature ↔
      ∃ f ∈ d.functions, f.fullName.id = id ∧ f.arity = count ∧
        signature = ⟨f.fullName, f.arity⟩ := by
  have hnodup := nodup_ids_of_toProgram h
  obtain ⟨-, rfl⟩ := toProgram_eq_ok_iff.1 h
  rw [SymbolIndex.resolve?, Option.filter_eq_some_iff,
    SymbolIndex.get?_ofProgram_eq_some_iff hnodup]
  constructor
  · rintro ⟨⟨g, hg, rfl, rfl⟩, hcount⟩
    obtain ⟨f, hf, rfl⟩ := List.mem_map.1 hg
    exact ⟨f, hf, rfl, of_decide_eq_true hcount, rfl⟩
  · rintro ⟨f, hf, rfl, rfl, rfl⟩
    exact ⟨⟨f.toFunction, List.mem_map_of_mem hf, rfl, rfl⟩, decide_eq_true rfl⟩

theorem Dump.loadsAs_of_toProgram {d : Dump} {p : Program} (h : d.toProgram = .ok p) :
    d.LoadsAs p := by
  have hresolve := resolve?_eq_some_iff h
  obtain ⟨-, rfl⟩ := toProgram_eq_ok_iff.1 h
  exact
    { functions := List.forall₂_map_right_iff.2
        (List.forall₂_same.2 fun f _ => f.loadsAs_toFunction)
      classes := List.forall₂_map_right_iff.2
        (List.forall₂_same.2 fun c _ => c.loadsAs_toClassDecl)
      resolve_iff := hresolve }

/-! ### The whole -/

/-- A text that is read as a dump is loaded exactly when the ids of the dump are different, as a
program whose parts are those of the dump. Otherwise the first repeated id is reported. -/
theorem Program.parse_loads (text : String) (d : Dump) (h : Dump.read text = .ok d) :
    ((∃ p, parse text = .ok p) ↔ d.ids.Nodup) ∧
    (∀ err, parse text = .error err ↔ ∃ id, IsFirstRepeat d.ids id ∧
      err = .duplicate id ∧ err.message = "Duplicate function in program dump: " ++ id) ∧
    ∀ p, parse text = .ok p → d.LoadsAs p := by
  rw [parse_of_read h]
  refine ⟨?_, ?_, fun p hp => Dump.loadsAs_of_toProgram hp⟩
  · simp [Dump.toProgram_eq_ok_iff]
  · intro err
    rw [Dump.toProgram_eq_error_iff]
    constructor
    · rintro ⟨id, hid, rfl⟩
      exact ⟨id, hid, rfl, rfl⟩
    · rintro ⟨id, hid, rfl, -⟩
      exact ⟨id, hid, rfl⟩

/-- A dump with a method and a plain function, and with classes whose qualified names are absent,
null and given. The first two operations have the names of collapsed codes. -/
def mixedText : String :=
  "[[[\"run\",\"A\",1,[[\"LOAD_TUPLE\",[1]],[\"load_slice\"],[\"Load_Name\",\"g\"]]]," ++
    "[\"g\",null,0]],[\x7b\"name\":\"A\"\x7d,[\"B\",null],[\"C\",\"p.C\"]]]"

/-- The dump that `mixedText` is read as. -/
def mixedDump : Dump where
  functions :=
    [⟨"run", some "A", 1, [⟨"LOAD_TUPLE", .tuple [.int 1]⟩, ⟨"load_slice", .missing⟩,
      ⟨"Load_Name", .text "g"⟩]⟩, ⟨"g", none, 0, []⟩]
  classes := [⟨"A", none⟩, ⟨"B", none⟩, ⟨"C", some "p.C"⟩]

/-- A dump in which a plain function has the id of a method, and a later one that of the first. -/
def clashingText : String :=
  "[[[\"g\",null,0],[\"A.run\",null,0],[\"run\",\"A\",2],[\"g\",null,0]]]"

/-- The dump that `clashingText` is read as. -/
def clashingDump : Dump where
  functions :=
    [⟨"g", none, 0, []⟩, ⟨"A.run", none, 0, []⟩, ⟨"run", some "A", 2, []⟩, ⟨"g", none, 0, []⟩]
  classes := []

theorem Program.parse_loads_mixedText :
    Dump.read mixedText = .ok mixedDump ∧
      (∃ p, parse mixedText = .ok p ∧ mixedDump.LoadsAs p) ∧
      Dump.read clashingText = .ok clashingDump ∧
      ∃ err, parse clashingText = .error err ∧
        err.message = "Duplicate function in program dump: A.run" := by
  have hmixed : Dump.read mixedText = .ok mixedDump := by decide +kernel
  have hclashing : Dump.read clashingText = .ok clashingDump := by decide +kernel
  obtain ⟨haccept, -, hloads⟩ := parse_loads mixedText mixedDump hmixed
  obtain ⟨-, hrefuse, -⟩ := parse_loads clashingText clashingDump hclashing
  obtain ⟨p, hp⟩ := haccept.2 (by decide +kernel)
  have hrepeat : IsFirstRepeat clashingDump.ids "A.run" :=
    ⟨["g", "A.run"], ["g"], by decide +kernel, by decide, by decide⟩
  have herr := (hrefuse (.duplicate "A.run")).2 ⟨"A.run", hrepeat, rfl, rfl⟩
  exact ⟨hmixed, ⟨p, hp, hloads p hp⟩, hclashing, .duplicate "A.run", herr, by decide +kernel⟩

end CallerFirst
