import CallerFirst.Proofs.CallGrammar
import CallerFirst.Proofs.RoundTrip
import CallerFirst.Proofs.Shape
import Mathlib.Tactic.Common

/-!
# Calls on a symbolic stack

A symbolic run takes the instructions of a body from left to right and keeps a stack of what they
leave. It knows for each call what was called, which a scan can only tell from the order of the
values and calls.

* `SymbolicRun.step`: what one instruction does, and `SymbolicRun.step_cases` all that it can do;
* `Mirrors`: the stack of a run beside the stack of the pass over the same instructions and the
  parts that a scan would read there;
* `Follows.step`: a pass goes along with a run, as long as no result of a call is built into a value
  together with others;
* `exists_call_of_callee_name`: then every name that is found to be called was called in the run.
-/

namespace CallerFirst

/-! ### The run -/

/-- What lies on a symbolic stack. -/
inductive Entry
  /-- A plain load, as it is. -/
  | load (i : Instruction)
  /-- A value built from others; `ofResult` says whether the result of a call went into it. -/
  | compound (ofResult : Bool)
  /-- The result of a call. -/
  | result
  deriving DecidableEq

/-- Whether an entry is the result of a call or has been built from one. -/
def Entry.holdsResult : Entry → Bool
  | .load _ => false
  | .compound ofResult => ofResult
  | .result => true

/-- A call that has been made: the number of its arguments, and what lay below them. -/
structure MadeCall where
  arity : Nat
  callee : Entry
  deriving DecidableEq

/-- The state of a symbolic run. -/
structure SymbolicRun where
  /-- What the instructions have left, the latest first. -/
  stack : List Entry := []
  /-- The calls made, the latest first. -/
  calls : List MadeCall := []
  /-- What each value was built from, the latest first. -/
  built : List (List Entry) := []
  deriving DecidableEq

/-- How many entries an instruction takes that builds a value. -/
def Instruction.partCount? (i : Instruction) : Option Nat :=
  match i.code with
  | .loadAttr => some 1
  | .buildTuple | .buildSlice => i.operand.count?
  | .slice form => some form.operandCount
  | .binary _ => some 2
  | _ => none

/-- It takes as many entries as collapsing takes values. -/
theorem Instruction.partCount?_eq (i : Instruction) :
    i.partCount? = i.collapse?.map (·.width) := by
  obtain ⟨code, operand⟩ := i
  cases code with
  | buildTuple | buildSlice =>
    show operand.count? = (operand.count?.map _).map _
    rw [Option.map_map]
    exact Option.map_id'.symm
  | _ => rfl

namespace SymbolicRun

/-- Takes one instruction: a plain load is pushed, a call takes its arguments and what lies below
them and leaves its result, and what builds a value leaves it in the place of its parts. A run fails
at any other instruction, and where the stack is too short. -/
def step (s : SymbolicRun) (i : Instruction) : Option SymbolicRun :=
  if i.code.isPlainLoad then some { s with stack := .load i :: s.stack }
  else if i.code = .call then
    i.operand.count?.bind fun n => s.stack[n]?.map fun callee =>
      { s with stack := .result :: s.stack.drop (n + 1), calls := ⟨n, callee⟩ :: s.calls }
  else
    i.partCount?.bind fun n =>
      if n ≤ s.stack.length then
        some { s with
          stack := .compound ((s.stack.take n).any Entry.holdsResult) :: s.stack.drop n
          built := s.stack.take n :: s.built }
      else none

/-- Runs a sequence from its start. -/
def run (ops : List Instruction) (s : SymbolicRun) : Option SymbolicRun := ops.foldlM step s

/-- Only what takes a single entry has been built from the result of a call. -/
def Unmixed (s : SymbolicRun) : Prop :=
  ∀ taken ∈ s.built, 1 < taken.length → ∀ entry ∈ taken, entry.holdsResult = false

instance (s : SymbolicRun) : Decidable s.Unmixed :=
  inferInstanceAs (Decidable (∀ taken ∈ s.built, _))

theorem run_cons (i : Instruction) (ops : List Instruction) (s : SymbolicRun) :
    run (i :: ops) s = (s.step i).bind (run ops) :=
  List.foldlM_cons

theorem run_append (ops ops' : List Instruction) (s : SymbolicRun) :
    run (ops ++ ops') s = (run ops s).bind (run ops') :=
  List.foldlM_append

/-! ### What an instruction can do -/

variable {s t : SymbolicRun} {i : Instruction}

theorem step_cases (h : s.step i = some t) :
    (i.code.isPlainLoad = true ∧ t = { s with stack := .load i :: s.stack }) ∨
    (i.code = .call ∧ ∃ args callee rest, i.operand.count? = some args.length ∧
      s.stack = args ++ callee :: rest ∧
      t = { s with stack := .result :: rest, calls := ⟨args.length, callee⟩ :: s.calls }) ∨
    ∃ c taken rest, i.collapse? = some c ∧ taken.length = c.width ∧ s.stack = taken ++ rest ∧
      t = { s with stack := .compound (taken.any Entry.holdsResult) :: rest,
                   built := taken :: s.built } := by
  unfold step at h
  split at h
  · next hload => exact Or.inl ⟨hload, (Option.some.inj h).symm⟩
  · split at h
    · next hcall =>
      obtain ⟨n, hcount, h⟩ := Option.bind_eq_some_iff.1 h
      obtain ⟨callee, hcallee, rfl⟩ := Option.map_eq_some_iff.1 h
      obtain ⟨hn, hget⟩ := List.getElem?_eq_some_iff.1 hcallee
      have hlen : (s.stack.take n).length = n := by
        rw [List.length_take]
        omega
      refine Or.inr (Or.inl ⟨hcall, s.stack.take n, callee, s.stack.drop (n + 1), ?_, ?_, ?_⟩)
      · rw [hlen, hcount]
      · rw [← hget, ← List.drop_eq_getElem_cons hn, List.take_append_drop]
      · rw [hlen]
    · obtain ⟨n, hparts, h⟩ := Option.bind_eq_some_iff.1 h
      rw [Instruction.partCount?_eq] at hparts
      obtain ⟨c, hc, rfl⟩ := Option.map_eq_some_iff.1 hparts
      split at h
      · next hle =>
        refine Or.inr (Or.inr ⟨c, s.stack.take c.width, s.stack.drop c.width, hc, ?_, ?_, ?_⟩)
        · rw [List.length_take, Nat.min_eq_left hle]
        · rw [List.take_append_drop]
        · exact (Option.some.inj h).symm
      · cases h

/-- No instruction takes back what has been recorded. -/
theorem subset_of_step (h : s.step i = some t) : s.calls ⊆ t.calls ∧ s.built ⊆ t.built := by
  obtain ⟨-, rfl⟩ | ⟨-, _, _, _, -, -, rfl⟩ | ⟨_, _, _, -, -, -, rfl⟩ := step_cases h
  · exact ⟨List.Subset.refl _, List.Subset.refl _⟩
  · exact ⟨List.subset_cons_self _ _, List.Subset.refl _⟩
  · exact ⟨List.Subset.refl _, List.subset_cons_self _ _⟩

theorem subset_of_run {ops : List Instruction} (h : run ops s = some t) :
    s.calls ⊆ t.calls ∧ s.built ⊆ t.built := by
  induction ops generalizing s with
  | nil =>
    cases h
    exact ⟨List.Subset.refl _, List.Subset.refl _⟩
  | cons i ops ih =>
    rw [run_cons] at h
    obtain ⟨r, hr, h⟩ := Option.bind_eq_some_iff.1 h
    obtain ⟨hcalls, hbuilt⟩ := subset_of_step hr
    obtain ⟨hcalls', hbuilt'⟩ := ih h
    exact ⟨List.Subset.trans hcalls hcalls', List.Subset.trans hbuilt hbuilt'⟩

/-- No instruction of a run is a line marker or a store into a map. -/
theorem code_ne_of_step (h : s.step i = some t) : i.code ≠ .lineMarker ∧ i.code ≠ .storeMap := by
  constructor <;>
  · intro hcode
    obtain ⟨hload, -⟩ | ⟨hcall, -⟩ | ⟨c, _, _, hc, -⟩ := step_cases h
    · rw [hcode] at hload
      cases hload
    · rw [hcode] at hcall
      cases hcall
    · simp [Instruction.collapse?, hcode] at hc

theorem code_ne_of_run {ops : List Instruction} (h : run ops s = some t) :
    ∀ i ∈ ops, i.code ≠ .lineMarker ∧ i.code ≠ .storeMap := by
  induction ops generalizing s with
  | nil => simp
  | cons j ops ih =>
    rw [run_cons] at h
    obtain ⟨r, hr, h⟩ := Option.bind_eq_some_iff.1 h
    intro i hi
    rcases List.mem_cons.1 hi with rfl | hi
    · exact code_ne_of_step hr
    · exact ih h i hi

theorem Unmixed.of_subset (h : t.Unmixed) (hbuilt : s.built ⊆ t.built) : s.Unmixed :=
  fun taken htaken => h taken (hbuilt htaken)

end SymbolicRun

/-! ### The run beside the pass -/

/-- The instructions that a scan takes into account where nothing goes into a map. -/
def readable (ops : List Instruction) : List Instruction :=
  ops.filter fun i => i.isValue || i.code = .call

theorem readable_append (ops ops' : List Instruction) :
    readable (ops ++ ops') = readable ops ++ readable ops' :=
  List.filter_append ops ops'

theorem scanned_eq_readable {ops : List Instruction} (h : ∀ i ∈ ops, i.code ≠ .storeMap) :
    scanned ops = readable ops := by
  induction ops with
  | nil => rfl
  | cons i ops ih =>
    have hrest : ∀ j ∈ ops, j.code ≠ .storeMap := fun j hj => h j (List.mem_cons_of_mem i hj)
    have hnext : ops.head?.any (·.code = .storeMap) = false := by
      cases ops with
      | nil => rfl
      | cons j ops => simpa using hrest j List.mem_cons_self
    rw [scanned, hnext, ih hrest, readable, readable, List.filter_cons]
    simp

/-- An entry lies where the pass has left `segment`, which a scan reads as the part `a`. A load or a
compound value is a single instruction. A result, with all that was built from it alone, is a call
followed by instructions that a scan passes over. -/
inductive Shows : List Instruction → Argument → Entry → Prop
  | load {i : Instruction} (hi : i.code.isPlainLoad = true) : Shows [i] (.value i) (.load i)
  | compound {i : Instruction} (hi : i.code.isCollapsed = true) :
      Shows [i] (.value i) (.compound false)
  | held {front : List Instruction} {last : Instruction} {e : CallExpr} {entry : Entry}
      (hspells : SpellsCall (readable (front ++ [last])) e) (hlast : last.isValue = false)
      (hentry : entry.holdsResult = true) : Shows (front ++ [last]) e.toArgument entry

/-- The stack of a run beside the stack of the pass and the parts that a scan reads there, all of
them with the top first. -/
inductive Mirrors : List Instruction → List Argument → List Entry → Prop
  | nil : Mirrors [] [] []
  | cons {segment done : List Instruction} {a : Argument} {parts : List Argument} {entry : Entry}
      {stack : List Entry} (htop : Shows segment a entry) (hrest : Mirrors done parts stack) :
      Mirrors (segment.reverse ++ done) (a :: parts) (entry :: stack)

theorem Shows.spells {segment : List Instruction} {a : Argument} {entry : Entry}
    (h : Shows segment a entry) : Spells (readable segment) [a] := by
  cases h with
  | load hi =>
    have hvalue := Instruction.isValue_of_isPlainLoad hi
    simpa [readable, hvalue] using Spells.value hvalue .nil
  | compound hi =>
    have hvalue := Instruction.isValue_of_isCollapsed hi
    simpa [readable, hvalue] using Spells.value hvalue .nil
  | held hspells => exact hspells

namespace Mirrors

variable {done : List Instruction} {parts : List Argument} {stack : List Entry}

theorem spells (h : Mirrors done parts stack) : Spells (readable done.reverse) parts.reverse := by
  induction h with
  | nil => exact .nil
  | cons htop _ ih =>
    rw [List.reverse_append, List.reverse_reverse, readable_append, List.reverse_cons]
    exact ih.append htop.spells

theorem length_eq (h : Mirrors done parts stack) : parts.length = stack.length := by
  induction h with
  | nil => rfl
  | cons _ _ ih => rw [List.length_cons, List.length_cons, ih]

theorem split {upper lower : List Entry} (h : Mirrors done parts (upper ++ lower)) :
    ∃ done₁ done₂ parts₁ parts₂, done = done₁ ++ done₂ ∧ parts = parts₁ ++ parts₂ ∧
      Mirrors done₁ parts₁ upper ∧ Mirrors done₂ parts₂ lower := by
  induction upper generalizing done parts with
  | nil => exact ⟨[], done, [], parts, rfl, rfl, .nil, h⟩
  | cons entry upper ih =>
    cases h with
    | @cons segment _ a _ _ _ htop hrest =>
      obtain ⟨done₁, done₂, parts₁, parts₂, rfl, rfl, hupper, hlower⟩ := ih hrest
      exact ⟨segment.reverse ++ done₁, done₂, a :: parts₁, parts₂, by simp, rfl,
        .cons htop hupper, hlower⟩

/-- Where no result is held, the pass has one value for each entry. -/
theorem values (h : Mirrors done parts stack) (hnone : ∀ entry ∈ stack, entry.holdsResult = false) :
    done.length = stack.length ∧ ∀ v ∈ done, v.isValue = true := by
  induction h with
  | nil => simp
  | @cons segment done a parts entry stack htop _ ih =>
    obtain ⟨hlen, hall⟩ := ih fun other hother => hnone other (List.mem_cons_of_mem entry hother)
    cases htop with
    | load hi => simpa [hlen, Instruction.isValue_of_isPlainLoad hi] using hall
    | compound hi => simpa [hlen, Instruction.isValue_of_isCollapsed hi] using hall
    | held _ _ hentry => simp [hnone entry List.mem_cons_self] at hentry

end Mirrors

/-- When a call is one of a plain name, then a load of that name has been called with as many
arguments. -/
def MadeAs (calls : List MadeCall) (e : CallExpr) : Prop :=
  ∀ name, e.callee? = some (.name name) →
    ∃ i, ⟨e.args.length, .load i⟩ ∈ calls ∧ i.code.isNameLoad = true ∧ i.operand = .text name

/-- The stack of the pass shows what is on the stack of the run, and the calls that a scan reads
there have been made. -/
def Follows (s : SymbolicRun) (done : List Instruction) : Prop :=
  ∃ parts, Mirrors done parts s.stack ∧ ∀ e : CallExpr, e.toArgument ∈ parts → MadeAs s.calls e

theorem MadeAs.mono {calls calls' : List MadeCall} {e : CallExpr} (h : MadeAs calls e)
    (hsub : calls ⊆ calls') : MadeAs calls' e := by
  intro name hname
  obtain ⟨i, hi, hload⟩ := h name hname
  exact ⟨i, hsub hi, hload⟩

/-- The call of the part that shows an entry is made when that entry is called. -/
theorem Shows.madeAs {segment : List Instruction} {source : Argument} {callee : Entry}
    (h : Shows segment source callee) (args : List Argument) (calls : List MadeCall) :
    MadeAs (⟨args.length, callee⟩ :: calls) ⟨args.length, source :: args⟩ := by
  intro name hname
  obtain ⟨-, -, hargs, callee', hcallee, hcalled⟩ := CallExpr.isCallOf_mk source args
  rw [hcallee, Option.some.injEq] at hname
  subst hname
  cases hcalled with
  | @name i _ hload htext =>
    cases h with
    | load => exact ⟨i, by rw [hargs]; exact List.mem_cons_self, hload, htext⟩
    | compound hi =>
      cases hcode : i.code <;> simp [hcode, OpCode.isNameLoad, OpCode.isCollapsed] at hload hi

namespace Follows

variable {s : SymbolicRun} {done : List Instruction} {i : Instruction}

theorem load (h : Follows s done) (hi : i.code.isPlainLoad = true) :
    Follows { s with stack := .load i :: s.stack } (Pass.push done i) := by
  obtain ⟨parts, hmirrors, hmade⟩ := h
  rw [Pass.push_of_isValue (Instruction.isValue_of_isPlainLoad hi)]
  refine ⟨.value i :: parts, .cons (.load hi) hmirrors, fun e he => ?_⟩
  rcases List.mem_cons.1 he with he | he
  · cases he
  · exact hmade e he

theorem call (h : Follows s done) (hi : i.code = .call) {args rest : List Entry} {callee : Entry}
    (hcount : i.operand.count? = some args.length) (hstack : s.stack = args ++ callee :: rest) :
    Follows { s with stack := .result :: rest, calls := ⟨args.length, callee⟩ :: s.calls }
      (Pass.push done i) := by
  obtain ⟨parts, hmirrors, hmade⟩ := h
  rw [hstack] at hmirrors
  obtain ⟨doneArgs, _, partsArgs, _, rfl, rfl, hargs, hbelow⟩ := hmirrors.split
  cases hbelow with
  | @cons segment done source parts _ _ hcallee hrest =>
    have hlen : partsArgs.reverse.length = args.length := by
      rw [List.length_reverse, hargs.length_eq]
    -- What is called, the arguments and the instruction that calls are one segment from now on.
    have hspells : SpellsCall (readable ((segment ++ doneArgs.reverse) ++ [i]))
        ⟨args.length, source :: partsArgs.reverse⟩ := by
      have hlast : readable [i] = [i] := by simp [readable, hi]
      rw [readable_append, readable_append, hlast, ← hlen]
      exact .call (hcallee.spells.append hargs.spells) hi (hlen ▸ hcount)
        (CallExpr.isCallOf_mk source partsArgs.reverse) .nil
    have hlast : i.isValue = false := by
      simp [Instruction.isValue, hi, OpCode.isValue, OpCode.isPlainLoad, OpCode.isCollapsed]
    refine ⟨CallExpr.toArgument ⟨args.length, source :: partsArgs.reverse⟩ :: parts, ?_,
      fun e he => ?_⟩
    · rw [Pass.push_of_call hi]
      simpa using Mirrors.cons (.held hspells hlast rfl) hrest
    · rcases List.mem_cons.1 he with he | he
      · cases e
        cases he
        rw [← hlen]
        exact hcallee.madeAs partsArgs.reverse s.calls
      · refine (hmade e ?_).mono (List.subset_cons_self _ _)
        exact List.mem_append_right _ (List.mem_cons_of_mem _ he)

/-- What builds a value from values that hold no result collapses them. -/
theorem build {c : Collapse} {taken rest : List Entry} (h : Follows s done)
    (hc : i.collapse? = some c) (hlen : taken.length = c.width) (hstack : s.stack = taken ++ rest)
    (hnone : ∀ entry ∈ taken, entry.holdsResult = false) (built : List (List Entry)) :
    Follows ⟨.compound false :: rest, s.calls, built⟩ (Pass.push done i) := by
  obtain ⟨parts, hmirrors, hmade⟩ := h
  rw [hstack] at hmirrors
  obtain ⟨doneTaken, doneRest, _, partsRest, rfl, rfl, htaken, hrest⟩ := hmirrors.split
  obtain ⟨hwidth, hvalues⟩ := htaken.values hnone
  have hpush : Pass.push (doneTaken ++ doneRest) i = c.merge doneTaken.reverse i :: doneRest := by
    have hcount : doneTaken.reverse.length = c.width := by rw [List.length_reverse, hwidth, hlen]
    have hmerge := Pass.push_merge hc hcount (by simpa using hvalues) doneRest
    rwa [List.reverse_reverse] at hmerge
  rw [hpush]
  refine ⟨_, .cons (.compound (Collapse.isCollapsed_merge hc _)) hrest, fun e he => ?_⟩
  rcases List.mem_cons.1 he with he | he
  · cases he
  · exact hmade e (List.mem_append_right _ he)

/-- What builds a value from a single entry that holds a result is left as it is. -/
theorem wrap {c : Collapse} {entry : Entry} {rest : List Entry} (h : Follows s done)
    (hc : i.collapse? = some c) (hwidth : c.width = 1) (hstack : s.stack = entry :: rest)
    (hentry : entry.holdsResult = true) (built : List (List Entry)) :
    Follows ⟨.compound true :: rest, s.calls, built⟩ (Pass.push done i) := by
  obtain ⟨parts, hmirrors, hmade⟩ := h
  rw [hstack] at hmirrors
  cases hmirrors with
  | @cons _ below _ _ _ _ htop hrest =>
    cases htop with
    | load | compound => cases hentry
    | @held front last e _ hspells hlast _ =>
      -- The instruction finds no value before it, and a scan passes over it.
      have hkeep : Pass.push ((front ++ [last]).reverse ++ below) i
          = ((front ++ [last]) ++ [i]).reverse ++ below := by
        rw [Pass.push_keep]
        · simp
        · rintro c' hc' ⟨-, hready⟩
          obtain rfl : c = c' := Option.some.inj (hc.symm.trans hc')
          simp [hwidth, hlast] at hready
      have hi : i.isValue = false := by
        by_contra hvalue
        rw [Instruction.collapse?_of_isValue (by simpa using hvalue)] at hc
        cases hc
      have hskip : readable [i] = [] := by
        simp [readable, hi, (Instruction.code_ne_of_collapse? hc).1]
      rw [hkeep]
      refine ⟨_, .cons (.held ?_ hi rfl) hrest, hmade⟩
      rwa [readable_append, hskip, List.append_nil]

theorem step {t : SymbolicRun} (h : Follows s done) (hstep : s.step i = some t)
    (hunmixed : t.Unmixed) : Follows t (Pass.push done i) := by
  obtain ⟨hi, rfl⟩ | ⟨hi, args, callee, rest, hcount, hstack, rfl⟩ |
    ⟨c, taken, rest, hc, hlen, hstack, rfl⟩ := SymbolicRun.step_cases hstep
  · exact h.load hi
  · exact h.call hi hcount hstack
  · cases hany : taken.any Entry.holdsResult with
    | false => exact h.build hc hlen hstack (by simpa using hany) _
    | true =>
      obtain ⟨entry, hmem, hentry⟩ := List.any_eq_true.1 hany
      have hle : taken.length ≤ 1 := by
        by_contra hlt
        have := hunmixed taken List.mem_cons_self (Nat.lt_of_not_le hlt) entry hmem
        rw [this] at hentry
        cases hentry
      obtain ⟨only, rfl⟩ : ∃ only, taken = [only] :=
        List.length_eq_one_iff.1 (Nat.le_antisymm hle (List.length_pos_of_mem hmem))
      obtain rfl : entry = only := List.mem_singleton.1 hmem
      exact h.wrap hc hlen.symm hstack hentry _

theorem run {t : SymbolicRun} {ops : List Instruction} (h : Follows s done)
    (hrun : SymbolicRun.run ops s = some t) (hunmixed : t.Unmixed) :
    Follows t (ops.foldl Pass.push done) := by
  induction ops generalizing s done with
  | nil =>
    cases hrun
    exact h
  | cons i ops ih =>
    rw [SymbolicRun.run_cons] at hrun
    obtain ⟨r, hr, hrun⟩ := Option.bind_eq_some_iff.1 hrun
    have hr' : r.Unmixed := hunmixed.of_subset (SymbolicRun.subset_of_run hrun).2
    exact ih (h.step hr hr') hrun

end Follows

/-! ### What a scan finds -/

/-- A scan of what spells some parts finds the calls among them. -/
theorem of_mem_callSites_of_spells {isClass : String → Bool} {ops : List Instruction}
    {parts : List Argument} (hspells : Spells (scanned ops) parts) {sites : CallSites}
    (h : callSites? isClass ops = some sites) {e : CallExpr} (he : e ∈ sites.calls) :
    e.toArgument ∈ parts := by
  unfold callSites? at h
  split at h
  · next s hs =>
    cases h
    have hreads := reads_scanned isClass (Scan.hasArity_of_run hs) 0
    rw [hs, hspells.foldr_absorb] at hreads
    have hkept : s.found = keptCalls isClass parts := by
      rw [Except.ok.inj hreads, (Scan.foldr_deliver_idle {} rfl parts).2]
      exact List.append_nil _
    obtain ⟨a, ha, hcall⟩ : ∃ a ∈ parts, a.call? = some e := by
      rw [List.mem_reverse, hkept] at he
      exact List.mem_filterMap.1 (List.mem_filter.1 he).1
    rwa [Argument.call?_eq_some_iff.1 hcall] at ha
  · cases h
    simp at he
  · cases h

/-- A run of a body is, up to the cut after its last call, a run of what is cut. -/
theorem SymbolicRun.exists_run_of_cut {body ops : List Instruction} {s t : SymbolicRun}
    (h : run body s = some t) (hcut : CutAfterLastCall body ops) :
    ∃ r, run ops s = some r ∧ r.calls ⊆ t.calls ∧ r.built ⊆ t.built := by
  have hcodes := code_ne_of_run h
  obtain ⟨before, last, after, rfl, -, -, rfl⟩ := hcut
  rw [List.append_cons] at h hcodes
  have hsame : (before ++ [last]).filter (fun i => i.code ≠ .lineMarker) = before ++ [last] :=
    List.filter_eq_self.2 fun i hi => by simpa using (hcodes i (List.mem_append_left _ hi)).1
  rw [hsame]
  rw [run_append] at h
  obtain ⟨r, hr, hrest⟩ := Option.bind_eq_some_iff.1 h
  exact ⟨r, hr, subset_of_run hrest⟩

/-- **No callee is made up**, as long as no result of a call is built into a value together with
others: a load of each name found to be called has been called, with as many arguments. -/
theorem exists_call_of_callee_name (isClass : String → Bool) (body : List Instruction)
    (s : SymbolicRun) (hrun : SymbolicRun.run body {} = some s) (hunmixed : s.Unmixed)
    (sites : CallSites) (h : CallSites.ofBody? isClass body = some sites) (e : CallExpr)
    (he : e ∈ sites.calls) (name : String) (hname : e.callee? = some (.name name)) :
    ∃ i, ⟨e.args.length, .load i⟩ ∈ s.calls ∧ i.code.isNameLoad = true ∧
      i.operand = .text name := by
  by_cases hcall : ∃ i ∈ body, i.code = .call
  · obtain ⟨ops, hcut⟩ := exists_cut hcall
    obtain ⟨r, hr, hcalls, hbuilt⟩ := SymbolicRun.exists_run_of_cut hrun hcut
    have hstart : Follows {} [] := ⟨[], .nil, by simp⟩
    obtain ⟨parts, hmirrors, hmade⟩ := hstart.run hr (hunmixed.of_subset hbuilt)
    have hstore : ∀ i ∈ (ops.foldl Pass.push []).reverse, i.code ≠ .storeMap := fun i hi =>
      Pass.foldl_push_code_ne rfl (fun j hj => (SymbolicRun.code_ne_of_run hr j hj).2) (by simp) i
        (List.mem_reverse.1 hi)
    have hspells := hmirrors.spells
    rw [← scanned_eq_readable hstore] at hspells
    rw [ofBody?_of_cut isClass hcut] at h
    have hpart := List.mem_reverse.1 (of_mem_callSites_of_spells hspells h he)
    exact (hmade e hpart).mono hcalls name hname
  · rw [ofBody?_of_ne_call isClass fun i hi hi' => hcall ⟨i, hi, hi'⟩] at h
    cases h
    cases he

/-- The call `g(make(x).run(), (a.b, 1))`, in which the method of a result is called. -/
def methodCall : List Instruction :=
  [⟨.loadGlobal, .text "g"⟩, ⟨.loadName, .text "make"⟩, ⟨.loadFast, .text "x"⟩, ⟨.call, .int 1⟩,
    ⟨.loadAttr, .text "run"⟩, ⟨.call, .int 0⟩, ⟨.loadFast, .text "a"⟩, ⟨.loadAttr, .text "b"⟩,
    ⟨.loadConst, .int 1⟩, ⟨.buildTuple, .int 2⟩, ⟨.call, .int 2⟩]

theorem exists_call_of_callee_name_methodCall :
    ∃ s sites e, SymbolicRun.run methodCall {} = some s ∧ s.Unmixed ∧
      CallSites.ofBody? (fun _ => false) methodCall = some sites ∧ e ∈ sites.calls ∧
      e.callee? = some (.name "g") ∧ e.args.length = 2 ∧
      ∃ i, ⟨e.args.length, .load i⟩ ∈ s.calls ∧ i.code.isNameLoad = true ∧ i.operand = .text "g" :=
  ⟨_, _, _, rfl, by decide, rfl, List.mem_cons_self, rfl, rfl,
    exists_call_of_callee_name (fun _ => false) methodCall _ rfl (by decide) _ rfl _
      List.mem_cons_self "g" rfl⟩

/-- In `g(a + Widget())` the result of a call is added to a value. The scan passes over the
addition, takes `Widget()` for the argument and finds a call of `a`, which was never called. -/
theorem exists_callee_name_never_called :
    ¬ ∀ (isClass : String → Bool) (body : List Instruction) (s : SymbolicRun) (sites : CallSites),
      SymbolicRun.run body {} = some s → CallSites.ofBody? isClass body = some sites →
      ∀ e ∈ sites.calls, ∀ name, e.callee? = some (.name name) →
        ∃ i, ⟨e.args.length, .load i⟩ ∈ s.calls ∧ i.code.isNameLoad = true ∧
          i.operand = .text name := by
  intro hall
  obtain ⟨i, hi, -, htext⟩ := hall (· == "Widget")
    [⟨.loadName, .text "g"⟩, ⟨.loadFast, .text "a"⟩, ⟨.loadName, .text "Widget"⟩, ⟨.call, .int 0⟩,
      ⟨.binary .add, .missing⟩, ⟨.call, .int 1⟩]
    _ _ rfl rfl _ List.mem_cons_self "a" rfl
  have hg : i = ⟨.loadName, .text "g"⟩ := by
    rcases List.mem_cons.1 hi with hi | hi
    · cases hi
      rfl
    · cases List.mem_singleton.1 hi
  simp [hg] at htext

end CallerFirst
