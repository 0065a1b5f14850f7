import CallerFirst.CallSites
import CallerFirst.Proofs.SourceCall
import Mathlib.Tactic.Common

/-!
# How a scan reads the calls of a sequence

* `Scan.Reads`: reading a sequence from its end leads to a state, with one rule for each kind of
  instruction;
* `Scan.deliver`: what a whole value or call does to the state. A value or a call is delivered to
  the innermost pending call; a call that none is waiting for has been found;
* `Scan.step_cases`: what one instruction can do;
* `Scan.found_step`: what one instruction can add to the calls found;
* `Representable`: no call of a sequence has an arity that cannot be represented;
* `SourcePart.reads_collapsed`: reading the collapsed spelling of a part delivers the part.
-/

namespace CallerFirst

theorem Argument.call?_eq_some_iff {a : Argument} {c : CallExpr} :
    a.call? = some c ↔ a = c.toArgument := by
  obtain ⟨arity, parts⟩ := c
  cases a with
  | value i => simp [call?, CallExpr.toArgument]
  | call n inner => simp [call?, CallExpr.toArgument]

/-- The result of a call right before `ops` does not go into a map. -/
def Unstored (ops : List Instruction) : Prop := ∀ i ∈ ops.head?, i.code ≠ .storeMap

namespace Scan

variable {isClass : String → Bool} {ops : List Instruction} {s : Scan}

/-- Reading `ops` from its end leads to the state `s`, at whatever position `ops` starts. -/
def Reads (isClass : String → Bool) (ops : List Instruction) (s : Scan) : Prop :=
  ∀ index, run isClass index ops = .ok s

theorem Reads.nil : Reads isClass [] {} := fun _ => rfl

theorem Reads.cons {t : Scan} {i : Instruction} (h : Reads isClass ops s)
    (ht : ∀ index, s.step isClass index i ops.head? = .ok t) : Reads isClass (i :: ops) t := by
  intro index
  rw [run, h (index + 1)]
  exact ht index

theorem Reads.value {i : Instruction} (h : Reads isClass ops s) (hi : i.isValue = true) :
    Reads isClass (i :: ops) (s.feed isClass i) := by
  refine h.cons fun index => ?_
  rw [step, if_neg (Instruction.code_ne_of_isValue hi rfl), if_pos hi]

theorem Reads.skip {i : Instruction} (h : Reads isClass ops s) (hcall : i.code ≠ .call)
    (hi : i.isValue = false) : Reads isClass (i :: ops) s := by
  refine h.cons fun index => ?_
  rw [step, if_neg hcall, hi]
  rfl

theorem Reads.call {i : Instruction} {n : Nat} (h : Reads isClass ops s) (hnext : Unstored ops)
    (hi : i.code = .call) (hcount : i.operand.count? = some n) (hn : n < CallExpr.arityLimit) :
    Reads isClass (i :: ops) { s with pending := ⟨n, []⟩ :: s.pending } := by
  refine h.cons fun index => ?_
  have hstore : ops.head?.any (·.code = .storeMap) = false := by
    cases hops : ops.head? with
    | none => rfl
    | some j => simpa using hnext j hops
  simp only [step, if_pos hi, hstore, openCall, hcount, CallExpr.new?, if_pos hn]
  rfl

/-- Nothing that is no call matters while no call is pending. -/
theorem Reads.idle (h : Reads isClass ops s) (hs : s.pending = []) {gap : List Instruction}
    (hgap : ∀ i ∈ gap, i.code ≠ .call) : Reads isClass (gap ++ ops) s := by
  induction gap with
  | nil => exact h
  | cons i gap ih =>
    have hrest := ih fun j hj => hgap j (List.mem_cons_of_mem i hj)
    cases hi : i.isValue with
    | true =>
      have hfeed : s.feed isClass i = s := by rw [feed, hs]
      exact hfeed ▸ hrest.value hi
    | false => exact hrest.skip (hgap i List.mem_cons_self) hi

/-! ### Delivering -/

/-- What a whole value or call does to the state of a scan. -/
def deliver (isClass : String → Bool) (s : Scan) (a : Argument) : Scan :=
  match s.pending, a with
  | [], .value _ => s
  | [], .call arity parts => s.add isClass ⟨arity, parts⟩
  | top :: outer, a => settle isClass s (top.feed a) outer

theorem feed_eq_deliver (i : Instruction) : s.feed isClass i = s.deliver isClass (.value i) := by
  cases hs : s.pending with
  | nil => simp only [feed, deliver, hs]
  | cons top outer => simp only [feed, deliver, hs]

/-- Which calls are pending after settling does not depend on those that were pending before. -/
theorem settle_pending (pending : List CallExpr) (top : CallExpr) (outer : List CallExpr) :
    settle isClass { s with pending } top outer = settle isClass s top outer := by
  induction outer generalizing top with
  | nil => rfl
  | cons parent outer ih =>
    rw [settle, settle]
    split
    · exact ih _
    · rfl

theorem settle_of_isComplete {e : CallExpr} (he : e.isComplete = true) :
    settle isClass s e s.pending = s.deliver isClass e.toArgument := by
  obtain ⟨pending, found, log⟩ := s
  cases pending with
  | nil => rw [settle, if_pos he]; rfl
  | cons parent outer => rw [settle, if_pos he]; rfl

variable {arity : Nat} {known : List Argument} {outer : List CallExpr}

theorem feed_mk (hle : known.length ≤ arity) (a : Argument) :
    (⟨arity, known⟩ : CallExpr).feed a = ⟨arity, a :: known⟩ := if_pos hle

/-- A pending call that lacks arguments takes what is delivered as its next one. -/
theorem deliver_of_lt (hs : s.pending = ⟨arity, known⟩ :: outer) (hlt : known.length < arity)
    (a : Argument) : s.deliver isClass a = { s with pending := ⟨arity, a :: known⟩ :: outer } := by
  have hpart : (⟨arity, a :: known⟩ : CallExpr).isComplete = false := by
    simp only [CallExpr.isComplete, List.length_cons, beq_eq_false_iff_ne]
    omega
  simp only [deliver, hs, feed_mk (Nat.le_of_lt hlt)]
  cases outer <;> rw [settle, hpart] <;> rfl

/-- A pending call that only lacks its callee takes what is delivered as such, and is delivered in
its turn. -/
theorem deliver_of_eq (hs : s.pending = ⟨arity, known⟩ :: outer) (hlen : known.length = arity)
    (a : Argument) :
    s.deliver isClass a
      = Scan.deliver isClass { s with pending := outer } (.call arity (a :: known)) := by
  have hwhole : (⟨arity, a :: known⟩ : CallExpr).isComplete = true := by
    simp [CallExpr.isComplete, hlen]
  calc s.deliver isClass a
    _ = settle isClass s ⟨arity, a :: known⟩ outer := by
      simp only [deliver, hs, feed_mk (Nat.le_of_eq hlen)]
    _ = settle isClass { s with pending := outer } ⟨arity, a :: known⟩ outer :=
      (settle_pending outer _ outer).symm
    _ = Scan.deliver isClass { s with pending := outer } (.call arity (a :: known)) :=
      settle_of_isComplete hwhole

/-! ### What is found -/

/-- Settling finds at most one call, which is complete and constructs no object. -/
theorem found_settle (top : CallExpr) (outer : List CallExpr) :
    (settle isClass s top outer).found = s.found ∨
      ∃ e, (settle isClass s top outer).found = e :: s.found ∧ e.isComplete = true ∧
        e.isConstructor isClass = false := by
  induction outer generalizing top with
  | nil =>
    rw [settle]
    split
    · next hcomplete =>
      rw [add]
      split
      · exact Or.inl rfl
      · next hcallee => exact Or.inr ⟨top, rfl, hcomplete, by simpa using hcallee⟩
    · exact Or.inl rfl
  | cons parent outer ih =>
    rw [settle]
    split
    · exact ih _
    · exact Or.inl rfl

/-- What one instruction can do: a call whose result goes into a map and what is neither a call nor
a value do nothing, any other call is opened, and a value goes to the innermost pending call. -/
theorem step_cases {t : Scan} {index : Nat} {i : Instruction} {next : Option Instruction}
    (h : s.step isClass index i next = .ok t) :
    (t = s ∧ (i.code = .call ∧ next.any (·.code = .storeMap) ∨
      i.code ≠ .call ∧ i.isValue = false)) ∨
    (∃ arity, i.code = .call ∧ ¬ next.any (·.code = .storeMap) ∧ i.operand.count? = some arity ∧
      t = { s with pending := ⟨arity, []⟩ :: s.pending }) ∨
    (i.code ≠ .call ∧ i.isValue = true ∧ t = s.feed isClass i) := by
  unfold step at h
  split at h
  · next hcall =>
    split at h
    · next hstored =>
      cases h
      exact Or.inl ⟨rfl, Or.inl ⟨hcall, hstored⟩⟩
    · next hstored =>
      unfold openCall at h
      split at h
      · cases h
      · next arity hcount =>
        split at h
        · next e he =>
          obtain ⟨-, he⟩ := Option.ite_none_right_eq_some.1 he
          cases he
          cases h
          exact Or.inr (Or.inl ⟨arity, hcall, hstored, hcount, rfl⟩)
        · cases h
  · next hcall =>
    split at h
    · next hvalue =>
      cases h
      exact Or.inr (Or.inr ⟨hcall, hvalue, rfl⟩)
    · next hvalue =>
      cases h
      exact Or.inl ⟨rfl, Or.inr ⟨hcall, by simpa using hvalue⟩⟩

/-- One instruction finds at most one call, which is complete and constructs no object. -/
theorem found_step {t : Scan} {index : Nat} {i : Instruction} {next : Option Instruction}
    (h : s.step isClass index i next = .ok t) :
    t.found = s.found ∨
      ∃ e, t.found = e :: s.found ∧ e.isComplete = true ∧ e.isConstructor isClass = false := by
  rcases step_cases h with ⟨rfl, -⟩ | ⟨arity, -, -, -, rfl⟩ | ⟨-, -, rfl⟩
  · exact Or.inl rfl
  · exact Or.inl rfl
  · unfold feed
    split
    · exact Or.inl rfl
    · exact found_settle _ _

theorem of_mem_found {index : Nat} (h : run isClass index ops = .ok s) :
    ∀ e ∈ s.found, e.isComplete = true ∧ e.isConstructor isClass = false := by
  induction ops generalizing index s with
  | nil =>
    cases h
    simp
  | cons i ops ih =>
    rw [run] at h
    split at h
    · cases h
    · next r hr =>
      intro e he
      rcases found_step h with hsame | ⟨found, hmore, hfound⟩
      · rw [hsame] at he
        exact ih hr e he
      · rw [hmore] at he
        rcases List.mem_cons.1 he with rfl | he
        · exact hfound
        · exact ih hr e he

end Scan

/-- Every call that is found is complete and constructs no object. -/
theorem of_mem_callSites {isClass : String → Bool} {ops : List Instruction} {sites : CallSites}
    (h : callSites? isClass ops = some sites) {e : CallExpr} (he : e ∈ sites.calls) :
    e.isComplete = true ∧ e.isConstructor isClass = false := by
  unfold callSites? at h
  split at h
  · next s hs =>
    cases h
    exact Scan.of_mem_found hs e (List.mem_reverse.1 he)
  · cases h
    simp at he
  · cases h

/-! ### Reading a spelled part -/

theorem Unstored.of_isValue {ops : List Instruction} (h : ∀ i ∈ ops.head?, i.isValue = true) :
    Unstored ops :=
  fun i hi => Instruction.code_ne_of_isValue (h i hi) rfl

/-- A collapsed spelling starts with a value. -/
theorem SourcePart.head_collapsed (a : SourcePart) (ops : List Instruction) :
    ∀ i ∈ (a.collapsed ++ ops).head?, i.isValue = true := by
  cases a with
  | value tree => simp [collapsed, tree.isValue_value]
  | call callee args =>
    rw [collapsed, List.append_assoc, List.append_assoc]
    exact callee.head_collapsed _

theorem unstored_collapsedParts (args : List SourcePart) {ops : List Instruction}
    (h : Unstored ops) : Unstored (collapsedParts args ++ ops) := by
  cases args with
  | nil => exact h
  | cons a args =>
    rw [collapsedParts, List.append_assoc]
    exact Unstored.of_isValue (a.head_collapsed _)

theorem unstored_callInstruction (n : Nat) (ops : List Instruction) :
    Unstored (callInstruction n :: ops) := by
  intro i hi
  cases hi
  simp [callInstruction]

/-- No call has an arity that cannot be represented. -/
def Representable (body : List Instruction) : Prop :=
  ∀ i ∈ body, i.code = .call → ∀ n ∈ i.operand.count?, n < CallExpr.arityLimit

instance (body : List Instruction) : Decidable (Representable body) :=
  inferInstanceAs (Decidable (∀ i ∈ body, i.code = .call →
    ∀ n ∈ i.operand.count?, n < CallExpr.arityLimit))

theorem representable_append {ops ops' : List Instruction} :
    Representable (ops ++ ops') ↔ Representable ops ∧ Representable ops' := List.forall_mem_append

variable {isClass : String → Bool}

mutual

/-- Reading the collapsed spelling of a value or a call delivers it. -/
theorem SourcePart.reads_collapsed (a : SourcePart) (hfit : a.spell.length < Operand.countLimit)
    (hcalls : Representable a.spell) {ops : List Instruction} {s : Scan}
    (h : Scan.Reads isClass ops s) (hnext : Unstored ops) :
    Scan.Reads isClass (a.collapsed ++ ops) (s.deliver isClass a.toArgument) := by
  cases a with
  | value tree =>
    rw [SourcePart.toArgument, ← Scan.feed_eq_deliver]
    exact h.value tree.isValue_value
  | call callee args =>
    simp only [SourcePart.spell, List.length_append, representable_append] at hfit hcalls
    obtain ⟨⟨hcallee, hargs⟩, hcall⟩ := hcalls
    have hlen := length_le_spellParts args
    have hcount : (Operand.ofCount args.length).count? = some args.length :=
      Operand.count?_ofCount (by omega)
    have harity : args.length < CallExpr.arityLimit :=
      hcall (callInstruction args.length) List.mem_cons_self rfl args.length hcount
    -- The calling instruction opens a call, the arguments fill it, and the callee completes it.
    have hopen : Scan.Reads isClass (callInstruction args.length :: ops)
        { s with pending := ⟨args.length, []⟩ :: s.pending } :=
      h.call hnext rfl hcount harity
    have hunstored := unstored_callInstruction args.length ops
    have hfill := reads_collapsedParts args (by omega) hargs hopen rfl (by simp) hunstored
    have hcomplete := callee.reads_collapsed (by omega) hcallee hfill
      (unstored_collapsedParts args hunstored)
    rw [Scan.deliver_of_eq rfl (by simp [toArguments_eq_map])] at hcomplete
    simpa [SourcePart.collapsed, SourcePart.toArgument] using hcomplete

/-- Reading the collapsed spelling of arguments adds them to a pending call that has room. -/
theorem reads_collapsedParts (args : List SourcePart)
    (hfit : (spellParts args).length < Operand.countLimit)
    (hcalls : Representable (spellParts args)) {ops : List Instruction} {s : Scan}
    (h : Scan.Reads isClass ops s) {arity : Nat} {known : List Argument} {outer : List CallExpr}
    (hs : s.pending = ⟨arity, known⟩ :: outer) (hroom : args.length + known.length ≤ arity)
    (hnext : Unstored ops) :
    Scan.Reads isClass (collapsedParts args ++ ops)
      { s with pending := ⟨arity, toArguments args ++ known⟩ :: outer } := by
  cases args with
  | nil => simpa [collapsedParts, toArguments, ← hs] using h
  | cons a args =>
    simp only [spellParts, List.length_append, List.length_cons] at hfit hroom
    obtain ⟨hfirst, hrest⟩ := representable_append.1 hcalls
    have hargs := reads_collapsedParts args (by omega) hrest h hs (by omega) hnext
    have ha := a.reads_collapsed (by omega) hfirst hargs (unstored_collapsedParts args hnext)
    rw [Scan.deliver_of_lt rfl (by simp [toArguments_eq_map]; omega)] at ha
    simpa [collapsedParts, toArguments] using ha

end

end CallerFirst
