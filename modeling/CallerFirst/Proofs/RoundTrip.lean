import CallerFirst.Discovery
import CallerFirst.Proofs.CallSites
import Mathlib.Tactic.Common

/-!
# Discovery finds the calls that were written

A `SpelledBody` has calls of the source between other instructions. Its normal form is made of the
collapsed calls and of what is left of the gaps between them (`foldl_push_pieces`), and the scan
finds exactly the calls in it (`reads_collapsedPieces`). `ofBody?_spelled` puts the two together:
line markers and calls that construct an object apart, what is written is what is found.
-/

namespace CallerFirst

/-- The instructions that are no line markers. -/
def withoutMarkers (body : List Instruction) : List Instruction :=
  body.filter fun i => i.code ≠ .lineMarker

/-- A call of the source with the instructions between the call before it and itself. -/
structure Piece where
  gap : List Instruction
  call : SourceCall

/-- The instructions of a piece. -/
def Piece.spell (p : Piece) : List Instruction := p.gap ++ p.call.spell

/-- A body that consists of calls of the source, at least one, with other instructions between and
around them. No gap right after a call starts with a store into a map. -/
structure SpelledBody where
  first : Piece
  more : List Piece
  tail : List Instruction
  gap_ne_call : ∀ p ∈ first :: more, ∀ i ∈ p.gap, i.code ≠ .call
  tail_ne_call : ∀ i ∈ tail, i.code ≠ .call
  unstored : ∀ p ∈ more, Unstored (withoutMarkers p.gap)

namespace SpelledBody

/-- The calls of a body with the gaps before them. -/
def pieces (b : SpelledBody) : List Piece := b.first :: b.more

/-- The calls of a body, in source order. -/
def calls (b : SpelledBody) : List SourceCall := b.pieces.map Piece.call

/-- The instructions of a body. -/
def spell (b : SpelledBody) : List Instruction := b.pieces.flatMap Piece.spell ++ b.tail

end SpelledBody

/-! ### Line markers -/

theorem withoutMarkers_append (ops ops' : List Instruction) :
    withoutMarkers (ops ++ ops') = withoutMarkers ops ++ withoutMarkers ops' :=
  List.filter_append ..

theorem mem_withoutMarkers {ops : List Instruction} {i : Instruction} :
    i ∈ withoutMarkers ops ↔ i ∈ ops ∧ i.code ≠ .lineMarker := by
  simp [withoutMarkers]

theorem withoutMarkers_of_isValue {i : Instruction} (h : i.isValue = true) :
    withoutMarkers [i] = [i] := by
  have hcode : i.code ≠ .lineMarker := Instruction.code_ne_of_isValue h rfl
  simp [withoutMarkers, hcode]

mutual

theorem ValueTree.withoutMarkers_spell (v : ValueTree) : withoutMarkers v.spell = v.spell := by
  cases v with
  | load code plain operand =>
    exact withoutMarkers_of_isValue (ValueTree.load code plain operand).isValue_value
  | attr object name =>
    rw [ValueTree.spell, withoutMarkers_append, object.withoutMarkers_spell]
    rfl
  | tuple items | builtSlice items =>
    rw [ValueTree.spell, withoutMarkers_append, withoutMarkers_spellValues items]
    rfl
  | sliceWhole base operand =>
    rw [ValueTree.spell, withoutMarkers_append, base.withoutMarkers_spell]
    rfl
  | sliceFromLower a b operand | sliceToUpper a b operand | binary operator a b operand =>
    rw [ValueTree.spell, withoutMarkers_append, withoutMarkers_append, a.withoutMarkers_spell,
      b.withoutMarkers_spell]
    rfl
  | sliceBetween base lower upper operand =>
    rw [ValueTree.spell, withoutMarkers_append, withoutMarkers_append, withoutMarkers_append,
      base.withoutMarkers_spell, lower.withoutMarkers_spell, upper.withoutMarkers_spell]
    rfl

theorem withoutMarkers_spellValues (items : List ValueTree) :
    withoutMarkers (spellValues items) = spellValues items := by
  cases items with
  | nil => rfl
  | cons v items =>
    rw [spellValues, withoutMarkers_append, v.withoutMarkers_spell,
      withoutMarkers_spellValues items]

end

mutual

theorem SourcePart.withoutMarkers_spell (a : SourcePart) : withoutMarkers a.spell = a.spell := by
  cases a with
  | value tree => exact tree.withoutMarkers_spell
  | call callee args =>
    rw [SourcePart.spell, withoutMarkers_append, withoutMarkers_append, callee.withoutMarkers_spell,
      withoutMarkers_spellParts args]
    rfl

theorem withoutMarkers_spellParts (args : List SourcePart) :
    withoutMarkers (spellParts args) = spellParts args := by
  cases args with
  | nil => rfl
  | cons a args =>
    rw [spellParts, withoutMarkers_append, a.withoutMarkers_spell, withoutMarkers_spellParts args]

end

theorem SourceCall.spell_eq (e : SourceCall) :
    e.spell = e.callee.spell ++ spellParts e.args ++ [callInstruction e.args.length] := rfl

/-- When a body without its line markers ends in a call and no further call, that is its cut. -/
theorem cut_of_withoutMarkers {body ops tail : List Instruction} {last : Instruction}
    (hbody : withoutMarkers body = ops ++ last :: tail) (hlast : last.code = .call)
    (htail : ∀ i ∈ tail, i.code ≠ .call) : CutAfterLastCall body (ops ++ [last]) := by
  obtain ⟨before, rest, rfl, hbefore, hrest⟩ := List.filter_eq_append_iff.1 hbody
  obtain ⟨markers, after, rfl, hmarkers, -, hafter⟩ := List.filter_eq_cons_iff.1 hrest
  -- The markers right before the last call are cut off with the instructions before it.
  refine ⟨before ++ markers, last, after, by simp, hlast, ?_, ?_⟩
  · intro i hi hcall
    refine htail i ?_ hcall
    rw [← hafter]
    exact mem_withoutMarkers.2 ⟨hi, by simp [hcall]⟩
  · have hmarkers' : markers.filter (fun i => i.code ≠ .lineMarker) = [] :=
      List.filter_eq_nil_iff.2 hmarkers
    rw [List.filter_append, List.filter_append, hbefore, hmarkers']
    simp [hlast]

/-- Discovery scans what the pass leaves of a body that is cut after its last call. -/
theorem ofBody?_of_cut (isClass : String → Bool) {body ops : List Instruction}
    (h : CutAfterLastCall body ops) :
    CallSites.ofBody? isClass body = callSites? isClass (ops.foldl Pass.push []).reverse := by
  obtain ⟨form, hform, hinstr⟩ := normalForm?_of_cut h
  rw [CallSites.ofBody?, hform, ← hinstr]

theorem ofBody?_of_ne_call (isClass : String → Bool) {body : List Instruction}
    (h : ∀ i ∈ body, i.code ≠ .call) : CallSites.ofBody? isClass body = some ⟨[], []⟩ := by
  simp [CallSites.ofBody?, normalForm?, trimmed?, lastCallEnd?_eq_none h]

/-! ### The normal form of a spelled body -/

/-- A piece in normal form: what is left of the gap, and the call with its values collapsed. -/
def Piece.collapsed (p : Piece) : List Instruction :=
  (p.gap.foldl Pass.push []).reverse ++ p.call.toPart.collapsed

/-- The pass over pieces: nothing is collapsed across a call. -/
theorem foldl_push_pieces {pieces : List Piece}
    (hfit : (pieces.flatMap Piece.spell).length < Operand.countLimit) {done : List Instruction}
    (hdone : ∀ i ∈ done.head?, i.isValue = false) :
    (pieces.flatMap Piece.spell).foldl Pass.push done
      = (pieces.flatMap Piece.collapsed).reverse ++ done := by
  induction pieces generalizing done with
  | nil => rfl
  | cons p pieces ih =>
    simp only [List.flatMap_cons, Piece.spell, List.length_append] at hfit
    have hgap : p.gap.foldl Pass.push done = p.gap.foldl Pass.push [] ++ done :=
      Pass.foldl_push_append hdone p.gap []
    have hcall := p.call.toPart.builds_spell (by rw [← SourceCall.spell]; omega)
    -- The call ends in an instruction that is no value, so the next gap cannot reach into it.
    have hbarrier (behind : List Instruction) :
        ∀ i ∈ (p.call.toPart.collapsed.reverse ++ behind).head?, i.isValue = false := by
      simp [SourceCall.toPart, SourcePart.collapsed]
      rfl
    rw [List.flatMap_cons, List.foldl_append, Piece.spell, List.foldl_append, hgap,
      SourceCall.spell, hcall, ih (by omega) (hbarrier _)]
    simp [Piece.collapsed]

/-- The stack has a bottom, and that is no store into a map. -/
def Grounded (done : List Instruction) : Prop := ∃ i, done.getLast? = some i ∧ i.code ≠ .storeMap

theorem grounded_push {done : List Instruction} (h : Grounded done) (i : Instruction) :
    Grounded (Pass.push done i) := by
  rcases Pass.push_cases done i with ⟨c, values, rest, hc, rfl, -, -, hpush⟩ | ⟨-, hpush⟩
  · rw [hpush]
    cases rest with
    | nil => exact ⟨_, rfl, Instruction.code_ne_of_isValue (Collapse.isValue_merge hc values) rfl⟩
    | cons j rest => simpa [Grounded] using h
  · obtain ⟨j, hj, hcode⟩ := h
    exact ⟨j, by rw [hpush, List.getLast?_cons, hj]; rfl, hcode⟩

theorem grounded_foldl_push (ops : List Instruction) {done : List Instruction} (h : Grounded done) :
    Grounded (ops.foldl Pass.push done) := by
  induction ops generalizing done with
  | nil => exact h
  | cons i ops ih => exact ih (grounded_push h i)

theorem grounded_push_nil {i : Instruction} (hi : i.code ≠ .storeMap) :
    Grounded (Pass.push [] i) := by
  rcases Pass.push_cases [] i with ⟨c, values, rest, hc, hnil, -, -, hpush⟩ | ⟨-, hpush⟩
  · obtain ⟨-, rfl⟩ := List.append_eq_nil_iff.1 hnil.symm
    exact ⟨_, by rw [hpush]; rfl,
      Instruction.code_ne_of_isValue (Collapse.isValue_merge hc values) rfl⟩
  · exact ⟨i, by rw [hpush]; rfl, hi⟩

/-- What is left of a gap does not start with a store into a map either. -/
theorem Piece.unstored_collapsed {p : Piece} (h : Unstored p.gap) (ops : List Instruction) :
    Unstored (p.collapsed ++ ops) := by
  rw [collapsed, List.append_assoc]
  cases hgap : p.gap with
  | nil => exact Unstored.of_isValue (p.call.toPart.head_collapsed ops)
  | cons i gap =>
    -- The bottom of the stack is what the rest of the gap starts with.
    obtain ⟨j, hj, hcode⟩ := grounded_foldl_push gap (grounded_push_nil (h i (by rw [hgap]; rfl)))
    intro k hk
    rw [List.head?_append, List.head?_reverse, List.foldl_cons, hj] at hk
    cases hk
    exact hcode

/-! ### The calls of a spelled body -/

theorem SourceCall.callee?_toCallExpr (e : SourceCall) :
    e.toCallExpr.callee? = some e.callee.toArgument.toCallee := by
  simp [toCallExpr, CallExpr.callee?, CallExpr.calleePart?, CallExpr.isComplete]

theorem SourceCall.isConstructor_toCallExpr (isClass : String → Bool) (e : SourceCall) :
    e.toCallExpr.isConstructor isClass = e.isConstruction isClass := by
  rw [CallExpr.isConstructor, CallExpr.calleeName?, callee?_toCallExpr, isConstruction]
  cases e.callee with
  | call callee args => rfl
  | value tree =>
    cases tree with
    | load code plain operand => cases code <;> cases plain <;> cases operand <;> rfl
    | attr object name =>
      simp only [SourcePart.toArgument, ValueTree.value, ValueTree.code, ValueTree.operand]
      cases object.operand <;> cases name <;> rfl
    | _ => rfl

theorem SourceCall.toArgument_toPart (e : SourceCall) :
    e.toPart.toArgument = e.toCallExpr.toArgument := by
  simp [toPart, SourcePart.toArgument, toCallExpr, CallExpr.toArgument, toArguments_eq_map]

/-- The call expressions of the calls that construct no object. -/
def callExprs (isClass : String → Bool) (calls : List SourceCall) : List CallExpr :=
  (calls.filter fun e => !e.isConstruction isClass).map SourceCall.toCallExpr

/-- A call that is delivered while none is pending is found, unless it constructs an object. -/
theorem deliver_call (isClass : String → Bool) (e : SourceCall) (calls : List SourceCall)
    (log : List LogRecord) :
    ∃ log', Scan.deliver isClass ⟨[], callExprs isClass calls, log⟩ e.toPart.toArgument
      = ⟨[], callExprs isClass (e :: calls), log'⟩ := by
  have hadd : Scan.deliver isClass ⟨[], callExprs isClass calls, log⟩ e.toPart.toArgument
      = Scan.add isClass ⟨[], callExprs isClass calls, log⟩ e.toCallExpr := by
    rw [e.toArgument_toPart]
    rfl
  rw [hadd, Scan.add, e.isConstructor_toCallExpr]
  cases hcon : e.isConstruction isClass with
  | true => exact ⟨_, by simp [callExprs, hcon]; rfl⟩
  | false => exact ⟨log, by simp [callExprs, hcon]⟩

/-- The scan finds the calls of the pieces and is left with nothing pending. -/
theorem reads_collapsedPieces (isClass : String → Bool) {pieces : List Piece}
    (hfit : (pieces.flatMap Piece.spell).length < Operand.countLimit)
    (hcalls : Representable (pieces.flatMap Piece.spell))
    (hgap : ∀ p ∈ pieces, ∀ i ∈ p.gap, i.code ≠ .call)
    (hunstored : ∀ p ∈ pieces.tail, Unstored p.gap) :
    ∃ log, Scan.Reads isClass (pieces.flatMap Piece.collapsed)
      ⟨[], callExprs isClass (pieces.map Piece.call), log⟩ := by
  induction pieces with
  | nil => exact ⟨[], Scan.Reads.nil⟩
  | cons p pieces ih =>
    simp only [List.flatMap_cons, Piece.spell, List.length_append, representable_append]
      at hfit hcalls
    obtain ⟨⟨-, hthis⟩, hothers⟩ := hcalls
    obtain ⟨log, hmore⟩ := ih (by omega) hothers (fun q hq => hgap q (List.mem_cons_of_mem p hq))
      (fun q hq => hunstored q (List.mem_of_mem_tail hq))
    have hnext : Unstored (pieces.flatMap Piece.collapsed) := by
      cases pieces with
      | nil => simp [Unstored]
      | cons q pieces => exact q.unstored_collapsed (hunstored q List.mem_cons_self) _
    have hcall := p.call.toPart.reads_collapsed (by rw [← SourceCall.spell]; omega) hthis hmore
      hnext
    obtain ⟨log', hfound⟩ := deliver_call isClass p.call (pieces.map Piece.call) log
    rw [hfound] at hcall
    -- What is left of the gap is read while nothing is pending.
    have hleft : ∀ i ∈ (p.gap.foldl Pass.push []).reverse, i.code ≠ .call := by
      intro i hi
      exact Pass.foldl_push_code_ne rfl (hgap p List.mem_cons_self) (by simp) i
        (List.mem_reverse.1 hi)
    refine ⟨log', ?_⟩
    rw [List.flatMap_cons, Piece.collapsed, List.append_assoc]
    exact hcall.idle rfl hleft

/-! ### The round trip -/

/-- A piece without the line markers of its gap. -/
def Piece.unmarked (p : Piece) : Piece := ⟨withoutMarkers p.gap, p.call⟩

theorem withoutMarkers_pieces (pieces : List Piece) :
    withoutMarkers (pieces.flatMap Piece.spell)
      = (pieces.map Piece.unmarked).flatMap Piece.spell := by
  induction pieces with
  | nil => rfl
  | cons p pieces ih =>
    rw [List.flatMap_cons, withoutMarkers_append, ih, Piece.spell, withoutMarkers_append,
      SourceCall.spell, p.call.toPart.withoutMarkers_spell]
    rfl

theorem exists_spell_pieces_eq (p : Piece) (pieces : List Piece) :
    ∃ ops n, (p :: pieces).flatMap Piece.spell = ops ++ [callInstruction n] := by
  induction pieces generalizing p with
  | nil =>
    refine ⟨p.gap ++ (p.call.callee.spell ++ spellParts p.call.args), p.call.args.length, ?_⟩
    simp [Piece.spell, SourceCall.spell_eq]
  | cons q pieces ih =>
    obtain ⟨ops, n, h⟩ := ih q
    exact ⟨p.spell ++ ops, n, by rw [List.flatMap_cons, h, List.append_assoc]⟩

namespace SpelledBody

/-- The pieces of a body without line markers. -/
def unmarked (b : SpelledBody) : List Piece := b.pieces.map Piece.unmarked

theorem calls_unmarked (b : SpelledBody) : b.unmarked.map Piece.call = b.calls := by
  simp [unmarked, calls, Piece.unmarked]

theorem unmarked_gap_ne_call (b : SpelledBody) :
    ∀ p ∈ b.unmarked, ∀ i ∈ p.gap, i.code ≠ .call := by
  intro p hp i hi
  obtain ⟨q, hq, rfl⟩ := List.mem_map.1 hp
  exact b.gap_ne_call q hq i (mem_withoutMarkers.1 hi).1

theorem unstored_unmarked (b : SpelledBody) : ∀ p ∈ b.unmarked.tail, Unstored p.gap := by
  intro p hp
  obtain ⟨q, hq, rfl⟩ := List.mem_map.1 hp
  exact b.unstored q hq

variable {b : SpelledBody} {body : List Instruction}

theorem withoutMarkers_eq (h : withoutMarkers body = withoutMarkers b.spell) :
    withoutMarkers body = b.unmarked.flatMap Piece.spell ++ withoutMarkers b.tail := by
  rw [h, spell, withoutMarkers_append, withoutMarkers_pieces, unmarked]

theorem length_unmarked_le (h : withoutMarkers body = withoutMarkers b.spell) :
    (b.unmarked.flatMap Piece.spell).length ≤ body.length := by
  have hle : (withoutMarkers body).length ≤ body.length := List.length_filter_le ..
  rw [withoutMarkers_eq h, List.length_append] at hle
  omega

theorem representable_unmarked (h : withoutMarkers body = withoutMarkers b.spell)
    (hcalls : Representable body) : Representable (b.unmarked.flatMap Piece.spell) := by
  intro i hi
  have hmem : i ∈ withoutMarkers body := by
    rw [withoutMarkers_eq h]
    exact List.mem_append_left _ hi
  exact hcalls i (mem_withoutMarkers.1 hmem).1

theorem cut (h : withoutMarkers body = withoutMarkers b.spell) :
    CutAfterLastCall body (b.unmarked.flatMap Piece.spell) := by
  have hbody := withoutMarkers_eq h
  obtain ⟨ops, n, hops⟩ := exists_spell_pieces_eq b.first.unmarked (b.more.map Piece.unmarked)
  rw [unmarked, pieces, List.map_cons, hops] at hbody ⊢
  refine cut_of_withoutMarkers (by rw [hbody, List.append_assoc]; rfl) rfl fun i hi => ?_
  exact b.tail_ne_call i (mem_withoutMarkers.1 hi).1

end SpelledBody

/-- **Discovery finds what was written**, the last call first and with each value collapsed,
whatever stands between the calls. Only calls that construct an object are left out. -/
theorem ofBody?_spelled (isClass : String → Bool) (b : SpelledBody) (body : List Instruction)
    (hbody : withoutMarkers body = withoutMarkers b.spell)
    (hfit : body.length < Operand.countLimit) (hcalls : Representable body) :
    (CallSites.ofBody? isClass body).map (·.calls) = some (callExprs isClass b.calls).reverse := by
  have hlen : (b.unmarked.flatMap Piece.spell).length < Operand.countLimit :=
    Nat.lt_of_le_of_lt (SpelledBody.length_unmarked_le hbody) hfit
  obtain ⟨form, hform, hinstr⟩ := normalForm?_of_cut (SpelledBody.cut hbody)
  rw [foldl_push_pieces hlen (by simp), List.append_nil, List.reverse_reverse] at hinstr
  obtain ⟨log, hreads⟩ := reads_collapsedPieces isClass hlen
    (SpelledBody.representable_unmarked hbody hcalls) b.unmarked_gap_ne_call b.unstored_unmarked
  rw [← hinstr, b.calls_unmarked] at hreads
  simp [CallSites.ofBody?, hform, callSites?, hreads 0]

/-- The call `Widget()`. -/
def constructionCall : SourceCall := ⟨.value (.load .loadName rfl (.text "Widget")), []⟩

/-- The call `f()(x.a, g((p, ())))`. -/
def chainedCall : SourceCall where
  callee := .call (.value (.load .loadGlobal rfl (.text "f"))) []
  args :=
    [.value (.attr (.load .loadFast rfl (.text "x")) (.text "a")),
      .call (.value (.load .loadGlobal rfl (.text "g")))
        [.value (.tuple [.load .loadFast rfl (.text "p"), .tuple []])]]

/-- Two calls with a gap between them that has an attribute of nothing and a value for no call, and
with a store into a map at the end. -/
def twoCalls : SpelledBody where
  first := ⟨[⟨.other, .missing⟩], constructionCall⟩
  more := [⟨[⟨.loadAttr, .text "k"⟩, ⟨.loadFast, .text "left"⟩, ⟨.other, .missing⟩], chainedCall⟩]
  tail := [⟨.storeMap, .missing⟩]
  gap_ne_call := by simp
  tail_ne_call := by simp
  unstored := by simp [Unstored, withoutMarkers]

/-- The same with a line marker before each instruction. -/
def twoMarkedCalls : List Instruction := twoCalls.spell.flatMap fun i => [⟨.lineMarker, .int 1⟩, i]

theorem ofBody?_spelled_twoCalls :
    withoutMarkers twoMarkedCalls = withoutMarkers twoCalls.spell ∧
      twoMarkedCalls.length < Operand.countLimit ∧ Representable twoMarkedCalls ∧
      (CallSites.ofBody? (· == "Widget") twoMarkedCalls).map (·.calls)
        = some (callExprs (· == "Widget") twoCalls.calls).reverse :=
  ⟨rfl, by decide, by decide,
    ofBody?_spelled (· == "Widget") twoCalls twoMarkedCalls rfl (by decide) (by decide)⟩

/-- Not every call that is written is found: `Widget()` is not when `Widget` is a class. -/
theorem ofBody?_omits_construction :
    ¬ ∀ (isClass : String → Bool) (b : SpelledBody) (body : List Instruction),
      withoutMarkers body = withoutMarkers b.spell → body.length < Operand.countLimit →
        Representable body → (CallSites.ofBody? isClass body).map (·.calls)
          = some (b.calls.map SourceCall.toCallExpr).reverse := by
  intro hall
  have hfound := hall (· == "Widget")
    ⟨⟨[], constructionCall⟩, [], [], by simp, by simp, by simp⟩
    [⟨.loadName, .text "Widget"⟩, callInstruction 0] rfl (by decide) (by decide)
  cases hfound

end CallerFirst
