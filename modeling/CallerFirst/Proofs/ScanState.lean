import CallerFirst.Proofs.Findings
import Mathlib.Tactic.Common

/-!
# The state of a scan

Between two instructions every pending call lacks at least its callee, and every call that has
become a part of another one is whole. So there is always room for what is given to a pending call,
and nothing of it is lost.

* `Scan.Sound`: the state between two instructions, kept by each of them (`Scan.Sound.step`);
* `Scan.feed?`: giving a value to a pending call, with a check of the room at each call that takes a
  part; in a sound state the checks never fail (`Scan.Sound.feed?_eq`);
* `Scan.Emits`: what becomes of a call that is not inside of another one;
* `Scan.KeepsAll`: what is taken is all there with what was pending (`Scan.Sound.keepsAll_step`);
* `Scan.sound_of_passes`: all this holds wherever a scan passes.
-/

namespace CallerFirst

/-! ### Whole calls -/

namespace CallExpr

/-- The callee is known, and there are as many arguments as the call takes. -/
def Whole (e : CallExpr) : Prop := (∃ callee, e.callee? = some callee) ∧ e.args.length = e.arity

/-- Each call inside of a call, at whatever depth, is whole. -/
def WholeInside (e : CallExpr) : Prop := ∀ c, Relation.TransGen Holds e c → c.Whole

theorem whole_iff {e : CallExpr} : e.Whole ↔ e.isComplete = true := by
  obtain ⟨arity, parts⟩ := e
  unfold Whole callee? calleePart? args
  cases hcomplete : isComplete ⟨arity, parts⟩ with
  | false => simp
  | true =>
    have hlen : parts.length = arity + 1 := by simpa [isComplete] using hcomplete
    obtain ⟨first, rest, rfl⟩ := List.exists_cons_of_length_eq_add_one hlen
    simpa using hlen

/-- A call is not complete, and has at most the arguments that it takes, when there is room for a
part. -/
theorem room_iff {e : CallExpr} :
    e.isComplete = false ∧ e.args.length ≤ e.arity ↔ e.parts.length ≤ e.arity := by
  unfold args
  cases hcomplete : e.isComplete with
  | false => simp
  | true =>
    have hlen : e.parts.length = e.arity + 1 := by simpa [isComplete] using hcomplete
    simp [hlen]

/-- Adds the next part, and fails where there is no room for it. -/
def feed? (e : CallExpr) (a : Argument) : Option CallExpr :=
  if e.parts.length ≤ e.arity then some ⟨e.arity, a :: e.parts⟩ else none

theorem feed?_eq {e : CallExpr} (h : e.parts.length ≤ e.arity) (a : Argument) :
    e.feed? a = some (e.feed a) := by
  rw [feed?, feed, if_pos h, if_pos h]

end CallExpr

mutual

/-- The values and calls that make up an argument, in the order in which they are spelled. A call
stands as its arity behind its parts. -/
def Argument.spelling : Argument → List (Instruction ⊕ Nat)
  | .value i => [.inl i]
  | .call arity parts => spellings parts ++ [.inr arity]

/-- The values and calls that make up some arguments. -/
def spellings : List Argument → List (Instruction ⊕ Nat)
  | [] => []
  | a :: rest => a.spelling ++ spellings rest

end

/-- A value, or a call that is whole, as are all calls inside of it. -/
def Argument.Sealed (a : Argument) : Prop :=
  ∀ e : CallExpr, a = e.toArgument → e.Whole ∧ e.WholeInside

theorem Argument.Sealed.value (i : Instruction) : (Argument.value i).Sealed := nofun

theorem Argument.Sealed.call {e : CallExpr} (h : e.Whole) (hinside : e.WholeInside) :
    e.toArgument.Sealed := by
  rintro ⟨arity, parts⟩ heq
  cases e
  cases heq
  exact ⟨h, hinside⟩

theorem CallExpr.wholeInside_iff {e : CallExpr} : e.WholeInside ↔ ∀ a ∈ e.parts, a.Sealed := by
  unfold WholeInside
  simp only [Relation.TransGen.head'_iff]
  constructor
  · rintro h a ha d rfl
    have hd : e.Holds d := mem_nestedCalls_iff.2 ha
    refine ⟨h d ⟨d, hd, .refl⟩, fun c hc => h c ⟨d, hd, hc.to_reflTransGen⟩⟩
  · rintro h c ⟨d, hd, hc⟩
    obtain ⟨hwhole, hinside⟩ := h _ (mem_nestedCalls_iff.1 hd) d rfl
    rcases Relation.reflTransGen_iff_eq_or_transGen.1 hc with rfl | hc
    · exact hwhole
    · exact hinside c hc

namespace Scan

variable {isClass : String → Bool} {s t : Scan}

/-! ### Sound states -/

/-- What holds of the state of a scan between two instructions. -/
structure Sound (isClass : String → Bool) (s : Scan) : Prop where
  /-- No pending call is complete, and none has more arguments than it takes. -/
  pending_open : ∀ e ∈ s.pending, e.isComplete = false ∧ e.args.length ≤ e.arity
  pending_inside : ∀ e ∈ s.pending, e.WholeInside
  found_whole : ∀ e ∈ s.found, e.Whole ∧ e.WholeInside
  /-- No call that is found constructs an object. -/
  found_kept : ∀ e ∈ s.found, e.isConstructor isClass = false

theorem sound_empty : Sound isClass {} := by
  constructor <;> simp

theorem Sound.room (h : s.Sound isClass) {e : CallExpr} (he : e ∈ s.pending) :
    e.parts.length ≤ e.arity := CallExpr.room_iff.1 (h.pending_open e he)

/-- The innermost pending call may be taken off. -/
theorem Sound.tail {top : CallExpr} {outer found : List CallExpr} {log : List LogRecord}
    (h : Sound isClass ⟨top :: outer, found, log⟩) : Sound isClass ⟨outer, found, log⟩ where
  pending_open e he := h.pending_open e (List.mem_cons_of_mem top he)
  pending_inside e he := h.pending_inside e (List.mem_cons_of_mem top he)
  found_whole := h.found_whole
  found_kept := h.found_kept

/-- A call with room for a part and with sealed parts may be pending inside of the others. -/
theorem Sound.cons (h : s.Sound isClass) {arity : Nat} {known : List Argument}
    (hroom : known.length ≤ arity) (hknown : ∀ a ∈ known, a.Sealed) :
    Sound isClass { s with pending := ⟨arity, known⟩ :: s.pending } where
  pending_open := List.forall_mem_cons.2 ⟨CallExpr.room_iff.2 hroom, h.pending_open⟩
  pending_inside :=
    List.forall_mem_cons.2 ⟨CallExpr.wholeInside_iff.2 hknown, h.pending_inside⟩
  found_whole := h.found_whole
  found_kept := h.found_kept

theorem Sound.add (h : s.Sound isClass) {e : CallExpr} (he : e.toArgument.Sealed) :
    (s.add isClass e).Sound isClass := by
  unfold Scan.add
  split
  · exact ⟨h.pending_open, h.pending_inside, h.found_whole, h.found_kept⟩
  · next hclass =>
    refine ⟨h.pending_open, h.pending_inside, ?_, ?_⟩
    · exact List.forall_mem_cons.2 ⟨he e rfl, h.found_whole⟩
    · exact List.forall_mem_cons.2 ⟨by simpa using hclass, h.found_kept⟩

/-- Delivering a sealed part keeps a state sound. The invariant is broken for each call that the
part completes; such a call is sealed, and is delivered to the next one in its turn. -/
theorem Sound.deliver (h : s.Sound isClass) {a : Argument} (ha : a.Sealed) :
    (s.deliver isClass a).Sound isClass := by
  obtain ⟨pending, found, log⟩ := s
  induction pending generalizing a with
  | nil =>
    cases a with
    | value i => exact h
    | call arity parts => exact h.add ha
  | cons top outer ih =>
    obtain ⟨arity, known⟩ := top
    have hroom : known.length ≤ arity := h.room List.mem_cons_self
    have hknown : ∀ b ∈ a :: known, b.Sealed := List.forall_mem_cons.2
      ⟨ha, CallExpr.wholeInside_iff.1 (h.pending_inside _ List.mem_cons_self)⟩
    rcases Nat.lt_or_eq_of_le hroom with hlt | heq
    · rw [deliver_of_lt rfl hlt]
      exact h.tail.cons hlt hknown
    · have hwhole : (⟨arity, a :: known⟩ : CallExpr).Whole :=
        CallExpr.whole_iff.2 (by simp [CallExpr.isComplete, heq])
      rw [deliver_of_eq rfl heq]
      exact ih (.call hwhole (CallExpr.wholeInside_iff.2 hknown)) h.tail

theorem Sound.step {index : Nat} {i : Instruction} {next : Option Instruction}
    (h : s.Sound isClass) (hstep : s.step isClass index i next = .ok t) : t.Sound isClass := by
  rcases step_cases hstep with ⟨rfl, -⟩ | ⟨arity, -, -, -, rfl⟩ | ⟨-, -, rfl⟩
  · exact h
  · exact h.cons (Nat.zero_le arity) (by simp)
  · rw [feed_eq_deliver]
    exact h.deliver (.value i)

theorem sound_of_run {index : Nat} {ops : List Instruction} (h : run isClass index ops = .ok s) :
    s.Sound isClass := by
  induction ops generalizing index s with
  | nil =>
    cases h
    exact sound_empty
  | cons i ops ih =>
    rw [run] at h
    split at h
    · cases h
    · next r hr => exact (ih hr).step h

/-! ### Room for each part -/

/-- Settles calls like `settle`, and fails when a call has to take a part without having room. -/
def settle? (isClass : String → Bool) (s : Scan) (top : CallExpr) :
    (outer : List CallExpr) → Option Scan
  | [] => some (settle isClass s top [])
  | parent :: outer =>
    if top.isComplete then
      (parent.feed? top.toArgument).bind fun fed => settle? isClass s fed outer
    else some { s with pending := top :: parent :: outer }

/-- Gives a value to the innermost pending call like `feed`, and fails when a call has to take a
part without having room. -/
def feed? (isClass : String → Bool) (s : Scan) (i : Instruction) : Option Scan :=
  match s.pending with
  | [] => some s
  | top :: outer => (top.feed? (.value i)).bind fun fed => settle? isClass s fed outer

theorem settle?_eq {outer : List CallExpr} (h : ∀ e ∈ outer, e.parts.length ≤ e.arity)
    (top : CallExpr) : settle? isClass s top outer = some (settle isClass s top outer) := by
  induction outer generalizing top with
  | nil => rfl
  | cons parent outer ih =>
    obtain ⟨hparent, houter⟩ := List.forall_mem_cons.1 h
    rw [settle?, settle, CallExpr.feed?_eq hparent]
    split
    · exact ih houter _
    · rfl

/-- In a sound state there is room for each part that a call has to take. -/
theorem Sound.feed?_eq (h : s.Sound isClass) (i : Instruction) :
    s.feed? isClass i = some (s.feed isClass i) := by
  cases hpending : s.pending with
  | nil => simp only [Scan.feed?, Scan.feed, hpending]
  | cons top outer =>
    have hroom : ∀ e ∈ top :: outer, e.parts.length ≤ e.arity := fun e he =>
      h.room (by rwa [hpending])
    obtain ⟨htop, houter⟩ := List.forall_mem_cons.1 hroom
    simp only [Scan.feed?, Scan.feed, hpending, CallExpr.feed?_eq htop]
    exact settle?_eq houter _

/-! ### Nothing is lost -/

/-- What is pending: the parts and the arities of the pending calls, the innermost first. -/
def content (s : Scan) : List (Instruction ⊕ Nat) := s.pending.flatMap (·.toArgument.spelling)

/-- What a scan takes of the instruction `i`, which `next` follows: a value, the arity of a call, or
nothing. -/
def taken (i : Instruction) (next : Option Instruction) : List (Instruction ⊕ Nat) :=
  if i.code = .call then
    if next.any (·.code = .storeMap) then [] else (i.operand.count?.map .inr).toList
  else if i.isValue then [.inl i]
  else []

/-- From `s` to `t` all that was pending has become the call `e`. It is found, in front of the calls
found before, unless it constructs an object: such a call is dropped, and this is logged. -/
structure Emits (isClass : String → Bool) (s t : Scan) (e : CallExpr) : Prop where
  pending : t.pending = []
  found : t.found = if e.isConstructor isClass then s.found else e :: s.found
  log : t.log = if e.isConstructor isClass then
    s.log ++ [⟨.trace, "dropping constructor call " ++ e.display⟩] else s.log

theorem emits_add (hs : s.pending = []) (e : CallExpr) : Emits isClass s (s.add isClass e) e := by
  unfold Scan.add
  split
  · next hclass => exact ⟨hs, by rw [if_pos hclass], by rw [if_pos hclass]⟩
  · next hclass => exact ⟨hs, by rw [if_neg hclass], by rw [if_neg hclass]⟩

/-- What is emitted does not depend on what was pending. -/
theorem Emits.of_pending {e : CallExpr} {pending : List CallExpr}
    (h : Emits isClass { s with pending := pending } t e) : Emits isClass s t e :=
  ⟨h.pending, h.found, h.log⟩

/-- From `s` to `t` something has been taken, and it is all there with what was pending: it is
pending, in front of that, or all together has become one whole call, which is emitted. -/
def KeepsAll (isClass : String → Bool) (s t : Scan) (taken : List (Instruction ⊕ Nat)) : Prop :=
  (t.content = taken ++ s.content ∧ t.found = s.found) ∨
    ∃ e : CallExpr, e.Whole ∧ e.toArgument.spelling = taken ++ s.content ∧ Emits isClass s t e

/-- What is delivered goes in front of what is pending, or completes it. -/
theorem Sound.keepsAll_deliver (h : s.Sound isClass) {a : Argument}
    (ha : s.pending ≠ [] ∨ ∃ e : CallExpr, e.Whole ∧ a = e.toArgument) :
    KeepsAll isClass s (s.deliver isClass a) a.spelling := by
  obtain ⟨pending, found, log⟩ := s
  induction pending generalizing a with
  | nil =>
    obtain ⟨e, he, rfl⟩ := ha.resolve_left (by simp)
    exact Or.inr ⟨e, he, by simp [content], emits_add rfl e⟩
  | cons top outer ih =>
    obtain ⟨arity, known⟩ := top
    have hroom : known.length ≤ arity := h.room List.mem_cons_self
    rcases Nat.lt_or_eq_of_le hroom with hlt | heq
    · rw [deliver_of_lt rfl hlt]
      exact Or.inl ⟨by simp [content, CallExpr.toArgument, Argument.spelling, spellings], rfl⟩
    · have hwhole : (⟨arity, a :: known⟩ : CallExpr).Whole :=
        CallExpr.whole_iff.2 (by simp [CallExpr.isComplete, heq])
      have hspelling : (Argument.call arity (a :: known)).spelling ++ content ⟨outer, found, log⟩
          = a.spelling ++ content ⟨⟨arity, known⟩ :: outer, found, log⟩ := by
        simp [content, CallExpr.toArgument, Argument.spelling, spellings]
      rw [deliver_of_eq rfl heq]
      rcases ih (a := .call arity (a :: known)) h.tail (Or.inr ⟨_, hwhole, rfl⟩) with
        ⟨hcontent, hfound⟩ | ⟨e, he, hcontent, hemits⟩
      · exact Or.inl ⟨hcontent.trans hspelling, hfound⟩
      · exact Or.inr ⟨e, he, hcontent.trans hspelling, hemits.of_pending⟩

/-- While a call is pending, an instruction loses nothing. -/
theorem Sound.keepsAll_step {index : Nat} {i : Instruction} {next : Option Instruction}
    (h : s.Sound isClass) (hs : s.pending ≠ []) (hstep : s.step isClass index i next = .ok t) :
    KeepsAll isClass s t (taken i next) := by
  rcases step_cases hstep with ⟨rfl, hidle⟩ | ⟨arity, hcall, hstored, hcount, rfl⟩ |
    ⟨hcall, hvalue, rfl⟩
  · have htaken : taken i next = [] := by
      rcases hidle with ⟨hcall, hstored⟩ | ⟨hcall, hvalue⟩
      · rw [taken, if_pos hcall, if_pos hstored]
      · simp [taken, hcall, hvalue]
    rw [htaken]
    exact Or.inl ⟨rfl, rfl⟩
  · rw [taken, if_pos hcall, if_neg hstored, hcount]
    exact Or.inl ⟨rfl, rfl⟩
  · rw [taken, if_neg hcall, if_pos hvalue, feed_eq_deliver]
    exact h.keepsAll_deliver (a := .value i) (Or.inl hs)

/-! ### Wherever a scan passes -/

/-- A scan of `ops` passes through the state `s`: it is there once it has read some of the
instructions, from the end on. -/
def Passes (isClass : String → Bool) (ops : List Instruction) (s : Scan) : Prop :=
  ∃ front rest, ops = front ++ rest ∧ run isClass front.length rest = .ok s

/-- **The state of a scan** is sound wherever it passes. Hence no call is given a part for which it
has no room, and while a call is pending no value and no call is lost. -/
theorem sound_of_passes (isClass : String → Bool) (ops : List Instruction) (s : Scan)
    (h : Passes isClass ops s) :
    s.Sound isClass ∧ (∀ i, s.feed? isClass i = some (s.feed isClass i)) ∧
      (s.pending ≠ [] → ∀ index i next t, s.step isClass index i next = .ok t →
        KeepsAll isClass s t (taken i next)) := by
  obtain ⟨front, rest, -, hrun⟩ := h
  have hsound := sound_of_run hrun
  refine ⟨hsound, hsound.feed?_eq, ?_⟩
  intro hs index i next t hstep
  exact hsound.keepsAll_step hs hstep

/-- `f(x, g(h(), y))`. -/
def nestedPending : List Instruction :=
  [⟨.loadName, .text "f"⟩, ⟨.loadFast, .text "x"⟩, ⟨.loadName, .text "g"⟩, ⟨.loadName, .text "h"⟩,
    ⟨.call, .int 0⟩, ⟨.loadFast, .text "y"⟩, ⟨.call, .int 2⟩, ⟨.call, .int 2⟩]

/-- The state of a scan of `nestedPending` before it reads `g`: the call of `g` lacks its callee,
and the call of `f` lacks everything. -/
def beforeCallee : Scan where
  pending :=
    [⟨2, [.call 0 [.value ⟨.loadName, .text "h"⟩], .value ⟨.loadFast, .text "y"⟩]⟩, ⟨2, []⟩]

/-- The call of `g` in `nestedPending`. -/
def innerCall : CallExpr :=
  ⟨2, [.value ⟨.loadName, .text "g"⟩, .call 0 [.value ⟨.loadName, .text "h"⟩],
    .value ⟨.loadFast, .text "y"⟩]⟩

/-- The state of a scan of `nestedPending` before it reads `f`, the callee of the outer call. -/
def beforeOuterCallee : Scan where
  pending := [⟨2, [.value ⟨.loadFast, .text "x"⟩, innerCall.toArgument]⟩]

/-- The value `g` completes the inner call, and what was pending is all there: it is pending in the
outer call. The value `f` completes the outer call, and this one is found. -/
theorem sound_of_passes_beforeCallee :
    Passes (· == "Widget") nestedPending beforeCallee ∧ beforeCallee.Sound (· == "Widget") ∧
      (∀ i, beforeCallee.feed? (· == "Widget") i = some (beforeCallee.feed (· == "Widget") i)) ∧
      (∃ t, beforeCallee.step (· == "Widget") 2 ⟨.loadName, .text "g"⟩
          (some ⟨.loadName, .text "h"⟩) = .ok t ∧ t.pending.length = 1 ∧
        KeepsAll (· == "Widget") beforeCallee t [.inl ⟨.loadName, .text "g"⟩]) ∧
      Passes (· == "Widget") nestedPending beforeOuterCallee ∧
      ∃ t, beforeOuterCallee.step (· == "Widget") 0 ⟨.loadName, .text "f"⟩
          (some ⟨.loadFast, .text "x"⟩) = .ok t ∧ t.pending = [] ∧
        t.found = [⟨2, [.value ⟨.loadName, .text "f"⟩, .value ⟨.loadFast, .text "x"⟩,
          innerCall.toArgument]⟩] ∧
        KeepsAll (· == "Widget") beforeOuterCallee t [.inl ⟨.loadName, .text "f"⟩] := by
  have hpasses : Passes (· == "Widget") nestedPending beforeCallee :=
    ⟨nestedPending.take 3, nestedPending.drop 3, rfl, rfl⟩
  have hpasses' : Passes (· == "Widget") nestedPending beforeOuterCallee :=
    ⟨nestedPending.take 1, nestedPending.drop 1, rfl, rfl⟩
  obtain ⟨hsound, hroom, hkeeps⟩ :=
    sound_of_passes (· == "Widget") nestedPending beforeCallee hpasses
  obtain ⟨-, -, hkeeps'⟩ :=
    sound_of_passes (· == "Widget") nestedPending beforeOuterCallee hpasses'
  have hkept := hkeeps (by simp [beforeCallee]) 2 ⟨.loadName, .text "g"⟩
    (some ⟨.loadName, .text "h"⟩) _ rfl
  have hkept' := hkeeps' (by simp [beforeOuterCallee]) 0 ⟨.loadName, .text "f"⟩
    (some ⟨.loadFast, .text "x"⟩) _ rfl
  exact ⟨hpasses, hsound, hroom, ⟨_, rfl, rfl, hkept⟩, hpasses', _, rfl, rfl, rfl, hkept'⟩

end Scan

end CallerFirst
