import CallerFirst.Proofs.Rewriting
import CallerFirst.Proofs.RoundTrip
import CallerFirst.Proofs.Shape
import Mathlib.Tactic.Common

/-!
# Calls whose result goes into a map

A call right before a store into a map is no call of its own. To say so, such calls are blanked:
replaced by an instruction that means nothing.

* `blankCalls`: blanks the calls after which a condition holds;
* `collapses_blankStored`: blanking gets along with collapsing, so that it may come before or after
  the pass (`foldl_push_blankStored`);
* `callSites?_blankStored`: a scan does not tell a blanked sequence from the sequence itself;
* `ofBody?_blankCalls`: nor does discovery, as long as the last call of a body is kept. What follows
  the last call is cut off before anybody looks at it.
-/

namespace CallerFirst

/-- Replaces each call by an instruction that means nothing when `blanked` holds of what comes after
it. -/
def blankCalls (blanked : List Instruction → Bool) (operand : Operand) :
    List Instruction → List Instruction
  | [] => []
  | i :: rest =>
    (if i.code = .call ∧ blanked rest then ⟨.other, operand⟩ else i)
      :: blankCalls blanked operand rest

/-- Whether a sequence starts with a store into a map. -/
def startsWithStore (ops : List Instruction) : Bool := ops.head?.any (·.code = .storeMap)

/-- Whether the result of a call goes into a map, line markers apart. -/
def goesIntoMap (rest : List Instruction) : Bool := startsWithStore (withoutMarkers rest)

/-- Whether the result of a call goes into a map and the call is not the last one. -/
def goesIntoMapEarlier (rest : List Instruction) : Bool :=
  goesIntoMap rest && rest.any (·.code = .call)

/-- Whether the result of the last call of a body goes into a map. -/
def lastCallGoesIntoMap : List Instruction → Bool
  | [] => false
  | i :: rest =>
    if rest.any (·.code = .call) then lastCallGoesIntoMap rest
    else i.code = .call && goesIntoMap rest

/-- Blanks each call that is right before a store into a map. -/
def blankStored (operand : Operand) : List Instruction → List Instruction :=
  blankCalls startsWithStore operand

theorem blankStored_cons (operand : Operand) (i : Instruction) (rest : List Instruction) :
    blankStored operand (i :: rest)
      = (if i.code = .call ∧ startsWithStore rest then ⟨.other, operand⟩ else i)
        :: blankStored operand rest := rfl

/-! ### Blanking and line markers -/

section Blanking

variable (blanked : List Instruction → Bool) (operand : Operand)

theorem blankCalls_cons_of_ne_call {i : Instruction} (h : i.code ≠ .call)
    (rest : List Instruction) :
    blankCalls blanked operand (i :: rest) = i :: blankCalls blanked operand rest := by
  rw [blankCalls, if_neg fun hcall => h hcall.1]

theorem blankCalls_append_of_ne_call {ops : List Instruction} (h : ∀ i ∈ ops, i.code ≠ .call)
    (rest : List Instruction) :
    blankCalls blanked operand (ops ++ rest) = ops ++ blankCalls blanked operand rest := by
  induction ops with
  | nil => rfl
  | cons i ops ih =>
    rw [List.cons_append, blankCalls_cons_of_ne_call blanked operand (h i List.mem_cons_self),
      ih fun j hj => h j (List.mem_cons_of_mem i hj), List.cons_append]

theorem blankCalls_of_ne_call {ops : List Instruction} (h : ∀ i ∈ ops, i.code ≠ .call) :
    blankCalls blanked operand ops = ops := by
  simpa [blankCalls] using blankCalls_append_of_ne_call blanked operand h []

theorem withoutMarkers_cons (i : Instruction) (body : List Instruction) :
    withoutMarkers (i :: body)
      = if i.code = .lineMarker then withoutMarkers body else i :: withoutMarkers body := by
  by_cases h : i.code = .lineMarker <;> simp [withoutMarkers, h]

/-- Line markers may be taken out before or after blanking. -/
theorem withoutMarkers_blankCalls {blanked blanked' : List Instruction → Bool}
    (h : ∀ rest, blanked rest = blanked' (withoutMarkers rest)) (body : List Instruction) :
    withoutMarkers (blankCalls blanked operand body)
      = blankCalls blanked' operand (withoutMarkers body) := by
  induction body with
  | nil => rfl
  | cons i body ih =>
    by_cases hmarker : i.code = .lineMarker
    · have hcall : i.code ≠ .call := by simp [hmarker]
      rw [blankCalls_cons_of_ne_call blanked operand hcall, withoutMarkers_cons,
        withoutMarkers_cons, if_pos hmarker, if_pos hmarker, ih]
    · rw [withoutMarkers_cons i, if_neg hmarker, blankCalls, blankCalls, withoutMarkers_cons, ih, h]
      by_cases hblank : i.code = .call ∧ blanked' (withoutMarkers body) = true
      · simp [hblank]
      · simp [hblank, hmarker]

/-- The condition of `goesIntoMapEarlier` for sequences without line markers. -/
def startsWithStoreEarlier (ops : List Instruction) : Bool :=
  startsWithStore ops && ops.any (·.code = .call)

theorem goesIntoMapEarlier_eq (rest : List Instruction) :
    goesIntoMapEarlier rest = startsWithStoreEarlier (withoutMarkers rest) := by
  have hany : rest.any (·.code = .call) = (withoutMarkers rest).any (·.code = .call) := by
    rw [Bool.eq_iff_iff]
    simp only [List.any_eq_true, mem_withoutMarkers, decide_eq_true_eq]
    constructor
    · rintro ⟨i, hi, hcall⟩
      exact ⟨i, ⟨hi, by simp [hcall]⟩, hcall⟩
    · rintro ⟨i, ⟨hi, -⟩, hcall⟩
      exact ⟨i, hi, hcall⟩
  rw [goesIntoMapEarlier, goesIntoMap, hany, startsWithStoreEarlier]

/-! ### The cut of a blanked body -/

theorem startsWithStore_of_ne {i : Instruction} (h : i.code ≠ .storeMap) (rest : List Instruction) :
    startsWithStore (i :: rest) = false := by
  simp [startsWithStore, h]

theorem startsWithStore_append {rest : List Instruction} (h : startsWithStore rest = false)
    (ops : List Instruction) : startsWithStore (ops ++ rest) = startsWithStore ops := by
  cases ops with
  | nil => exact h
  | cons i ops => rfl

theorem blankStored_append {rest : List Instruction} (h : startsWithStore rest = false)
    (ops : List Instruction) :
    blankStored operand (ops ++ rest) = blankStored operand ops ++ blankStored operand rest := by
  induction ops with
  | nil => rfl
  | cons i ops ih =>
    rw [List.cons_append, blankStored_cons, blankStored_cons, startsWithStore_append h, ih,
      List.cons_append]

/-- All that is blanked of a sequence comes before its last call. -/
theorem blankCalls_before_last {last : Instruction} (hlast : last.code = .call)
    {tail : List Instruction} (htail : ∀ i ∈ tail, i.code ≠ .call) (ops : List Instruction) :
    blankCalls startsWithStoreEarlier operand (ops ++ last :: tail)
      = blankStored operand ops ++ last :: tail := by
  induction ops with
  | nil =>
    have hkept : ¬ (last.code = .call ∧ startsWithStoreEarlier tail = true) := by
      rintro ⟨-, hearlier⟩
      obtain ⟨i, hi, hcall⟩ := List.any_eq_true.1 (Bool.and_eq_true_iff.1 hearlier).2
      exact htail i hi (of_decide_eq_true hcall)
    rw [List.nil_append, blankCalls, if_neg hkept, blankCalls_of_ne_call _ _ htail]
    rfl
  | cons i ops ih =>
    have hstart : startsWithStore (last :: tail) = false :=
      startsWithStore_of_ne (by simp [hlast]) tail
    have hearlier : startsWithStoreEarlier (ops ++ last :: tail) = startsWithStore ops := by
      rw [startsWithStoreEarlier, startsWithStore_append hstart]
      simp [hlast]
    rw [List.cons_append, blankCalls, ih, hearlier, blankStored_cons, List.cons_append]

theorem cut_blankCalls {body ops : List Instruction} (h : CutAfterLastCall body ops) :
    CutAfterLastCall (blankCalls goesIntoMapEarlier operand body) (blankStored operand ops) := by
  obtain ⟨before, last, after, rfl, hlast, hafter, rfl⟩ := h
  have hmarked : withoutMarkers (last :: after) = last :: withoutMarkers after := by
    rw [withoutMarkers_cons, if_neg (by simp [hlast])]
  have hrest : ∀ i ∈ withoutMarkers after, i.code ≠ .call := fun i hi =>
    hafter i (mem_withoutMarkers.1 hi).1
  have hbody : withoutMarkers (blankCalls goesIntoMapEarlier operand (before ++ last :: after))
      = blankStored operand (withoutMarkers before) ++ last :: withoutMarkers after := by
    rw [withoutMarkers_blankCalls operand goesIntoMapEarlier_eq, withoutMarkers_append, hmarked,
      blankCalls_before_last operand hlast hrest]
  have hops : blankStored operand (withoutMarkers (before ++ [last]))
      = blankStored operand (withoutMarkers before) ++ [last] := by
    have hone : withoutMarkers [last] = [last] := by
      rw [withoutMarkers_cons, if_neg (by simp [hlast])]
      rfl
    have hstart : startsWithStore [last] = false := startsWithStore_of_ne (by simp [hlast]) []
    have hkept : blankStored operand [last] = [last] := by
      simp [blankStored, blankCalls, startsWithStore]
    rw [withoutMarkers_append, hone, blankStored_append operand hstart, hkept]
  show CutAfterLastCall _ (blankStored operand (withoutMarkers (before ++ [last])))
  rw [hops]
  exact cut_of_withoutMarkers hbody hlast hrest

/-! ### Blanking and collapsing -/

theorem collapses_blankStored {ops ops' : List Instruction} (h : Collapses ops ops') :
    Collapses (blankStored operand ops) (blankStored operand ops') := by
  obtain ⟨n, hn⟩ := h
  obtain ⟨before, values, after, i, c, hc, hlen, hall, -, rfl, rfl⟩ := collapseAt?_eq_some_iff.1 hn
  -- Neither what is collapsed nor what it is collapsed to is a call or a store.
  have hmerge := Collapse.isValue_merge hc values
  obtain ⟨hcall, hstore⟩ := Instruction.code_ne_of_collapse? hc
  have hvalues : ∀ v ∈ values, v.code ≠ .call := fun v hv =>
    Instruction.code_ne_of_isValue (hall v hv) rfl
  have hstart : startsWithStore (values ++ i :: after) = false := by
    cases values with
    | nil => exact startsWithStore_of_ne hstore after
    | cons v values =>
      exact startsWithStore_of_ne
        (Instruction.code_ne_of_isValue (hall v List.mem_cons_self) rfl) _
  have hstart' : startsWithStore (c.merge values i :: after) = false :=
    startsWithStore_of_ne (Instruction.code_ne_of_isValue hmerge rfl) after
  rw [blankStored_append operand hstart, blankStored_append operand hstart', blankStored,
    blankCalls_append_of_ne_call _ _ hvalues, blankCalls_cons_of_ne_call _ _ hcall,
    blankCalls_cons_of_ne_call _ _ (Instruction.code_ne_of_isValue hmerge rfl)]
  exact ⟨_, collapseAt?_eq_some_iff.2
    ⟨_, values, _, i, c, hc, hlen, hall, rfl, rfl, rfl⟩⟩

/-- Whether a stack is settled depends only on what its instructions collapse and on which of them
are values. -/
theorem Pass.Settled.congr {done done' : List Instruction}
    (h : done.map (fun i => (i.collapse?, i.isValue)) = done'.map fun i => (i.collapse?, i.isValue))
    (hsettled : Settled done) : Settled done' := by
  rintro i rest ⟨front, rfl⟩ c hc hready
  rw [List.map_append, List.map_cons] at h
  obtain ⟨front', back, rfl, -, hback⟩ := List.map_eq_append_iff.1 h
  obtain ⟨j, below, rfl, hj, hbelow⟩ := List.map_eq_cons_iff.1 hback
  have hcollapse : j.collapse? = some c := by
    rw [← hc]
    exact congrArg Prod.fst hj
  have hvalues : below.map Instruction.isValue = rest.map Instruction.isValue := by
    simpa [Function.comp_def] using congrArg (List.map Prod.snd) hbelow
  refine hsettled j below (List.suffix_append front' _) c hcollapse ?_
  obtain ⟨hlen, hall⟩ := hready
  constructor
  · have := congrArg List.length hvalues
    simp only [List.length_map, List.length_take] at this hlen ⊢
    omega
  · have := congrArg (fun l => (l.take c.width).all id) hvalues
    simp only [← List.map_take, List.all_map] at this
    simpa using this.trans hall

theorem map_blankStored (ops : List Instruction) :
    (blankStored operand ops).map (fun i => (i.collapse?, i.isValue))
      = ops.map fun i => (i.collapse?, i.isValue) := by
  induction ops with
  | nil => rfl
  | cons i ops ih =>
    rw [blankStored_cons, List.map_cons, List.map_cons, ih]
    split
    · next hcall =>
      obtain ⟨code, operand'⟩ := i
      cases hcall.1
      rfl
    · rfl

/-- The pass may be made before or after blanking. -/
theorem foldl_push_blankStored (ops : List Instruction) :
    ((blankStored operand ops).foldl Pass.push []).reverse
      = blankStored operand (ops.foldl Pass.push []).reverse := by
  have hcollapses : Relation.ReflTransGen Collapses (blankStored operand ops)
      (blankStored operand (ops.foldl Pass.push []).reverse) :=
    Relation.ReflTransGen.lift (blankStored operand) (fun _ _ => collapses_blankStored operand) _ _
      (by simpa using collapses_foldl_push ops [])
  have hsettled : Pass.Settled (blankStored operand (ops.foldl Pass.push []).reverse).reverse := by
    refine Pass.Settled.congr ?_ (Pass.settled_foldl_push ops Pass.settled_nil)
    rw [List.map_reverse, map_blankStored, List.map_reverse, List.reverse_reverse]
  have hpass := Pass.foldl_push_of_settled hsettled
  rw [List.reverse_reverse, foldl_push_of_reflTransGen hcollapses] at hpass
  rw [hpass, List.reverse_reverse]

/-! ### Blanking and scanning -/

theorem startsWithStore_blankStored (ops : List Instruction) :
    startsWithStore (blankStored operand ops) = startsWithStore ops := by
  cases ops with
  | nil => rfl
  | cons i ops =>
    rw [blankStored_cons]
    split
    · next hcall => simp [startsWithStore, hcall.1]
    · rfl

theorem Scan.run_blankStored (isClass : String → Bool) (ops : List Instruction) (index : Nat) :
    run isClass index (blankStored operand ops) = run isClass index ops := by
  induction ops generalizing index with
  | nil => rfl
  | cons i ops ih =>
    have hnext := startsWithStore_blankStored operand ops
    rw [blankStored_cons, run, run, ih]
    split
    · rfl
    · next s hs =>
      split
      · next hblank =>
        -- Both the call and what it is replaced by are passed over.
        obtain ⟨hcall, hstored⟩ := hblank
        rw [step, if_neg (by simp), step, if_pos hcall]
        exact (if_pos hstored).symm
      · unfold startsWithStore at hnext
        rw [step, step, hnext]

theorem callSites?_blankStored (isClass : String → Bool) (ops : List Instruction) :
    callSites? isClass (blankStored operand ops) = callSites? isClass ops := by
  rw [callSites?, callSites?, Scan.run_blankStored]

/-! ### Blanking and discovery -/

theorem ofBody?_blankCalls_earlier (isClass : String → Bool) (body : List Instruction) :
    CallSites.ofBody? isClass (blankCalls goesIntoMapEarlier operand body)
      = CallSites.ofBody? isClass body := by
  by_cases hcall : ∃ i ∈ body, i.code = .call
  · obtain ⟨ops, hcut⟩ := exists_cut hcall
    rw [ofBody?_of_cut isClass hcut, ofBody?_of_cut isClass (cut_blankCalls operand hcut),
      foldl_push_blankStored, callSites?_blankStored]
  · rw [blankCalls_of_ne_call _ _ fun i hi hi' => hcall ⟨i, hi, hi'⟩]

theorem blankCalls_eq_of_last {body : List Instruction} (h : lastCallGoesIntoMap body = false) :
    blankCalls goesIntoMap operand body = blankCalls goesIntoMapEarlier operand body := by
  induction body with
  | nil => rfl
  | cons i body ih =>
    rw [lastCallGoesIntoMap] at h
    cases hany : body.any (·.code = .call) with
    | true =>
      rw [if_pos hany] at h
      rw [blankCalls, blankCalls, ih h, goesIntoMapEarlier, hany, Bool.and_true]
    | false =>
      have hnone : ∀ j ∈ body, j.code ≠ .call := by simpa using hany
      have hlast : ¬ (i.code = .call ∧ goesIntoMap body = true) := by
        rintro ⟨hcall, hmap⟩
        simp [hany, hcall, hmap] at h
      rw [blankCalls, blankCalls, if_neg hlast, goesIntoMapEarlier, hany, Bool.and_false,
        if_neg (by simp), blankCalls_of_ne_call _ _ hnone, blankCalls_of_ne_call _ _ hnone]

end Blanking

/-- **A call whose result goes into a map is no call.** Blanking each such call but the last call of
a body changes nothing in what is found; blanking all of them does not if the last call is none. -/
theorem ofBody?_blankCalls (isClass : String → Bool) (operand : Operand)
    (body : List Instruction) :
    CallSites.ofBody? isClass (blankCalls goesIntoMapEarlier operand body)
        = CallSites.ofBody? isClass body ∧
      (lastCallGoesIntoMap body = false →
        CallSites.ofBody? isClass (blankCalls goesIntoMap operand body)
          = CallSites.ofBody? isClass body) := by
  refine ⟨ofBody?_blankCalls_earlier operand isClass body, fun hlast => ?_⟩
  rw [blankCalls_eq_of_last operand hlast]
  exact ofBody?_blankCalls_earlier operand isClass body

/-- The key of a map is the result of `k()`, and then `g()` is called. -/
def keyedCalls : List Instruction :=
  [⟨.buildMap, .int 1⟩, ⟨.loadFast, .text "v"⟩, ⟨.loadName, .text "k"⟩, ⟨.call, .int 0⟩,
    ⟨.lineMarker, .int 2⟩, ⟨.storeMap, .missing⟩, ⟨.loadName, .text "g"⟩, ⟨.call, .int 0⟩]

theorem ofBody?_blankCalls_keyedCalls :
    lastCallGoesIntoMap keyedCalls = false ∧
      blankCalls goesIntoMap .missing keyedCalls ≠ keyedCalls ∧
      CallSites.ofBody? (fun _ => false) (blankCalls goesIntoMap .missing keyedCalls)
        = CallSites.ofBody? (fun _ => false) keyedCalls :=
  ⟨by decide, by decide, (ofBody?_blankCalls (fun _ => false) .missing keyedCalls).2 (by decide)⟩

/-- When the only call of a body is right before a store into a map, it is found all the same. -/
theorem ofBody?_finds_last_mapCall :
    ¬ ∀ (isClass : String → Bool) (operand : Operand) (body : List Instruction),
      (CallSites.ofBody? isClass (blankCalls goesIntoMap operand body)).map (·.calls)
        = (CallSites.ofBody? isClass body).map (·.calls) := by
  intro hall
  have hcalls := hall (fun _ => false) .missing
    [⟨.loadName, .text "f"⟩, ⟨.call, .int 0⟩, ⟨.storeMap, .missing⟩]
  have hlengths := congrArg (Option.map List.length) hcalls
  revert hlengths
  decide

end CallerFirst
