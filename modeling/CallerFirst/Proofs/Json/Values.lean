import CallerFirst.Proofs.Json.Containers
import Mathlib.Algebra.Ring.Int.Defs
import Mathlib.Tactic.Common

/-!
# Reading any value

* `restores_null`, `restores_integer`, `restores_text`, `restores_array`: what the reader of any
  value restores;
* `Refuses`: a reader refuses a text, whatever ends it;
* `refuses_array`: a value is refused when it opens one container too many, and an array is refused
  with the first of its elements that is.
-/

namespace CallerFirst.Json

variable {style : Style} {depth : Nat}

/-! ### Whole numbers -/

/-- A whole number of at most 64 bits, with its sign, is read back from its digits. -/
theorem readNumber_writeInt {n : Int} (hlow : -2 ^ 63 ≤ n) (hhigh : n < 2 ^ 64) {cs : List Char}
    (hcs : Ends cs) : readNumber (writeInt n ++ cs) = .ok (.integer n, cs) := by
  have hlimit : significandLimit = 2 ^ 64 := rfl
  cases n with
  | ofNat n =>
    rw [Int.ofNat_eq_natCast] at hhigh
    exact readNumber_toDigits (by omega) hcs
  | negSucc n =>
    have hwhole : wholeNumber true (n + 1) = .ok (.integer (.negSucc n)) := by
      have hfits : n + 1 ≠ 0 ∧ n + 1 ≤ Nat.pow 2 63 := by
        refine ⟨Nat.succ_ne_zero n, ?_⟩
        have : Nat.pow 2 63 = 2 ^ 63 := rfl
        omega
      rw [wholeNumber, if_neg (by simp), if_pos hfits]
      rfl
    show readMagnitude true (Nat.toDigits 10 (n + 1) ++ cs) = _
    rw [readMagnitude_toDigits (by omega) true hcs, hwhole]
    rfl

/-! ### What is restored -/

/-- A value that starts with a sign or a digit is read as a number. -/
theorem value_number {c : Char} (hc : c = '-' ∨ c.isDigit = true) {blanks : List Char}
    (h : Blank blanks) (hblank : isBlank c = false) (cs : List Char) :
    Reader.value depth (blanks ++ c :: cs) = readNumber (c :: cs) := by
  rw [Reader.value, h.skip_append_cons hblank]
  split
  case h_1 heq => cases heq
  case h_8 heq =>
    cases heq
    rw [if_pos hc]
  all_goals
    next heq =>
    cases heq
    exact absurd hc (by decide)

/-- An array is read element by element, with one container less to open. -/
theorem value_array {blanks : List Char} (h : Blank blanks) (cs : List Char) :
    Reader.value (depth + 1) (blanks ++ '[' :: cs)
      = (readElements (Reader.value depth) ('[' :: cs) true [] cs).map
          fun (items, rest) => (.array items, rest) := by
  rw [Reader.value, h.skip_append_cons rfl]
  rfl

theorem value_array_zero {blanks : List Char} (h : Blank blanks) (cs : List Char) :
    Reader.value 0 (blanks ++ '[' :: cs) = .error .malformed := by
  rw [Reader.value, h.skip_append_cons rfl]
  rfl

theorem restores_null (depth : Nat) : Restores style (Reader.value depth) .null .null := by
  intro level
  refine .of_opening rfl (show 'n' ≠ ']' by decide) fun cs _ => ⟨"ull".toList ++ cs, rfl, ?_⟩
  intro blanks hblanks
  rw [Reader.value, hblanks.skip_append_cons rfl]
  rfl

theorem restores_text (depth : Nat) (s : String) :
    Restores style (Reader.value depth) (.string s) (.string s) := by
  intro level
  refine .of_opening rfl (show '"' ≠ ']' by decide) fun cs _ => ?_
  refine ⟨s.toList.flatMap escapeChar ++ '"' :: cs, by simp [writeAt_string, writeString], ?_⟩
  intro blanks hblanks
  rw [Reader.value, hblanks.skip_append_cons rfl]
  show (readString _).map _ = _
  rw [readString_escaped]
  rfl

theorem restores_integer (depth : Nat) {n : Int} (hlow : -2 ^ 63 ≤ n) (hhigh : n < 2 ^ 64) :
    Restores style (Reader.value depth) (.integer n) (.integer n) := by
  intro level
  obtain ⟨c, digits, hdigits, hc, hblank, hclosing⟩ : ∃ c digits, writeInt n = c :: digits ∧
      (c = '-' ∨ c.isDigit = true) ∧ isBlank c = false ∧ c ≠ ']' := by
    cases n with
    | ofNat n =>
      obtain ⟨c, digits, hdigits, hc⟩ := exists_toDigits_eq_cons n
      obtain ⟨hblank, -, hclosing⟩ := ne_of_isDigit hc
      exact ⟨c, digits, hdigits, Or.inr hc, hblank, hclosing⟩
    | negSucc n => exact ⟨'-', _, rfl, Or.inl rfl, rfl, by decide⟩
  refine .of_opening hblank hclosing fun cs hcs => ⟨digits ++ cs, ?_, fun blanks hblanks => ?_⟩
  · rw [← List.cons_append, ← hdigits]
    rfl
  · rw [value_number hc hblanks hblank, ← List.cons_append, ← hdigits]
    exact readNumber_writeInt hlow hhigh hcs

theorem restores_array (hstyle : style.Spaced) {items : List Json}
    (h : ∀ x ∈ items, Restores style (Reader.value depth) x x) :
    Restores style (Reader.value (depth + 1)) (.array items) (.array items) := by
  intro level
  have hitems : List.Forall₂ (ReadsBack (Reader.value depth))
      (writeElements style (level + 1) items) items := by
    rw [writeElements_eq_map, List.forall₂_map_left_iff]
    exact List.forall₂_same.2 fun x hx => h x hx (level + 1)
  refine .of_opening rfl (show '[' ≠ ']' by decide) fun cs _ => ?_
  obtain ⟨text, htext, hread⟩ := readElements_writeItems hstyle hitems level cs
  refine ⟨text, htext, fun blanks hblanks => ?_⟩
  rw [value_array hblanks, hread]
  rfl

/-! ### What is refused -/

section Refusing

variable {α : Type} {read : List Char → Outcome α} {fault : Fault}

/-- A reader refuses a text with a fault, after blanks and before whatever ends a value. -/
structure Refuses (read : List Char → Outcome α) (text : List Char) (fault : Fault) : Prop where
  begins : ∃ c cs, text = c :: cs ∧ isBlank c = false ∧ c ≠ ']'
  fails : ∀ blanks cs, Blank blanks → Ends cs → read (blanks ++ (text ++ cs)) = .error fault

/-- It is enough to read the text from its first character on. -/
theorem Refuses.of_opening {text : List Char} {opening : Char} (hblank : isBlank opening = false)
    (hclosing : opening ≠ ']')
    (h : ∀ cs, ∃ rest, text ++ cs = opening :: rest ∧
      ∀ blanks, Blank blanks → read (blanks ++ opening :: rest) = .error fault) :
    Refuses read text fault := by
  constructor
  · obtain ⟨rest, hrest, -⟩ := h []
    rw [List.append_nil] at hrest
    exact ⟨opening, rest, hrest, hblank, hclosing⟩
  · intro blanks cs hblanks _
    obtain ⟨rest, hrest, hread⟩ := h cs
    rw [hrest]
    exact hread blanks hblanks

theorem Refuses.run {reader : Reader α} {json : Json}
    (h : Refuses (reader depth) (json.writeAt style 0) fault) :
    reader.run depth (json.write style) = .error fault := by
  have hread : reader depth (json.writeAt style 0) = .error fault := by
    simpa using h.fails [] [] Blank.nil (by simp [Ends])
  rw [Reader.run, write, String.toList_ofList, hread]

/-- An element is read back, or it is refused. -/
def Answers (read : List Char → Outcome α) (fault : Fault) (item : List Char) : Prop :=
  (∃ value, ReadsBack read item value) ∨ Refuses read item fault

theorem Answers.begins {item : List Char} (h : Answers read fault item) :
    ∃ c cs, item = c :: cs ∧ isBlank c = false ∧ c ≠ ']' := by
  rcases h with ⟨value, h⟩ | h
  · exact h.begins
  · exact h.begins

theorem readElements_fault {b : Char} {bound cs rest : List Char} {first : Bool} {done : List α}
    (hnext : nextElement first cs = .ok (.element rest)) (hread : read rest = .error fault) :
    readElements read (b :: bound) first done cs = .error fault := by
  simp only [readElements, hnext, hread]

/-- Of the elements from `item` on, those before the first one that is refused are read, and that
one ends the reading. -/
theorem readElements_refused (hstyle : style.Spaced) {level : Nat} {item : List Char}
    {items : List (List Char)} (h : ∀ x ∈ item :: items, Answers read fault x)
    (hrefused : ∃ x ∈ item :: items, Refuses read x fault) {bound : List Char}
    (hbound : items.length < bound.length) {first : Bool} {text cs : List Char}
    (hnext : nextElement first text
      = .ok (.element (item ++ (afterFirst style level ']' items ++ cs)))) (done : List α) :
    readElements read bound first done text = .error fault := by
  induction items generalizing item bound first text done with
  | nil =>
    obtain ⟨b, bound, rfl⟩ := List.exists_cons_of_length_pos hbound
    obtain ⟨x, hx, hfails⟩ := hrefused
    rw [List.mem_singleton.1 hx] at hfails
    exact readElements_fault hnext
      (hfails.fails [] _ Blank.nil (ends_afterFirst hstyle (Or.inl rfl)))
  | cons next items ih =>
    obtain ⟨b, bound, rfl⟩ := List.exists_cons_of_length_pos (Nat.zero_lt_of_lt hbound)
    obtain ⟨hitem, hitems⟩ := List.forall_mem_cons.1 h
    have hends : Ends (afterFirst style level ']' (next :: items) ++ cs) :=
      ends_afterFirst hstyle (Or.inl rfl)
    by_cases hfirst : Refuses read item fault
    · exact readElements_fault hnext (hfirst.fails [] _ Blank.nil hends)
    · obtain ⟨value, hvalue⟩ := hitem.resolve_right hfirst
      obtain ⟨c, rest, rfl, hc, hclosing⟩ := (hitems next List.mem_cons_self).begins
      rw [readElements_element hnext (hvalue.reads [] _ Blank.nil hends)]
      refine ih hitems ?_ (Nat.lt_of_succ_lt_succ hbound) ?_ _
      · obtain ⟨x, hx, hfails⟩ := hrefused
        rcases List.mem_cons.1 hx with rfl | hx
        · exact absurd hfails hfirst
        · exact ⟨x, hx, hfails⟩
      · rw [afterFirst_cons_append, List.cons_append]
        exact nextElement_comma (hstyle.lineBreak _) hc hclosing

theorem readElements_writeItems_refused (hstyle : style.Spaced) {items : List (List Char)}
    (h : ∀ x ∈ items, Answers read fault x) (hrefused : ∃ x ∈ items, Refuses read x fault)
    (level : Nat) (cs : List Char) :
    ∃ text, writeItems style level '[' ']' items ++ cs = '[' :: text ∧
      readElements read ('[' :: text) true [] text = .error fault := by
  cases items with
  | nil => simp at hrefused
  | cons item items =>
    refine ⟨_, writeItems_cons_append '[', ?_⟩
    obtain ⟨c, text, rfl, hc, hclosing⟩ := (h item List.mem_cons_self).begins
    refine readElements_refused hstyle h hrefused ?_ (nextElement_first (hstyle.lineBreak _) hc
      hclosing) []
    refine Nat.lt_of_lt_of_le (length_lt_afterFirst style level ']' items cs) ?_
    simp only [List.length_append, List.length_cons]
    omega

end Refusing

/-- No array may be opened when no container may. -/
theorem refuses_array_zero (style : Style) (level : Nat) (items : List Json) :
    Refuses (Reader.value 0) ((array items).writeAt style level) .malformed := by
  refine .of_opening rfl (show '[' ≠ ']' by decide) fun cs => ?_
  cases items with
  | nil => exact ⟨_, rfl, fun blanks hblanks => value_array_zero hblanks _⟩
  | cons item items =>
    exact ⟨_, writeItems_cons_append '[', fun blanks hblanks => value_array_zero hblanks _⟩

/-- An array is refused with the first of its elements that is. -/
theorem refuses_array (hstyle : style.Spaced) {level : Nat} {items : List Json} {fault : Fault}
    (h : ∀ x ∈ items, Answers (Reader.value depth) fault (x.writeAt style (level + 1)))
    (hrefused : ∃ x ∈ items, Refuses (Reader.value depth) (x.writeAt style (level + 1)) fault) :
    Refuses (Reader.value (depth + 1)) ((array items).writeAt style level) fault := by
  obtain ⟨hanswers, hfails⟩ :
      (∀ x ∈ writeElements style (level + 1) items, Answers (Reader.value depth) fault x) ∧
        ∃ x ∈ writeElements style (level + 1) items, Refuses (Reader.value depth) x fault := by
    rw [writeElements_eq_map]
    exact ⟨List.forall_mem_map.2 h, by simpa using hrefused⟩
  refine .of_opening rfl (show '[' ≠ ']' by decide) fun cs => ?_
  obtain ⟨text, htext, hread⟩ := readElements_writeItems_refused hstyle hanswers hfails level cs
  refine ⟨text, htext, fun blanks hblanks => ?_⟩
  rw [value_array hblanks, hread]
  rfl

end CallerFirst.Json
