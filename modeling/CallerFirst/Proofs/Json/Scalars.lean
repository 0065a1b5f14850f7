import CallerFirst.Json.Reader
import Mathlib.Tactic.Common

/-!
# Strings and numbers in JSON text

What is written can be read back:

* `readString_escaped`: a string literal, whatever its characters;
* `readNumber_toDigits`: a whole number of at most 64 bits, as long as what follows does not
  continue it (`Ends`).
-/

namespace CallerFirst.Json

/-! ### Blanks -/

/-- A text of blank characters. -/
def Blank (cs : List Char) : Prop := ∀ c ∈ cs, isBlank c = true

/-- A text that cannot continue the value before it: it is empty, or it begins with a blank, a comma
or a closing bracket. -/
def Ends (cs : List Char) : Prop :=
  ∀ c ∈ cs.head?, isBlank c = true ∨ c = ',' ∨ c = ']' ∨ c = '\x7d'

theorem Blank.nil : Blank [] := by simp [Blank]

theorem Blank.skip_append {blanks : List Char} (h : Blank blanks) (cs : List Char) :
    skipBlanks (blanks ++ cs) = skipBlanks cs :=
  List.dropWhile_append_of_pos h

theorem skipBlanks_cons {c : Char} (h : isBlank c = false) (cs : List Char) :
    skipBlanks (c :: cs) = c :: cs := by
  simp [skipBlanks, h]

theorem Blank.skip_append_cons {blanks : List Char} (h : Blank blanks) {c : Char}
    (hc : isBlank c = false) (cs : List Char) : skipBlanks (blanks ++ c :: cs) = c :: cs := by
  rw [h.skip_append, skipBlanks_cons hc]

/-- Blanks before a text that ends a value end it as well. -/
theorem Blank.ends_append {blanks cs : List Char} (h : Blank blanks) (hcs : Ends cs) :
    Ends (blanks ++ cs) := by
  cases blanks with
  | nil => exact hcs
  | cons b blanks =>
    rintro c ⟨⟩
    exact Or.inl (h b List.mem_cons_self)

/-! ### Strings -/

theorem digitIn?_hexDigit (n : Nat) : digitIn? 16 (hexDigit n) = some (n % 16) := by
  have hall : ∀ m < 16, digitIn? 16 (Nat.digitChar m) = some m := by decide
  exact hall (n % 16) (Nat.mod_lt n (by decide))

/-- A control character is read back from the last two digits of its escape. -/
theorem readEscape_control {c : Char} (h : c.toNat < 0x20) (cs : List Char) :
    readEscape ('u' :: '0' :: '0' :: hexDigit (c.toNat / 16) :: hexDigit c.toNat :: cs)
      = .ok (c, cs) := by
  have hzero : digitIn? 16 '0' = some 0 := by decide
  have hhex : readHex ('0' :: '0' :: hexDigit (c.toNat / 16) :: hexDigit c.toNat :: cs)
      = .ok (c.toNat, cs) := by
    simp only [readHex, hzero, digitIn?_hexDigit]
    congr 2
    omega
  have hlow : ¬ (0xDC00 ≤ c.toNat ∧ c.toNat ≤ 0xDFFF) := by omega
  have hhigh : ¬ (0xD800 ≤ c.toNat ∧ c.toNat ≤ 0xDBFF) := by omega
  simp only [readEscape, hhex, if_neg hlow, if_neg hhigh, Char.ofNat_toNat]

theorem readChars_escape {c : Char} {cs rest : List Char} (h : readEscape cs = .ok (c, rest))
    (done : List Char) : readChars done ('\\' :: cs) = readChars (c :: done) rest := by
  rw [readChars]
  simp only [show '\\' ≠ '"' by decide, ↓reduceIte]
  split
  · next fault hfault =>
    rw [h] at hfault
    cases hfault
  · next d rest' hread =>
    rw [h] at hread
    cases hread
    rfl

theorem readEscape_simple {c d : Char} (h : simpleEscape? d = some c) (hd : d ≠ 'u')
    (cs : List Char) : readEscape (d :: cs) = .ok (c, cs) := by
  unfold readEscape
  split
  · next hnil => cases hnil
  · next rest hu => exact absurd (List.cons.inj hu).1 hd
  · next e rest _ hcons =>
    cases hcons
    rw [h]

theorem readChars_simple {c d : Char} (h : simpleEscape? d = some c) (hd : d ≠ 'u')
    (done cs : List Char) : readChars done ('\\' :: d :: cs) = readChars (c :: done) cs :=
  readChars_escape (readEscape_simple h hd cs) done

/-- Each character is read back from its escaped form. -/
theorem readChars_escapeChar (c : Char) (done cs : List Char) :
    readChars done (escapeChar c ++ cs) = readChars (c :: done) cs := by
  by_cases hsimple : c ∈ ['"', '\\', '\n', '\r', '\t', '\x08', '\x0c']
  · simp only [List.mem_cons, List.not_mem_nil, or_false] at hsimple
    rcases hsimple with rfl | rfl | rfl | rfl | rfl | rfl | rfl <;>
      exact readChars_simple rfl (by decide) done cs
  · simp only [List.mem_cons, List.not_mem_nil, or_false, not_or] at hsimple
    obtain ⟨hquote, hback, hnewline, hreturn, htab, hbackspace, hfeed⟩ := hsimple
    rw [escapeChar, if_neg hquote, if_neg hback, if_neg hnewline, if_neg hreturn, if_neg htab,
      if_neg hbackspace, if_neg hfeed]
    by_cases hcontrol : c.toNat < 0x20
    · rw [if_pos hcontrol]
      exact readChars_escape (readEscape_control hcontrol cs) done
    · rw [if_neg hcontrol, List.cons_append, readChars, if_neg hquote, if_neg hback,
        if_neg hcontrol]
      rfl

theorem readChars_escaped (text done cs : List Char) :
    readChars done (text.flatMap escapeChar ++ '"' :: cs)
      = .ok (String.ofList (done.reverse ++ text), cs) := by
  induction text generalizing done with
  | nil => simp [readChars]
  | cons c text ih =>
    rw [List.flatMap_cons, List.append_assoc, readChars_escapeChar, ih]
    simp

/-- A string literal is read back, once its opening quote has been read. -/
theorem readString_escaped (s : String) (cs : List Char) :
    readString (s.toList.flatMap escapeChar ++ '"' :: cs) = .ok (s, cs) := by
  rw [readString, readChars_escaped]
  simp

/-! ### Numbers -/

/-- Digits that fit the significand are all taken, and more digits go on from there. -/
theorem appendDigits_append {start value : Nat} {digits : List Char}
    (h : appendDigits start digits = (value, [])) (more : List Char) :
    appendDigits start (digits ++ more) = appendDigits value more := by
  induction digits generalizing start with
  | nil =>
    cases h
    rfl
  | cons c digits ih =>
    simp only [appendDigits] at h
    split at h
    · next hfits =>
      simp only [List.cons_append, appendDigits, if_pos hfits]
      exact ih h
    · cases h

theorem digitValue_digitChar {n : Nat} (h : n < 10) : digitValue (Nat.digitChar n) = n := by
  rw [digitValue, Nat.toNat_digitChar_of_lt_ten h]
  exact Nat.add_sub_cancel_left 48 n

theorem appendDigits_toDigits {n : Nat} (h : n < significandLimit) :
    appendDigits 0 (Nat.toDigits 10 n) = (n, []) := by
  induction n using Nat.strongRecOn with
  | ind n ih =>
    by_cases hn : n < 10
    · rw [Nat.toDigits_of_lt_base hn]
      simp [appendDigits, digitValue_digitChar hn, h]
    · have hdiv := ih (n / 10) (by omega) (by omega)
      have hmod : n % 10 < 10 := Nat.mod_lt n (by decide)
      have hvalue : n / 10 * 10 + n % 10 = n := by omega
      rw [Nat.toDigits_of_base_le (by decide) (by omega), appendDigits_append hdiv]
      simp [appendDigits, digitValue_digitChar hmod, hvalue, h]

/-- Only the digits of zero begin with a zero. -/
theorem head?_toDigits_ne_zero {n : Nat} (h : n ≠ 0) : (Nat.toDigits 10 n).head? ≠ some '0' := by
  induction n using Nat.strongRecOn with
  | ind n ih =>
    by_cases hn : n < 10
    · rw [Nat.toDigits_of_lt_base hn]
      simpa using h
    · have hfirst := ih (n / 10) (by omega) (by omega)
      rw [Nat.toDigits_of_base_le (by decide) (by omega)]
      cases hdigits : Nat.toDigits 10 (n / 10) with
      | nil => exact absurd hdigits Nat.toDigits_ne_nil
      | cons c digits => rwa [hdigits] at hfirst

/-- What ends a value does not continue a number. -/
theorem Ends.not_digit {c : Char} {cs : List Char} (h : Ends (c :: cs)) :
    c.isDigit = false ∧ c ≠ '.' ∧ c ≠ 'e' ∧ c ≠ 'E' := by
  have hc := h c rfl
  simp only [isBlank, Bool.or_eq_true, beq_iff_eq] at hc
  rcases hc with ((((rfl | rfl) | rfl) | rfl) | rfl | rfl | rfl) <;> decide

theorem Ends.takeWhile_dropWhile {cs : List Char} (h : Ends cs) :
    cs.takeWhile Char.isDigit = [] ∧ cs.dropWhile Char.isDigit = cs := by
  cases cs with
  | nil => simp
  | cons c cs => simp [h.not_digit.1]

/-- A whole number of at most 64 bits is read back from its digits. -/
theorem readMagnitude_toDigits {n : Nat} (h : n < significandLimit) (negative : Bool)
    {cs : List Char} (hcs : Ends cs) :
    readMagnitude negative (Nat.toDigits 10 n ++ cs) = (wholeNumber negative n).map (·, cs) := by
  have hdigits : ∀ c ∈ Nat.toDigits 10 n, c.isDigit = true := fun c hc =>
    Nat.isDigit_of_mem_toDigits (by decide) (by decide) hc
  have htake : (Nat.toDigits 10 n ++ cs).takeWhile Char.isDigit = Nat.toDigits 10 n := by
    rw [List.takeWhile_append_of_pos hdigits, hcs.takeWhile_dropWhile.1, List.append_nil]
  have hdrop : (Nat.toDigits 10 n ++ cs).dropWhile Char.isDigit = cs := by
    rw [List.dropWhile_append_of_pos hdigits, hcs.takeWhile_dropWhile.2]
  simp only [readMagnitude, htake, hdrop]
  split
  · next hnil => exact absurd hnil Nat.toDigits_ne_nil
  · next second more hzero =>
    -- Zero has one digit, and no other number begins with a zero.
    rcases Nat.eq_zero_or_pos n with rfl | hpos
    · cases hzero
    · exact absurd (by rw [hzero]; rfl) (head?_toDigits_ne_zero (Nat.pos_iff_ne_zero.1 hpos))
  · rw [appendDigits_toDigits h]
    split
    · exact absurd rfl hcs.not_digit.2.1
    · exact absurd rfl hcs.not_digit.2.2.1
    · exact absurd rfl hcs.not_digit.2.2.2
    · rfl

theorem exists_toDigits_eq_cons (n : Nat) :
    ∃ c digits, Nat.toDigits 10 n = c :: digits ∧ c.isDigit = true := by
  cases hdigits : Nat.toDigits 10 n with
  | nil => exact absurd hdigits Nat.toDigits_ne_nil
  | cons c digits =>
    have hmem : c ∈ Nat.toDigits 10 n := by
      rw [hdigits]
      exact List.mem_cons_self
    exact ⟨c, digits, rfl, Nat.isDigit_of_mem_toDigits (by decide) (by decide) hmem⟩

/-- A digit is no blank, no sign and no bracket. -/
theorem ne_of_isDigit {c : Char} (h : c.isDigit = true) :
    isBlank c = false ∧ c ≠ '-' ∧ c ≠ ']' := by
  refine ⟨Bool.eq_false_iff.2 fun hblank => ?_, ?_, ?_⟩
  · simp only [isBlank, Bool.or_eq_true, beq_iff_eq] at hblank
    rcases hblank with ((rfl | rfl) | rfl) | rfl <;> exact absurd h (by decide)
  · rintro rfl
    exact absurd h (by decide)
  · rintro rfl
    exact absurd h (by decide)

theorem readNumber_toDigits {n : Nat} (h : n < significandLimit) {cs : List Char}
    (hcs : Ends cs) : readNumber (Nat.toDigits 10 n ++ cs) = .ok (.integer n, cs) := by
  unfold readNumber
  split
  · next rest hminus =>
    obtain ⟨c, digits, hdigits, hc⟩ := exists_toDigits_eq_cons n
    rw [hdigits] at hminus
    exact absurd (List.cons.inj hminus).1 (ne_of_isDigit hc).2.1
  · rw [readMagnitude_toDigits h false hcs]
    rfl

end CallerFirst.Json
