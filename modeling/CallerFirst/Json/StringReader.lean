import CallerFirst.Decimal.Digits
import CallerFirst.Json.Fault

/-!
# Reading string literals

`readString` reads what follows an opening quote, with its escapes. A surrogate escape has to be
followed by its other half. `skipString` goes past a string without decoding it: there escapes have
to be well formed, but surrogates may stand alone.
-/

namespace CallerFirst.Json

/-- Reads the four hexadecimal digits of an escape. When fewer than four bytes are left the text
has ended; otherwise anything but a digit is a fault of its own. -/
def readHex (cs : List Char) : Outcome Nat :=
  match cs with
  | a :: b :: c :: d :: rest =>
    match digitIn? 16 a, digitIn? 16 b, digitIn? 16 c, digitIn? 16 d with
    | some a, some b, some c, some d => .ok (((a * 16 + b) * 16 + c) * 16 + d, rest)
    | _, _, _, _ => .error .malformed
  | _ =>
    if (String.ofList cs).utf8ByteSize < 4 then .error .truncated else .error .malformed

/-- The second half of a character beyond the basic plane, after the half `high`. -/
def readLowSurrogate (high : Nat) (cs : List Char) : Outcome Char :=
  match cs with
  | [] => .error .truncated
  | '\\' :: [] => .error .truncated
  | '\\' :: 'u' :: rest =>
    match readHex rest with
    | .error fault => .error fault
    | .ok (low, rest) =>
      if 0xDC00 ≤ low ∧ low ≤ 0xDFFF then
        .ok (Char.ofNat ((high - 0xD800) * 0x400 + (low - 0xDC00) + 0x10000), rest)
      else .error .malformed
  | _ => .error .malformed

/-- The character of a one-letter escape. -/
def simpleEscape? (c : Char) : Option Char :=
  if c = '"' then some '"'
  else if c = '\\' then some '\\'
  else if c = '/' then some '/'
  else if c = 'b' then some '\x08'
  else if c = 'f' then some '\x0c'
  else if c = 'n' then some '\n'
  else if c = 'r' then some '\r'
  else if c = 't' then some '\t'
  else none

/-- Reads what follows a backslash. -/
def readEscape (cs : List Char) : Outcome Char :=
  match cs with
  | [] => .error .truncated
  | 'u' :: rest =>
    match readHex rest with
    | .error fault => .error fault
    | .ok (code, rest) =>
      if 0xDC00 ≤ code ∧ code ≤ 0xDFFF then .error .malformed
      else if 0xD800 ≤ code ∧ code ≤ 0xDBFF then readLowSurrogate code rest
      else .ok (Char.ofNat code, rest)
  | c :: rest =>
    match simpleEscape? c with
    | some d => .ok (d, rest)
    | none => .error .malformed

theorem readHex_length {cs rest : List Char} {n : Nat} (h : readHex cs = .ok (n, rest)) :
    rest.length < cs.length := by
  unfold readHex at h
  split at h
  · split at h
    · cases h
      simp only [List.length_cons]
      omega
    · cases h
  · split at h <;> cases h

theorem readLowSurrogate_length {high : Nat} {cs rest : List Char} {c : Char}
    (h : readLowSurrogate high cs = .ok (c, rest)) : rest.length < cs.length := by
  unfold readLowSurrogate at h
  split at h
  · cases h
  · cases h
  · split at h
    · cases h
    · next hr =>
      have := readHex_length hr
      split at h
      · simp only [Except.ok.injEq, Prod.mk.injEq] at h
        simp only [List.length_cons, ← h.2]
        omega
      · cases h
  · cases h

theorem readEscape_length {cs rest : List Char} {c : Char} (h : readEscape cs = .ok (c, rest)) :
    rest.length < cs.length := by
  unfold readEscape at h
  split at h
  · cases h
  · split at h
    · cases h
    · next hr =>
      have := readHex_length hr
      split at h
      · cases h
      · split at h
        · have := readLowSurrogate_length h
          simp only [List.length_cons]
          omega
        · simp only [Except.ok.injEq, Prod.mk.injEq] at h
          simp only [List.length_cons, ← h.2]
          omega
  · split at h
    · simp only [Except.ok.injEq, Prod.mk.injEq] at h
      simp [← h.2]
    · cases h

/-- Reads the characters of a string up to its closing quote, after those in `done`, of which the
latest comes first. -/
def readChars (done : List Char) (cs : List Char) : Outcome String :=
  match cs with
  | [] => .error .truncated
  | c :: rest =>
    if c = '"' then .ok (String.ofList done.reverse, rest)
    else if c = '\\' then
      match h : readEscape rest with
      | .error fault => .error fault
      | .ok (d, rest') =>
        have : rest'.length < rest.length := readEscape_length h
        readChars (d :: done) rest'
    else if c.toNat < 0x20 then .error .malformed
    else readChars (c :: done) rest
termination_by cs.length

/-- Reads a string whose opening quote has been read. -/
def readString (cs : List Char) : Outcome String := readChars [] cs

/-- Goes past what follows a backslash. -/
def skipEscape (cs : List Char) : Except Fault (List Char) :=
  match cs with
  | [] => .error .truncated
  | 'u' :: rest => (readHex rest).map (·.2)
  | c :: rest => if (simpleEscape? c).isSome then .ok rest else .error .malformed

theorem skipEscape_length {cs rest : List Char} (h : skipEscape cs = .ok rest) :
    rest.length < cs.length := by
  unfold skipEscape at h
  split at h
  · cases h
  · next tail =>
    cases hr : readHex tail with
    | error fault => rw [hr] at h; cases h
    | ok found =>
      rw [hr] at h
      cases h
      have : found.2.length < tail.length := readHex_length hr
      simp only [List.length_cons]
      omega
  · split at h
    · cases h
      simp
    · cases h

/-- Goes past a string whose opening quote has been read. -/
def skipString (cs : List Char) : Except Fault (List Char) :=
  match cs with
  | [] => .error .truncated
  | c :: rest =>
    if c = '"' then .ok rest
    else if c = '\\' then
      match h : skipEscape rest with
      | .error fault => .error fault
      | .ok rest' =>
        have : rest'.length < rest.length := skipEscape_length h
        skipString rest'
    else if c.toNat < 0x20 then .error .malformed
    else skipString rest
termination_by cs.length

end CallerFirst.Json
