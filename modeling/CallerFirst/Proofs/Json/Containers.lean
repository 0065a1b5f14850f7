import CallerFirst.Proofs.Json.Scalars
import Mathlib.Data.List.Forall2
import Mathlib.Tactic.Common

/-!
# Reading back what is written

* `ReadsBack`: a reader takes a value off its text, whatever ends it; `Restores`: it does so at each
  nesting level of a style;
* `restores_string`, `restores_count`, `restores_list`, `restores_members`, `Record.restores`: what
  the readers restore, from what the readers of the parts do;
* `Restores.run`: then the value is read from the whole text.

Nothing is assumed of a style but that it sets members apart by blanks (`Style.Spaced`).
-/

namespace CallerFirst.Json

/-- A style that sets members apart by blanks only. -/
structure Style.Spaced (style : Style) : Prop where
  lineBreak : ∀ level, Blank (style.lineBreak level)
  colon : ∃ blanks, style.colon = ':' :: blanks ∧ Blank blanks

theorem spaced_compact : compact.Spaced where
  lineBreak _ := by simp [compact, Blank]
  colon := ⟨[], rfl, by simp [Blank]⟩

theorem spaced_indented : indented.Spaced where
  lineBreak level := by
    intro c hc
    rcases List.mem_cons.1 hc with rfl | hc
    · rfl
    · rw [List.eq_of_mem_replicate hc]
      rfl
  colon := ⟨[' '], rfl, by simp [Blank, isBlank]⟩

section Reading

variable {α β σ : Type}

/-- A reader takes a value off its text, after blanks and before whatever ends the value. -/
structure ReadsBack (read : List Char → Outcome α) (text : List Char) (value : α) : Prop where
  begins : ∃ c cs, text = c :: cs ∧ isBlank c = false ∧ c ≠ ']'
  reads : ∀ blanks cs, Blank blanks → Ends cs → read (blanks ++ (text ++ cs)) = .ok (value, cs)

/-- It is enough to read the text from its first character on. -/
theorem ReadsBack.of_opening {read : List Char → Outcome α} {text : List Char} {value : α}
    {opening : Char} (hblank : isBlank opening = false) (hclosing : opening ≠ ']')
    (h : ∀ cs, Ends cs → ∃ rest, text ++ cs = opening :: rest ∧
      ∀ blanks, Blank blanks → read (blanks ++ opening :: rest) = .ok (value, cs)) :
    ReadsBack read text value := by
  constructor
  · obtain ⟨rest, hrest, -⟩ := h [] (by simp [Ends])
    rw [List.append_nil] at hrest
    exact ⟨opening, rest, hrest, hblank, hclosing⟩
  · intro blanks cs hblanks hcs
    obtain ⟨rest, hrest, hread⟩ := h cs hcs
    rw [hrest]
    exact hread blanks hblanks

/-- A reader takes a value off the text of its JSON value, at whatever level it is written. -/
def Restores (style : Style) (read : List Char → Outcome α) (json : Json) (value : α) : Prop :=
  ∀ level, ReadsBack read (json.writeAt style level) value

variable {style : Style} {level : Nat}

theorem Restores.map {reader : Reader α} {depth : Nat} {json : Json} {value : α}
    (h : Restores style (reader depth) json value) (f : α → β) :
    Restores style (reader.map f depth) json (f value) := by
  intro level
  refine ⟨(h level).begins, fun blanks cs hblanks hcs => ?_⟩
  rw [Reader.map, (h level).reads blanks cs hblanks hcs]
  rfl

/-! ### Scalars -/

theorem writeAt_string (s : String) : (string s).writeAt style level = writeString s := rfl

theorem restores_string (depth : Nat) (s : String) :
    Restores style (Reader.string depth) (.string s) s := by
  intro level
  refine .of_opening rfl (show '"' ≠ ']' by decide) fun cs _ => ?_
  refine ⟨s.toList.flatMap escapeChar ++ '"' :: cs, by simp [writeAt_string, writeString], ?_⟩
  intro blanks hblanks
  rw [Reader.string, hblanks.skip_append_cons rfl]
  exact readString_escaped s cs

theorem restores_count (depth : Nat) {n : Nat} (h : n < significandLimit) :
    Restores style (Reader.count depth) (.integer n) n := by
  intro level
  obtain ⟨c, digits, hdigits, hc⟩ := exists_toDigits_eq_cons n
  obtain ⟨hblank, -, hbracket⟩ := ne_of_isDigit hc
  refine .of_opening hblank hbracket fun cs hcs => ?_
  have hread : readNumber (c :: (digits ++ cs)) = .ok (.integer n, cs) := by
    rw [← List.cons_append, ← hdigits]
    exact readNumber_toDigits h hcs
  refine ⟨digits ++ cs, by rw [← List.cons_append, ← hdigits]; rfl, fun blanks hblanks => ?_⟩
  have hstarts : startsNumber (c :: (digits ++ cs)) = true := by
    simp [startsNumber, hc]
  simp only [Reader.count, hblanks.skip_append_cons hblank, hstarts, ↓reduceIte, hread]

/-! ### The items of a container -/

/-- What follows the first item of a container: the other items, each after a comma, and the closing
bracket. -/
def afterFirst (style : Style) (level : Nat) (closing : Char) (items : List (List Char)) :
    List Char :=
  items.flatMap (fun next => ',' :: style.lineBreak (level + 1) ++ next)
    ++ (style.lineBreak level ++ [closing])

variable {closing : Char} {item cs : List Char} {items : List (List Char)}

theorem writeItems_cons_append (opening : Char) :
    writeItems style level opening closing (item :: items) ++ cs
      = opening :: (style.lineBreak (level + 1)
          ++ (item ++ (afterFirst style level closing items ++ cs))) := by
  simp [writeItems, afterFirst]

theorem afterFirst_nil_append :
    afterFirst style level closing [] ++ cs = style.lineBreak level ++ closing :: cs := by
  simp [afterFirst]

theorem afterFirst_cons_append :
    afterFirst style level closing (item :: items) ++ cs
      = ',' :: (style.lineBreak (level + 1)
          ++ (item ++ (afterFirst style level closing items ++ cs))) := by
  simp [afterFirst]

theorem ends_afterFirst (hstyle : style.Spaced) (hclosing : closing = ']' ∨ closing = '\x7d') :
    Ends (afterFirst style level closing items ++ cs) := by
  cases items with
  | nil =>
    rw [afterFirst_nil_append]
    refine (hstyle.lineBreak level).ends_append ?_
    rintro c ⟨⟩
    exact Or.inr (Or.inr hclosing)
  | cons item items =>
    rw [afterFirst_cons_append]
    rintro c ⟨⟩
    exact Or.inr (Or.inl rfl)

/-- Each item takes a character, so a text is long enough to count its items. -/
theorem length_lt_afterFirst (style : Style) (level : Nat) (closing : Char)
    (items : List (List Char)) (cs : List Char) :
    items.length < (afterFirst style level closing items ++ cs).length := by
  induction items with
  | nil =>
    rw [afterFirst_nil_append, List.length_append, List.length_cons, List.length_nil]
    omega
  | cons item items ih =>
    rw [afterFirst_cons_append]
    simp only [List.length_cons, List.length_append] at ih ⊢
    omega

/-! ### Arrays -/

theorem nextElement_closing {blanks : List Char} (h : Blank blanks) (first : Bool) :
    nextElement first (blanks ++ ']' :: cs) = .ok (.ended cs) := by
  rw [nextElement, h.skip_append_cons rfl]
  rfl

theorem nextElement_first {blanks : List Char} (h : Blank blanks) {c : Char}
    (hc : isBlank c = false) (hclosing : c ≠ ']') :
    nextElement true (blanks ++ c :: cs) = .ok (.element (c :: cs)) := by
  rw [nextElement, h.skip_append_cons hc]
  split
  · next hnil => cases hnil
  · next rest heq => exact absurd (List.cons.inj heq).1 hclosing
  · next d rest _ heq =>
    cases heq
    rfl

theorem nextElement_comma {blanks : List Char} (h : Blank blanks) {c : Char}
    (hc : isBlank c = false) (hclosing : c ≠ ']') :
    nextElement false (',' :: (blanks ++ c :: cs)) = .ok (.element (c :: cs)) := by
  rw [nextElement, skipBlanks_cons rfl]
  split
  · next hnil => cases hnil
  · next rest heq => exact absurd (List.cons.inj heq).1 (by decide)
  · next d rest _ heq =>
    cases heq
    rw [if_neg (by decide), if_pos rfl, h.skip_append_cons hc]
    split
    · next hnil => cases hnil
    · next rest heq => exact absurd (List.cons.inj heq).1 hclosing
    · rfl

section Elements

variable {read : List Char → Outcome α} {b : Char} {bound rest : List Char} {first : Bool}
  {done : List α}

theorem readElements_ended (hnext : nextElement first cs = .ok (.ended rest)) :
    readElements read (b :: bound) first done cs = .ok (done.reverse, rest) := by
  simp only [readElements, hnext]

theorem readElements_element {rest' : List Char} {value : α}
    (hnext : nextElement first cs = .ok (.element rest))
    (hread : read rest = .ok (value, rest')) :
    readElements read (b :: bound) first done cs
      = readElements read bound false (value :: done) rest' := by
  simp only [readElements, hnext, hread]

/-- The other elements of an array are read, after those in `done`. -/
theorem readElements_afterFirst (hstyle : style.Spaced) {values : List α}
    (h : List.Forall₂ (ReadsBack read) items values) (hbound : items.length < bound.length) :
    readElements read bound false done (afterFirst style level ']' items ++ cs)
      = .ok (done.reverse ++ values, cs) := by
  induction h generalizing bound done with
  | nil =>
    obtain ⟨b, bound, rfl⟩ := List.exists_cons_of_length_pos hbound
    rw [afterFirst_nil_append,
      readElements_ended (nextElement_closing (hstyle.lineBreak level) false), List.append_nil]
  | @cons item value items values hitem _ ih =>
    obtain ⟨b, bound, rfl⟩ := List.exists_cons_of_length_pos (Nat.zero_lt_of_lt hbound)
    obtain ⟨c, text, rfl, hc, hclosing⟩ := hitem.begins
    have hread : read (c :: (text ++ (afterFirst style level ']' items ++ cs)))
        = .ok (value, afterFirst style level ']' items ++ cs) :=
      hitem.reads [] _ Blank.nil (ends_afterFirst hstyle (Or.inl rfl))
    rw [afterFirst_cons_append, List.cons_append,
      readElements_element (nextElement_comma (hstyle.lineBreak _) hc hclosing) hread,
      ih (Nat.lt_of_succ_lt_succ hbound), List.reverse_cons, List.append_assoc]
    rfl

theorem readElements_writeItems (hstyle : style.Spaced) {values : List α}
    (h : List.Forall₂ (ReadsBack read) items values) (level : Nat) (cs : List Char) :
    ∃ text, writeItems style level '[' ']' items ++ cs = '[' :: text ∧
      readElements read ('[' :: text) true [] text = .ok (values, cs) := by
  cases h with
  | nil => exact ⟨']' :: cs, rfl, readElements_ended (nextElement_closing Blank.nil true)⟩
  | @cons item value items values hitem hitems =>
    refine ⟨_, writeItems_cons_append '[', ?_⟩
    obtain ⟨c, text, rfl, hc, hclosing⟩ := hitem.begins
    have hread : read (c :: (text ++ (afterFirst style level ']' items ++ cs)))
        = .ok (value, afterFirst style level ']' items ++ cs) :=
      hitem.reads [] _ Blank.nil (ends_afterFirst hstyle (Or.inl rfl))
    rw [List.cons_append,
      readElements_element (nextElement_first (hstyle.lineBreak _) hc hclosing) hread]
    refine readElements_afterFirst hstyle hitems ?_
    refine Nat.lt_of_lt_of_le (length_lt_afterFirst style level ']' items cs) ?_
    simp only [List.length_append, List.length_cons]
    omega

end Elements

theorem writeElements_eq_map (values : List Json) :
    writeElements style level values = values.map (writeAt style level) := by
  induction values with
  | nil => rfl
  | cons value values ih => rw [writeElements, ih, List.map_cons]

theorem restores_list (hstyle : style.Spaced) {reader : Reader α} {depth : Nat} {toJson : α → Json}
    {values : List α} (h : ∀ x ∈ values, Restores style (reader depth) (toJson x) x) :
    Restores style (Reader.list reader (depth + 1)) (.array (values.map toJson)) values := by
  intro level
  have hitems : List.Forall₂ (ReadsBack (reader depth))
      (writeElements style (level + 1) (values.map toJson)) values := by
    rw [writeElements_eq_map, List.map_map, List.forall₂_map_left_iff]
    exact List.forall₂_same.2 fun x hx => h x hx (level + 1)
  refine .of_opening rfl (show '[' ≠ ']' by decide) fun cs _ => ?_
  obtain ⟨text, htext, hread⟩ := readElements_writeItems hstyle hitems level cs
  refine ⟨text, htext, fun blanks hblanks => ?_⟩
  rw [Reader.list, hblanks.skip_append_cons rfl]
  exact hread

/-! ### Objects -/

theorem nextKey_closing {blanks : List Char} (h : Blank blanks) (first : Bool) :
    nextKey first (blanks ++ '\x7d' :: cs) = .ok (.ended cs) := by
  rw [nextKey, h.skip_append_cons rfl]
  rfl

theorem nextKey_first {blanks : List Char} (h : Blank blanks) :
    nextKey true (blanks ++ '"' :: cs) = .ok (.key cs) := by
  rw [nextKey, h.skip_append_cons rfl]
  rfl

theorem nextKey_comma {blanks : List Char} (h : Blank blanks) :
    nextKey false (',' :: (blanks ++ '"' :: cs)) = .ok (.key cs) := by
  have hquote := h.skip_append_cons (c := '"') rfl cs
  rw [nextKey, skipBlanks_cons rfl]
  simp [hquote]

theorem writeString_append (key : String) (colon text cs : List Char) :
    writeString key ++ colon ++ text ++ cs
      = '"' :: (key.toList.flatMap escapeChar ++ '"' :: (colon ++ (text ++ cs))) := by
  simp [writeString]

theorem writeAt_object (members : List (String × Json)) :
    (object members).writeAt style level
      = writeItems style level '\x7b' '\x7d' (writeMembers style (level + 1) members) := rfl

theorem length_writeMembers (members : List (String × Json)) :
    (writeMembers style level members).length = members.length := by
  induction members with
  | nil => rfl
  | cons m members ih => rw [writeMembers, List.length_cons, ih, List.length_cons]

/-- Members of an object are gathered one after the other: each key is accepted and its value is
restored into the next state. -/
inductive Gathers (style : Style) (member : σ → String → Except Fault (List Char → Outcome σ)) :
    σ → List (String × Json) → σ → Prop
  | nil (state : σ) : Gathers style member state [] state
  | cons {state next final : σ} {key : String} {json : Json} {members : List (String × Json)}
      {read : List Char → Outcome σ} (hmember : member state key = .ok read)
      (hread : Restores style read json next) (hmore : Gathers style member next members final) :
      Gathers style member state ((key, json) :: members) final

section Members

variable {member : σ → String → Except Fault (List Char → Outcome σ)} {b : Char}
  {bound rest : List Char} {first : Bool} {state : σ}

theorem readMembers_ended (hnext : nextKey first cs = .ok (.ended rest)) :
    readMembers member (b :: bound) first state cs = .ok (state, rest) := by
  simp only [readMembers, hnext]

/-- A member is read: its key, the colon and its value. -/
theorem readMembers_member (hstyle : style.Spaced) {read : List Char → Outcome σ} {next : σ}
    {key : String} {text : List Char}
    (hnext : nextKey first cs
      = .ok (.key (key.toList.flatMap escapeChar ++ '"' :: (style.colon ++ (text ++ rest)))))
    (hmember : member state key = .ok read) (hread : ReadsBack read text next) (hrest : Ends rest) :
    readMembers member (b :: bound) first state cs
      = readMembers member bound false next rest := by
  obtain ⟨blanks, hcolon, hblanks⟩ := hstyle.colon
  have hvalue : readColon (style.colon ++ (text ++ rest)) = .ok (blanks ++ (text ++ rest)) := by
    rw [readColon, hcolon, List.cons_append, skipBlanks_cons rfl]
    rfl
  simp only [readMembers, hnext, readString_escaped, hmember, hvalue,
    hread.reads blanks rest hblanks hrest]

/-- The other members of an object are gathered. -/
theorem readMembers_afterFirst (hstyle : style.Spaced) {members : List (String × Json)} {final : σ}
    (h : Gathers style member state members final) (hbound : members.length < bound.length) :
    readMembers member bound false state
        (afterFirst style level '\x7d' (writeMembers style (level + 1) members) ++ cs)
      = .ok (final, cs) := by
  induction h generalizing bound with
  | nil state =>
    obtain ⟨b, bound, rfl⟩ := List.exists_cons_of_length_pos hbound
    rw [writeMembers, afterFirst_nil_append]
    exact readMembers_ended (nextKey_closing (hstyle.lineBreak level) false)
  | cons hmember hread _ ih =>
    obtain ⟨b, bound, rfl⟩ := List.exists_cons_of_length_pos (Nat.zero_lt_of_lt hbound)
    rw [writeMembers, afterFirst_cons_append, writeString_append]
    rw [readMembers_member hstyle (nextKey_comma (hstyle.lineBreak _)) hmember (hread _)
      (ends_afterFirst hstyle (Or.inr rfl))]
    exact ih (Nat.lt_of_succ_lt_succ hbound)

theorem readMembers_writeItems (hstyle : style.Spaced) {members : List (String × Json)} {final : σ}
    (h : Gathers style member state members final) (level : Nat) (cs : List Char) :
    ∃ text, (Json.object members).writeAt style level ++ cs = '\x7b' :: text ∧
      readMembers member ('\x7b' :: text) true state text = .ok (final, cs) := by
  rw [writeAt_object]
  cases h with
  | nil => exact ⟨'\x7d' :: cs, rfl, readMembers_ended (nextKey_closing Blank.nil true)⟩
  | @cons _ _ _ _ _ members _ hmember hread hmore =>
    rw [writeMembers]
    refine ⟨_, writeItems_cons_append '\x7b', ?_⟩
    have hlen := length_lt_afterFirst style level '\x7d' (writeMembers style (level + 1) members) cs
    rw [length_writeMembers] at hlen
    rw [writeString_append, readMembers_member hstyle (nextKey_first (hstyle.lineBreak _)) hmember
      (hread _) (ends_afterFirst hstyle (Or.inr rfl))]
    refine readMembers_afterFirst hstyle hmore (Nat.lt_of_lt_of_le hlen ?_)
    simp only [List.length_append, List.length_cons]
    omega

end Members

/-- A field of a record that is not set yet is gathered when its value is restored. -/
theorem Gathers.field {record : Record σ α} {depth : Nat} {state final : σ} {key : String}
    {json : Json} {members : List (String × Json)} {reader : Reader β} {isSet : σ → Bool}
    {set : σ → β → σ} {value : β} (h : Restores style (reader depth) json value)
    (hfield : record.fields.find? (·.name == key)
      = some ⟨key, isSet, fun state => reader.map (set state)⟩)
    (hset : isSet state = false)
    (hmore : Gathers style (record.member depth) (set state value) members final) :
    Gathers style (record.member depth) state ((key, json) :: members) final := by
  refine .cons ?_ (h.map (set state)) hmore
  simp [Record.member, hfield, hset]

/-- A record is restored when its fields are, in the order in which they are written. -/
theorem Record.restores (hstyle : style.Spaced) {record : Record σ α} {depth : Nat}
    {members : List (String × Json)} {value : α} (final : σ)
    (h : Gathers style (record.member depth) record.start members final)
    (hfinish : record.finish final = some value) :
    Restores style (record.read (depth + 1)) (.object members) value := by
  intro level
  refine .of_opening rfl (show '\x7b' ≠ ']' by decide) fun cs _ => ?_
  obtain ⟨text, htext, hread⟩ := readMembers_writeItems hstyle h level cs
  refine ⟨text, htext, fun blanks hblanks => ?_⟩
  rw [Record.read, hblanks.skip_append_cons rfl]
  simp only [hread, conclude, hfinish]

theorem gathers_gather {reader : Reader α} {depth : Nat} {toJson : α → Json}
    {entries : List (String × α)}
    (h : ∀ e ∈ entries, Restores style (reader depth) (toJson e.2) e.2)
    (done : List (String × α)) :
    Gathers style (gather (reader depth)) done (entries.map fun e => (e.1, toJson e.2))
      (entries.reverse ++ done) := by
  induction entries generalizing done with
  | nil => exact .nil done
  | cons e entries ih =>
    have hmore := ih (fun d hd => h d (List.mem_cons_of_mem e hd)) (e :: done)
    rw [List.reverse_cons, List.append_assoc]
    exact .cons rfl ((h e List.mem_cons_self).map fun value => (e.1, value) :: done) hmore

theorem restores_members (hstyle : style.Spaced) {reader : Reader α} {depth : Nat}
    {toJson : α → Json} {entries : List (String × α)}
    (h : ∀ e ∈ entries, Restores style (reader depth) (toJson e.2) e.2) :
    Restores style (Reader.members reader (depth + 1))
      (.object (entries.map fun e => (e.1, toJson e.2))) entries := by
  intro level
  refine .of_opening rfl (show '\x7b' ≠ ']' by decide) fun cs _ => ?_
  obtain ⟨text, htext, hread⟩ := readMembers_writeItems hstyle (gathers_gather h []) level cs
  refine ⟨text, htext, fun blanks hblanks => ?_⟩
  rw [Reader.members, hblanks.skip_append_cons rfl]
  simp [hread, Except.map]

/-! ### Whole texts -/

theorem Restores.run {reader : Reader α} {depth : Nat} {json : Json} {value : α}
    (h : Restores style (reader depth) json value) :
    reader.run depth (json.write style) = .ok value := by
  have hread : reader depth (json.writeAt style 0) = .ok (value, []) := by
    simpa using (h 0).reads [] [] Blank.nil (by simp [Ends])
  rw [Reader.run, write, String.toList_ofList, hread]
  rfl

end Reading

end CallerFirst.Json
