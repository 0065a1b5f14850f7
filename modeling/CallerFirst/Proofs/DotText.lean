import CallerFirst.Drawing.Dot
import Mathlib.Data.List.Basic
import Mathlib.Tactic.Common

/-!
# The DOT text of a drawing

The text of a drawing tells the drawing. Titles, ids and labels may be any texts, so this rests on
how they are quoted:

* `dotQuote_append_inj`: where a quoted text ends can be seen from the text itself;
* `newline_notMem_dotQuote`: a quoted text has no line break, so that the lines can be told apart
  (`Drawing.dotLines_eq_of_toDot`);
* `Node.toDot_injective`, `Edge.toDot_injective`: a line tells the node or the edge;
* `Drawing.toDot_eq_iff`: the whole text tells the drawing.
-/

namespace CallerFirst

/-! ### Quoted texts -/

/-- The escaped forms of two characters do not begin alike. -/
theorem dotEscape_append_inj {c d : Char} {x y : List Char}
    (h : dotEscape c ++ x = dotEscape d ++ y) : c = d ∧ x = y := by
  grind [dotEscape]

/-- No escaped form begins with a quote. -/
theorem dotEscape_append_ne_quote (c : Char) (x y : List Char) :
    dotEscape c ++ x ≠ '"' :: y := by
  grind [dotEscape]

theorem newline_notMem_dotEscape (c : Char) : '\n' ∉ dotEscape c := by
  grind [dotEscape]

theorem flatMap_dotEscape_append_inj {s t x y : List Char}
    (h : s.flatMap dotEscape ++ '"' :: x = t.flatMap dotEscape ++ '"' :: y) : s = t ∧ x = y := by
  induction s generalizing t with
  | nil =>
    cases t with
    | nil => simpa using h
    | cons d t =>
      rw [List.flatMap_cons, List.append_assoc] at h
      exact absurd h.symm (dotEscape_append_ne_quote d _ _)
  | cons c s ih =>
    rw [List.flatMap_cons, List.append_assoc] at h
    cases t with
    | nil => exact absurd h (dotEscape_append_ne_quote c _ _)
    | cons d t =>
      rw [List.flatMap_cons, List.append_assoc] at h
      obtain ⟨rfl, hrest⟩ := dotEscape_append_inj h
      obtain ⟨rfl, hx⟩ := ih hrest
      exact ⟨rfl, hx⟩

theorem toList_dotQuote (s : String) :
    (dotQuote s).toList = '"' :: (s.toList.flatMap dotEscape ++ ['"']) := by
  simp [dotQuote]

/-- Where a quoted text ends can be seen from the text itself. -/
theorem dotQuote_append_inj {s t x y : String} (h : dotQuote s ++ x = dotQuote t ++ y) :
    s = t ∧ x = y := by
  have hlist := congrArg String.toList h
  rw [String.toList_append, String.toList_append, toList_dotQuote, toList_dotQuote,
    List.cons_append, List.cons_append, List.append_assoc, List.append_assoc] at hlist
  obtain ⟨hst, hxy⟩ := flatMap_dotEscape_append_inj (List.cons.inj hlist).2
  exact ⟨String.toList_inj.1 hst, String.toList_inj.1 hxy⟩

theorem newline_notMem_dotQuote (s : String) : '\n' ∉ (dotQuote s).toList := by
  rw [toList_dotQuote]
  simp [newline_notMem_dotEscape]

/-! ### Lines -/

theorem Node.toDot_injective : Function.Injective Node.toDot := by
  rintro ⟨id, label, kind⟩ ⟨id', label', kind'⟩ h
  unfold toDot at h
  simp only [String.append_assoc, String.append_right_inj] at h
  obtain ⟨hid, hrest⟩ := dotQuote_append_inj h
  obtain ⟨hlabel, hstyle⟩ := dotQuote_append_inj ((String.append_right_inj _).1 hrest)
  have hkind : kind = kind' := by
    revert hstyle
    cases kind <;> cases kind' <;> decide
  rw [hid, hlabel, hkind]

theorem Edge.toDot_injective : Function.Injective Edge.toDot := by
  rintro ⟨source, target⟩ ⟨source', target'⟩ h
  unfold toDot at h
  simp only [String.append_assoc, String.append_right_inj] at h
  obtain ⟨hsource, hrest⟩ := dotQuote_append_inj h
  obtain ⟨htarget, -⟩ := dotQuote_append_inj ((String.append_right_inj _).1 hrest)
  rw [hsource, htarget]

theorem Node.toDot_ne_empty (n : Node) : n.toDot ≠ "" := by
  unfold toDot
  simp

theorem Edge.toDot_ne_empty (e : Edge) : e.toDot ≠ "" := by
  unfold toDot
  simp

theorem Node.newline_notMem_toDot (n : Node) : '\n' ∉ n.toDot.toList := by
  obtain ⟨id, label, kind⟩ := n
  unfold toDot
  simp only [String.toList_append, List.mem_append, newline_notMem_dotQuote]
  cases kind <;> decide

theorem Edge.newline_notMem_toDot (e : Edge) : '\n' ∉ e.toDot.toList := by
  unfold toDot
  simp only [String.toList_append, List.mem_append, newline_notMem_dotQuote]
  decide

/-! ### The whole text -/

namespace Drawing

variable {d e : Drawing}

theorem newline_notMem_dotLines (d : Drawing) : ∀ line ∈ d.dotLines, '\n' ∉ line.toList := by
  intro line hline
  simp only [dotLines, List.mem_append, List.mem_cons, List.mem_map, List.not_mem_nil,
    or_false] at hline
  rcases hline with (((rfl | rfl | rfl | rfl) | ⟨n, -, rfl⟩) | hedges) | rfl
  · simp [newline_notMem_dotQuote]
  · split <;> decide
  · decide
  · decide
  · exact n.newline_notMem_toDot
  · split at hedges
    · cases hedges
    · rcases List.mem_cons.1 hedges with rfl | hedges
      · decide
      · obtain ⟨edge, -, rfl⟩ := List.mem_map.1 hedges
        exact edge.newline_notMem_toDot
  · decide

/-- The lines have no line breaks, so the text tells them. -/
theorem dotLines_eq_of_toDot (h : d.toDot = e.toDot) : d.dotLines = e.dotLines := by
  have hsplit : ∀ d : Drawing, d.toDot.toList.splitOn '\n' = d.dotLines.map String.toList := by
    intro d
    have hlines : ∀ l ∈ d.dotLines.map String.toList, '\n' ∉ l := by
      intro l hl
      obtain ⟨line, hline, rfl⟩ := List.mem_map.1 hl
      exact d.newline_notMem_dotLines line hline
    rw [toDot, String.toList_intercalate]
    exact List.splitOn_intercalate '\n' hlines (by simp [dotLines])
  have hmap : d.dotLines.map String.toList = e.dotLines.map String.toList := by
    rw [← hsplit, ← hsplit, h]
  exact List.map_injective_iff.2 (fun _ _ => String.toList_injective) hmap

/-- The lines of the nodes and the edges: an empty line stands between them, and none elsewhere. -/
theorem nodes_edges_eq_of_lines
    (h : d.nodes.map Node.toDot ++ "" :: (d.edges.map Edge.toDot ++ ["\x7d"])
      = e.nodes.map Node.toDot ++ "" :: (e.edges.map Edge.toDot ++ ["\x7d"])) :
    d.nodes = e.nodes ∧ d.edges = e.edges := by
  have hnodes : "" ∉ d.nodes.map Node.toDot := by
    simp [Node.toDot_ne_empty]
  have hedges : "" ∉ d.edges.map Edge.toDot ++ ["\x7d"] := by
    simp [Edge.toDot_ne_empty]
  obtain ⟨hn, -, he⟩ := (List.append_cons_inj_of_notMem hnodes hedges).1 h
  exact ⟨List.map_injective_iff.2 Node.toDot_injective hn,
    List.map_injective_iff.2 Edge.toDot_injective (List.append_cancel_right he)⟩

/-- **The DOT text tells the drawing.** Two drawings with the same text have the same title, and the
same nodes and edges in the same order, whatever texts they are made of. -/
theorem toDot_eq_iff (d e : Drawing) :
    d.toDot = e.toDot ↔ d.title = e.title ∧ d.nodes = e.nodes ∧ d.edges = e.edges := by
  constructor
  · intro h
    have hlines := dotLines_eq_of_toDot h
    simp only [dotLines, List.cons_append, List.nil_append, List.append_assoc,
      List.cons.injEq] at hlines
    obtain ⟨htitle, hlayout, -, -, hrest⟩ := hlines
    rw [String.append_assoc, String.append_assoc, String.append_right_inj] at htitle
    refine ⟨(dotQuote_append_inj htitle).1, ?_⟩
    -- The layout tells whether there are edges, and so whether an empty line is to come.
    cases hd : d.edges.isEmpty <;> cases he : e.edges.isEmpty <;> rw [hd, he] at hlayout hrest
    · exact nodes_edges_eq_of_lines hrest
    · exact absurd hlayout (by decide)
    · exact absurd hlayout (by decide)
    · rw [List.isEmpty_iff.1 hd, List.isEmpty_iff.1 he]
      exact ⟨List.map_injective_iff.2 Node.toDot_injective (List.append_cancel_right hrest), rfl⟩
  · rintro ⟨htitle, hnodes, hedges⟩
    cases d
    cases e
    cases htitle
    cases hnodes
    cases hedges
    rfl

end Drawing

end CallerFirst
