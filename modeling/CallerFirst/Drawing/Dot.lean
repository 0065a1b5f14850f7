import CallerFirst.Drawing.Basic

/-!
# Drawings in the DOT language

`Drawing.toDot` writes a drawing as the text of a directed graph: a header, one line for each node
and one for each edge.
-/

namespace CallerFirst

/-- A character inside of a quoted DOT text. -/
def dotEscape (c : Char) : List Char :=
  if c = '\\' then ['\\', '\\']
  else if c = '"' then ['\\', '"']
  else if c = '\n' then ['\\', 'n']
  else [c]

/-- A quoted DOT text. -/
def dotQuote (s : String) : String :=
  "\"" ++ String.ofList (s.toList.flatMap dotEscape) ++ "\""

namespace NodeKind

/-- The shape of a node. -/
def shape : NodeKind → String
  | .function => "box"
  | .method => "box"
  | .classNode => "ellipse"

/-- The color of a node. -/
def color : NodeKind → String
  | .function => "#89b4fa"
  | .method => "#cba6f7"
  | .classNode => "#a6e3a1"

end NodeKind

/-- The line of a node. -/
def Node.toDot (n : Node) : String :=
  "    " ++ dotQuote n.id ++ " [label=" ++ dotQuote n.label ++ ", shape=" ++ n.kind.shape
    ++ ", style=\"filled\", fillcolor=" ++ dotQuote n.kind.color ++ "];"

/-- The line of an edge. -/
def Edge.toDot (e : Edge) : String :=
  "    " ++ dotQuote e.source ++ " -> " ++ dotQuote e.target ++ ";"

namespace Drawing

/-- The lines of the DOT text. A graph without edges gets a layout of its own. -/
def dotLines (d : Drawing) : List String :=
  ["digraph " ++ dotQuote d.title ++ " \x7b",
    if d.edges.isEmpty then "    layout=neato;" else "    rankdir=TB;",
    "    node [fontname=\"Helvetica\", fontsize=12];",
    ""]
  ++ d.nodes.map Node.toDot
  ++ (if d.edges.isEmpty then [] else "" :: d.edges.map Edge.toDot)
  ++ ["\x7d"]

/-- The DOT text of a drawing, without a final line break. -/
def toDot (d : Drawing) : String := "\n".intercalate d.dotLines

/-- The text to be written for a drawing; an empty drawing is not written. -/
def file? (d : Drawing) : Option String := if d.isEmpty then none else some d.toDot

end Drawing

end CallerFirst
