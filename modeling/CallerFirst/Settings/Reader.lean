import CallerFirst.Json.Basic
import CallerFirst.Settings.Basic
import CallerFirst.Toml.Document

/-!
# Reading settings

Settings are read from a TOML document or from a JSON value. Both become a `Setting` first. Every
field is optional; an unknown field and a value of the wrong kind are refused. The fields may also
be listed in order, the last ones missing; whether more elements than fields are refused depends on
the source.
-/

namespace CallerFirst

/-- A value in a source of settings. -/
inductive Setting
  | nothing
  | flag (value : Bool)
  | whole (value : Int)
  | text (value : String)
  | list (items : List Setting)
  | record (members : List (String × Setting))
  /-- A value of a kind that no field has. -/
  | unsuited

namespace Setting

mutual

/-- A TOML value as a setting. -/
def ofToml : Toml → Setting
  | .string s => .text s
  | .integer n => .whole n
  | .float _ => .unsuited
  | .boolean b => .flag b
  | .moment _ => .unsuited
  | .array items => .list (ofTomlItems items)
  | .table members => .record (ofTomlMembers members)

/-- The elements of a TOML array. -/
def ofTomlItems : List Toml → List Setting
  | [] => []
  | item :: rest => ofToml item :: ofTomlItems rest

/-- The members of a TOML table. -/
def ofTomlMembers : List (String × Toml) → List (String × Setting)
  | [] => []
  | (key, value) :: rest => (key, ofToml value) :: ofTomlMembers rest

end

mutual

/-- A JSON value as a setting. -/
def ofJson : Json → Setting
  | .null => .nothing
  | .bool b => .flag b
  | .integer n => .whole n
  | .real _ => .unsuited
  | .string s => .text s
  | .array items => .list (ofJsonItems items)
  | .object members => .record (ofJsonMembers members)

/-- The elements of a JSON array. -/
def ofJsonItems : List Json → List Setting
  | [] => []
  | item :: rest => ofJson item :: ofJsonItems rest

/-- The members of a JSON object. -/
def ofJsonMembers : List (String × Json) → List (String × Setting)
  | [] => []
  | (key, value) :: rest => (key, ofJson value) :: ofJsonMembers rest

end

/-- The text of a setting. -/
def text? : Setting → Option String
  | .text s => some s
  | _ => none

/-- The truth value of a setting. -/
def flag? : Setting → Option Bool
  | .flag b => some b
  | _ => none

/-- A count, or nothing. -/
def count? : Setting → Option (Option Nat)
  | .nothing => some none
  | .whole (.ofNat n) => some (some n)
  | _ => none

/-- Sets fields in order, as far as there are values. -/
def setInOrder {σ : Type} (surplus : Bool) :
    (fields : List (String × (σ → Setting → Option σ))) → σ → List Setting → Option σ
  | _, state, [] => some state
  | [], state, _ :: _ => if surplus then some state else none
  | (_, set) :: fields, state, value :: rest =>
    (set state value).bind fun state => setInOrder surplus fields state rest

/-- Sets fields by name. -/
def setByName {σ : Type} (fields : List (String × (σ → Setting → Option σ))) :
    σ → List (String × Setting) → Option σ
  | state, [] => some state
  | state, (key, value) :: rest =>
    match fields.lookup key with
    | none => none
    | some set => (set state value).bind fun state => setByName fields state rest

/-- Sets the fields of a structure from its members or from a list. `surplus` says whether a list
may be longer than the structure. -/
def setFields {σ : Type} (surplus : Bool) (fields : List (String × (σ → Setting → Option σ)))
    (start : σ) : Setting → Option σ
  | .record members => setByName fields start members
  | .list items => setInOrder surplus fields start items
  | _ => none

end Setting

open Setting

/-- The fields of the settings for drawing. -/
def RenderSettings.fields : List (String × (RenderSettings → Setting → Option RenderSettings)) :=
  [("methods", fun r v => v.flag?.map fun methods => { r with methods }),
    ("basename", fun r v => v.text?.map fun basename => { r with basename })]

/-- The fields of the settings. -/
def Settings.fields (surplus : Bool) : List (String × (Settings → Setting → Option Settings)) :=
  [("private_prefix", fun s v => v.text?.map fun privateMarker => { s with privateMarker }),
    ("resolve_nested_calls", fun s v => v.flag?.map fun nestedCalls => { s with nestedCalls }),
    ("workers", fun s v => v.count?.map fun workers => { s with workers }),
    ("parallel", fun s v => v.flag?.map fun parallel => { s with parallel }),
    ("render", fun s v =>
      (setFields surplus RenderSettings.fields {} v).map fun render => { s with render })]

/-- The settings of a JSON value; a list must not be longer than the settings. -/
def Settings.ofJson? (value : Json) : Option Settings :=
  setFields false (Settings.fields false) {} (Setting.ofJson value)

/-- The settings of a TOML document; surplus elements of a list are ignored. -/
def Settings.parse? (text : String) : Option Settings :=
  (Toml.parse? text).bind fun document =>
    setFields true (Settings.fields true) {} (Setting.ofToml document)

end CallerFirst
