import UtilityCss.Config.Basic
import UtilityCss.Json.Reader

/-!
# Configuration files

The part of a configuration that is data can be read from JSON.  Reading goes in
two steps, and so do its errors: first the file has to be JSON in which every
field has a value of its type, and only then the fields are looked at.

A configuration is an object of named fields, or a list of their values in a fixed
order.  Fields with other names are passed over, whatever they hold; a field with
the value `null` counts as absent.
-/

namespace UtilityCss

/-- Why a configuration file was not read. -/
inductive ConfigError where
  /-- The file is not JSON, or a field has a value of the wrong type. -/
  | json
  /-- A field has a value that cannot be used. -/
  | invalid (reason : Text)
  deriving DecidableEq, Repr

namespace ConfigError

/-- What the error says. -/
def message : ConfigError → Text
  | json => "config JSON error"
  | invalid reason => "invalid config: ".toList ++ reason

end ConfigError

/-- The fields of a configuration file. -/
structure ConfigFile where
  theme : Option (List (Text × Data))
  presets : Option (List ConfigFile)
  separator : Option Text
  lead : Option Text
  important : Option Important
  darkMode : Option DarkMode
  choice : Option PluginChoice

namespace ConfigFile

open Json (Document)

/-- The names of the fields, in the order in which a list gives their values. -/
def fields : List Text := Text.listOf
  ["theme", "presets", "separator", "prefix", "important", "darkMode", "corePlugins"]

/-- The values of the fields of a document, in order; none when the document has no
fields, has one twice, or is a list that is too long. -/
def values? : Document → Option (List (Option Document))
  | .list items =>
    if items.length ≤ fields.length then
      some (fields.zipIdx.map fun (_, i) => items[i]?)
    else none
  | .object members => do
    let members ← members.mapM fun (key, value) => key.map fun key => (key, value)
    fields.mapM fun field =>
      match members.filter fun member => member.1 = field with
      | [] => some none
      | [member] => some (some member.2)
      | _ => none
  | _ => none

/-- Reads the value of a field that may be absent. -/
def optional? {α : Type} (read : Document → Option α) : Option Document → Option (Option α)
  | none => some none
  | some .null => some none
  | some document => (read document).map some

/-- A text. -/
def text? : Document → Option Text
  | .text value => value
  | _ => none

/-- A truth value. -/
def bool? : Document → Option Bool
  | .bool value => some value
  | _ => none

/-- An object of data, nested at most so many levels deep. -/
def object? (levels : Nat) (document : Document) : Option (List (Text × Data)) :=
  match document.data? levels with
  | some (.object members) => some members
  | _ => none

/-- The setting for importance: a truth value or a selector. -/
def important? : Document → Option Important
  | .bool on => some (.all on)
  | .text selector => selector.map .selector
  | _ => none

/-- The setting for dark mode: the name of a mode, or the name and a selector. -/
def darkMode? : Document → Option DarkMode
  | .text (some mode) =>
    if mode = "media" then some .media
    else if mode = "class" then some (.ancestor ".dark")
    else none
  | .list [.text (some mode), .text (some selector)] =>
    if mode = "class" then some (.ancestor selector) else none
  | _ => none

/-- The choice among the built-in plugins: a truth value, a list of names, or truth
values under names. -/
def choice? : Document → Option PluginChoice
  | .bool on => some (.all on)
  | .list names => (names.mapM text?).map .only
  | .object switches =>
    let read (switch : Option Text × Document) : Option (Text × Bool) := do
      return (← switch.1, ← bool? switch.2)
    (switches.mapM read).map fun switches => .switched (Keyed.ofList switches)
  | _ => none

/-- Reads a value that is allowed only where another level of nesting is. -/
def within? {α : Type} (levels : Nat) (read : Document → Option α) (document : Document) :
    Option α :=
  match document, levels with
  | .list _, 0 | .object _, 0 => none
  | document, _ => read document

/-- The fields of a document that is nested at most so many levels deep. -/
def read? : Nat → Document → Option ConfigFile
  | 0, _ => none
  | levels + 1, document => do
    let [theme, presets, separator, lead, important, darkMode, choice] ← values? document
      | none
    return {
      theme := ← optional? (object? levels) theme
      presets := ← optional?
        (fun document =>
          match document, levels with
          | .list items, levels + 1 => items.mapM (read? levels)
          | _, _ => none)
        presets
      separator := ← optional? text? separator
      lead := ← optional? text? lead
      important := ← optional? important? important
      darkMode := ← optional? (within? levels darkMode?) darkMode
      choice := ← optional? (within? levels choice?) choice }

/-- The categories of a theme, and those under its member `extend`. -/
def categories (members : List (Text × Data)) :
    Except ConfigError (List (Text × Data) × List (Text × Data)) :=
  let own := Keyed.erase "extend" members
  match members.lookup ("extend" : Text) with
  | none => .ok (own, [])
  | some (.object extensions) => .ok (own, extensions)
  | some _ => .error (.invalid "theme.extend must be an object")

mutual

/-- The configuration that a file states. -/
def config : ConfigFile → Except ConfigError Config
  | ⟨theme, presets, separator, lead, important, darkMode, choice⟩ => do
    let (theme, extend) ← categories (theme.getD [])
    let data (entry : Text × Data) : Text × ThemeValue := (entry.1, .data entry.2)
    let presets ← presetConfigs presets
    return {
      layer :=
        { theme := theme.map data
          extend := extend.map data
          separator := separator
          lead := lead
          important := important
          darkMode := darkMode
          choice := choice }
      presets := presets
      shipped := [] }

/-- The configurations of presets that may be absent. -/
def presetConfigs : Option (List ConfigFile) → Except ConfigError (Option (List Config))
  | none => .ok none
  | some presets => (configs presets).map some

/-- The configurations of files. -/
def configs : List ConfigFile → Except ConfigError (List Config)
  | [] => .ok []
  | file :: rest => do return (← config file) :: (← configs rest)

end

end ConfigFile

/-- How many levels deep a configuration file may be nested. -/
def maxConfigLevels : Nat := 127

/-- Reads a configuration from JSON. -/
def Config.ofJson (source : Text) : Except ConfigError Config :=
  match (Json.Document.read? source).bind (ConfigFile.read? maxConfigLevels) with
  | some file => file.config
  | none => .error .json

end UtilityCss
