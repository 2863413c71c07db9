import UtilityCss.Text.Basic

/-!
# Settings

The options of a configuration that are not part of its theme, and the values
they have once every layer has been heard.
-/

namespace UtilityCss

/-- How declarations become important. -/
inductive Important where
  /-- Either every declaration is important, or those that are marked. -/
  | all (on : Bool)
  /-- Marked utilities are kept apart, to be nested under a selector. -/
  | selector (selector : Text)
  deriving DecidableEq, Repr

/-- What switches dark mode on. -/
inductive DarkMode where
  /-- The color scheme that the reader prefers. -/
  | media
  /-- A selector that matches an ancestor. -/
  | ancestor (selector : Text)
  deriving DecidableEq, Repr

namespace DarkMode

/-- The template of the variant for dark mode. -/
def template : DarkMode → Text
  | media => "@media (prefers-color-scheme: dark)"
  | ancestor selector => selector ++ " &".toList

end DarkMode

/-- A choice among the built-in plugins. -/
inductive PluginChoice where
  /-- All of them, or none. -/
  | all (on : Bool)
  /-- Exactly those that are named. -/
  | only (names : List Text)
  /-- Those that are named are switched, the others stay as they were. -/
  | switched (switches : List (Text × Bool))
  deriving DecidableEq, Repr

namespace PluginChoice

/-- Is the plugin enabled after the choice, when `before` says whether it was? -/
def enables (choice : PluginChoice) (name : Text) (before : Bool) : Bool :=
  match choice with
  | all on => on
  | only names => name ∈ names
  | switched switches => (switches.lookup name).getD before

end PluginChoice

/-- The settings that everything else depends on. -/
structure Settings where
  separator : Text
  /-- What the names of utilities begin with. -/
  lead : Text
  important : Important
  darkMode : DarkMode
  /-- The enabled built-in plugins. -/
  enabled : List Text
  deriving DecidableEq, Repr

end UtilityCss
