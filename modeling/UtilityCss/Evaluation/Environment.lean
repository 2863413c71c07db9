import UtilityCss.Evaluation.Diagnostic
import UtilityCss.Evaluation.Reading
import UtilityCss.Evaluation.Wrapper
import UtilityCss.Separator
import UtilityCss.Bracketed

/-!
# What evaluation depends on

Evaluating a class list takes a theme, the settings, the separator and a registry.
What a name resolves to depends on nothing else.
-/

namespace UtilityCss

/-- What a class list is evaluated in. -/
structure Environment where
  theme : Theme
  settings : Settings
  separator : Separator
  registry : Registry

/-- A utility that was found for a name. -/
structure ResolvedUtility where
  /-- The registered name it was found under. -/
  key : Text
  spec : UtilitySpec
  tree : StyleTree

/-- A variant that was found. -/
structure ResolvedVariant where
  /-- The registered name it was found under, empty for a selector. -/
  key : Text
  /-- What is registered; a selector needs no registration. -/
  spec : Option VariantSpec
  wrapper : Wrapper

namespace ClassList

/-- The text of a modifier, and whether it is in brackets. -/
def Modifier.written (m : Modifier) : ModifierText := ⟨m.slice.text, m.wrapped⟩

end ClassList
end UtilityCss
