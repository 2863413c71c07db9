import UtilityCss.Proofs.Bracketed
import UtilityCss.Proofs.ClassList.RoundTrip
import UtilityCss.Proofs.Evaluation.Expansion
import UtilityCss.Proofs.Nested
import UtilityCss.Proofs.Value.Spacing

/-!
# Declarations in brackets

A bracket that stands alone is read as a property, split at its first colon, and its value is
read with blanks for underscores, theme calls replaced and arithmetic spaced out.  Written for it
(`Bracketed.spelled`), every value comes back as it was, unless it holds a backslash, a call of
the theme or of a function of arithmetic, or an address.
-/

namespace UtilityCss

namespace ClassList

end ClassList

namespace Bracketed

/-- The value that is read off what is written for a value is that value. -/
theorem value_spelled (theme : Theme) {t : Text} (hescape : '\x5c' ∉ t)
    (hurl : Text.includes t "url(" = false) (htheme : Text.includes t "theme(" = false)
    (hmath : Value.CallsNoMath t) : value theme (spelled t) = t := by
  have hcalls : theme.renderCalls (spelled t) = spelled t :=
    Directive.renderCalls_eq_self theme (by rw [includes_spelled (by decide) (by decide), htheme])
  rw [value, hcalls, spaced_spelled hescape hurl, Value.spaceMath_eq_self hmath]

end Bracketed

namespace Context

end Context
end UtilityCss
