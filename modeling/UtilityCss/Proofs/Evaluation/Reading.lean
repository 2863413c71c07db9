import UtilityCss.Evaluation.Reading
import UtilityCss.Proofs.Text

/-!
# Readings of a name

A modifier is taken off its name by counting bytes from the end.  That never cuts through
a character when the modifier, with its slash and its brackets, is the end of the name.
-/

namespace UtilityCss
namespace Reading

/-- Dropping the bytes of a text from its front, and then more. -/
theorem dropBytes?_add (more : Nat) (r : Text) : ∀ t : Text,
    dropBytes? (Text.bytes t + more) (t ++ r) = dropBytes? more r
  | [] => by rw [Text.bytes_nil, List.nil_append, Nat.zero_add]
  | ch :: t => by
    have hpos := ch.utf8Size_pos
    obtain ⟨n, hn⟩ : ∃ n, Text.bytes (ch :: t) + more = n + 1 :=
      ⟨ch.utf8Size + Text.bytes t + more - 1, by rw [Text.bytes_cons]; omega⟩
    have hrest : n + 1 - ch.utf8Size = Text.bytes t + more := by
      rw [← hn, Text.bytes_cons]
      omega
    have hle : ch.utf8Size ≤ n + 1 := by
      rw [← hn, Text.bytes_cons]
      omega
    rw [hn, List.cons_append, dropBytes?, if_pos hle, hrest]
    exact dropBytes?_add more r t

/-- Dropping the bytes of a text from its front leaves what follows it. -/
theorem dropBytes?_append (r t : Text) : dropBytes? (Text.bytes t) (t ++ r) = some r := by
  have hzero : dropBytes? 0 r = some r := by cases r <;> rfl
  rw [← hzero]
  exact dropBytes?_add 0 r t

/-- A modifier at the end of a name can be taken off, unless it is all of the name. -/
theorem stripModifier?_append (core u : Text) {m : ModifierText} (hm : m.width = Text.bytes u) :
    stripModifier? (core ++ u) (some m) = some (if core = [] then none else some core) := by
  have hbytes : Text.bytes (core ++ u) = Text.bytes core + Text.bytes u := Text.bytes_append _ _
  rw [stripModifier?, hm]
  by_cases hcore : core = []
  · rw [hcore, if_neg (by simp), if_pos rfl]
  · have hpos := Text.bytes_pos hcore
    have hrev : (core ++ u).reverse = u.reverse ++ core.reverse := List.reverse_append
    rw [if_pos (by omega), if_neg hcore, hrev, ← Text.bytes_reverse u, dropBytes?_append]
    simp

/-- The readings of a name are the same in two tables if the tables have the same keys among the
readings without a value, and specs that take values under the same keys among those with
one. -/
theorem all?_congr {α : Type} {table table' : SpecTable α} {isLookup : α → Bool} {name : Text}
    {m : Option ModifierText}
    (hwhole : ∀ stripped, stripModifier? name m = some stripped → ∀ r ∈ whole name stripped m,
      Keyed.has r.key table' = Keyed.has r.key table)
    (hsplit : ∀ stripped, stripModifier? name m = some stripped → ∀ r ∈ split name stripped m,
      (table'.specs r.key).any isLookup = (table.specs r.key).any isLookup) :
    all? table' isLookup name m = all? table isLookup name m := by
  unfold all?
  cases hstrip : stripModifier? name m with
  | none => rfl
  | some stripped =>
    simp only [Option.map_some]
    rw [List.filter_congr (hwhole stripped hstrip), List.filter_congr (hsplit stripped hstrip)]

end Reading
end UtilityCss
