import UtilityCss.Proofs.Builtin.WellKeyed
import UtilityCss.Proofs.ClassList.Behind
import UtilityCss.Proofs.ClassList.RoundTrip
import UtilityCss.Proofs.Evaluation.Expansion
import UtilityCss.Proofs.Evaluation.Static
import UtilityCss.Proofs.Registry.Selector
import UtilityCss.Proofs.Registry.Specs

/-!
# Registered classes are reached by their names

A class that a plugin registers with a style tree can be written in a class list as it is named.
If nothing else is registered under the name, its styles are that tree, in the at-rules and
selectors that it was registered in.

Directives are what would stand for something else.  In the body of the class there must be none,
and a level around it must not be one; but a level may look like one as far as a tree is searched
for directives, so what is nested in it is expanded level by level.
-/

namespace UtilityCss

/-! ## Levels that are no directives -/

/-- Does the key say what is done with a body, rather than where it is nested? -/
def Directive.isDirective (key : Text) : Bool :=
  (Directive.applied? key (.tree [])).isSome || (Directive.screen? key).isSome

/-- A level around classes: an at-rule that is no directive, or a selector without classes.  What
begins with `@` behind blanks is neither. -/
def Selector.IsLevel (key : Text) : Prop :=
  if StyleTree.isAtRule key then Directive.isDirective key = false
  else Text.startsWith (key.dropWhile Text.isBlank) ['@'] = false ∧ Selector.classes key = []

instance (key : Text) : Decidable (Selector.IsLevel key) :=
  inferInstanceAs (Decidable (ite _ _ _))

namespace Text

theorem startsWith_cons_singleton (c x : Char) (t : Text) :
    startsWith (c :: t) [x] = decide (x = c) := by
  rw [Bracketed.startsWith_cons_cons]
  exact Bool.and_true _

end Text

namespace Split

/-- What is split off first is a beginning of the text. -/
theorem prefix_of_parts {p : Char → Bool} : ∀ {t : Text} {s : State} {head : Text}
    {more : List Text}, parts p s t = head :: more → head <+: t
  | [], s, head, more, h => by
    rw [parts] at h
    exact (List.cons.inj h).1 ▸ List.nil_prefix
  | c :: t, s, head, more, h => by
    rw [parts] at h
    split at h
    · exact (List.cons.inj h).1 ▸ List.nil_prefix
    · split at h
      · rename_i hnil
        exact absurd hnil (parts_ne_nil p _ t)
      · rename_i part rest hparts
        obtain rfl := (List.cons.inj h).1
        exact List.prefix_cons_inj c |>.mpr (prefix_of_parts hparts)

end Split

namespace Selector

/-- What a selector becomes around a class begins with no `@` if the selector does not. -/
theorem startsWith_ancestor {key : Text} (hrule : StyleTree.isAtRule key = false)
    (h : Text.startsWith (key.dropWhile Text.isBlank) ['@'] = false) :
    Text.startsWith (ancestor key) ['@'] = false := by
  unfold ancestor
  split
  · exact hrule
  · obtain ⟨part, more, hparts⟩ :=
      List.exists_cons_of_ne_nil (Split.parts_ne_nil (· = ',') .top key)
    obtain ⟨tail, htail⟩ := Split.prefix_of_parts hparts
    -- what comes first is the first part without the blanks around it, or the blank behind it
    have hfirst : ∀ rest, Text.startsWith (Text.trim part ++ ' ' :: rest) ['@'] = false := by
      intro rest
      cases htrim : Text.trim part with
      | nil => exact Text.startsWith_cons_singleton ' ' '@' rest
      | cons c u =>
        obtain ⟨v, hv⟩ := Text.dropWhile_of_trim htrim
        rw [← htail, List.dropWhile_append, hv, if_neg (by simp), List.cons_append,
          Text.startsWith_cons_singleton] at h
        rw [List.cons_append, Text.startsWith_cons_singleton, h]
    rw [show Split.atChar ',' key = part :: more from hparts, List.map_cons]
    cases more with
    | nil => exact hfirst _
    | cons next more =>
      show Text.startsWith (Text.trim part ++ [' ', '&'] ++ _ ++ _) _ = false
      rw [List.append_assoc, List.append_assoc]
      exact hfirst _

/-- What a level becomes is no directive. -/
theorem IsLevel.isDirective {key : Text} (h : IsLevel key) :
    Directive.isDirective (level key) = false := by
  unfold IsLevel at h
  unfold level
  split at h
  · rename_i hrule
    rw [if_pos hrule]
    exact h
  · rename_i hrule
    have hat := startsWith_ancestor (Bool.eq_false_iff.mpr hrule) h.1
    rw [if_neg hrule]
    have hnone : ∀ lead : Text, Text.dropLead? ('@' :: lead) (ancestor key) = none := by
      intro lead
      cases hkey : ancestor key with
      | nil => rfl
      | cons c t =>
        rw [hkey, Text.startsWith_cons_singleton, decide_eq_false_iff_not] at hat
        rw [Text.dropLead?, if_neg hat]
    have happly : Text.dropLead? "@apply" (ancestor key) = none := hnone _
    have hscreen : Text.dropLead? "@screen " (ancestor key) = none := hnone _
    rw [Directive.isDirective, Directive.applied?, Directive.screen?, happly, hscreen]
    rfl

theorem IsLevel.isAtRule_or {key : Text} (h : IsLevel key) :
    StyleTree.isAtRule key = true ∨ classes key = [] := by
  unfold IsLevel at h
  split at h
  · exact .inl ‹_›
  · exact .inr h.2

end Selector

namespace Directive

variable {env : Environment} {apply : Text → Report StyleTree}

/-- A tree without anything to expand, in levels that are no directives, is left as it is. -/
theorem expand_nestIn {body : StyleTree} (hbody : isNeeded body = false) :
    ∀ {levels : List Text}, (∀ key ∈ levels, isDirective key = false) →
      expand env apply (StyleTree.nestIn levels body) = pure (StyleTree.nestIn levels body)
  | [], _ => by
    show expand env apply body = pure body
    rw [expand, if_neg (by rw [hbody]; exact Bool.false_ne_true)]
  | key :: levels, h => by
    obtain ⟨hkey, hlevels⟩ := List.forall_mem_cons.mp h
    rw [isDirective, Bool.or_eq_false_iff, Option.isSome_eq_false_iff, Option.isSome_eq_false_iff,
      Option.isNone_iff_eq_none, Option.isNone_iff_eq_none] at hkey
    obtain ⟨hclasses, hscreen⟩ := hkey
    have hclasses' : ∀ inner, applied? key (.tree inner) = none := fun inner => hclasses
    show expand env apply [(key, .tree (StyleTree.nestIn levels body))] = pure _
    unfold expand
    split
    · rw [expandEntries, expandEntry_tree (hclasses' _), expand_nestIn hbody hlevels, hscreen]
      rfl
    · rfl

end Directive

namespace Environment

variable {env : Environment} {name : Text} {tree : StyleTree}

/-- A plain name under which nothing but one style tree is registered has that tree for its style,
if nothing in it is expanded and nothing is made important. -/
theorem evaluate_of_specs (hlead : env.settings.lead = [])
    (himportant : env.settings.important = .all false) (hname : ClassList.IsName env.separator name)
    {plugin : Text} {flags : Flags}
    (hspecs : env.registry.utilities.specs name = [⟨plugin, .fixed tree flags⟩])
    (hexpand : ∀ apply, Directive.expand env apply tree = pure tree)
    (hdistinct : Keyed.Distinct tree) : env.evaluate name = pure ⟨tree, []⟩ := by
  refine evaluate_of_found himportant hname.read_eq (ClassList.closed_plainHead 0 name)
    (utilityOf_of_specs hlead (ClassList.laid_plainHead 0 name [])
      (ClassList.closed_plainHead 0 name) hspecs) ?_ hdistinct
  rw [styleOf, UtilitySpec.isLookup, if_neg Bool.false_ne_true, hexpand]

end Environment

namespace Registry

/-- Registering one class, its name spelled out, makes one spec for the name. -/
theorem specs_classes {plugin name : Text} {flags : Flags} (hne : name ≠ [])
    (hblank : ∀ c ∈ name, Text.isBlank c = false) {levels : List Text}
    (hlevels : ∀ key ∈ levels, Selector.IsLevel key) {body : StyleTree}
    (hdistinct : Keyed.Distinct (StyleTree.nestIn (levels.map Selector.level) body)) :
    (Registration.classes (StyleTree.nestIn levels [('.' :: Selector.escaped name, .tree body)])
      flags).specs plugin name =
        [⟨plugin, .fixed (StyleTree.nestIn (levels.map Selector.level) body) flags⟩] := by
  have hbodies := Selector.bodies_nestIn hne hblank body levels []
    fun key hkey => (hlevels key hkey).isAtRule_or
  rw [Registration.specs, hbodies]
  show List.map _ (List.filter _ [(name, StyleTree.merge [] _)]) = _
  rw [List.nil_append, Selector.ClassBody.nested, StyleTree.nil_merge hdistinct]
  simp

end Registry

theorem StyleTree.distinct_nestIn {body : StyleTree} (h : Keyed.Distinct body) :
    ∀ levels : List Text, Keyed.Distinct (nestIn levels body)
  | [] => h
  | _ :: _ => List.nodup_singleton _

namespace Context

variable {config : ResolvedConfig} {strict : Bool} {ctx : Context}

/-- In a context where names have no configured beginning and nothing is made important, a class
that is registered alone under its name is reached by it.  Its styles are the style tree that was
registered, inside the at-rules and selectors around it, the outermost first. -/
theorem evaluate_registered (hbuild : build config strict = .ok ctx)
    (hlead : config.settings.lead = []) (himportant : config.settings.important = .all false)
    {name : Text} (hne : name ≠ []) (hname : ∀ c ∈ name, ClassList.isNameChar c = true)
    (hsep : Text.includes name config.settings.separator = false) {levels : List Text}
    (hlevels : ∀ key ∈ levels, Selector.IsLevel key) {body : StyleTree}
    (hdistinct : Keyed.Distinct body) (hneeded : Directive.isNeeded body = false)
    {plugin : Plugin} (hplugin : plugin ∈ Builtin.enabled config.settings ++ config.plugins)
    {flags : Flags} (hregister : .classes
      (StyleTree.nestIn levels [('.' :: Selector.escaped name, .tree body)]) flags ∈
        plugin.register config.surroundings)
    (halone : (ctx.env.registry.utilities.specs name).length = 1) :
    ctx.evaluate name = .ok ⟨StyleTree.nestIn (levels.map Selector.level) body, []⟩ := by
  obtain ⟨hsettings, -, hseparator⟩ := settings_of_build hbuild
  have hblank : ∀ c ∈ name, Text.isBlank c = false := fun c hc =>
    (ClassList.isNameChar_iff.mp (hname c hc)).1
  have htree := StyleTree.distinct_nestIn hdistinct (levels.map Selector.level)
  -- the one spec of the name is that of the registration
  have hmem : ⟨plugin.name, .fixed (StyleTree.nestIn (levels.map Selector.level) body) flags⟩ ∈
      ctx.env.registry.utilities.specs name := by
    rw [Registry.specs_build (of_build hbuild).1]
    refine List.mem_flatMap.mpr ⟨plugin, hplugin, List.mem_flatMap.mpr ⟨_, hregister, ?_⟩⟩
    rw [Registry.specs_classes hne hblank hlevels htree]
    exact List.mem_singleton_self _
  obtain ⟨spec, hspec⟩ := List.length_eq_one_iff.mp halone
  rw [hspec, List.mem_singleton] at hmem
  have hisName : ClassList.IsName ctx.env.separator name := by
    refine ⟨hne, ?_⟩
    have hclear : ctx.env.separator.Clear name [] :=
      .of_includes (by rwa [Separator.text_of_ofText hseparator]) (fun x v h => by cases h)
    have := ClassList.nameLength_append (r := []) hname hclear (fun x v h => by cases h)
    rwa [List.append_nil] at this
  have hreport := Environment.evaluate_of_specs (hsettings ▸ hlead) (hsettings ▸ himportant)
    hisName (hmem ▸ hspec) (fun apply => Directive.expand_nestIn hneeded fun key hkey => by
      obtain ⟨raw, hraw, rfl⟩ := List.mem_map.mp hkey
      exact (hlevels raw hraw).isDirective) htree
  rw [evaluate, hreport, answer_pure]

/-- A name that could be read as a negative value with a modifier, inside an at-rule and two
selectors. -/
theorem evaluate_registered_nested :
    let name : Text := "-w/1.5".toList
    let levels : List Text := ["@media print".toList, "ul, ol > li".toList, ":is(.a) &".toList]
    let body : StyleTree := [("a".toList, .scalar "1".toList)]
    let tree : StyleTree :=
      StyleTree.nestIn levels [(".-w\\/1\\.5".toList, .tree body)]
    let plugin : Plugin := ⟨['p'], fun _ => [.classes tree .component]⟩
    let config : ResolvedConfig := ⟨.null, [plugin], ⟨[':'], [], .all false, .media, []⟩⟩
    let style : StyleTree :=
      StyleTree.nestIn ["@media print".toList, "ul &, ol > li &".toList, ":is(.a) &".toList] body
    let ctx : Context := ⟨⟨⟨.null⟩, config.settings, .colon,
      ⟨[(name, [⟨['p'], .fixed style .component⟩])], [], []⟩⟩, [], true⟩
    build config true = .ok ctx ∧ (∀ key ∈ levels, Selector.IsLevel key) ∧
      ctx.evaluate name = .ok ⟨style, []⟩ := by
  intro name levels body tree plugin config style ctx
  have hbuild : build config true = .ok ctx := rfl
  have hlevels : ∀ key ∈ levels, Selector.IsLevel key := by decide
  exact ⟨hbuild, hlevels, evaluate_registered hbuild rfl rfl (by decide) (by decide) (by decide)
    hlevels (by decide) (by decide) List.mem_cons_self List.mem_cons_self rfl⟩

end Context
end UtilityCss
