import UtilityCss.Proofs.ClassList.Listing

/-!
# Listings are laid over their source

`Node.Placed` says what the slice of a part has to do with the slices of its children and
of its own names and values: each is found inside the part's text at the place it
claims, they come in the order of the source without overlap, and what is left
between them is what the shape of the part allows.  A part that is not closed reaches
to the end of the source.

The proof follows the tree.  At each part the layout of the tree says how its text is
put together, and the stretch of the listing that belongs to the part says which slices the
places of its children stand for.
-/

namespace UtilityCss
namespace ClassList

/-! ## Well placed parts -/

/-- The slices of a head, from left to right. -/
def Head.parts : Head → List Slice
  | plain name _ => [name]
  | bracketed lead value modifier _ => lead :: value :: modifier.toList.map Modifier.slice

/-- The head of a utility or a named variant. -/
def Shape.head? : Shape → Option Head
  | utility head _ => some head
  | variant head => some head
  | _ => none

/-- The slices inside of a part, from left to right: those of its children, or of its
names and values. -/
def Node.parts (all : List Node) (n : Node) : List Slice :=
  match n.shape with
  | .utility head _ => head.parts
  | .variant head => head.parts
  | .property value _ => [value]
  | .selector value => [value]
  | shape => sourcesAt all shape.children

/-- How the text of a part is put together. -/
def Node.Composed (sep : Separator) (all : List Node) (n : Node) : Prop :=
  match n.shape with
  | .program _ => n.source.CoveredBy (n.parts all)
  | .group important _ => ∃ before behind body,
      n.source.text =
        bang before ++ '(' :: (body ++ if n.closed then ')' :: bang behind else []) ∧
      important = (behind || before) ∧
      Slice.CoveredBy ⟨n.source.start + Text.bytes (bang before) + 1, body⟩ (n.parts all)
  | .span _ none => ∃ tv, n.source.text = tv ++ sep.text ∧ n.parts all = [⟨n.source.start, tv⟩]
  | .span _ (some _) => ∃ tv u, n.source.text = tv ++ sep.text ++ u ∧
      n.parts all = [⟨n.source.start, tv⟩, ⟨n.source.start + Text.bytes (tv ++ sep.text), u⟩]
  | .variant _ => n.closed = true
  | .selector value =>
    n.closed = true ∧ Brackets.Boxed '[' value true n.source.start n.source.text []
  | .groupVariant _ => n.closed = true ∧ ∃ body close, Brackets.isClosing close = true ∧
      n.source.text = '(' :: (body ++ [close])
  | _ => True

/-- The part at the given place of a listing fits its surroundings. -/
structure Node.Placed (sep : Separator) (source : Text) (all : List Node) (place : Nat)
    (n : Node) : Prop where
  inside : n.source.PartOf ⟨0, source⟩
  earlier : ∀ i ∈ n.shape.children, i < place
  part : ∀ s ∈ n.parts all, s.PartOf n.source
  ordered : (n.parts all).Pairwise Slice.Precedes
  modifier : ∀ name m, n.shape.head? = some (.plain name (some m)) → m.slice.PartOf name
  composed : n.Composed sep all
  unclosed : n.closed = false → n.source.stop = Text.bytes source

/-- Every part of the stretch is well placed. -/
def AllPlaced (sep : Separator) (source : Text) (all : List Node) (first count : Nat) : Prop :=
  ∀ k n, first ≤ k → k < first + count → all[k]? = some n → n.Placed sep source all k

namespace AllPlaced

variable {sep : Separator} {source : Text} {all nodes more : List Node} {first : Nat} {n : Node}

theorem nil (first : Nat) : AllPlaced sep source all first ([] : List Node).length := by
  intro k n hle hlt
  rw [List.length_nil] at hlt
  omega

theorem append (h : AllPlaced sep source all first nodes.length)
    (h' : AllPlaced sep source all (first + nodes.length) more.length) :
    AllPlaced sep source all first (nodes ++ more).length := by
  intro k n hle hlt hk
  rw [List.length_append] at hlt
  by_cases hless : k < first + nodes.length
  · exact h k n hle hless hk
  · exact h' k n (by omega) (by omega) hk

theorem snoc (h : AllPlaced sep source all first nodes.length)
    (hall : Occupies all first (nodes ++ [n]))
    (hn : n.Placed sep source all (first + nodes.length)) :
    AllPlaced sep source all first (nodes ++ [n]).length := by
  have hplace : first + (nodes ++ [n]).length - 1 = first + nodes.length := by
    rw [List.length_append, List.length_singleton]
    omega
  intro k m hle hlt hk
  rw [List.length_append, List.length_singleton] at hlt
  by_cases hless : k < first + nodes.length
  · exact h k m hle hless hk
  · obtain rfl : k = first + nodes.length := by omega
    have hlast := hall.last
    rw [hplace, hk] at hlast
    rw [Option.some.inj hlast]
    exact hn

end AllPlaced

/-! ## Slices of a layout -/

/-- The text is in the source at the offset `start`, with `after` behind it. -/
def Stands (source : Text) (start : Nat) (t after : Text) : Prop :=
  ∃ front, source = front ++ (t ++ after) ∧ start = Text.bytes front

namespace Stands

variable {source t u after : Text} {start : Nat}

theorem left (h : Stands source start (t ++ u) after) : Stands source start t (u ++ after) := by
  obtain ⟨front, hsource, hstart⟩ := h
  exact ⟨front, by rw [hsource, List.append_assoc], hstart⟩

theorem right (h : Stands source start (t ++ u) after) :
    Stands source (start + Text.bytes t) u after := by
  obtain ⟨front, hsource, hstart⟩ := h
  refine ⟨front ++ t, ?_, by rw [hstart, Text.bytes_append]⟩
  rw [hsource]
  simp only [List.append_assoc]

theorem partOf (h : Stands source start t after) : Slice.PartOf ⟨start, t⟩ ⟨0, source⟩ := by
  obtain ⟨front, hsource, hstart⟩ := h
  exact ⟨front, after, by rw [List.append_assoc]; exact hsource, by rw [hstart, Nat.zero_add]⟩

/-- With nothing behind it the text ends where the source does. -/
theorem stop (h : Stands source start t []) : Slice.stop ⟨start, t⟩ = Text.bytes source := by
  obtain ⟨front, hsource, hstart⟩ := h
  rw [Slice.stop, hsource, hstart, List.append_nil, Text.bytes_append]

end Stands

theorem boxed_partOf {value : Slice} {closed : Bool} {start : Nat} {t after : Text}
    (h : Brackets.Boxed '[' value closed start t after) : value.PartOf ⟨start, t⟩ := by
  obtain ⟨hstart, htext⟩ := h
  cases closed with
  | true =>
    obtain ⟨close, -, rfl⟩ := htext
    exact ⟨['['], [close], rfl, hstart⟩
  | false =>
    obtain ⟨rfl, -⟩ := htext
    exact ⟨['['], [], by rw [List.append_nil]; rfl, hstart⟩

theorem Modifier.Laid.partOf {m : Modifier} {start : Nat} {t after : Text}
    (h : m.Laid start t after) : m.slice.PartOf ⟨start, t⟩ := by
  rcases h with ⟨-, u, rfl, hboxed⟩ | ⟨-, -, hstart, ht⟩
  · exact (boxed_partOf hboxed).trans ⟨['/'], [], by rw [List.append_nil]; rfl, rfl⟩
  · exact ⟨['/'], [], by rw [List.append_nil]; exact ht, hstart⟩

/-- The slices of a head stand in its text. -/
theorem Head.Laid.lined {head : Head} {start : Nat} {t after : Text}
    (h : head.Laid start t after) : Slice.Lined (fun _ => True) start t head.parts := by
  cases head with
  | plain name m =>
    obtain ⟨rfl, -⟩ := h
    exact Slice.Lined.of_partOf (Slice.partOf_refl _)
  | bracketed lead value m closed =>
    obtain ⟨hlead, hyphen, box, u, -, rfl, hboxed, hm⟩ := h
    have hfirst : Slice.Lined (fun _ => True) start lead.text [lead] :=
      Slice.Lined.of_partOf ⟨[], [], by simp, by rw [hlead]; rfl⟩
    have hvalue : Slice.Lined (fun _ => True) (start + Text.bytes (lead.text ++ hyphen)) box
        [value] := Slice.Lined.of_partOf (boxed_partOf hboxed)
    have hrest : Slice.Lined (fun _ => True)
        (start + Text.bytes (lead.text ++ hyphen ++ box)) u (m.toList.map Modifier.slice) := by
      cases m with
      | none => trivial
      | some m => exact Slice.Lined.of_partOf hm.partOf
    have hgap : Slice.Lined (fun _ => True) start (lead.text ++ hyphen) ([lead] ++ []) :=
      hfirst.append trivial
    exact (hgap.append hvalue).append hrest

/-- The modifier of a plain name is part of the name. -/
theorem Head.Laid.modifier_partOf {name : Slice} {m : Modifier} {start : Nat} {t after : Text}
    (h : (Head.plain name (some m)).Laid start t after) : m.slice.PartOf name := by
  obtain ⟨rfl, core, u, rfl, hm⟩ := h
  exact Slice.PartOf.trans hm.partOf ⟨core, [], by rw [List.append_nil], rfl⟩

theorem Variant.Laid.source_eq {sep : Separator} {start : Nat} {t : Text} : ∀ {v : Variant},
    v.Laid sep start t → v.source = ⟨start, t⟩
  | .named .., h => h.1
  | .selector .., h => h.1
  | .group .., h => h.1

theorem Expr.Laid.source_eq {sep : Separator} {start : Nat} {t after : Text} : ∀ {e : Expr},
    e.Laid sep start t after → e.source = ⟨start, t⟩
  | .group .., h => h.1
  | .span _ _ none, h => h.1
  | .span _ _ (some _), h => h.1
  | .utility .., h => h.1
  | .property .., h => h.1

/-- The links of a chain stand in its text. -/
theorem ChainLaid.lined {sep : Separator} : ∀ {links : List Variant} {start : Nat} {t : Text},
    ChainLaid sep start t links →
      Slice.Lined (fun _ => True) start t (links.map Variant.source)
  | [], _, _, _ => trivial
  | v :: rest, start, _, h => by
    obtain ⟨tv, tail, u, rfl, hv, -, hrest⟩ := h
    have hfirst : Slice.Lined (fun _ => True) start tv [v.source] := by
      rw [Variant.Laid.source_eq hv]
      exact Slice.Lined.of_partOf (Slice.partOf_refl _)
    have hgap : Slice.Lined (fun _ => True) start (tv ++ tail) ([v.source] ++ []) :=
      hfirst.append trivial
    exact hgap.append (ChainLaid.lined hrest)

/-- The links of all chains stand in the text of the group. -/
theorem MembersLaid.lined {sep : Separator} : ∀ {members : List (List Variant)} {start : Nat}
    {t : Text}, MembersLaid sep start t members →
      Slice.Lined (fun _ => True) start t (members.flatten.map Variant.source)
  | [], _, _, _ => trivial
  | links :: rest, _, _, h => by
    obtain ⟨b, tl, u, rfl, -, -, hlinks, hrest⟩ := h
    rw [List.flatten_cons, List.map_append]
    exact (Slice.Lined.prepend (ChainLaid.lined hlinks)).append (MembersLaid.lined hrest)

/-- Expressions stand in their text with nothing but blanks between them. -/
theorem ExprsLaid.lined {sep : Separator} {after : Text} : ∀ {es : List Expr} {start : Nat}
    {t : Text}, ExprsLaid sep start t after es → Slice.Lined Blank start t (es.map Expr.source)
  | [], _, _, h => h
  | e :: rest, start, _, h => by
    obtain ⟨b, te, u, rfl, hb, he, hrest⟩ := h
    have hsource := Expr.Laid.source_eq he
    refine ⟨b, u, by rw [hsource], hb, by rw [hsource], ?_⟩
    have hstop : e.source.stop = start + Text.bytes (b ++ te) := by
      rw [hsource, Slice.stop, Text.bytes_append, Nat.add_assoc]
    rw [hstop]
    exact ExprsLaid.lined hrest

/-! ## Every part is well placed -/

section

variable {sep : Separator} {source : Text} {all : List Node}

/-- What is left to show for a part whose slices stand in its text. -/
theorem Node.Placed.of_lined {place start : Nat} {t after : Text} {n : Node}
    (hstands : Stands source start t after) (hsource : n.source = ⟨start, t⟩)
    (hlined : Slice.Lined (fun _ => True) start t (n.parts all))
    (hearlier : ∀ i ∈ n.shape.children, i < place)
    (hmodifier : ∀ name m, n.shape.head? = some (.plain name (some m)) → m.slice.PartOf name)
    (hcomposed : n.Composed sep all) (hunclosed : n.closed = false → after = []) :
    n.Placed sep source all place where
  inside := by rw [hsource]; exact hstands.partOf
  earlier := hearlier
  part := by rw [hsource]; exact hlined.partOf
  ordered := hlined.pairwise
  modifier := hmodifier
  composed := hcomposed
  unclosed := by
    intro h
    rw [hunclosed h] at hstands
    rw [hsource]
    exact hstands.stop

mutual

theorem Variant.placed : ∀ {v : Variant} {first start : Nat} {t after : Text},
    v.Laid sep start t → Stands source start t after → Occupies all first (v.listing first) →
      AllPlaced sep source all first (v.listing first).length
  | .named _ head, first, start, t, after, hlaid, hstands, hall => by
    obtain ⟨rfl, hclosed, hhead⟩ := hlaid
    refine (AllPlaced.nil first).snoc hall ?_
    refine .of_lined hstands rfl hhead.lined (by simp [Shape.children]) ?_ hclosed ?_
    · rintro name m h
      obtain rfl : head = .plain name (some m) := Option.some.inj h
      exact hhead.modifier_partOf
    · intro h
      rw [show head.closed = false from h] at hclosed
      exact absurd hclosed (by decide)
  | .selector _ inner, first, start, t, after, hlaid, hstands, hall => by
    obtain ⟨rfl, hboxed⟩ := hlaid
    refine (AllPlaced.nil first).snoc hall ?_
    exact .of_lined hstands rfl (Slice.Lined.of_partOf (boxed_partOf hboxed))
      (by simp [Shape.children]) (by simp [Shape.head?]) ⟨rfl, hboxed⟩ (by simp)
  | .group _ members, first, start, t, after, hlaid, hstands, hall => by
    obtain ⟨rfl, body, close, hclose, rfl, hmembers⟩ := hlaid
    have hbody : Stands source (start + 1) (body ++ [close]) after :=
      Stands.right (t := ['(']) hstands
    refine (membersPlaced hmembers hbody.left hall.left).snoc hall ?_
    refine .of_lined hstands rfl ?_ ?_ (by simp [Shape.head?])
      ⟨rfl, body, close, hclose, rfl⟩ (by simp)
    · show Slice.Lined (fun _ => True) start ('(' :: (body ++ [close]))
        (sourcesAt all (membersListing first members).2.flatten)
      have hlined : Slice.Lined (fun _ => True) (start + 1) (body ++ [close])
          (members.flatten.map Variant.source ++ []) := hmembers.lined.append trivial
      rw [List.append_nil] at hlined
      rw [membersSources hall.left]
      exact Slice.Lined.prepend (b := ['(']) hlined
    · exact fun i hi => ((membersRefers first members).mem hi).2

theorem chainPlaced : ∀ {links : List Variant} {first start : Nat} {t after : Text},
    ChainLaid sep start t links → Stands source start t after →
      Occupies all first (chainListing first links).1 →
      AllPlaced sep source all first (chainListing first links).1.length
  | [], first, _, _, _, _, _, _ => AllPlaced.nil first
  | v :: rest, first, start, _, after, hlaid, hstands, hall => by
    obtain ⟨tv, tail, u, rfl, hv, -, hrest⟩ := hlaid
    exact (Variant.placed hv hstands.left.left hall.left).append
      (chainPlaced hrest hstands.right hall.right)

theorem membersPlaced : ∀ {members : List (List Variant)} {first start : Nat} {t after : Text},
    MembersLaid sep start t members → Stands source start t after →
      Occupies all first (membersListing first members).1 →
      AllPlaced sep source all first (membersListing first members).1.length
  | [], first, _, _, _, _, _, _ => AllPlaced.nil first
  | links :: rest, first, start, _, after, hlaid, hstands, hall => by
    obtain ⟨b, tl, u, rfl, -, -, hlinks, hrest⟩ := hlaid
    exact (chainPlaced hlinks hstands.left.right hall.left).append
      (membersPlaced hrest hstands.right hall.right)

end

mutual

theorem Expr.placed : ∀ {e : Expr} {first start : Nat} {t after : Text},
    e.Laid sep start t after → Stands source start t after → Occupies all first (e.listing first) →
      AllPlaced sep source all first (e.listing first).length
  | .utility _ head important, first, start, t, after, hlaid, hstands, hall => by
    obtain ⟨rfl, before, behind, u, rfl, himportant, hhead⟩ := hlaid
    refine (AllPlaced.nil first).snoc hall ?_
    refine .of_lined hstands rfl ?_ (by simp [Shape.children]) ?_ trivial ?_
    · show Slice.Lined (fun _ => True) start (bang before ++ u ++ bang behind) head.parts
      rw [← List.append_nil head.parts]
      exact Slice.Lined.append (Slice.Lined.prepend hhead.lined) trivial
    · rintro name m h
      obtain rfl : head = .plain name (some m) := Option.some.inj h
      exact hhead.modifier_partOf
    · intro hclosed
      by_contra hne
      have := hhead.closed_of_ne_nil (List.append_ne_nil_of_right_ne_nil _ hne)
      rw [show head.closed = false from hclosed] at this
      exact absurd this (by decide)
  | .property _ value important closed, first, start, t, after, hlaid, hstands, hall => by
    obtain ⟨rfl, before, behind, u, rfl, himportant, hboxed⟩ := hlaid
    refine (AllPlaced.nil first).snoc hall ?_
    refine .of_lined hstands rfl ?_ (by simp [Shape.children]) (by simp [Shape.head?]) trivial ?_
    · show Slice.Lined (fun _ => True) start (bang before ++ u ++ bang behind) [value]
      rw [← List.append_nil [value]]
      exact Slice.Lined.append
        (Slice.Lined.prepend (Slice.Lined.of_partOf (boxed_partOf hboxed))) trivial
    · intro hclosed
      obtain rfl : closed = false := hclosed
      exact (List.append_eq_nil_iff.mp hboxed.2.2).2
  | .group _ members important closed, first, start, t, after, hlaid, hstands, hall => by
    obtain ⟨rfl, before, behind, body, rfl, himportant, hopen, hmembers⟩ := hlaid
    have hbody : Stands source (start + Text.bytes (bang before) + 1)
        (body ++ if closed then ')' :: bang behind else []) after :=
      Stands.right (t := ['(']) (Stands.right hstands)
    have hafter : (if closed then ')' :: bang behind else []) ++ after =
        if closed then ')' :: (bang behind ++ after) else [] := by
      cases closed with
      | true => rfl
      | false => exact (hopen rfl).2
    have hinner := hbody.left
    rw [hafter] at hinner
    refine (exprsPlaced hmembers hinner hall.left).snoc hall ?_
    have hparts : Node.parts all ⟨⟨start, bang before ++ '(' :: (body ++
        if closed then ')' :: bang behind else [])⟩, closed,
          .group important (exprsListing first members).2⟩ = members.map Expr.source :=
      exprsSources hall.left
    refine .of_lined hstands rfl ?_ ?_ (by simp [Shape.head?])
      ⟨before, behind, body, rfl, himportant, ?_⟩ (fun hclosed => (hopen hclosed).2)
    · have hlined : Slice.Lined (fun _ => True) (start + Text.bytes (bang before) + 1)
          (body ++ if closed then ')' :: bang behind else []) (members.map Expr.source ++ []) :=
        (hmembers.lined.mono fun _ _ => trivial).append trivial
      rw [List.append_nil] at hlined
      rw [hparts]
      exact Slice.Lined.prepend (Slice.Lined.prepend (b := ['(']) hlined)
    · exact fun i hi => ((exprsRefers first members).mem hi).2
    · rw [hparts]
      exact Slice.Lined.coveredBy hmembers.lined
  | .span _ variant none, first, start, t, after, hlaid, hstands, hall => by
    obtain ⟨rfl, tv, rfl, hv⟩ := hlaid
    have hparts : sourcesAt all [first + (variant.listing first).length - 1] =
        [⟨start, tv⟩] := by
      rw [Variant.sourcesAt_eq hall.left, Variant.Laid.source_eq hv]
      rfl
    refine (Variant.placed hv hstands.left hall.left).snoc hall ?_
    refine .of_lined hstands rfl ?_ ?_ (by simp [Shape.head?]) ⟨tv, rfl, hparts⟩ (by simp)
    · show Slice.Lined (fun _ => True) start (tv ++ sep.text)
        (sourcesAt all [first + (variant.listing first).length - 1])
      rw [hparts, ← List.append_nil [_]]
      exact (Slice.Lined.of_partOf (Slice.partOf_refl _)).append trivial
    · exact fun i hi => ((Variant.refers first variant).mem hi).2
  | .span _ variant (some child), first, start, t, after, hlaid, hstands, hall => by
    obtain ⟨rfl, tv, u, rfl, hv, hchild⟩ := hlaid
    have hinit : Occupies all first
        (variant.listing first ++ child.listing (first + (variant.listing first).length)) :=
      hall.left
    have hparts : sourcesAt all [first + (variant.listing first).length - 1,
        first + (variant.listing first).length +
          (child.listing (first + (variant.listing first).length)).length - 1] =
        [⟨start, tv⟩, ⟨start + Text.bytes (tv ++ sep.text), u⟩] := by
      rw [Variant.sourcesAt_eq hinit.left, Expr.sourcesAt_eq hinit.right,
        Variant.Laid.source_eq hv, Expr.Laid.source_eq hchild]
      rfl
    refine ((Variant.placed hv hstands.left.left hinit.left).append
      (Expr.placed hchild hstands.right hinit.right)).snoc hall ?_
    refine .of_lined hstands rfl ?_ ?_ (by simp [Shape.head?]) ⟨tv, u, rfl, hparts⟩ (by simp)
    · have hvariant : Slice.Lined (fun _ => True) start (tv ++ sep.text) ([⟨start, tv⟩] ++ []) :=
        (Slice.Lined.of_partOf (Slice.partOf_refl _)).append trivial
      have hboth := hvariant.append (Slice.Lined.of_partOf
        (Slice.partOf_refl ⟨start + Text.bytes (tv ++ sep.text), u⟩))
      rw [List.append_nil, List.singleton_append, ← hparts] at hboth
      exact hboth
    · exact fun i hi =>
        (((Variant.refers first variant).append (Expr.refers _ child)).mem hi).2

theorem exprsPlaced : ∀ {es : List Expr} {first start : Nat} {t after : Text},
    ExprsLaid sep start t after es → Stands source start t after →
      Occupies all first (exprsListing first es).1 →
      AllPlaced sep source all first (exprsListing first es).1.length
  | [], first, _, _, _, _, _, _ => AllPlaced.nil first
  | e :: rest, first, start, _, after, hlaid, hstands, hall => by
    obtain ⟨b, te, u, rfl, -, he, hrest⟩ := hlaid
    exact (Expr.placed he hstands.left.right hall.left).append
      (exprsPlaced hrest hstands.right hall.right)

end

end

/-! ## Whole class lists -/

/-- Every part but the program is the child of exactly one part. -/
theorem Program.references_perm (p : Program) :
    (references p.listing).Perm (List.range (p.listing.length - 1)) := by
  have hlisting : p.listing = (exprsListing 0 p.exprs).1 ++
      [⟨p.source, true, .program (exprsListing 0 p.exprs).2⟩] := rfl
  rw [hlisting, references_append, references_singleton, List.length_append,
    List.length_singleton, Nat.add_sub_cancel, List.range_eq_range']
  exact exprsRefers 0 p.exprs

/-- Every part of what is read is well placed. -/
theorem read_placed (sep : Separator) (source : Text) {place : Nat} {n : Node}
    (h : (read sep source).listing[place]? = some n) :
    n.Placed sep source (read sep source).listing place := by
  have hlaid := read_laid sep source
  have hstands : Stands source 0 source [] := ⟨[], by simp, rfl⟩
  have hall := Occupies.self (read sep source).listing
  have hsources : sourcesAt (read sep source).listing
      (exprsListing 0 (read sep source).exprs).2 = (read sep source).exprs.map Expr.source :=
    exprsSources hall.left
  have hprogram : Node.Placed sep source (read sep source).listing
      (0 + (exprsListing 0 (read sep source).exprs).1.length)
      ⟨⟨0, source⟩, true, .program (exprsListing 0 (read sep source).exprs).2⟩ := by
    refine .of_lined hstands rfl ?_ ?_ (by simp [Shape.head?]) ?_ (by simp)
    · show Slice.Lined _ _ _ (sourcesAt _ (exprsListing 0 (read sep source).exprs).2)
      rw [hsources]
      exact hlaid.lined.mono fun _ _ => trivial
    · exact fun i hi => ((exprsRefers 0 _).mem hi).2
    · show Slice.CoveredBy _ (sourcesAt _ (exprsListing 0 (read sep source).exprs).2)
      rw [hsources]
      exact Slice.Lined.coveredBy hlaid.lined
  obtain ⟨hlt, -⟩ := List.getElem?_eq_some_iff.mp h
  exact (exprsPlaced hlaid hstands hall.left).snoc hall hprogram place n (Nat.zero_le _)
    (by rw [Nat.zero_add]; exact hlt) h

/-- Whatever the source, reading ends with a tree over it: the program comes last, every
other part is the child of exactly one later part, and every part is well placed.  A
higher bound on the recursion makes no difference. -/
theorem read_listing (sep : Separator) (source : Text) :
    let nodes := (read sep source).listing
    (∃ places, nodes.getLast? = some ⟨⟨0, source⟩, true, .program places⟩) ∧
      (references nodes).Perm (List.range (nodes.length - 1)) ∧
      (∀ (place : Nat) (n : Node), nodes[place]? = some n → n.Placed sep source nodes place) ∧
      ∀ more, (exprs sep false (4 * source.length + 4 + more) (.atStart source)).1 =
        (read sep source).exprs :=
  ⟨⟨_, List.getLast?_concat⟩, (read sep source).references_perm, fun _ _ => read_placed sep source,
    fun _ => exprs_of_bound sep source (Nat.le_add_right ..)⟩

/-! ## Expressions that are all of a source -/

/-- The only expression of a class list, if it is all of it, is read from the beginning of the
source to its end. -/
theorem exists_reads_of_read {sep : Separator} {x : Text} {e : Expr}
    (hread : (read sep x).exprs = [e]) (hsource : e.source = ⟨0, x⟩) : (Cursor.atStart x).skipBlanks = .atStart x ∧
      ∃ d, Reads sep false (.atStart x) e d ∧ d.rest = [] := by
  obtain ⟨f, hall⟩ := exists_readsAll_read sep x
  rw [hread] at hall
  cases hall with
  | next hfirst _ =>
    obtain ⟨b, hp, -⟩ := Cursor.passes_skipBlanks (.atStart x)
    obtain ⟨t, -, hp', hlaid⟩ := hfirst.laid
    obtain rfl : t = x := by
      rw [hlaid.source_eq] at hsource
      exact congrArg Slice.text hsource
    have hlength : t.length = (b ++ t).length + _ := (hp.trans hp').length
    rw [List.length_append] at hlength
    obtain rfl : b = [] := List.eq_nil_of_length_eq_zero (by omega)
    rw [hp.eq_of_nil] at hfirst
    exact ⟨hp.eq_of_nil, _, hfirst, List.eq_nil_of_length_eq_zero (by omega)⟩

/-- What is read from the beginning of a source to its end is all of the class list. -/
theorem Reads.read_eq {sep : Separator} {x : Text} {e : Expr} {d : Cursor}
    (h : Reads sep false (.atStart x) e d) (hd : d.rest = [])
    (hskip : (Cursor.atStart x).skipBlanks = .atStart x) : (read sep x).exprs = [e] := by
  have hend : d.skipBlanks.rest = [] := by rw [Cursor.skipBlanks, Cursor.rest_advance, hd]; rfl
  have hall : ReadsAll sep false (.atStart x) [e] d.skipBlanks :=
    .next (hskip.symm ▸ h) (.done (Or.inl hend))
  rw [hall.read_eq]

/-- From the beginning of a source to its end is all of the source. -/
theorem Reads.upTo_eq {sep : Separator} {x : Text} {e : Expr} {d : Cursor}
    (h : Reads sep false (.atStart x) e d) (hd : d.rest = []) :
    (Cursor.atStart x).upTo d = ⟨0, x⟩ := by
  obtain ⟨t, -, hp, -⟩ := h.laid
  have hrest : x = t ++ d.rest := hp.rest_eq
  rw [hp.upTo, hrest, hd, List.append_nil]
  rfl

end ClassList
end UtilityCss
