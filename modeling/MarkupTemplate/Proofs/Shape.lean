import MarkupTemplate.Document.WellFormed
import MarkupTemplate.Proofs.Order

/-!
# The shape of what is assembled

What structuring makes is well-formed by itself: elements are named and have their attributes first,
an attribute has a value and nothing else, and markup is a leaf. The name of an element comes from a
start tag, which starts with a letter; attributes come with the start tag, before anything else can
come under the element.

## Main definitions

* `Markup.Token.Named`: a start tag has a name
* `Forest.Shaped`: every node that was made has the children that its kind demands
* `Assembly.Shaped`: the same of a forest with an open path

## Main results

* `Cursor.named_of_mem_tokens`: every token is named
* `Assembly.Shaped.apply`, `Assembly.Shaped.take`: tokens and children keep the shape
-/

namespace MarkupTemplate

open Markup

/-! ## Names of tags -/

namespace Markup

/-- If the token is a start tag, it has a name. -/
def Token.Named (t : Token) : Prop :=
  ∀ name attributes selfClosing, t.content = .startTag name attributes selfClosing → name.text ≠ []

/-- The name of a tag may start with any letter. -/
theorem isTagNamePart_of_isLetter {b : UInt8} (h : Byte.isLetter b = true) :
    isTagNamePart b = true := by
  -- No mark and no blank is a letter.
  have hne : ∀ b' : UInt8, Byte.isLetter b' = false → (b == b') = false := by
    intro b' hb'
    rw [beq_eq_false_iff_ne]
    rintro rfl
    simp [h] at hb'
  simp [isTagNamePart, Byte.isBlank, hne Byte.space (by decide), hne Byte.tab (by decide),
    hne Byte.lineFeed (by decide), hne Byte.carriageReturn (by decide),
    hne Byte.formFeed (by decide), hne Byte.slash (by decide), hne Byte.greaterThan (by decide)]

/-- Where a tag or a comment starts, the next byte tells which of them. -/
theorem startsMarkup_iff {a b : UInt8} {rest : Bytes} :
    startsMarkup (a :: b :: rest) = true ↔
      a = Byte.lessThan ∧
        (Byte.isLetter b = true ∨ b = Byte.exclamation ∨
          b = Byte.slash ∧ rest.head?.any Byte.isLetter = true) := by
  simp [startsMarkup, or_assoc]

end Markup

namespace Cursor

variable {c c' : Cursor}

theorem named_of_startTag? {name : Slice} {attributes : List Attribute} {selfClosing : Bool}
    {b : UInt8} (hb : (c.rest.drop 1).head? = some b) (hletter : Byte.isLetter b = true)
    (h : c.startTag? = some (.startTag name attributes selfClosing, c')) : name.text ≠ [] := by
  obtain ⟨⟨as, s, d⟩, -, he⟩ := Option.map_eq_some_iff.1 h
  simp only [Prod.mk.injEq, Content.startTag.injEq] at he
  obtain ⟨⟨rfl, -, -⟩, -⟩ := he
  cases hrest : c.rest.drop 1 with
  | nil => simp [hrest] at hb
  | cons b' rest =>
    obtain rfl : b' = b := by simpa [hrest] using hb
    simp [run, hrest, isTagNamePart_of_isLetter hletter]

/-- A tag or comment is named if it is a start tag. -/
theorem named_of_markup? {name : Slice} {attributes : List Attribute} {selfClosing : Bool}
    (hs : startsMarkup c.rest = true)
    (h : c.markup? = some (.startTag name attributes selfClosing, c')) : name.text ≠ [] := by
  unfold markup? at h
  split at h
  · next a b rest hrest =>
    rw [hrest, startsMarkup_iff] at hs
    split at h
    · simp [comment?] at h
    · next hexclamation =>
      split at h
      · simp [endTag?] at h
      · next hslash =>
        -- Markup that is neither a comment nor an end tag starts with a letter.
        have hletter : Byte.isLetter b = true :=
          hs.2.resolve_right fun h => h.elim hexclamation fun h => hslash h.1
        exact named_of_startTag? (by simp [hrest]) hletter h
  · simp at h

theorem named_of_next? {t : Token} (h : c.next? = some (t, c')) : t.Named := by
  intro name attributes selfClosing ht
  obtain ⟨hs, content, hd, rfl⟩ | ⟨-, -, rfl, -⟩ := next?_cases h
  · exact named_of_markup? hs (hd.trans (by rw [show content = _ from ht]))
  · cases ht

/-- Every token of a text is named if it is a start tag. -/
theorem named_of_mem_tokens {t : Token} (ht : t ∈ c.tokens.1) : t.Named :=
  forall_mem_tokens (fun _ _ _ hnext => named_of_next? hnext) t ht

end Cursor

/-! ## Shapes of forests -/

namespace Document

variable {kinds kinds' : List NodeKind}

theorem attributesFirst_append (h : attributesFirst kinds)
    (h' : ∀ kind ∈ kinds', kind ≠ .attribute) : attributesFirst (kinds ++ kinds') := by
  induction kinds with
  | nil =>
    cases kinds' with
    | nil => rfl
    | cons kind kinds' => simpa [attributesFirst, h' kind (by simp)] using h'
  | cons kind kinds ih =>
    -- The attributes at the head are dropped; after them no attribute is left to find.
    by_cases hkind : kind = .attribute
    · subst hkind
      exact ih h
    · have hk : (kind == NodeKind.attribute) = false := by simpa using hkind
      simp only [attributesFirst, List.cons_append, List.dropWhile_cons, hk] at h ⊢
      simpa using ⟨hkind, by simpa [hkind] using h, by simpa using h'⟩

theorem attributesFirst_of_all (h : ∀ kind ∈ kinds, kind = .attribute) : attributesFirst kinds := by
  induction kinds with
  | nil => rfl
  | cons kind kinds ih =>
    obtain rfl := h kind (by simp)
    exact ih fun k hk => h k (List.mem_cons_of_mem _ hk)

end Document

namespace Forest

variable {n : Nat}

/-- The kinds of the roots. -/
def rootKinds : Forest → List NodeKind
  | nil => []
  | cons _ label _ siblings => label.kind :: siblings.rootKinds

/-- What its kind demands of a node that structuring makes. -/
def ShapedNode (label : Label) (children : Forest) : Prop :=
  match label.kind with
  | .markup => children = .nil
  | .element => label.name ≠ [] ∧ Document.attributesFirst children.rootKinds
  | .attribute => children.rootKinds = [.attributeValue]
  | .attributeValue => True
  | _ => False

/-- Every node from the number `n` on has the children that its kind demands; of the others nothing
is said. -/
def Shaped (n : Nat) : Forest → Prop
  | nil => True
  | cons id label children siblings =>
    (if n ≤ id then ShapedNode label children else label = default) ∧
      children.Shaped n ∧ siblings.Shaped n

@[simp] theorem rootKinds_append (f g : Forest) :
    (f ++ g).rootKinds = f.rootKinds ++ g.rootKinds := by
  induction f with
  | nil => rfl
  | cons id label children siblings _ ih => rw [cons_append, rootKinds, ih]; rfl

theorem shaped_append {f g : Forest} : (f ++ g).Shaped n ↔ f.Shaped n ∧ g.Shaped n := by
  induction f with
  | nil => simp [Shaped]
  | cons id label children siblings _ ih => simp only [cons_append, Shaped, ih, and_assoc]

theorem shaped_cons_of_le {id : NodeId} {label : Label} {children siblings : Forest} (h : n ≤ id) :
    (cons id label children siblings).Shaped n ↔
      ShapedNode label children ∧ children.Shaped n ∧ siblings.Shaped n := by
  rw [Shaped, if_pos h]

theorem shaped_leaves {ids : List NodeId} (h : ∀ id ∈ ids, id < n) : (leaves ids).Shaped n := by
  induction ids with
  | nil => trivial
  | cons id ids ih =>
    exact ⟨by rw [if_neg (Nat.not_le.2 (h id (by simp)))], trivial,
      ih fun i hi => h i (List.mem_cons_of_mem _ hi)⟩

theorem not_attribute_of_mem_leaves {ids : List NodeId} {kind : NodeKind}
    (h : kind ∈ (leaves ids).rootKinds) : kind ≠ .attribute := by
  induction ids with
  | nil => simp [leaves, rootKinds] at h
  | cons id ids ih =>
    rcases List.mem_cons.1 h with rfl | h
    · decide
    · exact ih h

end Forest

section

variable {n next : Nat} {parts : List ValuePart} (hnext : n ≤ next)
  (hparts : ∀ id ∈ partHoles parts, id < n)
include hnext hparts

theorem shaped_valueForest : (valueForest next parts).Shaped n := by
  induction parts generalizing next with
  | nil => trivial
  | cons part parts ih =>
    cases part with
    | literal text =>
      rw [valueForest, Forest.shaped_cons_of_le hnext]
      exact ⟨rfl, trivial, ih (by omega) hparts⟩
    | hole node =>
      exact ⟨by rw [if_neg (Nat.not_le.2 (hparts node (by simp [partHoles])))], trivial,
        ih hnext fun id hid => hparts id (by simp [partHoles, hid])⟩

theorem shaped_attributeForest (name : Bytes) : (attributeForest next name parts).Shaped n := by
  rw [attributeForest, Forest.shaped_cons_of_le hnext, Forest.shaped_cons_of_le (by omega)]
  exact ⟨rfl, ⟨trivial, shaped_valueForest (by omega) hparts, trivial⟩, trivial⟩

end

/-! ## Shapes of assemblies -/

namespace Assembly

variable {n : Nat} {arrived : List NodeId} {a : Assembly}

/-- An open element is named, and what stands under it so far has the attributes first. -/
structure Shaped (n : Nat) (a : Assembly) : Prop where
  path : ∀ branch ∈ a.path, branch.label.kind = .element ∧ branch.label.name ≠ []
  frames : ∀ f ∈ a.frames, f.Shaped n ∧ Document.attributesFirst f.rootKinds

namespace Shaped

theorem start (n : Nat) : Shaped n { next := n } :=
  ⟨by simp, by simp [Assembly.frames, Forest.Shaped, Document.attributesFirst, Forest.rootKinds]⟩

/-- More content that is no attribute keeps the shape. -/
theorem add (h : Shaped n a) {next : Nat} {f : Forest} {waiting : List Hole} {carried : Bytes}
    (hf : f.Shaped n) (hkinds : ∀ kind ∈ f.rootKinds, kind ≠ .attribute) :
    Shaped n { a with
      next := next, content := a.content ++ f, waiting := waiting, carried := carried } := by
  refine ⟨h.path, fun g hg => ?_⟩
  rcases List.mem_cons.1 hg with rfl | hg
  · obtain ⟨hshaped, hfirst⟩ := h.frames a.content a.content_mem_frames
    refine ⟨Forest.shaped_append.2 ⟨hshaped, hf⟩, ?_⟩
    rw [Forest.rootKinds_append]
    exact Document.attributesFirst_append hfirst hkinds
  · exact h.frames g (List.mem_cons_of_mem _ hg)

theorem wait (h : Shaped n a) (waiting : List Hole) (carried : Bytes) :
    Shaped n { a with waiting := waiting, carried := carried } := ⟨h.path, h.frames⟩

theorem release (h : Shaped n a) (haccount : Accounted n arrived a) (p : Hole → Bool) :
    Shaped n (a.release p) := by
  exact h.add (Forest.shaped_leaves (haccount.released_lt p)) fun kind hkind =>
    Forest.not_attribute_of_mem_leaves hkind

/-- The attributes of a start tag come under an element that has nothing else yet. -/
theorem foldl_attach (haccount : Accounted n arrived a)
    (hcontent : a.content.Shaped n ∧ ∀ kind ∈ a.content.rootKinds, kind = .attribute)
    (entries : List Attribute) :
    let a' := entries.foldl Assembly.attach a
    a'.path = a.path ∧ a'.content.Shaped n ∧ ∀ kind ∈ a'.content.rootKinds, kind = .attribute := by
  induction entries generalizing a with
  | nil => exact ⟨rfl, hcontent⟩
  | cons entry entries ih =>
    refine ih (haccount.attach entry) ⟨Forest.shaped_append.2 ⟨hcontent.1, ?_⟩, ?_⟩
    · exact shaped_attributeForest haccount.le (haccount.parts_lt entry) entry.name.text
    · intro kind hkind
      simp only [Assembly.attach, Forest.rootKinds_append, List.mem_append] at hkind
      rcases hkind with hkind | hkind
      · exact hcontent.2 kind hkind
      · simpa [attributeForest, Forest.rootKinds] using hkind

theorem openElement (h : Shaped n a) (haccount : Accounted n arrived a) {name : Bytes}
    (hname : name ≠ []) (attributes : List Attribute) :
    Shaped n (a.openElement name attributes) := by
  have hrelease := h.release haccount fun hole => hole.isPositional && !attributes.any hole.isIn
  have haccount' := (haccount.release fun hole =>
    hole.isPositional && !attributes.any hole.isIn).enter name
  obtain ⟨hpath, hshaped, hkinds⟩ := foldl_attach haccount' ⟨trivial, nofun⟩ attributes
  refine release ⟨?_, fun f hf => ?_⟩ (haccount'.foldl_attach attributes) _
  · rw [hpath]
    intro branch hbranch
    rcases List.mem_cons.1 hbranch with rfl | hbranch
    · exact ⟨rfl, hname⟩
    · exact hrelease.path branch hbranch
  · rw [Assembly.frames, hpath] at hf
    rcases List.mem_cons.1 hf with rfl | hf
    · exact ⟨hshaped, Document.attributesFirst_of_all hkinds⟩
    · exact hrelease.frames f hf

theorem closeElement (h : Shaped n a) (haccount : Accounted n arrived a) (name : Bytes) :
    Shaped n (a.closeElement name) := by
  unfold Assembly.closeElement
  split
  · exact ⟨h.path, h.frames⟩
  · next branch path hpath =>
    have hnode : n ≤ branch.node :=
      (haccount.mem_created.1 (by simp [Assembly.created, hpath])).1
    obtain ⟨hkind, hname⟩ := h.path branch (by simp [hpath])
    obtain ⟨hshaped, hfirst⟩ := h.frames a.content a.content_mem_frames
    obtain ⟨hshaped', hfirst'⟩ := h.frames branch.before (by simp [Assembly.frames, hpath])
    have hclosed : (closedLabel name branch.label).kind = .element ∧
        (closedLabel name branch.label).name = branch.label.name := by
      unfold closedLabel
      split <;> exact ⟨hkind, rfl⟩
    refine ⟨fun b hb => h.path b (by simp [hpath, hb]), fun f hf => ?_⟩
    rcases List.mem_cons.1 hf with rfl | hf
    · rw [Forest.shaped_append, Forest.shaped_cons_of_le hnode]
      refine ⟨⟨hshaped', ?_, hshaped, trivial⟩, ?_⟩
      · rw [Forest.ShapedNode, hclosed.1, hclosed.2]
        exact ⟨hname, hfirst⟩
      · rw [Forest.rootKinds_append]
        refine Document.attributesFirst_append hfirst' fun kind hkind => ?_
        rw [Forest.rootKinds, hclosed.1, Forest.rootKinds, List.mem_singleton] at hkind
        rw [hkind]
        decide
    · exact h.frames f (by rw [Assembly.frames, hpath]; simp [hf])

theorem addText (h : Shaped n a) (haccount : Accounted n arrived a) (data : Bytes) :
    Shaped n (a.addText data) := by
  unfold Assembly.addText
  split
  · exact h
  · exact h.add ((Forest.shaped_cons_of_le haccount.le).2 ⟨rfl, trivial, trivial⟩)
      (by simp [Forest.rootKinds])

/-- A token keeps the shape. -/
theorem apply (h : Shaped n a) (haccount : Accounted n arrived a) {t : Token} (ht : t.Named) :
    Shaped n (a.apply t) := by
  obtain ⟨offset, length, content⟩ := t
  cases content with
  | startTag name attributes selfClosing =>
    have hopen := h.openElement haccount (ht name attributes selfClosing rfl) attributes
    simp only [Assembly.apply]
    split
    · exact hopen.closeElement (haccount.openElement name.text attributes) name.text
    · exact hopen
  | endTag name => exact (h.release haccount _).closeElement (haccount.release _) name.text
  | text data => exact (h.release haccount _).addText (haccount.release _) data
  | comment data => exact h.release haccount _

theorem foldl_apply (h : Shaped n a) (haccount : Accounted n arrived a) {ts : List Token}
    (hts : ∀ t ∈ ts, t.Named) : Shaped n (ts.foldl Assembly.apply a) := by
  induction ts generalizing a with
  | nil => exact h
  | cons t ts ih =>
    exact ih (h.apply haccount (hts t (by simp))) (haccount.apply t) fun u hu =>
      hts u (by simp [hu])

/-- The next child keeps the shape, whatever it is. -/
theorem take (h : Shaped n a) (haccount : Accounted n arrived a) {item : Item}
    (hitem : ∀ id ∈ item.node?, id < n) : Shaped n (a.take item) := by
  cases item with
  | markup text =>
    have hnamed : ∀ t ∈ (scan (a.carried ++ text)).tokens, t.Named :=
      fun t ht => Cursor.named_of_mem_tokens ht
    have hfold := h.foldl_apply haccount hnamed
    simp only [Assembly.take, Assembly.takeMarkup]
    split
    · exact hfold.wait _ _
    · exact hfold.wait _ _
  | «attribute» node => exact h.wait _ _
  | hole node =>
    simp only [Assembly.take]
    split
    · refine h.add (Forest.shaped_leaves ?_) fun kind hkind =>
        Forest.not_attribute_of_mem_leaves hkind
      simpa using hitem node rfl
    · exact h.wait _ _

theorem foldl_take (h : Shaped n a) (haccount : Accounted n arrived a) {items : List Item}
    (hitems : ∀ item ∈ items, ∀ id ∈ item.node?, id < n) :
    Shaped n (items.foldl Assembly.take a) := by
  induction items generalizing arrived a with
  | nil => exact h
  | cons item items ih =>
    have hitem := hitems item (by simp)
    exact ih (h.take haccount hitem) (haccount.take hitem) fun i hi => hitems i (by simp [hi])

end Shaped

end Assembly

/-- What is assembled of the children of a container is shaped. -/
theorem Document.shaped_children {d : Document} {container : NodeId}
    (hchildren : ∀ child ∈ d.children container, child < d.size) :
    (d.assembly container).Shaped d.size :=
  (Assembly.Shaped.start d.size).foldl_take (.start d.size)
    (Document.node_lt_of_mem_items hchildren)

end MarkupTemplate
