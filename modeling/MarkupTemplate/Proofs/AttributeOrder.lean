import MarkupTemplate.Proofs.Verification

/-!
# Attributes among the children of a container

A child of a container may be an attribute. It waits for a start tag and goes after the attributes
of the tag, before anything else that comes under the element; holes of other kinds never go there.
So in every element that structuring makes the attributes come first, the older ones included.

## Main definitions

* `Forest.kindsOf`: the kinds of the roots, with the true kinds of the holes
* `Forest.Ordered`, `Assembly.Ordered`: in every element the attributes come first

## Main results

* `Assembly.Ordered.apply`, `Assembly.Ordered.take`: tokens and children keep the order
* `Document.ordered_children`: the order after all children of a container
* `Document.wellShaped_of_ordered`: what structuring makes has the children that its kind demands,
  whatever the holes are
-/

namespace MarkupTemplate

open Markup

variable {kind : NodeId → NodeKind} {n next : Nat}

namespace Forest

/-- The kinds of the roots, where the nodes below the number `n` have the given kinds. -/
def kindsOf (kind : NodeId → NodeKind) (n : Nat) : Forest → List NodeKind
  | nil => []
  | cons id label _ siblings =>
    (if id < n then kind id else label.kind) :: siblings.kindsOf kind n

/-- In every element that was made the attributes come first. -/
def Ordered (kind : NodeId → NodeKind) (n : Nat) : Forest → Prop
  | nil => True
  | cons _ label children siblings =>
    (label.kind = .element → Document.attributesFirst (children.kindsOf kind n)) ∧
      children.Ordered kind n ∧ siblings.Ordered kind n

@[simp] theorem kindsOf_append (f g : Forest) :
    (f ++ g).kindsOf kind n = f.kindsOf kind n ++ g.kindsOf kind n := by
  induction f with
  | nil => rfl
  | cons id label children siblings _ ih => simp only [cons_append, kindsOf, ih, List.cons_append]

theorem ordered_append {f g : Forest} :
    (f ++ g).Ordered kind n ↔ f.Ordered kind n ∧ g.Ordered kind n := by
  induction f with
  | nil => simp [Ordered]
  | cons id label children siblings _ ih => simp only [cons_append, Ordered, ih, and_assoc]

theorem kindsOf_leaves {ids : List NodeId} (h : ∀ id ∈ ids, id < n) :
    (leaves ids).kindsOf kind n = ids.map kind := by
  induction ids with
  | nil => rfl
  | cons id ids ih =>
    rw [leaves, kindsOf, if_pos (h id List.mem_cons_self),
      ih fun i hi => h i (List.mem_cons_of_mem _ hi), List.map_cons]

/-- A value is no hole. -/
theorem kindsOf_of_rootKinds {f : Forest} (hshaped : f.Shaped n)
    (h : f.rootKinds = [.attributeValue]) : f.kindsOf kind n = [.attributeValue] := by
  cases f with
  | nil => exact absurd h (by simp [rootKinds])
  | cons id label children siblings =>
    obtain ⟨hkind, hsiblings⟩ := List.cons.inj h
    obtain rfl : siblings = .nil := by
      cases siblings with
      | nil => rfl
      | cons => exact absurd hsiblings (by simp [rootKinds])
    have hle : n ≤ id := by
      refine Decidable.byContradiction fun hlt => ?_
      have hdefault := hshaped.1
      rw [if_neg hlt] at hdefault
      rw [hdefault] at hkind
      exact absurd hkind (by decide)
    rw [kindsOf, if_neg (Nat.not_lt.2 hle), hkind, kindsOf]

theorem ordered_leaves (ids : List NodeId) : (leaves ids).Ordered kind n := by
  induction ids with
  | nil => trivial
  | cons id ids ih => exact ⟨fun h => absurd h (by decide), trivial, ih⟩

end Forest

theorem ordered_valueForest (parts : List ValuePart) :
    (valueForest next parts).Ordered kind n := by
  induction parts generalizing next with
  | nil => trivial
  | cons part parts ih =>
    cases part with
    | literal text => exact ⟨nofun, trivial, ih⟩
    | hole node => exact ⟨fun h => absurd h (by decide), trivial, ih⟩

theorem ordered_attributeForest (name : Bytes) (parts : List ValuePart) :
    (attributeForest next name parts).Ordered kind n :=
  ⟨nofun, ⟨nofun, ordered_valueForest parts, trivial⟩, trivial⟩

theorem kindsOf_attributeForest (hnext : n ≤ next) (name : Bytes) (parts : List ValuePart) :
    (attributeForest next name parts).kindsOf kind n = [.attribute] := by
  rw [attributeForest, Forest.kindsOf, if_neg (Nat.not_lt.2 hnext), Forest.kindsOf]

/-- The item says whether its node is an attribute. -/
def Item.Sorted (kind : NodeId → NodeKind) : Item → Prop
  | .markup _ => True
  | .attribute node => kind node = .attribute
  | .hole node => kind node ≠ .attribute

namespace Assembly

variable {arrived : List NodeId} {a : Assembly}

/-- Only attributes wait without a place, and wherever something stands so far, the attributes come
first. -/
structure Ordered (kind : NodeId → NodeKind) (n : Nat) (a : Assembly) : Prop where
  waiting : ∀ hole ∈ a.waiting, hole.isPositional = true ↔ kind hole.node ≠ .attribute
  path : ∀ branch ∈ a.path, branch.label.kind = .element
  frames : ∀ f ∈ a.frames, Document.attributesFirst (f.kindsOf kind n) ∧ f.Ordered kind n

namespace Ordered

theorem start (kind : NodeId → NodeKind) (n : Nat) : Ordered kind n { next := n } := by
  refine ⟨by simp, by simp, ?_⟩
  simp [Assembly.frames, Forest.Ordered, Forest.kindsOf, Document.attributesFirst]

/-- More content that is no attribute keeps the order, if fewer holes wait. -/
theorem add (h : Ordered kind n a) {next : Nat} {f : Forest} {waiting : List Hole}
    (hf : f.Ordered kind n) (hkinds : ∀ k ∈ f.kindsOf kind n, k ≠ .attribute)
    (hwaiting : ∀ hole ∈ waiting, hole ∈ a.waiting) :
    Ordered kind n { a with next := next, content := a.content ++ f, waiting := waiting } := by
  refine ⟨fun hole hmem => h.waiting hole (hwaiting hole hmem), h.path, fun g hg => ?_⟩
  rcases List.mem_cons.1 hg with rfl | hg
  · obtain ⟨hfirst, hordered⟩ := h.frames a.content a.content_mem_frames
    rw [Forest.kindsOf_append]
    exact ⟨Document.attributesFirst_append hfirst hkinds, Forest.ordered_append.2 ⟨hordered, hf⟩⟩
  · exact h.frames g (List.mem_cons_of_mem _ hg)

/-- Holes that have a place in a tag are no attributes. -/
theorem release (h : Ordered kind n a) (haccount : Accounted n arrived a) {p : Hole → Bool}
    (hp : ∀ hole, p hole → hole.isPositional) : Ordered kind n (a.release p) := by
  refine h.add (Forest.ordered_leaves _) ?_ fun hole hmem => (List.mem_filter.1 hmem).1
  rw [Forest.kindsOf_leaves (haccount.released_lt p)]
  intro k hk
  simp only [List.mem_map, List.mem_filter] at hk
  obtain ⟨id, ⟨hole, ⟨hmem, hpositional⟩, rfl⟩, rfl⟩ := hk
  exact (h.waiting hole hmem).1 (hp hole hpositional)

/-- The attributes of a start tag come under an element that has nothing else yet, and take the
holes in their values. -/
theorem foldl_attach (kind : NodeId → NodeKind) (hle : n ≤ a.next)
    (hcontent : a.content.Ordered kind n ∧ ∀ k ∈ a.content.kindsOf kind n, k = .attribute)
    (entries : List Attribute) :
    let a' := entries.foldl Assembly.attach a
    a'.path = a.path ∧ (∀ hole ∈ a'.waiting, hole ∈ a.waiting ∧ !entries.any hole.isIn) ∧
      a'.content.Ordered kind n ∧ ∀ k ∈ a'.content.kindsOf kind n, k = .attribute := by
  induction entries generalizing a with
  | nil => exact ⟨rfl, fun hole hmem => ⟨hmem, rfl⟩, hcontent⟩
  | cons entry entries ih =>
    obtain ⟨hpath, hwaiting, hrest⟩ := ih (a := a.attach entry)
      (by simp only [Assembly.attach]; omega) (by
        refine ⟨Forest.ordered_append.2 ⟨hcontent.1, ordered_attributeForest _ _⟩, ?_⟩
        intro k hk
        simp only [Assembly.attach, Forest.kindsOf_append, List.mem_append,
          kindsOf_attributeForest hle, List.mem_singleton] at hk
        exact hk.elim (hcontent.2 k) id)
    refine ⟨hpath, fun hole hmem => ?_, hrest⟩
    obtain ⟨hmem, hnot⟩ := hwaiting hole hmem
    simp only [Assembly.attach, List.mem_filter] at hmem
    exact ⟨hmem.1, by simpa using ⟨by simpa using hmem.2, by simpa using hnot⟩⟩

/-- What still waits after the attributes of a start tag are attributes themselves. -/
theorem openElement (h : Ordered kind n a) (haccount : Accounted n arrived a) (name : Bytes)
    (attributes : List Attribute) : Ordered kind n (a.openElement name attributes) := by
  have hrelease := h.release haccount (p := isBetween attributes) fun hole hole' =>
    (Bool.and_eq_true _ _ ▸ hole').1
  have haccount' := (haccount.release (isBetween attributes)).enter name
  obtain ⟨hpath, hwaiting, hordered, hkinds⟩ := foldl_attach kind haccount'.le
    ⟨trivial, nofun⟩ attributes
  have hlt := (haccount'.foldl_attach attributes).released_lt fun _ => true
  have hopen : a.openElement name attributes =
      (attributes.foldl Assembly.attach
        ((a.release (isBetween attributes)).enter name)).release fun _ => true := rfl
  rw [hopen]
  generalize attributes.foldl Assembly.attach ((a.release (isBetween attributes)).enter name) = b
    at *
  -- A hole without a place in the tag is an attribute; any other one is in a value by now.
  have hattribute : ∀ hole ∈ b.waiting, kind hole.node = .attribute := by
    intro hole hmem
    obtain ⟨hmem, hnot⟩ := hwaiting hole hmem
    obtain ⟨hmem, hbetween⟩ := List.mem_filter.1 hmem
    rw [isBetween, hnot, Bool.and_true, Bool.not_eq_true'] at hbetween
    refine Decidable.byContradiction fun hkind => ?_
    rw [(h.waiting hole hmem).2 hkind] at hbetween
    exact absurd hbetween (by decide)
  refine ⟨by simp [Assembly.release], ?_, fun f hf => ?_⟩
  · rw [Assembly.release, hpath]
    intro branch hbranch
    rcases List.mem_cons.1 hbranch with rfl | hbranch
    · rfl
    · exact hrelease.path branch hbranch
  · simp only [Assembly.frames, Assembly.release, hpath] at hf
    rcases List.mem_cons.1 hf with rfl | hf
    · refine ⟨Document.attributesFirst_of_all ?_,
        Forest.ordered_append.2 ⟨hordered, Forest.ordered_leaves _⟩⟩
      rw [Forest.kindsOf_append, Forest.kindsOf_leaves hlt]
      intro k hk
      rcases List.mem_append.1 hk with hk | hk
      · exact hkinds k hk
      · simp only [List.mem_map, List.mem_filter] at hk
        obtain ⟨id, ⟨hole, ⟨hmem, -⟩, rfl⟩, rfl⟩ := hk
        exact hattribute hole hmem
    · exact hrelease.frames f hf

theorem closeElement (h : Ordered kind n a) (haccount : Accounted n arrived a) (name : Bytes) :
    Ordered kind n (a.closeElement name) := by
  unfold Assembly.closeElement
  cases hpath : a.path with
  | nil => exact ⟨h.waiting, by simp, by simpa [Assembly.frames, hpath] using h.frames⟩
  | cons branch path =>
    have hnode : n ≤ branch.node :=
      (haccount.mem_created.1 (by simp [Assembly.created, hpath])).1
    have hkind : (closedLabel name branch.label).kind = .element := by
      have hbranch := h.path branch (by simp [hpath])
      unfold closedLabel
      split <;> exact hbranch
    obtain ⟨hfirst, hordered⟩ := h.frames a.content a.content_mem_frames
    obtain ⟨hfirst', hordered'⟩ := h.frames branch.before (by simp [Assembly.frames, hpath])
    refine ⟨h.waiting, fun b hb => h.path b (by simp [hpath, hb]), fun f hf => ?_⟩
    rcases List.mem_cons.1 hf with rfl | hf
    · refine ⟨?_, Forest.ordered_append.2 ⟨hordered', fun _ => hfirst, hordered, trivial⟩⟩
      rw [Forest.kindsOf_append]
      refine Document.attributesFirst_append hfirst' fun k hk => ?_
      rw [Forest.kindsOf, if_neg (Nat.not_lt.2 hnode), hkind, Forest.kindsOf,
        List.mem_singleton] at hk
      rw [hk]
      decide
    · exact h.frames f (by rw [Assembly.frames, hpath]; simp [hf])

theorem addText (h : Ordered kind n a) (hle : n ≤ a.next) (data : Bytes) :
    Ordered kind n (a.addText data) := by
  unfold Assembly.addText
  split
  · exact h
  · exact h.add ⟨nofun, trivial, trivial⟩ (by simp [Forest.kindsOf, Nat.not_lt.2 hle])
      fun hole hmem => hmem

/-- A token keeps the attributes first. -/
theorem apply (h : Ordered kind n a) (haccount : Accounted n arrived a) (t : Token) :
    Ordered kind n (a.apply t) := by
  have hrelease := h.release haccount (p := Hole.isPositional) fun _ hole => hole
  obtain ⟨offset, length, content⟩ := t
  cases content with
  | startTag name attributes selfClosing =>
    have hopen := h.openElement haccount name.text attributes
    simp only [Assembly.apply]
    split
    · exact hopen.closeElement (haccount.openElement name.text attributes) name.text
    · exact hopen
  | endTag name => exact hrelease.closeElement (haccount.release _) name.text
  | text data => exact hrelease.addText haccount.le data
  | comment data => exact hrelease

theorem foldl_apply (h : Ordered kind n a) (haccount : Accounted n arrived a) (ts : List Token) :
    Ordered kind n (ts.foldl Assembly.apply a) := by
  induction ts generalizing a with
  | nil => exact h
  | cons t ts ih => exact ih (h.apply haccount t) (haccount.apply t)

theorem takeMarkup (h : Ordered kind n a) (haccount : Accounted n arrived a) (text : Bytes) :
    Ordered kind n (a.takeMarkup text) := by
  have hfold := h.foldl_apply haccount (scan (a.carried ++ text)).tokens
  simp only [Assembly.takeMarkup]
  split
  · exact ⟨hfold.waiting, hfold.path, hfold.frames⟩
  · refine ⟨?_, hfold.path, hfold.frames⟩
    intro rebased hrebased
    obtain ⟨hole, hmem, rfl⟩ := List.mem_map.1 hrebased
    have hplace := congrFun (Structuring.isPositional_comp_rebase
      (scan (a.carried ++ text)).stop.offset) hole
    rw [Function.comp_apply] at hplace
    rw [hplace]
    exact hfold.waiting hole hmem

/-- A child keeps the attributes first, if it waits as what it is. -/
theorem take (h : Ordered kind n a) (haccount : Accounted n arrived a) {item : Item}
    (hitem : ∀ id ∈ item.node?, id < n) (hsorted : item.Sorted kind) :
    Ordered kind n (a.take item) := by
  have wait {hole : Hole} (hhole : hole.isPositional = true ↔ kind hole.node ≠ .attribute) :
      Ordered kind n { a with waiting := a.waiting ++ [hole] } := by
    refine ⟨fun other hmem => ?_, h.path, h.frames⟩
    rcases List.mem_append.1 hmem with hmem | hmem
    · exact h.waiting other hmem
    · rwa [List.mem_singleton.1 hmem]
  cases item with
  | markup text => exact h.takeMarkup haccount text
  | «attribute» node => exact wait (iff_of_false nofun fun hne => hne hsorted)
  | hole node =>
    simp only [Assembly.take]
    split
    · have hleaf : ∀ id ∈ [node], id < n := by simpa using hitem node rfl
      refine h.add (Forest.ordered_leaves _) ?_ fun hole hmem => hmem
      rw [Forest.kindsOf_leaves hleaf]
      exact List.forall_mem_singleton.2 hsorted
    · exact wait (iff_of_true rfl hsorted)

theorem foldl_take (h : Ordered kind n a) (haccount : Accounted n arrived a) {items : List Item}
    (hitems : ∀ item ∈ items, (∀ id ∈ item.node?, id < n) ∧ item.Sorted kind) :
    Ordered kind n (items.foldl Assembly.take a) := by
  induction items generalizing arrived a with
  | nil => exact h
  | cons item items ih =>
    obtain ⟨hitem, hsorted⟩ := hitems item List.mem_cons_self
    exact ih (h.take haccount hitem hsorted) (haccount.take hitem) fun i hi =>
      hitems i (List.mem_cons_of_mem _ hi)

end Ordered

end Assembly

namespace Document

variable {d : Document} {f : Forest} {container id : Nat}

theorem sorted_item (d : Document) (id : NodeId) : (d.item id).Sorted d.kind := by
  unfold item
  cases hkind : d.kind id <;> simp [Item.Sorted, hkind]

/-- After the last child, the attributes come first everywhere. -/
theorem ordered_children (hchildren : ∀ child ∈ d.children container, child < d.size) :
    (d.assembly container).Ordered d.kind d.size := by
  refine (Assembly.Ordered.start d.kind d.size).foldl_take (.start d.size) fun item hitem => ?_
  refine ⟨node_lt_of_mem_items hchildren item hitem, ?_⟩
  obtain ⟨child, -, rfl⟩ := List.mem_map.1 hitem
  exact d.sorted_item child

/-- A node that was made is in the document, with the forest under it. -/
theorem exists_of_mem_created (hholds : d.Holds n f) (hshaped : f.Shaped n)
    (hordered : f.Ordered kind n) (hid : id ∈ f.created n) :
    ∃ children : Forest, d.children id = children.roots ∧ d.Holds n children ∧
      Forest.ShapedNode (d.label id).plain children ∧ children.Shaped n ∧
      (d.kind id = .element → attributesFirst (children.kindsOf kind n)) := by
  induction f with
  | nil => exact absurd hid List.not_mem_nil
  | cons i label children siblings ihc ihs =>
    obtain ⟨hi, hchildren, hsiblings⟩ := hholds
    obtain ⟨hlabel, hshapedc, hshapeds⟩ := hshaped
    obtain ⟨hfirst, horderedc, hordereds⟩ := hordered
    obtain ⟨hmem, hle⟩ := List.mem_filter.1 hid
    simp only [Forest.preorder, List.mem_cons, List.mem_append, decide_eq_true_eq] at hmem hle
    rcases hmem with rfl | hmem | hmem
    · obtain ⟨hplain, hroots⟩ := hi hle
      rw [if_pos hle, ← hplain] at hlabel
      refine ⟨children, hroots, hchildren, hlabel, hshapedc, fun hkind => hfirst ?_⟩
      rw [← hplain]
      exact hkind
    · exact ihc hchildren hshapedc horderedc (List.mem_filter.2 ⟨hmem, by simpa using hle⟩)
    · exact ihs hsiblings hshapeds hordereds (List.mem_filter.2 ⟨hmem, by simpa using hle⟩)

section

variable (hkind : ∀ id < n, d.kind id = kind id)
include hkind

/-- The roots have the kinds that the forest says, and the holes their own. -/
theorem map_kind_roots_of_holds (hholds : d.Holds n f) :
    f.roots.map d.kind = f.kindsOf kind n := by
  induction f with
  | nil => rfl
  | cons id label children siblings _ ih =>
    obtain ⟨hid, -, hsiblings⟩ := hholds
    rw [Forest.roots, List.map_cons, ih hsiblings, Forest.kindsOf]
    split
    · next hlt => rw [hkind id hlt]
    · next hlt =>
      rw [← (hid (Nat.not_lt.1 hlt)).1]
      rfl

/-- What is made has the children that its kind demands. -/
theorem wellShaped_of_ordered (hholds : d.Holds n f) (hshaped : f.Shaped n)
    (hordered : f.Ordered kind n) (hid : id ∈ f.created n) : d.wellShaped id := by
  obtain ⟨children, hroots, hbelow, hnode, hshapedc, hfirst⟩ :=
    exists_of_mem_created hholds hshaped hordered hid
  have hkinds : (d.children id).map d.kind = children.kindsOf kind n := by
    rw [hroots, map_kind_roots_of_holds hkind hbelow]
  rw [Forest.ShapedNode, show (d.label id).plain.kind = d.kind id from rfl] at hnode
  rw [wellShaped, hkinds]
  cases hk : d.kind id with
  | markup =>
    simp only [hk] at hnode
    rw [hnode]
    rfl
  | element =>
    simp only [hk, Label.plain_name] at hnode
    simp [hnode.1, hfirst hk]
  | «attribute» =>
    simp only [hk] at hnode
    simp [Forest.kindsOf_of_rootKinds hshapedc hnode]
  | attributeValue => rfl
  | _ => simp [hk] at hnode

end

end Document

end MarkupTemplate
