import MarkupTemplate.Proofs.Mirror
import MarkupTemplate.Proofs.Resumption

/-!
# Holes keep their order

Holes that end under the same parent keep the order in which they came. The children of an open
element can still grow, by holes that wait in the text of a tag; the values of attributes and the
elements that are closed cannot.

## Main definitions

* `Forest.InOrder`: holes are leaves, and under every node that was made they stand in order
* `Assembly.InOrder`: the same of a forest with an open path, and of the holes that wait

## Main results

* `Assembly.InOrder.apply`, `Assembly.InOrder.take`: tokens and children keep the order
* `Document.structureChildren_keeps_holes`: structuring loses no hole, has none twice, and keeps
  their order
-/

namespace MarkupTemplate

open Markup

namespace Forest

variable {n : Nat} {arrived arrived' : List NodeId} {f : Forest}

/-- The nodes below the number `n` among the roots. -/
def holeRoots (n : Nat) (f : Forest) : List NodeId := f.roots.filter fun id => id < n

/-- Nodes below the number `n` are leaves, and under every other node they stand in the order of the
list. -/
def InOrder (n : Nat) (arrived : List NodeId) : Forest → Prop
  | .nil => True
  | .cons id _ children siblings =>
    (if n ≤ id then (children.holeRoots n).Sublist arrived ∧ children.InOrder n arrived
      else children = .nil) ∧
      siblings.InOrder n arrived

@[simp] theorem holeRoots_nil : holeRoots n nil = [] := rfl

@[simp] theorem holeRoots_append (f g : Forest) :
    (f ++ g).holeRoots n = f.holeRoots n ++ g.holeRoots n := by
  simp [holeRoots]

theorem holeRoots_leaves {ids : List NodeId} (h : ∀ id ∈ ids, id < n) :
    (leaves ids).holeRoots n = ids := by
  simpa [holeRoots] using h

theorem holeRoots_cons_of_le {id : NodeId} (h : n ≤ id) (label : Label)
    (children siblings : Forest) :
    (cons id label children siblings).holeRoots n = siblings.holeRoots n := by
  simp [holeRoots, roots, Nat.not_lt.2 h]

@[simp] theorem inOrder_nil : InOrder n arrived nil := trivial

theorem inOrder_append {f g : Forest} :
    (f ++ g).InOrder n arrived ↔ f.InOrder n arrived ∧ g.InOrder n arrived := by
  induction f with
  | nil => simp
  | cons id label children siblings _ ih => simp only [cons_append, InOrder, ih, and_assoc]

theorem inOrder_leaves {ids : List NodeId} (h : ∀ id ∈ ids, id < n) :
    (leaves ids).InOrder n arrived := by
  induction ids with
  | nil => trivial
  | cons id ids ih =>
    refine ⟨?_, ih fun i hi => h i (List.mem_cons_of_mem _ hi)⟩
    rw [if_neg (Nat.not_le.2 (h id (by simp)))]

theorem inOrder_cons_of_le {id : NodeId} (h : n ≤ id) (label : Label) {children siblings : Forest} :
    (cons id label children siblings).InOrder n arrived ↔
      ((children.holeRoots n).Sublist arrived ∧ children.InOrder n arrived) ∧
        siblings.InOrder n arrived := by
  rw [InOrder, if_pos h]

/-- More nodes that come later leave the order as it is. -/
theorem InOrder.mono (h : f.InOrder n arrived) (hsub : arrived.Sublist arrived') :
    f.InOrder n arrived' := by
  induction f with
  | nil => trivial
  | cons id label children siblings ihc ihs =>
    obtain ⟨hid, hsiblings⟩ := h
    refine ⟨?_, ihs hsiblings⟩
    split at hid
    · next hle => exact if_pos hle ▸ ⟨hid.1.trans hsub, ihc hid.2⟩
    · next hlt => exact if_neg hlt ▸ hid

/-- Every node of a forest is a root or a child of one node that was made. -/
theorem perm_preorder {d : Document} (hholds : d.Holds n f) (horder : f.InOrder n arrived) :
    (f.roots ++ (f.created n).flatMap d.children).Perm f.preorder := by
  induction f with
  | nil => exact .refl _
  | cons id label children siblings ihc ihs =>
    obtain ⟨hid, hchildren, hsiblings⟩ := hholds
    obtain ⟨hleaf, horder'⟩ := horder
    have hs := List.perm_iff_count.1 (ihs hsiblings horder')
    split at hleaf
    · next hle =>
      -- The children of a node that was made are the roots under it.
      have hc := List.perm_iff_count.1 (ihc hchildren hleaf.2)
      rw [created_cons_of_le hle, List.perm_iff_count]
      intro i
      have hc := hc i
      have hs := hs i
      simp only [roots, preorder, List.flatMap_cons, List.flatMap_append, (hid hle).2,
        List.cons_append, List.count_cons, List.count_append] at hc hs ⊢
      omega
    · next hlt =>
      -- A hole has nothing under it in the forest, and its own children do not count.
      subst hleaf
      rw [created_cons_of_lt (Nat.not_le.1 hlt), List.perm_iff_count]
      intro i
      have hs := hs i
      simp only [roots, preorder, created_nil, List.nil_append, List.cons_append, List.count_cons,
        List.count_append] at hs ⊢
      omega

/-- Under every node that was made the holes stand in order. -/
theorem sublist_of_mem_created {d : Document} (hholds : d.Holds n f)
    (horder : f.InOrder n arrived) {id : NodeId} (hid : id ∈ f.created n) :
    ((d.children id).filter fun id => id < n).Sublist arrived := by
  induction f with
  | nil => simp at hid
  | cons id' label children siblings ihc ihs =>
    obtain ⟨hid', hchildren, hsiblings⟩ := hholds
    obtain ⟨hleaf, horder'⟩ := horder
    split at hleaf
    · next hle =>
      rw [created_cons_of_le hle] at hid
      rcases List.mem_cons.1 hid with rfl | hid
      · rw [(hid' hle).2]
        exact hleaf.1
      · rcases List.mem_append.1 hid with hid | hid
        · exact ihc hchildren hleaf.2 hid
        · exact ihs hsiblings horder' hid
    · next hlt =>
      subst hleaf
      rw [created_cons_of_lt (Nat.not_le.1 hlt)] at hid
      exact ihs hsiblings horder' (by simpa using hid)

end Forest

theorem holeRoots_attributeForest {n next : Nat} (hnext : n ≤ next) (name : Bytes)
    (parts : List ValuePart) : (attributeForest next name parts).holeRoots n = [] := by
  rw [attributeForest, Forest.holeRoots_cons_of_le hnext, Forest.holeRoots_nil]

section

variable {n next : Nat} {arrived : List NodeId} {parts : List ValuePart} (hnext : n ≤ next)
  (hparts : ∀ id ∈ partHoles parts, id < n)
include hnext hparts

theorem holeRoots_valueForest : (valueForest next parts).holeRoots n = partHoles parts := by
  induction parts generalizing next with
  | nil => rfl
  | cons part parts ih =>
    cases part with
    | literal text =>
      rw [valueForest, Forest.holeRoots_cons_of_le hnext, ih (by omega) hparts]
      rfl
    | hole node =>
      have hnode := hparts node (by simp [partHoles])
      have hrest := ih hnext fun id hid => hparts id (by simp [partHoles, hid])
      simpa [valueForest, Forest.holeRoots, Forest.roots, partHoles, hnode] using hrest

theorem inOrder_valueForest : (valueForest next parts).InOrder n arrived := by
  induction parts generalizing next with
  | nil => trivial
  | cons part parts ih =>
    cases part with
    | literal text =>
      rw [valueForest, Forest.inOrder_cons_of_le hnext]
      exact ⟨⟨List.nil_sublist _, trivial⟩, ih (by omega) hparts⟩
    | hole node =>
      refine ⟨?_, ih hnext fun id hid => hparts id (by simp [partHoles, hid])⟩
      rw [if_neg (Nat.not_le.2 (hparts node (by simp [partHoles])))]

theorem inOrder_attributeForest (name : Bytes) (hsub : (partHoles parts).Sublist arrived) :
    (attributeForest next name parts).InOrder n arrived := by
  rw [attributeForest, Forest.inOrder_cons_of_le hnext, Forest.inOrder_cons_of_le (by omega),
    Forest.holeRoots_cons_of_le (by omega), holeRoots_valueForest (by omega) hparts]
  exact ⟨⟨List.nil_sublist _, ⟨hsub, inOrder_valueForest (by omega) hparts⟩, trivial⟩, trivial⟩

end

/-! ## The order of an assembly -/

namespace Assembly

variable {n : Nat} {arrived arrived' : List NodeId} {a : Assembly}

/-- The children of the container and of the open elements, as far as they are there, the innermost
first. -/
def frames (a : Assembly) : List Forest := a.content :: a.path.map OpenBranch.before

theorem content_mem_frames (a : Assembly) : a.content ∈ a.frames := List.mem_cons_self

/-- The holes that wait in the text of a tag. -/
def inText (a : Assembly) : List NodeId := (a.waiting.filter Hole.isPositional).map Hole.node

/-- The hole stands between the attributes of a start tag. -/
def isBetween (attributes : List Attribute) (hole : Hole) : Bool :=
  hole.isPositional && !attributes.any hole.isIn

/-- The holes that wait are in order, those in the text of a tag come after the holes of every open
element, and under every node that was made the holes are in order. -/
structure InOrder (n : Nat) (arrived : List NodeId) (a : Assembly) : Prop where
  waiting : (a.waiting.map Hole.node).Sublist arrived
  frames : ∀ f ∈ a.frames, (f.holeRoots n ++ a.inText).Sublist arrived ∧ f.InOrder n arrived

theorem inText_release_isPositional : (a.release Hole.isPositional).inText = [] := by
  simp [inText, release]

theorem inText_openElement (name : Bytes) (attributes : List Attribute) :
    (a.openElement name attributes).inText = [] := by
  rw [inText, waiting_openElement]
  rfl

theorem inText_closeElement (name : Bytes) : (a.closeElement name).inText = a.inText := by
  rw [inText, waiting_closeElement, inText]

theorem inText_addText (data : Bytes) : (a.addText data).inText = a.inText := by
  rw [inText, waiting_addText, inText]

/-- After a token no hole waits in the text of a tag. -/
theorem inText_apply (t : Token) : (a.apply t).inText = [] := by
  obtain ⟨offset, length, content⟩ := t
  cases content with
  | startTag name attributes selfClosing =>
    simp only [apply]
    split
    · rw [inText_closeElement, inText_openElement]
    · exact inText_openElement name.text attributes
  | endTag name => exact (inText_closeElement name.text).trans inText_release_isPositional
  | text data => exact (inText_addText data).trans inText_release_isPositional
  | comment data => exact inText_release_isPositional

theorem inText_foldl_apply {ts : List Token} (h : ts ≠ []) : (ts.foldl apply a).inText = [] := by
  obtain ⟨ts', t, rfl⟩ := List.eq_nil_or_concat ts |>.resolve_left h
  simp [inText_apply]

/-- No hole waits in the text of a tag unless a tag is cut off. -/
def Idle (a : Assembly) : Prop := a.carried = [] → a.inText = []

theorem Idle.takeMarkup (h : a.Idle) (text : Bytes) : (a.takeMarkup text).Idle := by
  simp only [Assembly.takeMarkup]
  by_cases htokens : (scan (a.carried ++ text)).tokens = []
  · -- Without a token all of the text is carried on.
    have hrest : (scan (a.carried ++ text)).remainder = a.carried ++ text :=
      congrArg Cursor.rest (Cursor.tokens_snd_of_fst_eq_nil htokens)
    rw [htokens, hrest]
    split
    · next hempty => exact fun _ => h (List.append_eq_nil_iff.1 (List.isEmpty_iff.1 hempty)).1
    · next hempty => exact fun hcarried => absurd (List.isEmpty_iff.2 hcarried) hempty
  · split
    · exact fun _ => inText_foldl_apply htokens
    · next hempty => exact fun hcarried => absurd (List.isEmpty_iff.2 hcarried) hempty

theorem Idle.take (h : a.Idle) (item : Item) : (a.take item).Idle := by
  cases item with
  | markup text => exact h.takeMarkup text
  | «attribute» node =>
    intro hcarried
    simpa [inText, Assembly.take, Hole.isPositional] using h hcarried
  | hole node =>
    simp only [Assembly.take]
    split
    · exact h
    · next hempty => exact fun hcarried => absurd (List.isEmpty_iff.2 hcarried) hempty

namespace InOrder

theorem sublist_inText (h : InOrder n arrived a) : a.inText.Sublist arrived :=
  (List.filter_sublist.map _).trans h.waiting

theorem releaseText (h : InOrder n arrived a) (haccount : Accounted n arrived a) :
    InOrder n arrived (a.release Hole.isPositional) := by
  have hlt : ∀ id ∈ a.inText, id < n := by
    intro id hid
    exact haccount.old id (h.sublist_inText.subset hid)
  refine ⟨(List.filter_sublist.map _).trans h.waiting, fun f hf => ?_⟩
  rw [inText_release_isPositional, List.append_nil]
  rcases List.mem_cons.1 hf with rfl | hf
  · obtain ⟨hsub, hin⟩ := h.frames a.content a.content_mem_frames
    refine ⟨?_, Forest.inOrder_append.2 ⟨hin, Forest.inOrder_leaves hlt⟩⟩
    have hroots := Forest.holeRoots_leaves hlt
    simp only [Assembly.release, Forest.holeRoots_append]
    exact hroots ▸ hsub
  · obtain ⟨hsub, hin⟩ := h.frames f (List.mem_cons_of_mem _ hf)
    exact ⟨(List.sublist_append_left ..).trans hsub, hin⟩

/-- Attributes have their holes in order and are no holes themselves. -/
theorem attach (haccount : Accounted n arrived a)
    (hwaiting : (a.waiting.map Hole.node).Sublist arrived)
    (hcontent : a.content.holeRoots n = [] ∧ a.content.InOrder n arrived) (entry : Attribute) :
    (a.attach entry).content.holeRoots n = [] ∧ (a.attach entry).content.InOrder n arrived := by
  have hsub : (partHoles (a.parts entry)).Sublist arrived := by
    rw [Assembly.parts, partHoles_parts]
    exact (List.filter_sublist.map _).trans hwaiting
  have hlt : ∀ id ∈ partHoles (a.parts entry), id < n :=
    fun id hid => haccount.old id (hsub.subset hid)
  constructor
  · rw [Assembly.attach, Forest.holeRoots_append, hcontent.1,
      holeRoots_attributeForest haccount.le, List.append_nil]
  · exact Forest.inOrder_append.2
      ⟨hcontent.2, inOrder_attributeForest haccount.le hlt entry.name.text hsub⟩

theorem foldl_attach (haccount : Accounted n arrived a)
    (hwaiting : (a.waiting.map Hole.node).Sublist arrived)
    (hcontent : a.content.holeRoots n = [] ∧ a.content.InOrder n arrived)
    (entries : List Attribute) :
    let a' := entries.foldl Assembly.attach a
    a'.path = a.path ∧ (a'.waiting.map Hole.node).Sublist arrived ∧
      a'.content.holeRoots n = [] ∧ a'.content.InOrder n arrived := by
  induction entries generalizing a with
  | nil => exact ⟨rfl, hwaiting, hcontent⟩
  | cons entry entries ih =>
    exact ih (haccount.attach entry) ((List.filter_sublist.map _).trans hwaiting)
      (attach haccount hwaiting hcontent entry)

theorem openElement (h : InOrder n arrived a) (haccount : Accounted n arrived a) (name : Bytes)
    (attributes : List Attribute) : InOrder n arrived (a.openElement name attributes) := by
  -- What is released before the element is a part of what waits in the text.
  have hbetween : ((a.waiting.filter (isBetween attributes)).map Hole.node).Sublist a.inText := by
    have hfilter : a.waiting.filter (isBetween attributes) =
        (a.waiting.filter Hole.isPositional).filter fun hole => !attributes.any hole.isIn := by
      rw [List.filter_filter]
      exact List.filter_congr fun hole _ => Bool.and_comm _ _
    rw [Assembly.inText, hfilter]
    exact List.filter_sublist.map _
  have haccount' := (haccount.release (isBetween attributes)).enter name
  obtain ⟨hpath, hwaiting, hroots, hin⟩ := foldl_attach haccount'
    ((List.filter_sublist.map _).trans h.waiting) ⟨rfl, trivial⟩ attributes
  obtain ⟨hsub', hin'⟩ := h.frames a.content a.content_mem_frames
  have htext := inText_openElement (a := a) name attributes
  have hopen : a.openElement name attributes =
      (attributes.foldl Assembly.attach
        ((a.release (isBetween attributes)).enter name)).release fun _ => true := rfl
  rw [hopen] at htext ⊢
  generalize attributes.foldl Assembly.attach ((a.release (isBetween attributes)).enter name) = b
    at *
  refine ⟨(List.filter_sublist.map _).trans hwaiting, fun f hf => ?_⟩
  rw [htext, List.append_nil]
  simp only [Assembly.frames, Assembly.release, hpath, Assembly.enter, List.map_cons,
    List.mem_cons] at hf
  rcases hf with rfl | rfl | hf
  · -- The new element, under which only holes that are attributes stand so far.
    have hrest : ((b.waiting.filter fun _ => true).map Hole.node).Sublist arrived :=
      (List.filter_sublist.map _).trans hwaiting
    have hlt := fun id hid => haccount.old id (hrest.subset hid)
    rw [Forest.holeRoots_append, hroots, List.nil_append, Forest.holeRoots_leaves hlt]
    exact ⟨hrest, Forest.inOrder_append.2 ⟨hin, Forest.inOrder_leaves hlt⟩⟩
  · -- The parent, which has taken the holes between the attributes.
    have hlt := fun id hid => haccount.old id (h.sublist_inText.subset (hbetween.subset hid))
    rw [Forest.holeRoots_append, Forest.holeRoots_leaves hlt]
    exact ⟨(List.Sublist.append_left hbetween _).trans hsub',
      Forest.inOrder_append.2 ⟨hin', Forest.inOrder_leaves hlt⟩⟩
  · obtain ⟨hsub, hin⟩ := h.frames f (List.mem_cons_of_mem _ hf)
    exact ⟨(List.sublist_append_left ..).trans hsub, hin⟩

theorem closeElement (h : InOrder n arrived a) (haccount : Accounted n arrived a) (name : Bytes) :
    InOrder n arrived (a.closeElement name) := by
  unfold Assembly.closeElement
  split
  · exact ⟨h.waiting, h.frames⟩
  · next branch path hpath =>
    have hnode : n ≤ branch.node :=
      (haccount.mem_created.1 (by simp [Assembly.created, hpath])).1
    -- The content becomes children of the element, and the element joins what is before it.
    obtain ⟨hsub, hin⟩ := h.frames a.content a.content_mem_frames
    obtain ⟨hsub', hin'⟩ := h.frames branch.before (by simp [Assembly.frames, hpath])
    refine ⟨h.waiting, fun f hf => ?_⟩
    rcases List.mem_cons.1 hf with rfl | hf
    · rw [Forest.holeRoots_append, Forest.holeRoots_cons_of_le hnode, Forest.holeRoots_nil,
        List.append_nil, Forest.inOrder_append, Forest.inOrder_cons_of_le hnode]
      exact ⟨hsub', hin', ⟨(List.sublist_append_left ..).trans hsub, hin⟩, trivial⟩
    · exact h.frames f (by rw [Assembly.frames, hpath]; simp [hf])

theorem addText (h : InOrder n arrived a) (haccount : Accounted n arrived a) (data : Bytes) :
    InOrder n arrived (a.addText data) := by
  unfold Assembly.addText
  split
  · exact h
  · refine ⟨h.waiting, fun f hf => ?_⟩
    rcases List.mem_cons.1 hf with rfl | hf
    · obtain ⟨hsub, hin⟩ := h.frames a.content a.content_mem_frames
      rw [Forest.holeRoots_append, Forest.holeRoots_cons_of_le haccount.le, Forest.holeRoots_nil,
        List.append_nil, Forest.inOrder_append, Forest.inOrder_cons_of_le haccount.le]
      exact ⟨hsub, hin, ⟨List.nil_sublist _, trivial⟩, trivial⟩
    · exact h.frames f (List.mem_cons_of_mem _ hf)

/-- A token keeps the order of all holes. -/
theorem apply (h : InOrder n arrived a) (haccount : Accounted n arrived a) (t : Token) :
    InOrder n arrived (a.apply t) := by
  obtain ⟨offset, length, content⟩ := t
  cases content with
  | startTag name attributes selfClosing =>
    have hopen := h.openElement haccount name.text attributes
    simp only [Assembly.apply]
    split
    · exact hopen.closeElement (haccount.openElement name.text attributes) name.text
    · exact hopen
  | endTag name => exact (h.releaseText haccount).closeElement (haccount.release _) name.text
  | text data => exact (h.releaseText haccount).addText (haccount.release _) data
  | comment data => exact h.releaseText haccount

theorem foldl_apply (h : InOrder n arrived a) (haccount : Accounted n arrived a)
    (ts : List Token) : InOrder n arrived (ts.foldl Assembly.apply a) := by
  induction ts generalizing a with
  | nil => exact h
  | cons t ts ih => exact ih (h.apply haccount t) (haccount.apply t)

theorem takeMarkup (h : InOrder n arrived a) (haccount : Accounted n arrived a) (text : Bytes) :
    InOrder n arrived (a.takeMarkup text) := by
  have hfold := h.foldl_apply haccount (scan (a.carried ++ text)).tokens
  simp only [Assembly.takeMarkup]
  split
  · exact ⟨hfold.waiting, hfold.frames⟩
  · refine ⟨by simpa using hfold.waiting, fun f hf => ?_⟩
    simpa [Assembly.inText, List.filter_map] using hfold.frames f hf

/-- Outside a tag a hole goes after all holes that came before it. -/
theorem append (h : InOrder n arrived a) (htext : a.inText = []) {node : NodeId}
    (hnode : node < n) :
    InOrder n (arrived ++ [node]) { a with content := a.content ++ Forest.leaves [node] } := by
  have hleaf : ∀ id ∈ [node], id < n := by simpa using hnode
  have htext' : Assembly.inText { a with content := a.content ++ Forest.leaves [node] } = [] :=
    htext
  refine ⟨h.waiting.trans (List.sublist_append_left ..), fun f hf => ?_⟩
  rw [htext', List.append_nil]
  rcases List.mem_cons.1 hf with rfl | hf
  · obtain ⟨hsub, hin⟩ := h.frames a.content a.content_mem_frames
    rw [htext, List.append_nil] at hsub
    rw [Forest.holeRoots_append, Forest.holeRoots_leaves hleaf]
    exact ⟨hsub.append (.refl _), Forest.inOrder_append.2
      ⟨hin.mono (List.sublist_append_left ..), Forest.inOrder_leaves hleaf⟩⟩
  · obtain ⟨hsub, hin⟩ := h.frames f (List.mem_cons_of_mem _ hf)
    rw [htext, List.append_nil] at hsub
    exact ⟨hsub.trans (List.sublist_append_left ..), hin.mono (List.sublist_append_left ..)⟩

/-- Inside a tag a hole waits after all holes that came before it. -/
theorem wait (h : InOrder n arrived a) (node : NodeId) (offset : Nat) :
    InOrder n (arrived ++ [node]) { a with waiting := a.waiting ++ [⟨node, some offset⟩] } := by
  have htext : Assembly.inText { a with waiting := a.waiting ++ [⟨node, some offset⟩] } =
      a.inText ++ [node] := by
    simp [Assembly.inText, Hole.isPositional, List.filter_cons]
  refine ⟨by simpa using h.waiting, fun f hf => ?_⟩
  obtain ⟨hsub, hin⟩ := h.frames f hf
  rw [htext, ← List.append_assoc]
  exact ⟨hsub.append (.refl _), hin.mono (List.sublist_append_left ..)⟩

/-- The next child comes last. -/
theorem take (h : InOrder n arrived a) (haccount : Accounted n arrived a) (hidle : a.Idle)
    {item : Item} (hitem : ∀ id ∈ item.node?, id < n) :
    InOrder n (arrived ++ item.node?.toList) (a.take item) := by
  cases item with
  | markup text => simpa [Item.node?, Assembly.take] using h.takeMarkup haccount text
  | «attribute» node =>
    -- An attribute has no place in the text, so it is behind no hole that waits there.
    have htext : (a.take (.attribute node)).inText = a.inText := by
      simp [Assembly.inText, Assembly.take, Hole.isPositional]
    refine ⟨by simpa [Item.node?, Assembly.take] using h.waiting, fun f hf => ?_⟩
    obtain ⟨hsub, hin⟩ := h.frames f hf
    rw [htext]
    exact ⟨hsub.trans (List.sublist_append_left ..), hin.mono (List.sublist_append_left ..)⟩
  | hole node =>
    simp only [Assembly.take]
    split
    · next hcarried => exact h.append (hidle (List.isEmpty_iff.1 hcarried)) (hitem node rfl)
    · exact h.wait node a.carried.length

theorem foldl_take (h : InOrder n arrived a) (haccount : Accounted n arrived a) (hidle : a.Idle)
    {items : List Item} (hitems : ∀ item ∈ items, ∀ id ∈ item.node?, id < n) :
    InOrder n (arrived ++ items.filterMap Item.node?) (items.foldl Assembly.take a) := by
  induction items generalizing arrived a with
  | nil => simpa using h
  | cons item items ih =>
    have hitem := hitems item (by simp)
    have hnext := ih (h.take haccount hidle hitem) (haccount.take hitem) (hidle.take item)
      fun i hi => hitems i (by simp [hi])
    rw [List.append_assoc] at hnext
    rw [List.foldl_cons, List.filterMap_cons]
    cases hnode : item.node? <;> simpa [hnode] using hnext

end InOrder

end Assembly

/-! ## The holes of a container -/

namespace Document

variable {d : Document} {container : NodeId}

theorem items_node? (d : Document) (container : NodeId) :
    (d.items container).filterMap Item.node? =
      (d.children container).filter fun child => d.kind child != .markup := by
  rw [items, List.filterMap_map]
  induction d.children container with
  | nil => rfl
  | cons child children ih =>
    rw [List.filterMap_cons, List.filter_cons, ih]
    cases hkind : d.kind child <;> simp [item, hkind, Item.node?]

theorem inOrder_children (hchildren : ∀ child ∈ d.children container, child < d.size) :
    (d.assembly container).InOrder d.size ((d.items container).filterMap Item.node?) := by
  have hstart : Assembly.InOrder d.size [] { next := d.size } :=
    ⟨List.nil_sublist _, by simp [Assembly.frames, Assembly.inText]⟩
  exact List.nil_append ((d.items container).filterMap Item.node?) ▸
    hstart.foldl_take (.start d.size) (fun _ => rfl) (node_lt_of_mem_items hchildren)

/-- The nodes of a document that another one, made from it, has in addition. -/
def added (d d' : Document) : List NodeId := List.range' d.size (d'.size - d.size)

section

variable (hcontainer : container < d.size)
  (hchildren : ∀ child ∈ d.children container, child < d.size)
  (hpath : (d.assembly container).path = [])
include hcontainer hchildren hpath

/-- Once all elements are closed, what was assembled stands under the container. -/
theorem children_structureChildren :
    (d.structureChildren container).document.children container =
      (d.assembly container).content.roots := by
  have hholds := (stored_structureChildren hcontainer hchildren).path
  rwa [hpath] at hholds

/-- Once all elements are closed, the nodes that were made are those that the document has in
addition. -/
theorem perm_created :
    ((d.assembly container).content.created d.size).Perm
      (d.added (d.structureChildren container).document) := by
  have hcreated := (accounted_children hchildren).created
  have hsize := (stored_structureChildren hcontainer hchildren).size
  simp only [Assembly.created, hpath, List.flatMap_nil, List.append_nil] at hcreated
  rwa [← hsize] at hcreated

end

/-- In a complete assembly all children but the markup are holes. -/
theorem perm_holes (hchildren : ∀ child ∈ d.children container, child < d.size)
    (hcomplete : (d.assembly container).Complete) :
    ((d.assembly container).content.holes d.size).Perm
      ((d.children container).filter fun child => d.kind child != .markup) := by
  obtain ⟨hpath, -, hwaiting⟩ := hcomplete
  have hholes := (accounted_children hchildren).holes
  simpa [Assembly.placed, hpath, hwaiting, items_node?] using hholes

/-- The document `d'` was made from the document `d` by a change of the children of a container that
adds nodes. Every child that is no markup has one place, under the container or under an added node;
so has every added node; and holes under the same parent are in the order that they had. -/
structure HolesKept (d : Document) (container : NodeId) (d' : Document) : Prop where
  perm : (((container :: d.added d').flatMap d'.children).filter fun id => id < d.size).Perm
    ((d.children container).filter fun child => d.kind child != .markup)
  once : ∀ id ∈ d.added d', ((container :: d.added d').flatMap d'.children).count id = 1
  order : ∀ parent ∈ container :: d.added d',
    ((d'.children parent).filter fun id => id < d.size).Sublist
      ((d.children container).filter fun child => d.kind child != .markup)

/-- Structuring loses no hole, has none twice, and keeps their order. -/
theorem structureChildren_keeps_holes
    (hchildren : ∀ child ∈ d.children container, child < d.size)
    (hok : (d.structureChildren container).ok) :
    d.HolesKept container (d.structureChildren container).document := by
  generalize hd' : (d.structureChildren container).document = d'
  rcases Nat.lt_or_ge container d.size with hcontainer | hcontainer
  · obtain ⟨hpath, -, hwaiting⟩ := (ok_structureChildren_iff hcontainer hchildren).1 hok
    have hstored := hd' ▸ stored_structureChildren hcontainer hchildren
    have haccount := accounted_children hchildren
    have horder := inOrder_children hchildren
    rw [items_node?] at haccount horder
    obtain ⟨hsub, hin⟩ := horder.frames (d.assembly container).content (by simp [Assembly.frames])
    have hroots : d'.children container = (d.assembly container).content.roots := by
      have hholds := hstored.path
      rwa [hpath] at hholds
    have hadded : ((d.assembly container).content.created d.size).Perm (d.added d') := by
      have hcreated := haccount.created
      simp only [Assembly.created, hpath, List.flatMap_nil, List.append_nil] at hcreated
      rwa [← hstored.size] at hcreated
    have hplaced : ((container :: d.added d').flatMap d'.children).Perm
        (d.assembly container).content.preorder := by
      rw [List.flatMap_cons, hroots]
      exact (hadded.symm.flatMap_right _ |>.append_left _).trans
        (Forest.perm_preorder hstored.content hin)
    refine ⟨?_, fun id hid => ?_, fun parent hparent => ?_⟩
    · have hholes := haccount.holes
      simp only [Assembly.placed, hpath, hwaiting, List.flatMap_nil, List.map_nil,
        List.append_nil] at hholes
      exact (hplaced.filter _).trans hholes
    · have hmem := hadded.mem_iff.2 hid
      have hnodup := haccount.nodup
      simp only [Assembly.created, hpath, List.flatMap_nil, List.append_nil] at hnodup
      rw [hplaced.count_eq, ← List.count_filter (p := fun id => d.size ≤ id)]
      · exact hnodup.count.trans (if_pos hmem)
      · simpa [Forest.created] using (List.mem_filter.1 hmem).2
    · rcases List.mem_cons.1 hparent with rfl | hparent
      · rw [hroots]
        exact (List.sublist_append_left ..).trans hsub
      · exact Forest.sublist_of_mem_created hstored.content hin (hadded.mem_iff.2 hparent)
  · -- Such a container has no children, before or after.
    have hnone : ∀ d₁ : Document, d₁.size = d.size → d₁.children container = [] := by
      intro d₁ hsize
      rw [children, node_of_size_le d₁ (by rwa [hsize])]
      rfl
    have hsize : d'.size = d.size := by simp [← hd', structureChildren, hnone d rfl]
    have hadded : d.added d' = [] := by simp [added, hsize]
    have hplaced : (container :: d.added d').flatMap d'.children = [] := by
      simp [hadded, hnone d' hsize]
    refine ⟨?_, ?_, ?_⟩
    · simp [hplaced, hnone d rfl]
    · simp [hadded]
    · simp [hadded, hnone d' hsize]

/-- A container in which a hole splits the value of an attribute, and another splits a text. -/
def splitValue : Document :=
  ⟨#[{ kind := .document, children := [1, 2, 3, 4, 5] },
    { kind := .markup, fragments := [utf8 "<a b=\"x"] },
    { kind := .embedded .expression (utf8 "v") },
    { kind := .markup, fragments := [utf8 "y\">t"] },
    { kind := .embedded .expression (utf8 "w") },
    { kind := .markup, fragments := [utf8 "</a>"] }], by decide⟩

theorem splitValue_keeps_holes :
    (∀ child ∈ splitValue.children root, child < splitValue.size) ∧
      (splitValue.structureChildren root).ok ∧
      splitValue.HolesKept root (splitValue.structureChildren root).document := by
  have hchildren : ∀ child ∈ splitValue.children root, child < splitValue.size := by decide
  have hok : (splitValue.structureChildren root).ok := by decide +kernel
  exact ⟨hchildren, hok, structureChildren_keeps_holes hchildren hok⟩

end Document

end MarkupTemplate
