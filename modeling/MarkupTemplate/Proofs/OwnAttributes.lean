import MarkupTemplate.Proofs.FirstTag
import MarkupTemplate.Proofs.Leftovers
import MarkupTemplate.Proofs.Remaining

/-!
# The attributes of an element

An element may come to structuring with attributes of its own. Without markup among its children it
keeps them. With markup they are taken for attributes that wait for a start tag, and the first one
gets them: in `<p id="1">` around the markup `<b>x</b>` it is the `b` that has the `id` afterwards.
Without a start tag in the markup the attributes are left over, and structuring fails.

## Main definitions

* `Document.IsStructured`: structuring comes to the node and finds markup there
* `Document.Balanced`, `Document.firstStartTag?`: what the markup of a node says
* `Document.HeldBy`: attributes that are children of one node and of no other

## Main results

* `Document.exists_turn_of_mem_faults`: a fault of structuring comes up in the turn of a node
* `Document.faults_of_balanced`: in balanced markup only attributes can be left over
* `Document.attributes_structured`: where the attributes of an element are after structuring
-/

namespace MarkupTemplate

open Markup

/-! ## The container that is at fault -/

/-- The container that a fault of structuring is about. -/
def Fault.container? : Fault → Option NodeId
  | .unclosedElements container .. | .unterminatedMarkup container .. |
    .unattachedHoles container .. => some container.id
  | _ => none

theorem Structuring.container?_of_mem_faults {s : Structuring} {container : NodeId} {fault : Fault}
    (h : fault ∈ s.faults container) : fault.container? = some container := by
  rw [faults, List.mem_append, List.mem_append] at h
  rcases h with (h | h) | h
  · cases hopen : s.openElements with
    | nil => simp [hopen] at h
    | cons innermost path =>
      rw [hopen, List.mem_singleton] at h
      rw [h]
      rfl
  · split at h
    · exact absurd h List.not_mem_nil
    · rw [List.mem_singleton.1 h]
      rfl
  · split at h
    · exact absurd h List.not_mem_nil
    · rw [List.mem_singleton.1 h]
      rfl

namespace Document

variable {d d' : Document} {id : NodeId} {fault : Fault}

theorem container?_of_mem_faults (h : fault ∈ (d.structureNode id).faults) :
    fault.container? = some id := by
  unfold structureNode at h
  split at h
  · exact Structuring.container?_of_mem_faults h
  · exact absurd h List.not_mem_nil

/-- A fault of structuring comes up in the turn of the node that it is about. -/
theorem exists_turn_of_mem_faults (h : d.IsTree) (hfault : fault ∈ d.structured.faults) :
    ∃ id, fault.container? = some id ∧
      ∃ t : d.Turn id, t.earlier.ok ∧ fault ∈ t.visit.faults := by
  rw [structured_eq_rewriteEach h] at hfault
  obtain ⟨before, id, after, hvisits, hok, hmem⟩ := mem_faults_rewriteEach.1 hfault
  exact ⟨id, container?_of_mem_faults hmem, ⟨h, before, after, hvisits⟩, hok, hmem⟩

/-- A node in whose turn nothing goes wrong is not at fault. -/
theorem container?_ne_of_faults_eq_nil (h : d.IsTree)
    (hnone : ∀ t : d.Turn id, t.visit.faults = []) :
    ∀ fault ∈ d.structured.faults, fault.container? ≠ some id := by
  intro fault hfault hcontainer
  obtain ⟨id', hid', t, -, hmem⟩ := exists_turn_of_mem_faults h hfault
  obtain rfl : id' = id := Option.some.inj (hid'.symm.trans hcontainer)
  rw [hnone t] at hmem
  exact List.not_mem_nil hmem

/-! ## Balanced markup -/

/-- The markup among the children of a node closes every element that it opens, and it ends with no
tag or comment that is cut off. -/
structure Balanced (d : Document) (id : NodeId) : Prop where
  closed : unclosed 0 (tokensOf [] (d.markupTexts (d.children id))) = 0
  complete : remainderOf [] (d.markupTexts (d.children id)) = []

/-- The first start tag in the markup among the children of a node. -/
def firstStartTag? (d : Document) (id : NodeId) : Option Token :=
  (tokensOf [] (d.markupTexts (d.children id))).find? Token.isStartTag

/-- In balanced markup only attributes can be left over. -/
theorem faults_of_balanced (hrange : d.InRange id) (hbalanced : d.Balanced id) :
    (d.structureChildren id).faults =
      if d.unattached id = [] then []
      else [.unattachedHoles (d.mention id) (d.unattached id).length] := by
  have hmirrors := mirrors_children hrange.lt_size hrange.children
  obtain ⟨hpath, hcarried, -⟩ := assembly_counts d id
  rw [hbalanced.closed, List.length_eq_zero_iff] at hpath
  rw [hbalanced.complete] at hcarried
  -- Without a tag that is cut off no other child can wait.
  have hothers : d.stranded id = [] := by
    rw [← inText_assembly]
    exact idle_assembly d id hcarried
  have hlength : (d.assembly id).waiting.length = (d.unattached id).length := by
    rw [length_waiting_assembly, hothers, List.length_nil, Nat.add_zero]
  have hnone : (d.assembly id).waiting = [] ↔ d.unattached id = [] := by
    rw [← List.length_eq_zero_iff, hlength, List.length_eq_zero_iff]
  have hmention := (keeps_structureChildren hrange).mention_eq hrange.lt_size
  simp only [structureChildren, Structuring.faults, hmirrors.openElements, hmirrors.carried,
    hmirrors.waiting, hpath, hcarried] at hmention ⊢
  rw [hmention, hlength]
  simp [hnone]

section

variable (hfirst : d.AttributesFirst id)
include hfirst

/-- Where the attributes come first, a start tag leaves none of them over. -/
theorem unattached_eq_nil (htag : d.firstStartTag? id ≠ none) : d.unattached id = [] := by
  refine unattached_items_eq_nil_iff.2 fun before child after hsplit hkind => ?_
  rw [AttributesFirst, hsplit, List.pairwise_append] at hfirst
  -- What comes before an attribute is no markup.
  have hnone : d.markupTexts before = [] := by
    rw [markupTexts, List.map_eq_nil_iff, List.filter_eq_nil_iff]
    intro i hi hmarkup
    have hattribute := hfirst.2.2 i hi child List.mem_cons_self hkind
    rw [beq_iff_eq.1 hmarkup] at hattribute
    cases hattribute
  have hall : d.markupTexts (d.children id) = d.markupTexts after := by
    rw [hsplit, markupTexts_append, hnone, List.nil_append, markupTexts, List.filter_cons_of_neg,
      markupTexts]
    rw [hkind]
    decide
  obtain ⟨token, htoken⟩ := Option.ne_none_iff_exists'.1 htag
  rw [firstStartTag?, hall] at htoken
  rw [hnone]
  exact ⟨token, List.mem_of_find?_eq_some htoken, List.find?_some htoken⟩

/-- The attributes of a node come before what else it has. -/
theorem attributesOf_append_contentOf : d.attributesOf id ++ d.contentOf id = d.children id := by
  rw [attributesOf, contentOf]
  unfold AttributesFirst at hfirst
  generalize d.children id = children at hfirst
  induction children with
  | nil => rfl
  | cons child children ih =>
    obtain ⟨hchild, hrest⟩ := List.pairwise_cons.1 hfirst
    by_cases hkind : d.kind child = .attribute
    · rw [List.filter_cons_of_pos (by simp [hkind]), List.filter_cons_of_neg (by simp [hkind]),
        List.cons_append, ih hrest]
    · -- After the first child that is no attribute there is none.
      have hnone : ∀ i ∈ child :: children, d.kind i ≠ .attribute := by
        rw [List.forall_mem_cons]
        exact ⟨hkind, fun i hi hattribute => hkind (hchild i hi hattribute)⟩
      have hall : (child :: children).filter (fun i => d.kind i == .attribute) = [] := by
        rw [List.filter_eq_nil_iff]
        simpa using hnone
      have hcontent : (child :: children).filter (fun i => d.kind i != .attribute) =
          child :: children := by
        rw [List.filter_eq_self]
        simpa using hnone
      rw [hall, hcontent, List.nil_append]

end

/-- Without a start tag all attributes are left over. -/
theorem unattached_eq_attributesOf (htag : d.firstStartTag? id = none) :
    d.unattached id = d.attributesOf id := by
  have hany : (tokensOf [] ((d.items id).filterMap Item.markup?)).any Token.isStartTag = false := by
    rw [items, filterMap_markup?_item, List.any_eq_false]
    exact List.find?_eq_none.1 htag
  rw [unattached, Assembly.unattached_eq hany, items, filterMap_attribute?_item]
  rfl

/-! ## Until the turn of the element -/

namespace Turn

variable (t : d.Turn id)

theorem markupTexts_eq : t.earlier.document.markupTexts (t.earlier.document.children id) =
    d.markupTexts (d.children id) := by
  rw [← filterMap_markup?_item, ← filterMap_markup?_item]
  exact congrArg (List.filterMap Item.markup?) t.items_eq

theorem balanced (h : d.Balanced id) : t.earlier.document.Balanced id := by
  constructor
  · rw [t.markupTexts_eq]
    exact h.closed
  · rw [t.markupTexts_eq]
    exact h.complete

theorem firstStartTag?_eq : t.earlier.document.firstStartTag? id = d.firstStartTag? id := by
  rw [firstStartTag?, firstStartTag?, t.markupTexts_eq]

theorem unattached_eq : t.earlier.document.unattached id = d.unattached id := by
  rw [unattached, unattached, t.items_eq]

theorem attributesOf_eq : t.earlier.document.attributesOf id = d.attributesOf id := by
  rw [attributesOf, attributesOf, ← filterMap_attribute?_item, ← filterMap_attribute?_item]
  exact congrArg (List.filterMap Item.attribute?) t.items_eq

/-- The attributes of the node still come first. -/
theorem attributesFirst (h : d.AttributesFirst id) : t.earlier.document.AttributesFirst id := by
  rw [AttributesFirst, children_eq_of_node_eq t.node_eq]
  refine List.Pairwise.imp_of_mem ?_ h
  intro before after hbefore hafter hfirst
  have hchildren := (t.inRange_of_mem (i := id) (by simp)).children
  rwa [t.keeps_earlier.kind_eq (hchildren before hbefore),
    t.keeps_earlier.kind_eq (hchildren after hafter)]

/-- What goes wrong in the turn of a node with balanced markup. -/
theorem faults_visit (hmarkup : ∃ child ∈ d.children id, d.kind child = .markup)
    (hbalanced : d.Balanced id) :
    t.visit.faults =
      if d.unattached id = [] then []
      else [.unattachedHoles (d.mention id) (d.unattached id).length] := by
  rw [t.visit_of_markup hmarkup, faults_of_balanced t.inRange (t.balanced hbalanced),
    t.unattached_eq, t.keeps_earlier.mention_eq t.lt_size]

end Turn

/-! ## The owner of the attributes -/

/-- The element of a start tag is not changed by what changes other nodes. -/
theorem IsTagElement.keeps {name : Bytes} {attributes : List Attribute}
    {given changed : List NodeId} (h : d.IsTagElement name attributes given id)
    (hkeeps : Keeps changed d d') (hid : id ∉ changed) :
    d'.IsTagElement name attributes given id := by
  obtain ⟨hkind, hname, written, rest, hchildren, hspells, hrest⟩ := h
  have hlt : id < d.size := lt_size_of_kind_ne (by rw [hkind]; decide)
  refine ⟨(hkeeps.kind_eq hlt).trans hkind, (hkeeps.name_eq hlt).trans hname, written, rest,
    (hkeeps.children_eq hlt hid).trans hchildren, hspells.imp ?_, ?_⟩
  · rintro a i ⟨hattribute, hwritten⟩
    have hlt : i < d.size := lt_size_of_kind_ne (by rw [hattribute]; decide)
    exact ⟨(hkeeps.kind_eq hlt).trans hattribute, (hkeeps.name_eq hlt).trans hwritten⟩
  · intro i hi
    obtain ⟨hlt, hcontent⟩ := hrest i hi
    exact ⟨Nat.lt_of_lt_of_le hlt hkeeps.size_le, (hkeeps.kind_eq hlt).symm ▸ hcontent⟩

/-- In the document `d'` the attributes are what they were in `d`, and they are children of their
owner and of no other node. -/
structure HeldBy (d d' : Document) (owner : NodeId) (attributes : List NodeId) : Prop where
  reached : d'.Reached owner
  kept : ∀ a ∈ attributes, d'.node a = d.node a
  held : ∀ a ∈ attributes, ∀ parent, d'.Reached parent → (a ∈ d'.children parent ↔ parent = owner)

/-- An attribute is not visited. -/
theorem notMem_visits_of_attribute (h : d.verify) (hid : d.Reached id) {a : NodeId}
    (ha : a ∈ d.attributesOf id) : a ∉ d.visits := by
  obtain ⟨hmem, hkind⟩ := List.mem_filter.1 ha
  rw [mem_visits_iff (isTree_of_verify h).1]
  intro hvisited
  cases hvisited with
  | root => exact (wellFormed_of_verify h).root_notMem hid hmem
  | child _ _ _ hvalue =>
    rw [beq_iff_eq.1 hkind] at hvalue
    cases hvalue

/-- Whoever has the attributes of a node after structuring is their one parent. -/
theorem heldBy_structured (h : d.verify) (hok : d.structured.ok) (hid : d.Reached id)
    {owner : NodeId} (howner : d.structured.document.Reached owner)
    (hmem : ∀ a ∈ d.attributesOf id, a ∈ d.structured.document.children owner) :
    HeldBy d d.structured.document owner (d.attributesOf id) := by
  have htree := (isTree_of_verify h).1
  have htree' := isTree_structured htree hok
  refine ⟨howner, fun a ha => ?_, fun a ha parent hparent => ⟨fun hchild => ?_, ?_⟩⟩
  · have hlt := (wellFormed_of_verify h).lt_size a (hid.child (List.mem_filter.1 ha).1)
    exact node_structured_of_notMem htree hlt (notMem_visits_of_attribute h hid ha)
  · -- The document is still a tree, so there is no second parent.
    exact htree'.parent_unique hparent howner hchild (hmem a ha)
  · rintro rfl
    exact hmem a ha

/-! ## What structuring does with the attributes -/

/-- Structuring comes to the node and finds markup among its children. -/
def IsStructured (d : Document) (id : NodeId) : Prop :=
  d.Visited id ∧ ∃ child ∈ d.children id, d.kind child = .markup

/-- What is not structured stays as it is. -/
theorem node_structured_of_not_isStructured (h : d.verify) (hok : d.structured.ok)
    (hid : d.Reached id) (hnot : ¬ d.IsStructured id) :
    d.structured.document.node id = d.node id := by
  have htree := (isTree_of_verify h).1
  by_cases hvisit : id ∈ d.visits
  · obtain ⟨t⟩ := exists_turn htree hvisit
    refine t.node_structured hok fun child hchild hmarkup => hnot ?_
    exact ⟨(mem_visits_iff htree).1 hvisit, child, hchild, hmarkup⟩
  · exact node_structured_of_notMem htree ((wellFormed_of_verify h).lt_size id hid) hvisit

/-- What is not structured is not at fault. -/
theorem container?_ne_of_not_isStructured (h : d.IsTree) (hnot : ¬ d.IsStructured id) :
    ∀ fault ∈ d.structured.faults, fault.container? ≠ some id := by
  refine container?_ne_of_faults_eq_nil h fun t => ?_
  have hnone : ∀ child ∈ d.children id, d.kind child ≠ .markup := fun child hchild hmarkup =>
    hnot ⟨(mem_visits_iff h).1 t.mem_visits, child, hchild, hmarkup⟩
  rw [t.visit_of_not_markup hnone]

section

variable (hmarkup : ∃ child ∈ d.children id, d.kind child = .markup) (hbalanced : d.Balanced id)
include hmarkup hbalanced

/-- A node with balanced markup that leaves no attribute over is not at fault. -/
theorem container?_ne_of_unattached_eq_nil (h : d.IsTree) (hnone : d.unattached id = []) :
    ∀ fault ∈ d.structured.faults, fault.container? ≠ some id := by
  refine container?_ne_of_faults_eq_nil h fun t => ?_
  rw [t.faults_visit hmarkup hbalanced, if_pos hnone]

/-- If attributes are left over in balanced markup, nothing else is reported, unless the fault is
with another node. -/
theorem faults_structured_of_unattached (h : d.IsTree) (hvisited : d.Visited id)
    (hleft : d.unattached id ≠ []) :
    d.structured.faults = [.unattachedHoles (d.mention id) (d.unattached id).length] ∨
      ∃ fault ∈ d.structured.faults, fault.container? ≠ some id := by
  by_cases hother : ∃ fault ∈ d.structured.faults, fault.container? ≠ some id
  · exact .inr hother
  · refine .inl ?_
    have hvisit : ∀ t : d.Turn id, t.visit.faults =
        [.unattachedHoles (d.mention id) (d.unattached id).length] := by
      intro t
      rw [t.faults_visit hmarkup hbalanced, if_neg hleft]
    have hnot : ∀ t : d.Turn id, ¬ t.visit.ok := by
      intro t hok
      rw [Rewrite.ok, hvisit t] at hok
      cases hok
    -- Something goes wrong, since at the latest the turn of the node does.
    have hfaults : d.structured.faults ≠ [] := by
      intro hnone
      obtain ⟨t⟩ := exists_turn h ((mem_visits_iff h).2 hvisited)
      exact hnot t (t.keeps_later (List.isEmpty_iff.2 hnone)).2.1
    obtain ⟨fault, hfault⟩ := List.exists_mem_of_ne_nil _ hfaults
    obtain ⟨id', hid', t, hearlier, -⟩ := exists_turn_of_mem_faults h hfault
    obtain rfl : id' = id := by
      by_contra hne
      exact hother ⟨fault, hfault, by simpa [hid'] using hne⟩
    rw [t.structured_eq, Rewrite.andThen_of_ok hearlier, Rewrite.andThen, if_neg (hnot t), hvisit t]

end

/-- The element of the first start tag gets the attributes of the node. -/
theorem exists_isTagElement_structured (h : d.IsTree) (hok : d.structured.ok)
    (hstructured : d.IsStructured id) (hfirst : d.AttributesFirst id) {token : Token}
    (htag : d.firstStartTag? id = some token) {name : Slice} {written : List Attribute}
    {selfClosing : Bool} (hcontent : token.content = .startTag name written selfClosing) :
    ∃ element ∈ d.structured.document.children id, d.size ≤ element ∧
      d.structured.document.IsTagElement name.text written (d.attributesOf id) element := by
  obtain ⟨t⟩ := exists_turn h ((mem_visits_iff h).2 hstructured.1)
  obtain ⟨-, -, hlater⟩ := t.keeps_later hok
  rw [t.visit_of_markup hstructured.2] at hlater
  -- In its turn the node has the markup that it had at first.
  rw [← t.firstStartTag?_eq] at htag
  obtain ⟨tag, hisFirst, rfl⟩ := exists_first t.inRange.lt_size t.inRange.children htag
  obtain ⟨rfl, rfl, -⟩ := Content.startTag.inj (tag.content.symm.trans hcontent)
  obtain ⟨element, hmem, hle, helement⟩ :=
    hisFirst.isTagElement t.inRange.children (t.attributesFirst hfirst)
  rw [t.attributesOf_eq] at helement
  have hle : d.size ≤ element := Nat.le_trans t.keeps_earlier.size_le hle
  -- What comes later changes neither the node nor the new element.
  have hnew : element ∉ t.after := fun hafter =>
    absurd (t.lt_size_of_mem_after hafter) (Nat.not_lt.2 hle)
  have hlt := Nat.lt_of_lt_of_le t.inRange.lt_size (keeps_structureChildren t.inRange).size_le
  refine ⟨element, ?_, hle, helement.keeps hlater hnew⟩
  rwa [hlater.children_eq hlt t.notMem_after]

/-- Where the attributes of an element are after structuring. If the element is not structured,
they are where they were, in front of what else the element has. If it is structured and its markup
is balanced, they are with the element of the first start tag, behind the attributes written there;
without a start tag structuring fails, and their number is reported. -/
theorem attributes_structured (h : d.verify) (hid : d.Reached id) (hkind : d.kind id = .element)
    (hattributes : d.attributesOf id ≠ []) :
    let attributes := d.attributesOf id
    let r := d.structured
    (¬ d.IsStructured id →
      (∀ fault ∈ r.faults, fault.container? ≠ some id) ∧
      (r.ok → r.document.children id = attributes ++ d.contentOf id ∧
        HeldBy d r.document id attributes)) ∧
    (d.IsStructured id → d.Balanced id →
      (d.firstStartTag? id = none →
        r.faults = [.unattachedHoles (d.mention id) attributes.length] ∨
          ∃ fault ∈ r.faults, fault.container? ≠ some id) ∧
      ∀ token ∈ d.firstStartTag? id, ∀ name written selfClosing,
        token.content = .startTag name written selfClosing →
        (∀ fault ∈ r.faults, fault.container? ≠ some id) ∧
        (r.ok → ∃ element ∈ r.document.children id, d.size ≤ element ∧
          r.document.IsTagElement name.text written attributes element ∧
          HeldBy d r.document element attributes)) := by
  intro attributes r
  have htree := (isTree_of_verify h).1
  have hfirst : d.AttributesFirst id := ((wellFormed_of_verify h).demands id hid).attributes hkind
  have hreached : r.ok → r.document.Reached id := fun hok =>
    reached_structured h hok hid (by rw [hkind]; decide)
  refine ⟨fun hnot => ⟨container?_ne_of_not_isStructured htree hnot, fun hok => ?_⟩,
    fun hstructured hbalanced => ⟨fun htag => ?_, ?_⟩⟩
  · -- Nothing touches the element, nor the attributes.
    have hchildren : r.document.children id = attributes ++ d.contentOf id :=
      (children_eq_of_node_eq (node_structured_of_not_isStructured h hok hid hnot)).trans
        (attributesOf_append_contentOf hfirst).symm
    refine ⟨hchildren, heldBy_structured h hok hid (hreached hok) fun a ha => ?_⟩
    rw [hchildren]
    exact List.mem_append_left _ ha
  · -- All attributes are still waiting when the markup ends.
    have hleft := unattached_eq_attributesOf htag
    have hfaults := faults_structured_of_unattached hstructured.2 hbalanced htree hstructured.1
      (hleft ▸ hattributes)
    rwa [hleft] at hfaults
  · -- The first start tag takes all of them at once.
    intro token htoken name written selfClosing hcontent
    have htag : d.firstStartTag? id = some token := htoken
    have hnone := unattached_eq_nil hfirst (by rw [htag]; exact Option.some_ne_none token)
    refine ⟨container?_ne_of_unattached_eq_nil hstructured.2 hbalanced htree hnone, fun hok => ?_⟩
    obtain ⟨element, hmem, hle, helement⟩ :=
      exists_isTagElement_structured htree hok hstructured hfirst htag hcontent
    refine ⟨element, hmem, hle, helement,
      heldBy_structured h hok hid ((hreached hok).child hmem) fun a ha => ?_⟩
    obtain ⟨-, -, entries, rest, hchildren, -, -⟩ := helement
    rw [hchildren]
    exact List.mem_append_left _ (List.mem_append_right _ ha)

/-- An element with two attributes around the markup of another one. -/
def wrappedTag : Document :=
  ⟨#[{ kind := .document, children := [1] },
    { kind := .element, name := utf8 "p", children := [2, 4, 6] },
    { kind := .attribute, name := utf8 "id", children := [3] },
    { kind := .attributeValue },
    { kind := .attribute, name := utf8 "lang", children := [5] },
    { kind := .attributeValue },
    { kind := .markup, fragments := [utf8 "a<b c=\"d\">x</b>"] }], by decide⟩

theorem wrappedTag_structured :
    wrappedTag.verify ∧ wrappedTag.Reached 1 ∧ wrappedTag.kind 1 = .element ∧
      wrappedTag.attributesOf 1 ≠ [] ∧ wrappedTag.IsStructured 1 ∧ wrappedTag.Balanced 1 ∧
      (∀ fault ∈ wrappedTag.structured.faults, fault.container? ≠ some 1) ∧
      ∃ element ∈ wrappedTag.structured.document.children 1, 7 ≤ element ∧
        HeldBy wrappedTag wrappedTag.structured.document element [2, 4] := by
  have hverify : wrappedTag.verify := by decide +kernel
  have hreached : wrappedTag.Reached 1 := (reached_root _).child (by decide)
  have hkind : wrappedTag.kind 1 = .element := by decide
  have hattributes : wrappedTag.attributesOf 1 = [2, 4] := by decide
  have hne : wrappedTag.attributesOf 1 ≠ [] := by rw [hattributes]; exact List.cons_ne_nil _ _
  have hstructured : wrappedTag.IsStructured 1 :=
    ⟨.child .root (by decide) (by decide) (by decide), 6, by decide, by decide⟩
  have hbalanced : wrappedTag.Balanced 1 := ⟨by decide +kernel, by decide +kernel⟩
  have hok : wrappedTag.structured.ok := by decide +kernel
  obtain ⟨token, htag⟩ := Option.isSome_iff_exists.1
    (show (wrappedTag.firstStartTag? 1).isSome by decide +kernel)
  obtain ⟨name, written, selfClosing, hcontent⟩ := exists_of_isStartTag (List.find?_some htag)
  obtain ⟨-, hmoved⟩ := attributes_structured hverify hreached hkind hne
  obtain ⟨hfaults, helement⟩ := (hmoved hstructured hbalanced).2 token htag name written
    selfClosing hcontent
  obtain ⟨element, hmem, hle, -, hheld⟩ := helement hok
  rw [hattributes] at hheld
  exact ⟨hverify, hreached, hkind, hne, hstructured, hbalanced, hfaults, element, hmem, hle, hheld⟩

/-- An element with an attribute around a text. -/
def wrappedText : Document :=
  ⟨#[{ kind := .document, children := [1] },
    { kind := .element, name := utf8 "p", children := [2, 4] },
    { kind := .attribute, name := utf8 "id", children := [3] },
    { kind := .attributeValue },
    { kind := .markup, fragments := [utf8 "x"] }], by decide⟩

/-- The attributes of an element with balanced markup should still be its own, but with a start tag
in the markup none is, and without one the attributes are refused. -/
theorem wrapped_attributes_lost :
    (wrappedTag.verify ∧ wrappedTag.kind 1 = .element ∧ wrappedTag.attributesOf 1 = [2, 4] ∧
      wrappedTag.Balanced 1 ∧ wrappedTag.structured.ok ∧
      wrappedTag.structured.document.children 1 = [7, 8] ∧
      wrappedTag.structured.document.children 8 = [9, 2, 4, 12]) ∧
    (wrappedText.verify ∧ wrappedText.kind 1 = .element ∧ wrappedText.attributesOf 1 = [2] ∧
      wrappedText.Balanced 1 ∧
      wrappedText.structured.faults = [.unattachedHoles (wrappedText.mention 1) 1]) := by
  refine ⟨⟨?_, ?_, ?_, ⟨?_, ?_⟩, ?_, ?_, ?_⟩, ?_, ?_, ?_, ⟨?_, ?_⟩, ?_⟩ <;> decide +kernel

end Document

end MarkupTemplate
