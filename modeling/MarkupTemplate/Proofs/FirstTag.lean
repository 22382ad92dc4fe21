import MarkupTemplate.Proofs.Balance

/-!
# The first start tag

The attributes among the children of a container wait for a start tag. Before the first one no
element is open, whatever end tags and texts have come. So it opens an element among the children of
the container, and this element gets the attributes that have come by then, behind those that are
written in the tag; where all attributes come before the markup, as in an element, these are all of
them.

## Main definitions

* `Document.StartTag.IsFirst`: the first start tag of a container
* `Document.AttributesFirst`: attributes in front of everything else
* `Document.IsTagElement`: the element of a start tag, with attributes that were given to it

## Main results

* `Assembly.before_startTag`: what is open and what waits before the first start tag
* `Document.exists_first`: the first start tag comes at a place among the children
* `Document.StartTag.IsFirst.isTagElement`: the element of the first start tag gets the attributes
-/

namespace MarkupTemplate

open Markup

/-! ## Tokens that are no start tags -/

namespace Markup

theorem tokensOf_append (carried : Bytes) (texts texts' : List Bytes) :
    tokensOf carried (texts ++ texts') =
      tokensOf carried texts ++ tokensOf (remainderOf carried texts) texts' := by
  induction texts generalizing carried with
  | nil => rfl
  | cons text texts ih => simp only [List.cons_append, tokensOf, remainderOf, ih, List.append_assoc]

/-- Without a start tag no element is open. -/
theorem unclosed_eq_zero {ts : List Token} (h : ts.any Token.isStartTag = false) :
    unclosed 0 ts = 0 := by
  induction ts with
  | nil => rfl
  | cons t ts ih =>
    rw [List.any_cons, Bool.or_eq_false_iff] at h
    have hdepth : t.depthAfter 0 = 0 := by
      have ht := h.1
      unfold Token.isStartTag at ht
      unfold Token.depthAfter
      split <;> simp_all
    rw [unclosed, List.foldl_cons, hdepth]
    exact ih h.2

theorem exists_of_isStartTag {t : Token} (h : t.isStartTag) :
    ∃ name attributes selfClosing, t.content = .startTag name attributes selfClosing := by
  unfold Token.isStartTag at h
  split at h
  · next name attributes selfClosing hcontent => exact ⟨name, attributes, selfClosing, hcontent⟩
  · cases h

/-- The first start tag of tokens that come after tokens without one. -/
theorem find?_isStartTag_append {ts us : List Token} (h : ts.any Token.isStartTag = false) :
    (ts ++ us).find? Token.isStartTag = us.find? Token.isStartTag := by
  rw [List.find?_append, List.find?_eq_none.2 fun t ht => List.any_eq_false.1 h t ht]
  rfl

end Markup

/-- The node of a child that is an attribute. -/
def Item.attribute? : Item → Option NodeId
  | .attribute node => some node
  | _ => none

namespace Assembly

/-- Without a start tag all attributes are left over. -/
theorem unattached_eq {carried : Bytes} {items : List Item}
    (h : (tokensOf carried (items.filterMap Item.markup?)).any Token.isStartTag = false) :
    unattached carried items = items.filterMap Item.attribute? := by
  induction items generalizing carried with
  | nil => rfl
  | cons item items ih =>
    cases item with
    | markup text =>
      simp only [List.filterMap_cons, Item.markup?, tokensOf, List.any_append,
        Bool.or_eq_false_iff] at h
      rw [unattached, ih h.2]
      rfl
    | «attribute» node =>
      have hrest : (tokensOf carried (items.filterMap Item.markup?)).any Token.isStartTag =
          false := h
      rw [unattached, hrest, if_neg (by simp), ih hrest]
      rfl
    | hole node => exact ih h

/-- Before the first start tag no element is open, and all attributes that have come wait. -/
theorem before_startTag (next : Nat) {items : List Item} {ts : List Token}
    (hitems : (tokensOf [] (items.filterMap Item.markup?)).any Token.isStartTag = false)
    (hts : ts.any Token.isStartTag = false) :
    let b := ts.foldl apply (items.foldl take { next := next })
    b.path = [] ∧ b.waitingAttributes = items.filterMap Item.attribute? := by
  intro b
  -- Both counts can be read off the tokens, and without a start tag they stay what they are.
  have hpath := conserved_unclosed.foldl_take { next := next } items
  obtain ⟨-, hwaiting⟩ := foldl_take_counts { next := next } items
  constructor
  · have hpath' := conserved_unclosed.foldl_apply (items.foldl take { next := next }) ts []
    rw [List.append_nil] at hpath'
    have hlength : b.path.length = unclosed (unclosed 0 (tokensOf [] (items.filterMap
        Item.markup?))) ts := hpath'.trans (congrArg (unclosed · ts) hpath)
    rwa [unclosed_eq_zero hitems, unclosed_eq_zero hts, List.length_eq_zero_iff] at hlength
  · rw [waitingAttributes_foldl_apply, hts, if_neg (by simp), hwaiting, hitems,
      if_neg (by simp), unattached_eq hitems]
    rfl

end Assembly

namespace Document

variable {d : Document} {container : NodeId}

theorem filterMap_attribute?_item (d : Document) (ids : List NodeId) :
    (ids.map d.item).filterMap Item.attribute? = ids.filter fun id => d.kind id == .attribute := by
  induction ids with
  | nil => rfl
  | cons id ids ih =>
    rw [List.map_cons, List.filterMap_cons, ih, List.filter_cons]
    cases hkind : d.kind id <;> simp [item, hkind, Item.attribute?]

theorem mirrors_taken {before : List NodeId} (hcontainer : container < d.size)
    (hbefore : ∀ child ∈ before, child < d.size) :
    Structuring.Mirrors d container (d.taken container before)
      ((before.map d.item).foldl Assembly.take { next := d.size }) :=
  (mirrors_start hcontainer).foldl_take hcontainer (.start d.size) hbefore

/-- What is carried on after some children. -/
theorem carried_taken {before : List NodeId} (hcontainer : container < d.size)
    (hbefore : ∀ child ∈ before, child < d.size) :
    (d.taken container before).carried = remainderOf [] (d.markupTexts before) := by
  rw [(mirrors_taken hcontainer hbefore).carried,
    (Assembly.foldl_take_counts { next := d.size } (before.map d.item)).1,
    filterMap_markup?_item]

/-- No attribute among the children of a node comes after a child that is none. -/
def AttributesFirst (d : Document) (id : NodeId) : Prop :=
  (d.children id).Pairwise fun before after => d.kind after = .attribute →
    d.kind before = .attribute

/-- The node is the element of a start tag: it has the name of the tag and, in front of everything
else, the attributes that are written in the tag and then the given ones. -/
structure IsTagElement (d : Document) (name : Bytes) (attributes : List Attribute)
    (given : List NodeId) (id : NodeId) : Prop where
  kind : d.kind id = .element
  name : (d.label id).name = name
  children : ∃ written rest, d.children id = written ++ given ++ rest ∧
    List.Forall₂ (fun a i => d.kind i = .attribute ∧ (d.label i).name = a.name.text)
      attributes written ∧ ∀ i ∈ rest, i < d.size ∧ d.kind i ≠ .attribute

namespace StartTag

/-- No start tag is completed before this one. -/
structure IsFirst (t : d.StartTag container) : Prop where
  before : (tokensOf [] (d.markupTexts t.before)).any Token.isStartTag = false
  earlier : t.earlier.any Token.isStartTag = false

/-- Where the attributes come first, all of them come before the first start tag. -/
theorem filter_before (t : d.StartTag container) (hattributes : d.AttributesFirst container) :
    t.before.filter (fun id => d.kind id == .attribute) = d.attributesOf container := by
  rw [AttributesFirst, t.children, List.pairwise_append] at hattributes
  obtain ⟨-, hafter, -⟩ := hattributes
  have hnone : (t.markup :: t.after).filter (fun id => d.kind id == .attribute) = [] := by
    rw [List.filter_eq_nil_iff]
    intro id hid hkind
    rw [beq_iff_eq] at hkind
    have hmarkup : d.kind t.markup = .attribute := by
      rcases List.mem_cons.1 hid with rfl | hid
      · exact hkind
      · exact (List.pairwise_cons.1 hafter).1 id hid hkind
    exact absurd (t.kind.symm.trans hmarkup) (by decide)
  rw [attributesOf, t.children, List.filter_append, hnone, List.append_nil]

end StartTag

theorem markupTexts_append (ids ids' : List NodeId) :
    d.markupTexts (ids ++ ids') = d.markupTexts ids ++ d.markupTexts ids' := by
  rw [markupTexts, List.filter_append, List.map_append]
  rfl

/-- The first start tag in the markup of a container comes at a place among its children. -/
theorem exists_first {token : Token} (hcontainer : container < d.size)
    (hchildren : ∀ child ∈ d.children container, child < d.size)
    (h : (tokensOf [] (d.markupTexts (d.children container))).find? Token.isStartTag =
      some token) :
    ∃ t : d.StartTag container, t.IsFirst ∧ t.token = token := by
  -- The children are searched one after another.
  suffices hsearch : ∀ after before, d.children container = before ++ after →
      (tokensOf [] (d.markupTexts before)).any Token.isStartTag = false →
      ∃ t : d.StartTag container, t.IsFirst ∧ t.token = token from hsearch _ [] rfl rfl
  intro after
  induction after with
  | nil =>
    intro before hsplit hbefore
    rw [List.append_nil] at hsplit
    rw [hsplit] at h
    exact absurd (List.find?_some h) (List.any_eq_false.1 hbefore _ (List.mem_of_find?_eq_some h))
  | cons child after ih =>
    intro before hsplit hbefore
    have hnext : d.children container = before ++ [child] ++ after := by simp [hsplit]
    cases hany : (tokensOf [] (d.markupTexts (before ++ [child]))).any Token.isStartTag with
    | false => exact ih _ hnext hany
    | true =>
      have hcarried : (d.taken container before).carried = remainderOf [] (d.markupTexts before) :=
        carried_taken hcontainer fun i hi =>
          hchildren i (by rw [hsplit]; exact List.mem_append_left _ hi)
      have hkind : d.kind child = .markup := by
        by_contra hkind
        rw [markupTexts_append, show d.markupTexts [child] = [] by simp [markupTexts, hkind],
          List.append_nil, hbefore] at hany
        cases hany
      -- Neither what comes before nor what comes after matters to the search.
      have htexts : d.markupTexts [child] = [(d.label child).text] := by
        simp [markupTexts, hkind]
      rw [markupTexts_append, tokensOf_append, List.any_append, hbefore, Bool.false_or, htexts,
        tokensOf, tokensOf, List.append_nil, ← hcarried] at hany
      rw [hsplit, ← List.singleton_append, markupTexts_append, markupTexts_append, htexts,
        tokensOf_append, find?_isStartTag_append hbefore, ← hcarried, List.singleton_append,
        tokensOf, List.find?_append] at h
      obtain ⟨found, hfound⟩ := Option.isSome_iff_exists.1 (List.find?_isSome.2
        (List.any_eq_true.1 hany))
      rw [hfound, Option.some_or, Option.some_inj] at h
      subst h
      obtain ⟨htag, earlier, later, htokens, hearlier⟩ := List.find?_eq_some_iff_append.1 hfound
      obtain ⟨name, attributes, selfClosing, hcontent⟩ := exists_of_isStartTag htag
      exact ⟨⟨before, child, after, hsplit, hkind, earlier, found, later, htokens, name, attributes,
        selfClosing, hcontent⟩, ⟨hbefore, List.any_eq_false.2 (by simpa using hearlier)⟩, rfl⟩

namespace StartTag

variable (t : d.StartTag container) (hchildren : ∀ child ∈ d.children container, child < d.size)
include hchildren

/-- The state before the tag says what the assembly of the children and tokens before it says. -/
theorem mirrors_state : Structuring.Mirrors d container t.state
    (t.earlier.foldl Assembly.apply
      ((t.before.map d.item).foldl Assembly.take { next := d.size })) := by
  have hbefore := t.lt_of_mem_before hchildren
  have haccount : (Assembly.run d.size (t.before.map d.item)).Accounted d.size
      ((t.before.map d.item).filterMap Item.node?) := by
    refine Assembly.accounted_run fun item hitem id hid => ?_
    obtain ⟨child, hchild, rfl⟩ := List.mem_map.1 hitem
    rw [node?_item_eq hid]
    exact hbefore child hchild
  exact (mirrors_taken t.container_lt hbefore).foldl_apply t.container_lt haccount
    (d.label t.markup).span t.earlier

/-- The element of a start tag, as it is when structuring ends. -/
theorem spliced_structureChildren :
    Structuring.Spliced d container t.state t.name.text t.attributes
      (d.structureChildren container).document := by
  have hs := t.regular_state hchildren
  have harrivals := (arrivals_taken t.container_lt (t.lt_of_mem_before hchildren)).foldl_apply
    (t.regular_taken_before hchildren) t.container_lt (d.label t.markup).span t.earlier
    (List.prefix_append _ (d.label t.markup).text)
  have hopen := hs.spliced_openElement t.container_lt harrivals.sorted
    t.inTurn_attributes.pairwise t.name.text (d.label t.markup).span
  have htop := hs.grows_openElement (n := 0) t.container_lt (Nat.zero_le _)
    (d.label t.markup).span t.name.text t.attributes
  -- What comes after the tag adds children and takes none away.
  exact hopen.grows (t.grows_structureChildren hchildren) t.container_lt
    (Nat.lt_of_lt_of_le (hs.top_lt t.container_lt) htop.size_le)

namespace IsFirst

variable {t} (hfirst : t.IsFirst)
include hfirst

/-- Before the first start tag no element is open, and all attributes that have come wait. -/
theorem state : t.state.top container = container ∧
    (t.state.waiting.map Hole.node).filter (fun id => d.kind id = .attribute) =
      t.before.filter fun id => d.kind id == .attribute := by
  have hmirrors := t.mirrors_state hchildren
  have hbefore := hfirst.before
  rw [← filterMap_markup?_item] at hbefore
  obtain ⟨hpath, hwaiting⟩ := Assembly.before_startTag d.size hbefore hfirst.earlier
  refine ⟨?_, ?_⟩
  · rw [Structuring.top, hmirrors.openElements, hpath]
    rfl
  · rw [← filterMap_attribute?_item, ← hwaiting, Assembly.waitingAttributes, ← hmirrors.waiting,
      List.filter_map]
    refine congrArg (List.map Hole.node) (List.filter_congr fun hole hmem => ?_)
    have hkind := ((t.regular_state hchildren).waiting hole hmem).2
    cases hpositional : hole.isPositional <;> simp_all

/-- The first start tag opens an element among the children of the container, and this element gets
the attributes of the container, if these come first. -/
theorem isTagElement (hattributes : d.AttributesFirst container) :
    let d' := (d.structureChildren container).document
    ∃ element ∈ d'.children container, d.size ≤ element ∧
      d'.IsTagElement t.name.text t.attributes (d.attributesOf container) element := by
  intro d'
  obtain ⟨htop, hwaiting⟩ := hfirst.state hchildren
  obtain ⟨hkind, hname, ⟨more, hplace⟩, written, rest, hcontent, hspells, hrest⟩ :=
    t.spliced_structureChildren hchildren
  rw [hwaiting, t.filter_before hattributes] at hcontent
  -- No element is open, so the new one is placed in the container itself.
  rw [htop] at hplace
  refine ⟨t.state.document.size, ?_, (t.regular_state hchildren).size_le, hkind, hname, written,
    rest, hcontent, hspells.imp fun _ _ h => ⟨h.kind, h.name⟩, hrest⟩
  rw [hplace]
  exact List.mem_append_right _ List.mem_cons_self

end IsFirst

end StartTag

end Document

end MarkupTemplate
