import MarkupTemplate.Proofs.Linearisation
import MarkupTemplate.Proofs.Splicing

/-!
# Markup in balance

Whether a container can be structured can be read off its tokens. Start tags open elements, end tags
close them, and one number says how many elements are open after each token. The container can be
structured if this number ends at zero, no tag or comment is cut off at the end, and every attribute
among the children is followed by a start tag that it can belong to.

## Main definitions

* `Markup.unclosed`: how many elements are open after some tokens
* `Markup.remainderOf`: what texts in a row leave cut off
* `Document.AttributesFollowed`: every attribute among the children comes before a start tag
* `Assembly.Conserved`: a quantity that tokens shift from the markup to the assembly
* `Assembly.unattached`: the attributes among the children that no start tag comes after

## Main results

* `Assembly.Conserved.foldl_take`: what is conserved can be read off the tokens
* `Assembly.foldl_take_counts`: the markup that is cut off and the attributes that wait, after any
  children
* `Document.structureChildren_balance`: when structuring fails, and what it then reports
-/

namespace MarkupTemplate

open Markup

/-! ## Counting open elements -/

namespace Markup

/-- The token is a start tag. -/
def Token.isStartTag (t : Token) : Bool :=
  match t.content with
  | .startTag .. => true
  | _ => false

/-- The number of open elements after a token. A start tag that is all there is of its element opens
none, and an end tag outside of all elements closes none. -/
def Token.depthAfter (depth : Nat) (t : Token) : Nat :=
  match t.content with
  | .startTag name _ selfClosing =>
    if selfClosing || isVoid name.text then depth else depth + 1
  | .endTag _ => depth - 1
  | _ => depth

/-- The number of open elements after tokens. -/
def unclosed (depth : Nat) (ts : List Token) : Nat := ts.foldl Token.depthAfter depth

/-- What texts in a row leave cut off: what one of them cuts off is read again with the next. -/
def remainderOf (carried : Bytes) : List Bytes → Bytes
  | [] => carried
  | text :: texts => remainderOf (scan (carried ++ text)).remainder texts

end Markup

/-- The text of a child that is markup. -/
def Item.markup? : Item → Option Bytes
  | .markup text => some text
  | _ => none

namespace Assembly

variable {a : Assembly}

/-! ## Conserved quantities -/

theorem carried_takeMarkup (text : Bytes) (a : Assembly) :
    (a.takeMarkup text).carried = (scan (a.carried ++ text)).remainder := by
  simp only [takeMarkup]
  split
  · next hempty => exact (List.isEmpty_iff.1 hempty).symm
  · rfl

/-- A quantity of an assembly and of the tokens to come: a token shifts it from the tokens to the
assembly, and neither holes nor what waits count for it. -/
structure Conserved {β : Type} (Q : Assembly → List Token → β) : Prop where
  apply (a : Assembly) (t : Token) (ts : List Token) : Q (a.apply t) ts = Q a (t :: ts)
  hole (a : Assembly) (node : NodeId) (ts : List Token) :
    Q { a with content := a.content ++ Forest.leaves [node] } ts = Q a ts
  wait (a : Assembly) (waiting : List Hole) (carried : Bytes) (ts : List Token) :
    Q { a with waiting := waiting, carried := carried } ts = Q a ts

namespace Conserved

variable {β : Type} {Q : Assembly → List Token → β} (hQ : Conserved Q)
include hQ

theorem foldl_apply (a : Assembly) (ts us : List Token) :
    Q (ts.foldl Assembly.apply a) us = Q a (ts ++ us) := by
  induction ts generalizing a with
  | nil => rfl
  | cons t ts ih => rw [List.foldl_cons, ih, hQ.apply]; rfl

theorem takeMarkup (text : Bytes) (a : Assembly) (us : List Token) :
    Q (a.takeMarkup text) us = Q a ((scan (a.carried ++ text)).tokens ++ us) := by
  rw [← hQ.foldl_apply]
  simp only [Assembly.takeMarkup]
  split
  · exact hQ.wait _ _ [] us
  · exact hQ.wait _ _ _ us

/-- After all children the assembly has all of the quantity that the tokens of the markup had. -/
theorem foldl_take (a : Assembly) (items : List Item) :
    Q (items.foldl take a) [] = Q a (tokensOf a.carried (items.filterMap Item.markup?)) := by
  induction items generalizing a with
  | nil => rfl
  | cons item items ih =>
    rw [List.foldl_cons, ih]
    cases item with
    | markup text =>
      rw [take, hQ.takeMarkup, carried_takeMarkup]
      rfl
    | «attribute» node => exact hQ.wait a _ a.carried _
    | hole node =>
      rw [carried_take_hole]
      simp only [take]
      split
      · exact hQ.hole a node _
      · exact hQ.wait a _ a.carried _

end Conserved

/-! ## What a token does to the counts -/

/-- The attributes that wait for a start tag. -/
def waitingAttributes (a : Assembly) : List NodeId :=
  (a.waiting.filter fun hole => !hole.isPositional).map Hole.node

theorem path_openElement (name : Bytes) (attributes : List Attribute) (a : Assembly) :
    (a.openElement name attributes).path.length = a.path.length + 1 := by
  rw [openElement]
  simp only [release, path_foldl_attach]
  rfl

theorem path_closeElement (name : Bytes) (a : Assembly) :
    (a.closeElement name).path.length = a.path.length - 1 := by
  unfold closeElement
  split
  · next hpath => rw [hpath]; rfl
  · next branch path hpath => rw [hpath]; rfl

theorem path_addText (data : Bytes) (a : Assembly) : (a.addText data).path = a.path := by
  unfold addText
  split <;> rfl

/-- A token counts for the open elements as it does for the text. -/
theorem path_apply (a : Assembly) (t : Token) :
    (a.apply t).path.length = t.depthAfter a.path.length := by
  obtain ⟨offset, length, content⟩ := t
  cases content with
  | startTag name attributes selfClosing =>
    simp only [apply, Token.depthAfter]
    split
    · rw [path_closeElement, path_openElement, Nat.add_sub_cancel]
    · exact path_openElement name.text attributes a
  | endTag name => exact path_closeElement name.text _
  | text data => exact congrArg List.length (path_addText data _)
  | comment data => rfl

theorem conserved_unclosed : Conserved fun a ts => unclosed a.path.length ts where
  apply a t ts := by rw [path_apply]; rfl
  hole _ _ _ := rfl
  wait _ _ _ _ := rfl

/-- A start tag takes all attributes that wait for one; no other token takes any. -/
theorem waitingAttributes_apply (a : Assembly) (t : Token) :
    (a.apply t).waitingAttributes = if t.isStartTag then [] else a.waitingAttributes := by
  have hrelease : (a.release Hole.isPositional).waitingAttributes = a.waitingAttributes := by
    simp only [waitingAttributes, release, List.filter_filter, Bool.and_self]
  obtain ⟨offset, length, content⟩ := t
  cases content with
  | startTag name attributes selfClosing =>
    simp only [apply, Token.isStartTag, waitingAttributes]
    split
    · rw [waiting_closeElement, waiting_openElement]; rfl
    · rw [waiting_openElement]; rfl
  | endTag name =>
    exact (congrArg (List.map Hole.node <| List.filter _ ·) (waiting_closeElement _)).trans hrelease
  | text data =>
    exact (congrArg (List.map Hole.node <| List.filter _ ·) (waiting_addText _)).trans hrelease
  | comment data => exact hrelease

theorem waitingAttributes_foldl_apply (a : Assembly) (ts : List Token) :
    (ts.foldl apply a).waitingAttributes =
      if ts.any Token.isStartTag then [] else a.waitingAttributes := by
  induction ts generalizing a with
  | nil => rfl
  | cons t ts ih =>
    rw [List.foldl_cons, ih, waitingAttributes_apply, List.any_cons]
    cases t.isStartTag <;> simp

/-! ## What the children do to the counts -/

/-- The attributes among the children that no start tag comes after. -/
def unattached (carried : Bytes) : List Item → List NodeId
  | [] => []
  | .markup text :: items => unattached (scan (carried ++ text)).remainder items
  | .attribute node :: items =>
    if (tokensOf carried (items.filterMap Item.markup?)).any Token.isStartTag then
      unattached carried items
    else node :: unattached carried items
  | .hole _ :: items => unattached carried items

theorem waitingAttributes_takeMarkup (text : Bytes) (a : Assembly) :
    (a.takeMarkup text).waitingAttributes =
      if (scan (a.carried ++ text)).tokens.any Token.isStartTag then []
      else a.waitingAttributes := by
  rw [← waitingAttributes_foldl_apply]
  simp only [takeMarkup]
  split
  · rfl
  · -- The places of the other holes are counted anew, and nothing else.
    have hsame : (fun hole => !hole.isPositional) ∘ Structuring.rebase
        (scan (a.carried ++ text)).stop.offset = fun hole => !hole.isPositional := by
      funext hole
      simp [Hole.isPositional, Structuring.rebase]
    rw [waitingAttributes, waitingAttributes, List.filter_map, hsame, List.map_map,
      Structuring.node_comp_rebase]

/-- After any children, what is cut off and what waits can be read off the texts of the markup. -/
theorem foldl_take_counts (a : Assembly) (items : List Item) :
    let texts := items.filterMap Item.markup?
    let b := items.foldl take a
    b.carried = remainderOf a.carried texts ∧
      b.waitingAttributes =
        (if (tokensOf a.carried texts).any Token.isStartTag then [] else a.waitingAttributes) ++
          unattached a.carried items := by
  -- Every child shifts something from the children to come to what is there by now.
  induction items generalizing a with
  | nil =>
    refine ⟨rfl, ?_⟩
    simp [tokensOf, unattached]
  | cons item items ih =>
    obtain ⟨hcarried, hwaiting⟩ := ih (a.take item)
    rw [List.foldl_cons]
    cases item with
    | markup text =>
      rw [take, carried_takeMarkup] at hcarried hwaiting
      rw [waitingAttributes_takeMarkup] at hwaiting
      refine ⟨hcarried, hwaiting.trans ?_⟩
      simp only [unattached, List.filterMap_cons, Item.markup?, tokensOf, List.any_append]
      cases (scan (a.carried ++ text)).tokens.any Token.isStartTag <;> simp
    | «attribute» node =>
      have hnow : (a.take (.attribute node)).waitingAttributes = a.waitingAttributes ++ [node] := by
        simp [waitingAttributes, take, Hole.isPositional]
      rw [hnow, show (a.take (.attribute node)).carried = a.carried from rfl] at hwaiting
      refine ⟨hcarried, hwaiting.trans ?_⟩
      have htexts : (Item.attribute node :: items).filterMap Item.markup? =
          items.filterMap Item.markup? := rfl
      rw [htexts, unattached]
      cases (tokensOf a.carried (items.filterMap Item.markup?)).any Token.isStartTag <;> simp
    | hole node =>
      have hnow : (a.take (.hole node)).waitingAttributes = a.waitingAttributes := by
        simp only [take]
        split
        · rfl
        · simp [waitingAttributes, Hole.isPositional]
      rw [carried_take_hole] at hcarried hwaiting
      rw [hnow] at hwaiting
      exact ⟨hcarried, hwaiting⟩

/-- No attribute is left over if each of them comes before a start tag. -/
theorem unattached_eq_nil_iff {carried : Bytes} {items : List Item} :
    unattached carried items = [] ↔
      ∀ before node after, items = before ++ .attribute node :: after →
        (tokensOf (remainderOf carried (before.filterMap Item.markup?))
          (after.filterMap Item.markup?)).any Token.isStartTag := by
  induction items generalizing carried with
  | nil => simp [unattached]
  | cons item items ih =>
    -- Such an attribute is the first child, or it comes later.
    have hcons : ∀ P : List Item → NodeId → List Item → Prop,
        (∀ before node after, item :: items = before ++ .attribute node :: after →
          P before node after) ↔
        (∀ node, item = .attribute node → P [] node items) ∧
          ∀ before node after, items = before ++ .attribute node :: after →
            P (item :: before) node after := by
      intro P
      constructor
      · intro h
        refine ⟨fun node hnode => h [] node items (by rw [hnode]; rfl), ?_⟩
        rintro before node after rfl
        exact h (item :: before) node after rfl
      · rintro ⟨hfirst, hrest⟩ before node after hsplit
        cases before with
        | nil =>
          obtain ⟨rfl, rfl⟩ := List.cons.inj hsplit
          exact hfirst node rfl
        | cons item' before =>
          obtain ⟨rfl, hitems⟩ := List.cons.inj hsplit
          exact hrest before node after hitems
    rw [hcons]
    cases item with
    | markup text =>
      simp only [unattached, ih, List.filterMap_cons, Item.markup?, remainderOf]
      simp
    | «attribute» node =>
      rw [unattached]
      simp only [List.filterMap_cons, Item.markup?, Item.attribute.injEq, forall_eq']
      split
      · next hfollowed => simp [ih, remainderOf, hfollowed]
      · next hnone => simp [remainderOf, hnone]
    | hole node =>
      simp only [unattached, ih, List.filterMap_cons, Item.markup?]
      simp

/-- Nothing is left open if the counts say so. -/
theorem complete_iff (hidle : a.Idle) :
    a.Complete ↔ a.path.length = 0 ∧ a.carried = [] ∧ a.waitingAttributes = [] := by
  rw [Complete, List.length_eq_zero_iff]
  refine and_congr_right fun _ => and_congr_right fun hcarried => ?_
  constructor
  · intro hwaiting
    rw [waitingAttributes, hwaiting]
    rfl
  · -- What waits is an attribute or stands in a tag, and no tag is cut off.
    intro hattributes
    have htext := hidle hcarried
    rw [inText, List.map_eq_nil_iff, List.filter_eq_nil_iff] at htext
    rw [waitingAttributes, List.map_eq_nil_iff, List.filter_eq_nil_iff] at hattributes
    refine List.eq_nil_iff_forall_not_mem.2 fun hole hmem => ?_
    exact hattributes hole hmem (by simpa using htext hole hmem)

end Assembly

/-! ## Structured containers -/

namespace Document

variable {d : Document} {container : NodeId}

/-- The texts of the markup among the nodes. -/
def markupTexts (d : Document) (ids : List NodeId) : List Bytes :=
  (ids.filter fun id => d.kind id == .markup).map fun id => (d.label id).text

/-- Every attribute among the children comes before a start tag: one that the markup after it
completes, maybe after it was cut off in front of the attribute. -/
def AttributesFollowed (d : Document) (container : NodeId) : Prop :=
  ∀ before child after, d.children container = before ++ child :: after →
    d.kind child = .attribute →
      ∃ t ∈ tokensOf (remainderOf [] (d.markupTexts before)) (d.markupTexts after),
        t.isStartTag

theorem filterMap_markup?_item (d : Document) (ids : List NodeId) :
    (ids.map d.item).filterMap Item.markup? = d.markupTexts ids := by
  induction ids with
  | nil => rfl
  | cons id ids ih =>
    rw [List.map_cons, List.filterMap_cons, ih, markupTexts, markupTexts, List.filter_cons]
    cases hkind : d.kind id <;> simp [item, hkind, Item.markup?]

theorem item_eq_attribute_iff {id node : NodeId} :
    d.item id = .attribute node ↔ id = node ∧ d.kind id = .attribute := by
  unfold item
  cases d.kind id <;> simp

theorem unattached_items_eq_nil_iff :
    Assembly.unattached [] (d.items container) = [] ↔ d.AttributesFollowed container := by
  rw [Assembly.unattached_eq_nil_iff, items]
  constructor
  · intro h before child after hsplit hkind
    have hitems : (d.children container).map d.item =
        before.map d.item ++ .attribute child :: after.map d.item := by
      rw [hsplit, List.map_append, List.map_cons, item_eq_attribute_iff.2 ⟨rfl, hkind⟩]
    have hany := h _ child _ hitems
    rwa [filterMap_markup?_item, filterMap_markup?_item, List.any_eq_true] at hany
  · intro h before node after hitems
    obtain ⟨before, rest, hsplit, rfl, hrest⟩ := List.map_eq_append_iff.1 hitems
    obtain ⟨child, after, rfl, hchild, rfl⟩ := List.map_eq_cons_iff.1 hrest
    obtain ⟨rfl, hkind⟩ := item_eq_attribute_iff.1 hchild
    rw [filterMap_markup?_item, filterMap_markup?_item, List.any_eq_true]
    exact h before child after hsplit hkind

/-- No hole waits in the text of a tag unless a tag is cut off, whatever the children are. -/
theorem idle_assembly (d : Document) (container : NodeId) : (d.assembly container).Idle := by
  have hfold : ∀ (items : List Item) (a : Assembly), a.Idle →
      (items.foldl Assembly.take a).Idle := by
    intro items
    induction items with
    | nil => exact fun _ h => h
    | cons item items ih => exact fun a h => ih _ (h.take item)
  exact hfold _ _ fun _ => rfl

/-- What is left at the end of a container can be read off its texts and attributes. -/
theorem assembly_counts (d : Document) (container : NodeId) :
    let texts := d.markupTexts (d.children container)
    (d.assembly container).path.length = unclosed 0 (tokensOf [] texts) ∧
      (d.assembly container).carried = remainderOf [] texts ∧
      (d.assembly container).waitingAttributes = Assembly.unattached [] (d.items container) := by
  intro texts
  have htexts : (d.items container).filterMap Item.markup? = texts :=
    filterMap_markup?_item d (d.children container)
  obtain ⟨hcarried, hwaiting⟩ :=
    Assembly.foldl_take_counts { next := d.size } (d.items container)
  have hpath := Assembly.conserved_unclosed.foldl_take { next := d.size } (d.items container)
  simp only [htexts] at hcarried hpath
  refine ⟨hpath, hcarried, hwaiting.trans ?_⟩
  rw [show ({ next := d.size } : Assembly).waitingAttributes = [] from rfl, ite_self]
  rfl

/-- What structuring leaves open is reported: open elements, markup that is cut off, and what waits
for a start tag. -/
theorem mem_faults_structureChildren (hcontainer : container < d.size)
    (hchildren : ∀ child ∈ d.children container, child < d.size) :
    ∃ (innermost : Bytes) (count : Nat), ∀ fault : Fault,
      fault ∈ (d.structureChildren container).faults ↔
        ((d.assembly container).path.length ≠ 0 ∧
          fault = .unclosedElements (d.mention container) (d.assembly container).path.length
            innermost) ∨
        ((d.assembly container).carried ≠ [] ∧
          fault = .unterminatedMarkup (d.mention container) (d.assembly container).carried) ∨
        (count ≠ 0 ∧ fault = .unattachedHoles (d.mention container) count) := by
  have hmirrors := mirrors_children hcontainer hchildren
  have hmention : (d.structureChildren container).document.mention container =
      d.mention container := by
    have hlabel := (stored_structureChildren hcontainer hchildren).label
    have hkind := congrArg Label.kind hlabel
    have hname := congrArg Label.name hlabel
    exact congrArg₂ (Mention.mk container) hkind hname
  refine ⟨((d.structureChildren container).document.label
    (((d.assembly container).path.map OpenBranch.node).headD container)).name,
    (d.assembly container).waiting.length, fun fault => ?_⟩
  simp only [structureChildren, Structuring.faults, hmirrors.openElements, hmirrors.carried,
    hmirrors.waiting] at hmention ⊢
  rw [hmention, List.mem_append, List.mem_append, or_assoc]
  refine or_congr ?_ (or_congr ?_ ?_)
  · cases (d.assembly container).path <;> simp
  · cases (d.assembly container).carried <;> simp
  · cases (d.assembly container).waiting <;> simp

/-- Structuring fails exactly on markup that is out of balance, and the reports say in what way. -/
theorem structureChildren_balance (hcontainer : container < d.size)
    (hchildren : ∀ child ∈ d.children container, child < d.size) :
    let texts := d.markupTexts (d.children container)
    let depth := unclosed 0 (tokensOf [] texts)
    let remainder := remainderOf [] texts
    let mention := d.mention container
    let r := d.structureChildren container
    (r.ok ↔ depth = 0 ∧ remainder = [] ∧ d.AttributesFollowed container) ∧
      ((∃ fault ∈ r.faults, fault.code = utf8 "STENCIL-I5001") ↔ 0 < depth) ∧
      (∀ fault ∈ r.faults, fault.code = utf8 "STENCIL-I5001" →
        ∃ innermost, fault.detail =
          mention.text ++ utf8 " ended with " ++ decimal depth ++
            utf8 " unclosed element(s), innermost '<" ++ innermost ++ utf8 ">'.") ∧
      ((∃ fault ∈ r.faults, fault.code = utf8 "STENCIL-I5002") ↔ remainder ≠ []) ∧
      (∀ fault ∈ r.faults, fault.code = utf8 "STENCIL-I5002" →
        fault.detail =
          mention.text ++ utf8 " ended inside unterminated markup '" ++ remainder ++
            utf8 "'.") ∧
      (r.faults ≠ [] ↔ ¬r.ok) := by
  intro texts depth remainder mention r
  obtain ⟨hpath, hcarried, hwaiting⟩ := assembly_counts d container
  obtain ⟨innermost, count, hfaults⟩ := mem_faults_structureChildren hcontainer hchildren
  simp only [hpath, hcarried] at hfaults
  -- Each code stands for one sort of fault.
  have hunclosed : ∀ fault ∈ r.faults, fault.code = utf8 "STENCIL-I5001" →
      depth ≠ 0 ∧ fault = .unclosedElements mention depth innermost := by
    intro fault hmem hcode
    rcases (hfaults fault).1 hmem with h | ⟨-, rfl⟩ | ⟨-, rfl⟩
    · exact h
    · exact absurd hcode (show utf8 "STENCIL-I5002" ≠ utf8 "STENCIL-I5001" by decide)
    · exact absurd hcode (show utf8 "STENCIL-I5003" ≠ utf8 "STENCIL-I5001" by decide)
  have hunterminated : ∀ fault ∈ r.faults, fault.code = utf8 "STENCIL-I5002" →
      remainder ≠ [] ∧ fault = .unterminatedMarkup mention remainder := by
    intro fault hmem hcode
    rcases (hfaults fault).1 hmem with ⟨-, rfl⟩ | h | ⟨-, rfl⟩
    · exact absurd hcode (show utf8 "STENCIL-I5001" ≠ utf8 "STENCIL-I5002" by decide)
    · exact h
    · exact absurd hcode (show utf8 "STENCIL-I5003" ≠ utf8 "STENCIL-I5002" by decide)
  refine ⟨?_, ⟨?_, fun hdepth => ?_⟩, ?_, ⟨?_, fun hremainder => ?_⟩, ?_, ?_⟩
  · rw [ok_structureChildren_iff hcontainer hchildren,
      Assembly.complete_iff (idle_assembly d container), hpath, hcarried, hwaiting,
      unattached_items_eq_nil_iff]
  · rintro ⟨fault, hmem, hcode⟩
    exact Nat.pos_of_ne_zero (hunclosed fault hmem hcode).1
  · exact ⟨_, (hfaults _).2 (.inl ⟨hdepth.ne', rfl⟩), rfl⟩
  · intro fault hmem hcode
    obtain ⟨-, rfl⟩ := hunclosed fault hmem hcode
    exact ⟨innermost, rfl⟩
  · rintro ⟨fault, hmem, hcode⟩
    exact (hunterminated fault hmem hcode).1
  · exact ⟨_, (hfaults _).2 (.inr (.inl ⟨hremainder, rfl⟩)), rfl⟩
  · intro fault hmem hcode
    obtain ⟨-, rfl⟩ := hunterminated fault hmem hcode
    rfl
  · exact not_congr List.isEmpty_iff.symm

/-- Markup with end tags that close nothing, elements that are never closed, an attribute in front
of the tag that it belongs to, and a tag that is cut off. -/
def unbalancedMarkup : Document :=
  ⟨#[{ kind := .document, children := [1] },
    { kind := .element, name := utf8 "div", children := [2, 3, 5] },
    { kind := .markup, fragments := [utf8 "</i><ul><LI>a</x><br><p/></ul><"] },
    { kind := .attribute, name := utf8 "id", children := [4] },
    { kind := .attributeValue },
    { kind := .markup, fragments := [utf8 "/x></y><q><b>t<i"] }], by decide⟩

theorem unbalancedMarkup_reported :
    let r := unbalancedMarkup.structureChildren 1
    ¬r.ok ∧ unbalancedMarkup.AttributesFollowed 1 ∧
      (∃ fault ∈ r.faults, fault.code = utf8 "STENCIL-I5001" ∧
        ∃ innermost, fault.detail =
          (unbalancedMarkup.mention 1).text ++ utf8 " ended with " ++ decimal 2 ++
            utf8 " unclosed element(s), innermost '<" ++ innermost ++ utf8 ">'.") ∧
      ∃ fault ∈ r.faults, fault.code = utf8 "STENCIL-I5002" ∧
        fault.detail = utf8 "Element #1 'div' ended inside unterminated markup '<i'." := by
  intro r
  obtain ⟨hok, hunclosed, hinnermost, hunterminated, hquoted, -⟩ :=
    structureChildren_balance (d := unbalancedMarkup) (show 1 < unbalancedMarkup.size by decide)
      (by decide)
  have htexts : unbalancedMarkup.markupTexts (unbalancedMarkup.children 1) =
      [utf8 "</i><ul><LI>a</x><br><p/></ul><", utf8 "/x></y><q><b>t<i"] := by decide +kernel
  have hdepth : unclosed 0 (tokensOf [] [utf8 "</i><ul><LI>a</x><br><p/></ul><",
      utf8 "/x></y><q><b>t<i"]) = 2 := by decide +kernel
  have hremainder : remainderOf [] [utf8 "</i><ul><LI>a</x><br><p/></ul><",
      utf8 "/x></y><q><b>t<i"] = utf8 "<i" := by decide +kernel
  rw [htexts, hdepth] at hok hunclosed hinnermost
  rw [htexts, hremainder] at hunterminated hquoted
  obtain ⟨fault, hmem, hcode⟩ := hunclosed.2 (by decide)
  obtain ⟨fault', hmem', hcode'⟩ := hunterminated.2 (by decide)
  refine ⟨fun h => absurd (hok.1 h).1 (by decide),
    unattached_items_eq_nil_iff.1 (by decide +kernel),
    ⟨fault, hmem, hcode, hinnermost fault hmem hcode⟩, fault', hmem', hcode', ?_⟩
  exact (hquoted fault' hmem' hcode').trans (by decide +kernel)

end Document

end MarkupTemplate
