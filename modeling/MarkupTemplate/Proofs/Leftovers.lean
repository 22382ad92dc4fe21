import MarkupTemplate.Proofs.Balance

/-!
# What is left at the end of a container

At the end of a container two sorts of children can be left over. An attribute waits for a start tag
that never came, and any other child stands in a tag or comment that is cut off and that no later
token sets it free from. Both wait in one place, so one number is reported for both, in a message
that speaks of attributes only. If no tag or comment is cut off, only attributes can be left.

## Main definitions

* `Document.unattached`: the attributes among the children that no start tag comes after
* `Document.stranded`: the other children that no token sets free

## Main results

* `Assembly.inText_foldl_take`: what waits in the text of a tag, after any children
* `Document.length_waiting_assembly`: the number of children that wait at the end
* `Document.leftovers_reported`: what is left over is reported with its number
-/

namespace MarkupTemplate

open Markup

namespace Assembly

variable {a : Assembly}

/-! ## What waits in the text of a tag -/

/-- The children that are neither markup nor attributes, that stand where a tag or comment is cut
off, and after which no token comes. -/
def stranded (carried : Bytes) : List Item → List NodeId
  | [] => []
  | .markup text :: items => stranded (scan (carried ++ text)).remainder items
  | .attribute _ :: items => stranded carried items
  | .hole node :: items =>
    if carried = [] ∨ tokensOf carried (items.filterMap Item.markup?) ≠ [] then
      stranded carried items
    else node :: stranded carried items

/-- What waits is an attribute, or it waits in the text of a tag. -/
theorem length_waiting (a : Assembly) :
    a.waiting.length = a.waitingAttributes.length + a.inText.length := by
  rw [waitingAttributes, inText, List.length_map, List.length_map, Nat.add_comm,
    List.length_eq_length_filter_add Hole.isPositional]

theorem inText_takeMarkup (text : Bytes) (a : Assembly) :
    (a.takeMarkup text).inText =
      if (scan (a.carried ++ text)).tokens = [] then a.inText else [] := by
  have hfold : ((scan (a.carried ++ text)).tokens.foldl apply a).inText =
      if (scan (a.carried ++ text)).tokens = [] then a.inText else [] := by
    split
    · next htokens => rw [htokens]; rfl
    · next htokens => exact inText_foldl_apply htokens
  rw [← hfold]
  simp only [takeMarkup]
  split
  · rfl
  · rw [inText, inText, List.filter_map, Structuring.isPositional_comp_rebase, List.map_map,
      Structuring.node_comp_rebase]

/-- After any children, what waits in the text of a tag can be read off the texts of the markup. -/
theorem inText_foldl_take (a : Assembly) (items : List Item) :
    (items.foldl take a).inText =
      (if tokensOf a.carried (items.filterMap Item.markup?) = [] then a.inText else []) ++
        stranded a.carried items := by
  -- Every child shifts something from the children to come to what is there by now.
  induction items generalizing a with
  | nil => simp [tokensOf, stranded]
  | cons item items ih =>
    rw [List.foldl_cons, ih]
    cases item with
    | markup text =>
      rw [take, carried_takeMarkup, inText_takeMarkup, stranded, List.filterMap_cons]
      simp only [Item.markup?, tokensOf, List.append_eq_nil_iff]
      by_cases hrest : tokensOf (scan (a.carried ++ text)).remainder
        (items.filterMap Item.markup?) = [] <;> simp [hrest]
    | «attribute» node =>
      have hnow : (a.take (.attribute node)).inText = a.inText := by
        simp [inText, take, Hole.isPositional]
      rw [hnow]
      rfl
    | hole node =>
      have htexts : (Item.hole node :: items).filterMap Item.markup? =
          items.filterMap Item.markup? := rfl
      have hnow : (a.take (.hole node)).inText =
          a.inText ++ if a.carried = [] then [] else [node] := by
        cases hcarried : a.carried <;>
          simp [take, hcarried, inText, Hole.isPositional, List.filter_cons]
      rw [carried_take_hole, htexts, hnow, stranded]
      by_cases hcarried : a.carried = [] <;>
        by_cases hrest : tokensOf a.carried (items.filterMap Item.markup?) = [] <;>
          simp [hcarried, hrest]

end Assembly

namespace Structuring

/-- The one report on what waits says how much it is. -/
theorem unattachedHoles_mem_faults_iff {s : Structuring} {container : NodeId} {mention : Mention}
    {count : Nat} :
    .unattachedHoles mention count ∈ s.faults container ↔
      s.waiting ≠ [] ∧ mention = s.document.mention container ∧ count = s.waiting.length := by
  rw [faults, List.mem_append, List.mem_append]
  cases s.openElements <;> cases s.carried <;> cases s.waiting <;> simp

end Structuring

namespace Document

variable {d : Document} {container : NodeId}

/-- The attributes among the children that no start tag comes after. -/
def unattached (d : Document) (container : NodeId) : List NodeId :=
  Assembly.unattached [] (d.items container)

/-- The children that are neither markup nor attributes and stand in a tag or comment that is cut
off for good. -/
def stranded (d : Document) (container : NodeId) : List NodeId :=
  Assembly.stranded [] (d.items container)

theorem inText_assembly (d : Document) (container : NodeId) :
    (d.assembly container).inText = d.stranded container := by
  refine (Assembly.inText_foldl_take _ _).trans ?_
  rw [show ({ next := d.size } : Assembly).inText = [] from rfl, ite_self]
  rfl

/-- The number of children that wait at the end. -/
theorem length_waiting_assembly (d : Document) (container : NodeId) :
    (d.assembly container).waiting.length =
      (d.unattached container).length + (d.stranded container).length := by
  rw [Assembly.length_waiting, (assembly_counts d container).2.2, inText_assembly]
  rfl

/-- What is left over is reported with its number, attributes and other children alike; without a
tag or comment that is cut off, only attributes can be left. -/
theorem leftovers_reported (hcontainer : container < d.size)
    (hchildren : ∀ child ∈ d.children container, child < d.size) :
    let attributes := d.unattached container
    let others := d.stranded container
    let r := d.structureChildren container
    (attributes = [] ↔ d.AttributesFollowed container) ∧
      ((∃ fault ∈ r.faults, fault.code = utf8 "STENCIL-I5003") ↔ attributes ≠ [] ∨ others ≠ []) ∧
      (∀ fault ∈ r.faults, fault.code = utf8 "STENCIL-I5003" →
        fault.detail =
          (d.mention container).text ++ utf8 " holds " ++
            decimal (attributes.length + others.length) ++
            utf8 " attribute node(s) with no start tag to attach to.") ∧
      (remainderOf [] (d.markupTexts (d.children container)) = [] → others = []) := by
  intro attributes others r
  have hlength : (d.assembly container).waiting.length = attributes.length + others.length :=
    length_waiting_assembly d container
  have hnone : attributes.length + others.length ≠ 0 ↔ attributes ≠ [] ∨ others ≠ [] := by
    rw [ne_eq, Nat.add_eq_zero_iff, List.length_eq_zero_iff, List.length_eq_zero_iff,
      not_and_or]
  have hwaiting := (mirrors_children hcontainer hchildren).waiting
  obtain ⟨innermost, count, hfaults⟩ := mem_faults_structureChildren hcontainer hchildren
  -- Only one report has this code, and it says how many children wait.
  have hcode : ∀ fault ∈ r.faults, fault.code = utf8 "STENCIL-I5003" →
      attributes.length + others.length ≠ 0 ∧
        fault = .unattachedHoles (d.mention container) (attributes.length + others.length) := by
    intro fault hmem hcode
    rcases (hfaults fault).1 hmem with ⟨-, rfl⟩ | ⟨-, rfl⟩ | ⟨-, rfl⟩
    · exact absurd hcode (show utf8 "STENCIL-I5001" ≠ utf8 "STENCIL-I5003" by decide)
    · exact absurd hcode (show utf8 "STENCIL-I5002" ≠ utf8 "STENCIL-I5003" by decide)
    · obtain ⟨hne, -, rfl⟩ := Structuring.unattachedHoles_mem_faults_iff.1 hmem
      rw [hwaiting, hlength]
      rw [hwaiting, ← List.length_pos_iff, hlength] at hne
      exact ⟨hne.ne', rfl⟩
  refine ⟨unattached_items_eq_nil_iff, ⟨?_, fun hleft => ?_⟩, ?_, fun hremainder => ?_⟩
  · rintro ⟨fault, hmem, hfault⟩
    exact hnone.1 (hcode fault hmem hfault).1
  · refine ⟨_, Structuring.unattachedHoles_mem_faults_iff.2 ⟨?_, rfl, rfl⟩, rfl⟩
    rw [hwaiting, ← List.length_pos_iff, hlength]
    exact Nat.pos_of_ne_zero (hnone.2 hleft)
  · intro fault hmem hfault
    obtain ⟨-, rfl⟩ := hcode fault hmem hfault
    rfl
  · have hidle := idle_assembly d container ((assembly_counts d container).2.1.trans hremainder)
    rwa [inText_assembly] at hidle

/-- A container with an attribute in front of an element and one behind it, and with an expression
in a tag that is cut off. -/
def cutTag : Document :=
  ⟨#[{ kind := .document, children := [1, 3, 4, 6, 7] },
    { kind := .attribute, name := utf8 "a", children := [2] },
    { kind := .attributeValue },
    { kind := .markup, fragments := [utf8 "<b/><c d="] },
    { kind := .attribute, name := utf8 "e", children := [5] },
    { kind := .attributeValue },
    { kind := .embedded .expression (utf8 "x") },
    { kind := .markup, fragments := [utf8 "y"] }], by decide⟩

theorem cutTag_leftovers :
    let r := cutTag.structureChildren root
    root < cutTag.size ∧ (∀ child ∈ cutTag.children root, child < cutTag.size) ∧
      cutTag.unattached root = [4] ∧ cutTag.stranded root = [6] ∧
      (∃ fault ∈ r.faults, fault.code = utf8 "STENCIL-I5003") ∧
      ∀ fault ∈ r.faults, fault.code = utf8 "STENCIL-I5003" →
        fault.detail =
          utf8 "Document #0 holds 2 attribute node(s) with no start tag to attach to." := by
  intro r
  have hcontainer : root < cutTag.size := by decide
  have hchildren : ∀ child ∈ cutTag.children root, child < cutTag.size := by decide
  have hattributes : cutTag.unattached root = [4] := by decide +kernel
  have hothers : cutTag.stranded root = [6] := by decide +kernel
  obtain ⟨-, hcode, hdetail, -⟩ := leftovers_reported hcontainer hchildren
  rw [hattributes, hothers] at hcode hdetail
  refine ⟨hcontainer, hchildren, hattributes, hothers, hcode.2 (.inl (by decide)), ?_⟩
  intro fault hmem hfault
  exact (hdetail fault hmem hfault).trans (by decide +kernel)

/-- A container without attributes, with an expression in a tag that is cut off. -/
def cutExpression : Document :=
  ⟨#[{ kind := .document, children := [1, 2] },
    { kind := .markup, fragments := [utf8 "<a b="] },
    { kind := .embedded .expression (utf8 "x") }], by decide⟩

/-- Nothing but an attribute should be reported as an attribute, but an expression is. -/
theorem cutExpression_reported :
    (∀ child ∈ cutExpression.children root, cutExpression.kind child ≠ .attribute) ∧
      ∃ fault ∈ (cutExpression.structureChildren root).faults,
        fault.code = utf8 "STENCIL-I5003" ∧
        fault.detail =
          utf8 "Document #0 holds 1 attribute node(s) with no start tag to attach to." := by
  refine ⟨by decide, .unattachedHoles (cutExpression.mention root) 1, ?_, rfl, ?_⟩ <;>
    decide +kernel

end Document

end MarkupTemplate
