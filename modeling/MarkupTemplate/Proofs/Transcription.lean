import MarkupTemplate.Proofs.Rendering
import MarkupTemplate.Proofs.Unfolding

/-!
# Programs are read off the tree

Writing works in steps on a renderer and stops at the first node that stands where it cannot be
written. Steps that come to their end have met no such node, whatever the renderer was at their
start. So if a program is written at all, every node stands where it can be written, and the program
is that of the tree: its targets and levels follow from the components that a node is in.

## Main definitions

* `Render.Succeeds`: steps come to their end

## Main results

* `Render.Succeeds.of_bind`: steps in a row come to their end only if each of them does
* `Render.writable_of_succeeds`: what is written can be written
* `Renderer.output_of_written`: what is written of an acyclic document is the program of its tree
-/

namespace MarkupTemplate

namespace Render

variable {x y : Render Unit} {inElement : Bool} {id : NodeId} {label : Label}
variable {children siblings f : Forest}

/-- The steps come to their end, for some renderer at their start. -/
def Succeeds (x : Render Unit) : Prop := ∃ r r', Does x r r'

/-- Steps in a row come to their end only if each of them does. -/
theorem Succeeds.of_bind (h : Succeeds (do x; y)) : Succeeds x ∧ Succeeds y := by
  obtain ⟨r, r', hxy⟩ := h
  rw [Does, run_bind] at hxy
  cases hx : (x.run r).1 with
  | none =>
    -- After the first part stops, the second is not begun.
    rw [hx] at hxy
    have hstop : (none : Option Unit) = some () := congrArg Prod.fst hxy
    exact absurd hstop (by decide)
  | some u =>
    rw [hx] at hxy
    constructor
    · exact ⟨r, (x.run r).2, Prod.ext hx rfl⟩
    · exact ⟨(x.run r).2, r', hxy⟩

theorem not_succeeds_fail (fault : Fault) : ¬ Succeeds (fail fault : Render Unit) := by
  rintro ⟨r, r', h⟩
  have hstop : (none : Option Unit) = some () := congrArg Prod.fst h
  exact absurd hstop (by decide)

/-! ## Values -/

/-- Each part of a value that is written can be one. -/
theorem isValuePart_of_succeeds {owner : Label} {wrote : Bool} {parts : List Label}
    (h : Succeeds (value owner wrote parts)) : ∀ part ∈ parts, part.isValuePart := by
  induction parts generalizing wrote with
  | nil => simp
  | cons part parts ih =>
    rw [List.forall_mem_cons]
    rw [value] at h
    cases hk : part.kind with
    | markup =>
      simp only [hk] at h
      exact ⟨by rw [Label.isValuePart, hk], ih h.of_bind.2.of_bind.2⟩
    | embedded form code =>
      refine ⟨by rw [Label.isValuePart, hk], ?_⟩
      cases form with
      | codeBlock =>
        simp only [hk] at h
        exact ih h.of_bind.2
      | _ =>
        -- The sign before the part, the two brackets and the code.
        simp only [hk] at h
        exact ih h.of_bind.2.of_bind.2.of_bind.2.of_bind.2
    | _ =>
      simp only [hk] at h
      exact absurd h.of_bind.2 (not_succeeds_fail _)

theorem isValuePart_of_succeeds_attributeCall {owner : Label} {parts : List Label}
    (h : Succeeds (attributeCall owner parts)) : ∀ part ∈ parts, part.isValuePart :=
  isValuePart_of_succeeds h.of_bind.2.of_bind.2.of_bind.2.of_bind.1

theorem writableParameters_of_succeeds (h : Succeeds (parameters f)) : f.WritableParameters := by
  induction f with
  | nil => trivial
  | cons id label children siblings _ ih =>
    rw [parameters] at h
    by_cases hk : label.kind = .constructAttribute
    · rw [if_pos hk] at h
      obtain ⟨hcall, hsiblings⟩ := h.of_bind
      exact ⟨fun _ => isValuePart_of_succeeds_attributeCall hcall, ih hsiblings⟩
    · rw [if_neg hk] at h
      exact ⟨fun hk' => absurd hk' hk, ih (by simpa using h)⟩

/-! ## Forests -/

section

variable
  (hcontent : ∀ inElement, Succeeds (forest inElement children) → children.Writable inElement)
  (hbody : ∀ (component : NodeId) (name : Bytes), Succeeds (body component name children) →
    children.WritableBody)
include hcontent hbody

/-- A node that is counted is content, and what is under it is written in turn. -/
theorem writable_of_succeeds_contentCalls (hcounted : isCounted label = true)
    (h : Succeeds (contentCalls id label children)) :
    (Forest.cons id label children .nil).Writable inElement := by
  refine ⟨?_, trivial⟩
  unfold isCounted at hcounted
  unfold contentCalls at h
  cases hk : label.kind with
  | markup | embedded form code => trivial
  | element =>
    simp only [hk] at h
    obtain ⟨hchildren, -⟩ := h.of_bind.2.of_bind.2.of_bind
    exact hcontent true hchildren
  | construct =>
    simp only [hk] at h
    obtain ⟨hparameters, h⟩ := h.of_bind.2.of_bind.2.of_bind
    obtain ⟨hchildren, -⟩ := h.of_bind
    exact ⟨writableParameters_of_succeeds hparameters, hbody id label.name hchildren⟩
  | _ => simp [hk] at hcounted

theorem writable_cons (hsiblings : Succeeds (forest inElement siblings) →
      siblings.Writable inElement)
    (h : Succeeds (forest inElement (.cons id label children siblings))) :
    (Forest.cons id label children siblings).Writable inElement := by
  by_cases hcounted : isCounted label = true
  · rw [forest_cons_counted hcounted] at h
    obtain ⟨hnode, hrest⟩ := h.of_bind.2.of_bind
    exact ⟨(writable_of_succeeds_contentCalls hcontent hbody hcounted hnode).1, hsiblings hrest⟩
  · -- What is not counted is a directive, or an attribute of an element; all else is refused.
    unfold isCounted at hcounted
    cases hk : label.kind with
    | embedded form code =>
      cases form with
      | directive =>
        rw [forest_cons_directive hk] at h
        exact ⟨by rw [hk]; trivial, hsiblings h⟩
      | _ => simp [hk] at hcounted
    | «attribute» =>
      rw [forest, hk] at h
      cases inElement with
      | false => exact absurd h.of_bind.1 (not_succeeds_fail _)
      | true =>
        obtain ⟨hcall, hrest⟩ := h.of_bind
        exact ⟨by rw [hk]; exact ⟨rfl, isValuePart_of_succeeds_attributeCall hcall⟩,
          hsiblings hrest⟩
    | markup | element | construct => simp [hk] at hcounted
    | _ =>
      rw [forest, hk] at h
      exact absurd h.of_bind.1 (not_succeeds_fail _)

end

theorem writableBody_cons
    (hcontent : Succeeds (forest false children) → children.Writable false)
    (hsiblings : ∀ (component : NodeId) (name : Bytes), Succeeds (body component name siblings) →
      siblings.WritableBody) {component : NodeId} {name : Bytes}
    (h : Succeeds (body component name (.cons id label children siblings))) :
    (Forest.cons id label children siblings).WritableBody := by
  rw [body] at h
  rw [Forest.WritableBody]
  split at h
  · next hk => exact if_pos hk ▸ hcontent h
  · next hk => exact if_neg hk ▸ hsiblings component name h

/-- A forest that is written as content, or under a component, can be written there. -/
theorem writable_of_succeeds (f : Forest) :
    (∀ inElement, Succeeds (forest inElement f) → f.Writable inElement) ∧
      ∀ (component : NodeId) (name : Bytes), Succeeds (body component name f) →
        f.WritableBody := by
  induction f with
  | nil =>
    refine ⟨fun _ _ => trivial, fun component name h => ?_⟩
    rw [body] at h
    exact not_succeeds_fail _ h
  | cons id label children siblings ihc ihs =>
    constructor
    · intro inElement h
      exact writable_cons ihc.1 ihc.2 (ihs.1 inElement) h
    · intro component name h
      exact writableBody_cons (ihc.1 false) ihs.2 h

end Render

/-! ## Documents -/

/-- A document that is written can be written. -/
theorem Renderer.writable_of_written {target : Bytes} {d : Document}
    (h : ((start target).write d).1 = true) : (d.forestBelow Document.root).Writable false := by
  obtain ⟨hwritten, -⟩ := (Bool.and_eq_true _ _).mp h
  obtain ⟨u, hu⟩ := Option.isSome_iff_exists.1 hwritten
  have hsteps : Render.Succeeds (do
      Render.forest false (d.forestBelow Document.root)
      Render.request .finish) := ⟨start target, _, Prod.ext hu rfl⟩
  exact (Render.writable_of_succeeds _).1 false hsteps.of_bind.1

/-- What is written of an acyclic document is the program of the whole tree below its root, for the
first target and from the outermost level on. In the end no scope and no closure is open. -/
theorem Renderer.output_of_written (target : Bytes) {d : Document} (hacyclic : d.Acyclic)
    (hwritten : ((start target).write d).1 = true) :
    let f := d.forestBelow Document.root
    let r := ((start target).write d).2
    (d.Exhibits f ∧ f.roots = d.children Document.root) ∧
      r.output = (f.program 1 0).flatMap (Line.text target) ∧
      r.emission.openClosures = [] ∧ r.scopes.frames = [] := by
  have hwritable := writable_of_written hwritten
  obtain ⟨closures, children, hwrite⟩ := write_eq_emit target hwritable
  refine ⟨hacyclic.exhibits_forestBelow d.size_pos, (write_of_writable target hwritable).2.2.1, ?_⟩
  rw [hwrite]
  exact ⟨rfl, rfl⟩

/-- A component with an attribute and with content, in which an element holds another component; and
a component without content, whose only child is a directive that both have. -/
def nestedContent : Document :=
  ⟨#[{ kind := .document, children := [1, 9] },
    { kind := .construct, name := utf8 "Card", children := [2, 4] },
    { kind := .constructAttribute, name := utf8 "title", children := [3] },
    { kind := .embedded .expression (utf8 "t") },
    { kind := .constructBody, children := [11, 5] },
    { kind := .element, name := utf8 "p", children := [6] },
    { kind := .construct, name := utf8 "Item", children := [7] },
    { kind := .constructBody, children := [8] },
    { kind := .markup, fragments := [utf8 "a"] },
    { kind := .construct, name := utf8 "Rule", children := [10] },
    { kind := .constructBody, children := [11] },
    { kind := .embedded .directive (utf8 "using x") }], by decide⟩

theorem nestedContent_written :
    nestedContent.Acyclic ∧ ((Renderer.start (utf8 "b")).write nestedContent).1 = true ∧
      ((Renderer.start (utf8 "b")).write nestedContent).2.output =
        [utf8 "b.openComponent(\"Card\");",
          utf8 "b.addAttribute(\"title\", (t));",
          utf8 "b.addAttribute(\"ChildContent\", [&](RenderTreeBuilder& b2) \x7b",
          utf8 "    b2.openElement(\"p\");",
          utf8 "    b2.openComponent(\"Item\");",
          utf8 "    b2.addAttribute(\"ChildContent\", [&](RenderTreeBuilder& b3) \x7b",
          utf8 "        b3.addContent(\"a\");",
          utf8 "    \x7d);",
          utf8 "    b2.closeComponent();",
          utf8 "    b2.closeElement();",
          utf8 "\x7d);",
          utf8 "b.closeComponent();",
          utf8 "b.openComponent(\"Rule\");",
          utf8 "b.closeComponent();"].flatMap (· ++ [Byte.lineFeed]) := by
  have hacyclic : nestedContent.Acyclic := ⟨fun id => nestedContent.size - id, by decide⟩
  have hwritten : ((Renderer.start (utf8 "b")).write nestedContent).1 = true := by decide +kernel
  obtain ⟨-, houtput, -⟩ := Renderer.output_of_written (utf8 "b") hacyclic hwritten
  exact ⟨hacyclic, hwritten, houtput.trans (by decide +kernel)⟩

end MarkupTemplate
