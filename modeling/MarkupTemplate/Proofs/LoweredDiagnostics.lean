import MarkupTemplate.Proofs.Lowering
import MarkupTemplate.Structuring.Document

/-!
# What lowering does to diagnostics

The element for an orphan says what was wrong with the orphan, and an attribute of it what was
wrong with the attribute of the orphan. Of the body only the content is taken over: what was wrong
with the body itself is not said any more. Nothing else is lost, and nothing is said twice.

## Main definitions

* `Forest.leftOut`: the diagnostics that an element does not take over from the children of an
  orphan
* `Forest.lost`: the diagnostics that are lost when a forest is lowered

## Main results

* `Forest.count_diagnostics_lowered`: a forest has the diagnostics of the lowered forest and those
  that are lost
* `Document.perm_diagnostics_lowered`: so has a document
* `Document.strayEndTag_lowered`: an unexpected end tag in a construct is lost
-/

namespace MarkupTemplate

namespace Forest

variable {components : Components} {n : Nat}

/-- The diagnostics on all bodies among the children of an orphan and under them. -/
def bodyDiagnostics : Forest → List Diagnostic
  | nil => []
  | cons _ label children siblings =>
    (if label.kind = .constructBody then label.diagnostics ++ children.diagnostics else []) ++
      siblings.bodyDiagnostics

/-- The diagnostics among the children of an orphan that the element does not take over: those on
the body, whose content comes under the element, and all of any further body. -/
def leftOut : Forest → List Diagnostic
  | nil => []
  | cons _ label _ siblings =>
    if label.kind = .constructBody then label.diagnostics ++ siblings.bodyDiagnostics
    else siblings.leftOut

/-- The diagnostics that are lost when a forest is lowered, inner ones before outer ones. -/
def lost (components : Components) (n : Nat) : Forest → List Diagnostic
  | nil => []
  | cons _ label children siblings =>
    children.lost components n ++
      ((if label.isOrphan components then (children.lowered components n).leftOut else []) ++
        siblings.lost components n)

theorem diagnostics_capped (f : Forest) : (f.capped n).diagnostics = f.diagnostics := by
  induction f with
  | nil => rfl
  | cons id label children siblings ihc ihs => rw [capped, diagnostics, ihc, ihs, diagnostics]

theorem diagnostics_withAttributes (f : Forest) :
    (f.withAttributes n).diagnostics = f.diagnostics := by
  induction f with
  | nil => rfl
  | cons id label children siblings _ ih =>
    rw [withAttributes]
    split <;> simp [diagnostics, ih, Label.asAttribute]

/-- Every diagnostic is on a body or under it, or on another child or under it. -/
theorem count_diagnostics_withoutBodies (f : Forest) (g : Diagnostic) :
    f.withoutBodies.diagnostics.count g + f.bodyDiagnostics.count g = f.diagnostics.count g := by
  induction f with
  | nil => rfl
  | cons id label children siblings _ ih =>
    rw [withoutBodies, bodyDiagnostics, List.count_append]
    split <;> simp only [diagnostics, List.count_append, List.count_nil] <;> omega

/-- The element takes over all diagnostics but those that are left out. -/
theorem count_diagnostics_bodyContent (f : Forest) (g : Diagnostic) :
    f.withoutBodies.diagnostics.count g + f.bodyContent.diagnostics.count g + f.leftOut.count g =
      f.diagnostics.count g := by
  induction f with
  | nil => rfl
  | cons id label children siblings _ ih =>
    have hsiblings := siblings.count_diagnostics_withoutBodies g
    rw [withoutBodies, bodyContent, leftOut]
    split <;> simp only [diagnostics, List.count_append] <;> omega

/-- A forest has the diagnostics of the lowered forest and those that are lost. -/
theorem count_diagnostics_lowered (components : Components) (n : Nat) (f : Forest)
    (g : Diagnostic) :
    (f.lowered components n).diagnostics.count g + (f.lost components n).count g =
      f.diagnostics.count g := by
  induction f with
  | nil => rfl
  | cons id label children siblings ihc ihs =>
    have helement := (children.lowered components n).count_diagnostics_bodyContent g
    rw [lowered, lost]
    split
    · simp only [diagnostics, diagnostics_append, diagnostics_withAttributes, Label.asElement,
        List.count_append]
      omega
    · simp only [diagnostics, List.count_append, List.count_nil]
      omega

end Forest

namespace Document

variable {d : Document} {components : Components}

/-- When a tree is lowered without a fault, what is lost is what was said of the bodies of orphans
and under further bodies. All other diagnostics are still there, each as often as before. -/
theorem perm_diagnostics_lowered (h : d.IsTree) (hok : (d.lowered components).ok) :
    d.diagnostics.Perm ((d.lowered components).document.diagnostics ++
      (d.forestBelow root).lost components d.size) := by
  obtain ⟨-, -, htree⟩ := h.lowered (h.bodied_of_ok hok)
  have hlowered : (d.lowered components).document.diagnostics =
      (d.label root).diagnostics ++
        ((d.forestBelow root).lowered components d.size).diagnostics := by
    rw [Document.diagnostics, ← Forest.diagnostics_capped (n := d.size), htree]
    simp [Forest.diagnostics]
  rw [hlowered, Document.diagnostics, h.tree_eq, List.perm_iff_count]
  intro g
  have hcount := (d.forestBelow root).count_diagnostics_lowered components d.size g
  simp only [Forest.diagnostics, List.count_append, List.count_nil]
  omega

/-- A construct that stands for no component, with an unexpected end tag in its body. -/
def strayEndTag : Document :=
  ⟨#[{ kind := .document, children := [1] },
    { kind := .construct, name := utf8 "p", children := [2] },
    { kind := .constructBody, children := [3] },
    { kind := .markup, fragments := [utf8 "</b>"] }], by decide⟩

theorem strayEndTag_perm :
    strayEndTag.structured.document.IsTree ∧ (strayEndTag.structured.document.lowered []).ok ∧
      strayEndTag.structured.document.diagnostics.Perm
        ((strayEndTag.structured.document.lowered []).document.diagnostics ++
          [.unexpectedClosingTag (utf8 "b") none]) := by
  have hverify : strayEndTag.structured.document.verify := by decide +kernel
  have hok : (strayEndTag.structured.document.lowered []).ok := by decide +kernel
  have htree := (isTree_of_verify hverify).1
  refine ⟨htree, hok, (perm_diagnostics_lowered htree hok).trans (.of_eq ?_)⟩
  congr 1
  decide +kernel

/-- Structuring reports the end tag on the body, and after lowering nothing is reported any more. -/
theorem strayEndTag_lowered :
    strayEndTag.structured.ok ∧ strayEndTag.structured.document.verify ∧
      strayEndTag.structured.document.diagnostics =
        [.unexpectedClosingTag (utf8 "b") none] ∧
      (strayEndTag.structured.document.lowered []).ok ∧
      (strayEndTag.structured.document.lowered []).document.diagnostics = [] := by
  decide +kernel

end Document

end MarkupTemplate
