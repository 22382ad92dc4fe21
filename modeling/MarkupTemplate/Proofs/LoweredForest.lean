import MarkupTemplate.Document.Components
import MarkupTemplate.Proofs.Shape

/-!
# Lowered forests

On a tree, lowering is one recursion: first the children of a node are lowered, and then the node
itself if it is an orphan.

## Main definitions

* `Forest.lowered`: the lowered forest
* `Forest.capped`: a forest in which the nodes that were added are not told apart
* `Forest.Bodied`: every orphan has a body

## Main results

* `Forest.mem_rootKinds_lowered`: lowering the children of an orphan leaves its body there
* `Forest.count_orphans_le`: no orphan is listed more often than it is met
-/

namespace MarkupTemplate

/-- What the element for an orphan says. -/
def Label.asElement (l : Label) : Label :=
  { kind := .element, name := l.name, span := l.span, diagnostics := l.diagnostics }

/-- What the attribute of an element says that comes from the attribute of an orphan. -/
def Label.asAttribute (l : Label) : Label :=
  { kind := .attribute, name := l.name, span := l.span, diagnostics := l.diagnostics }

theorem Label.kind_of_isOrphan {components : Components} {l : Label}
    (h : l.isOrphan components) : l.kind = .construct := by
  simp only [isOrphan, Bool.and_eq_true, beq_iff_eq] at h
  exact h.1

namespace Forest

variable {components : Components} {n : Nat}

/-- The forest with one number for all nodes from the number `n` on. -/
def capped (n : Nat) : Forest → Forest
  | nil => nil
  | cons id label children siblings =>
    cons (min id n) label (children.capped n) (siblings.capped n)

/-- The children of an orphan that are no bodies. -/
def withoutBodies : Forest → Forest
  | nil => nil
  | cons id label children siblings =>
    if label.kind = .constructBody then siblings.withoutBodies
    else cons id label children siblings.withoutBodies

/-- The content of the first body. -/
def bodyContent : Forest → Forest
  | nil => nil
  | cons _ label children siblings =>
    if label.kind = .constructBody then children else siblings.bodyContent

/-- The attributes of an orphan become attributes of an element: the parts of the value go under a
node for the value. -/
def withAttributes (n : Nat) : Forest → Forest
  | nil => nil
  | cons id label children siblings =>
    if label.kind = .constructAttribute then
      cons n label.asAttribute (cons n { kind := .attributeValue } children nil)
        (siblings.withAttributes n)
    else cons id label children (siblings.withAttributes n)

/-- The forest with all orphans lowered, inner ones before outer ones. The nodes that come with it
have the number `n`. -/
def lowered (components : Components) (n : Nat) : Forest → Forest
  | nil => nil
  | cons id label children siblings =>
    let below := children.lowered components n
    if label.isOrphan components then
      cons n label.asElement (below.withoutBodies.withAttributes n ++ below.bodyContent)
        (siblings.lowered components n)
    else cons id label below (siblings.lowered components n)

/-- Every orphan has a body. -/
def Bodied (components : Components) : Forest → Prop
  | nil => True
  | cons _ label children siblings =>
    (label.isOrphan components → .constructBody ∈ children.rootKinds) ∧
      children.Bodied components ∧ siblings.Bodied components

theorem capped_append (f g : Forest) : (f ++ g).capped n = f.capped n ++ g.capped n := by
  induction f with
  | nil => rfl
  | cons id label children siblings _ ih => simp only [cons_append, capped, ih]

theorem rootKinds_capped (f : Forest) : (f.capped n).rootKinds = f.rootKinds := by
  induction f with
  | nil => rfl
  | cons id label children siblings _ ih => rw [capped, rootKinds, ih, rootKinds]

theorem withoutBodies_capped (f : Forest) :
    (f.capped n).withoutBodies = f.withoutBodies.capped n := by
  induction f with
  | nil => rfl
  | cons id label children siblings _ ih =>
    simp only [capped, withoutBodies, ih]
    split <;> rfl

theorem bodyContent_capped (f : Forest) : (f.capped n).bodyContent = f.bodyContent.capped n := by
  induction f with
  | nil => rfl
  | cons id label children siblings _ ih =>
    simp only [capped, bodyContent, ih]
    split <;> rfl

theorem withAttributes_append (f g : Forest) :
    (f ++ g).withAttributes n = f.withAttributes n ++ g.withAttributes n := by
  induction f with
  | nil => rfl
  | cons id label children siblings _ ih =>
    simp only [cons_append, withAttributes, ih]
    split <;> rfl

theorem mem_rootKinds_lowered (f : Forest) :
    .constructBody ∈ (f.lowered components n).rootKinds ↔ .constructBody ∈ f.rootKinds := by
  induction f with
  | nil => rfl
  | cons id label children siblings _ ih =>
    by_cases horphan : label.isOrphan components = true
    · have hkind := Label.kind_of_isOrphan horphan
      simp [lowered, horphan, rootKinds, ih, hkind, Label.asElement]
    · simp [lowered, horphan, rootKinds, ih]

/-- Among the nodes under an orphan those of its body are not those of its other children. -/
theorem count_withoutBodies_add_count_bodyContent_le (f : Forest) (id : NodeId) :
    f.withoutBodies.preorder.count id + f.bodyContent.preorder.count id ≤ f.preorder.count id := by
  induction f with
  | nil => exact Nat.le_refl 0
  | cons id' label children siblings _ ih =>
    simp only [withoutBodies, bodyContent]
    split <;> simp only [preorder, List.count_cons, List.count_append] <;> omega

theorem mem_of_mem_withoutBodies {f : Forest} {id : NodeId} (h : id ∈ f.withoutBodies.preorder) :
    id ∈ f.preorder := by
  have hle := f.count_withoutBodies_add_count_bodyContent_le id
  have hpos := List.count_pos_iff.2 h
  exact List.count_pos_iff.1 (by omega)

theorem mem_of_mem_bodyContent {f : Forest} {id : NodeId} (h : id ∈ f.bodyContent.preorder) :
    id ∈ f.preorder := by
  have hle := f.count_withoutBodies_add_count_bodyContent_le id
  have hpos := List.count_pos_iff.2 h
  exact List.count_pos_iff.1 (by omega)

/-- Orphans are nodes, and none is listed more often than it is met. -/
theorem count_orphans_le (components : Components) (f : Forest) (parent id : NodeId) :
    ((f.orphans components parent).map Orphan.node).count id ≤ f.preorder.count id := by
  induction f generalizing parent with
  | nil => exact Nat.le_refl 0
  | cons id' label children siblings ihc ihs =>
    have hc := ihc id'
    have hs := ihs parent
    simp only [orphans, preorder, List.map_append, List.count_append, List.count_cons]
    split
    · simp only [List.map_cons, List.map_nil, List.count_cons, List.count_nil]
      omega
    · simp only [List.map_nil, List.count_nil]
      omega

end Forest

end MarkupTemplate
