import MarkupTemplate.Proofs.Lowering

/-!
# What lowering does to nodes

The element for an orphan stands for the orphan, for its attributes and for its body. All that the
attributes and the body hold comes under the element, and so do the other children. An orphan has
one body; if it has more, the element takes over the content of the first one, and all that is under
the others is no longer reached.

## Main definitions

* `Forest.setAside`, `Forest.furtherContent`: what an element does not take over from the children
  of an orphan
* `Forest.dropped`: the nodes that are no longer there when a forest is lowered
* `Document.LeavesBehind`: the nodes that an orphan leaves behind

## Main results

* `Forest.count_preorder_lowered`: a forest has the nodes of the lowered forest and those that are
  dropped
* `Document.mem_dropped_iff`: what is dropped is what the orphans leave behind
* `Document.count_tree_lowered`: every other node of a tree is reached once afterwards
* `Document.secondBody_lowered`: what is in a second body is lost
-/

namespace MarkupTemplate

namespace Forest

variable {components : Components} {n : Nat}

/-! ## Nodes of a lowered forest -/

/-- The children of an orphan that do not come under the element: its bodies and its attributes. -/
def setAside : Forest → List NodeId
  | nil => []
  | cons id label _ siblings =>
    if label.kind = .constructBody ∨ label.kind = .constructAttribute then id :: siblings.setAside
    else siblings.setAside

/-- The content of all bodies. -/
def allContent : Forest → Forest
  | nil => nil
  | cons _ label children siblings =>
    if label.kind = .constructBody then children ++ siblings.allContent else siblings.allContent

/-- The content of all bodies but the first. -/
def furtherContent : Forest → Forest
  | nil => nil
  | cons _ label _ siblings =>
    if label.kind = .constructBody then siblings.allContent else siblings.furtherContent

/-- The nodes that are no longer there when a forest is lowered, inner ones before outer ones. -/
def dropped (components : Components) (n : Nat) : Forest → List NodeId
  | nil => []
  | cons id label children siblings =>
    children.dropped components n ++
      ((if label.isOrphan components then
          id :: (children.setAside ++ (children.furtherContent.lowered components n).preorder)
        else []) ++
        siblings.dropped components n)

theorem lowered_append (f g : Forest) :
    (f ++ g).lowered components n = f.lowered components n ++ g.lowered components n := by
  induction f with
  | nil => rfl
  | cons id label children siblings _ ih =>
    rw [cons_append, lowered, lowered, ih]
    split <;> rfl

theorem dropped_append (f g : Forest) :
    (f ++ g).dropped components n = f.dropped components n ++ g.dropped components n := by
  induction f with
  | nil => rfl
  | cons id label children siblings _ ih =>
    rw [cons_append, dropped, dropped, ih, List.append_assoc, List.append_assoc]

/-- No orphan is a body or an attribute, and neither is the element that takes its place. -/
theorem setAside_lowered (f : Forest) : (f.lowered components n).setAside = f.setAside := by
  induction f with
  | nil => rfl
  | cons id label children siblings _ ih =>
    by_cases horphan : label.isOrphan components = true
    · simp [lowered, horphan, setAside, ih, Label.kind_of_isOrphan horphan, Label.asElement]
    · simp [lowered, horphan, setAside, ih]

theorem allContent_lowered (f : Forest) :
    (f.lowered components n).allContent = f.allContent.lowered components n := by
  induction f with
  | nil => rfl
  | cons id label children siblings _ ih =>
    by_cases horphan : label.isOrphan components = true
    · simp [lowered, horphan, allContent, ih, Label.kind_of_isOrphan horphan, Label.asElement]
    · rw [lowered, if_neg horphan, allContent, allContent, ih]
      split
      · rw [lowered_append]
      · rfl

theorem furtherContent_lowered (f : Forest) :
    (f.lowered components n).furtherContent = f.furtherContent.lowered components n := by
  induction f with
  | nil => rfl
  | cons id label children siblings _ ih =>
    by_cases horphan : label.isOrphan components = true
    · simp [lowered, horphan, furtherContent, ih, Label.kind_of_isOrphan horphan, Label.asElement]
    · rw [lowered, if_neg horphan, furtherContent, furtherContent, ih, allContent_lowered]
      split <;> rfl

variable {i : NodeId}

theorem count_preorder_capped (hi : i < n) (f : Forest) :
    (f.capped n).preorder.count i = f.preorder.count i := by
  induction f with
  | nil => rfl
  | cons id label children siblings ihc ihs =>
    have hmin : min id n = i ↔ id = i := by grind
    simp only [capped, preorder, List.count_cons, List.count_append, ihc, ihs, beq_iff_eq, hmin]

/-- A child that is set aside stands for what it holds: that comes under the element in its place,
but for the content of bodies. -/
theorem count_withoutBodies (hi : i < n) (f : Forest) :
    (f.withoutBodies.withAttributes n).preorder.count i + f.setAside.count i +
      f.allContent.preorder.count i = f.preorder.count i := by
  have hne : (n == i) = false := by simpa using Nat.ne_of_gt hi
  induction f with
  | nil => rfl
  | cons id label children siblings _ ih =>
    by_cases hbody : label.kind = .constructBody
    · simp only [withoutBodies, setAside, allContent, hbody, if_true, true_or, preorder,
        preorder_append, List.count_cons, List.count_append]
      omega
    · by_cases hattribute : label.kind = .constructAttribute
      · simp only [withoutBodies, withAttributes, setAside, allContent, hattribute, if_true,
          or_true, preorder, List.count_cons, List.count_append, List.count_nil, hne,
          reduceCtorEq, if_false, Bool.false_eq_true]
        omega
      · simp only [withoutBodies, withAttributes, setAside, allContent, hbody, hattribute,
          or_self, if_false, preorder, List.count_cons, List.count_append]
        omega

theorem count_allContent (f : Forest) :
    f.allContent.preorder.count i =
      f.bodyContent.preorder.count i + f.furtherContent.preorder.count i := by
  induction f with
  | nil => rfl
  | cons id label children siblings _ ih =>
    rw [allContent, bodyContent, furtherContent]
    split
    · rw [preorder_append, List.count_append]
    · exact ih

/-- A forest has the nodes of the lowered forest and those that are dropped. -/
theorem count_preorder_lowered (components : Components) (hi : i < n) (f : Forest) :
    (f.lowered components n).preorder.count i + (f.dropped components n).count i =
      f.preorder.count i := by
  have hne : (n == i) = false := by simpa using Nat.ne_of_gt hi
  induction f with
  | nil => rfl
  | cons id label children siblings ihc ihs =>
    rw [lowered, dropped]
    by_cases horphan : label.isOrphan components = true
    · have hwithout := (children.lowered components n).count_withoutBodies hi
      have hcontent := (children.lowered components n).count_allContent (i := i)
      rw [setAside_lowered] at hwithout
      rw [furtherContent_lowered] at hcontent
      simp only [horphan, if_true, preorder, preorder_append, List.count_cons, List.count_append,
        hne, if_false, Bool.false_eq_true]
      omega
    · simp only [horphan, if_false, preorder, List.count_cons, List.count_append, List.count_nil,
        Bool.false_eq_true]
      omega

/-- What is dropped from the content of bodies is dropped. -/
theorem dropped_allContent_subset (components : Components) (n : Nat) (f : Forest) :
    f.allContent.dropped components n ⊆ f.dropped components n := by
  induction f with
  | nil => exact List.Subset.refl _
  | cons id label children siblings _ ih =>
    rw [allContent, dropped]
    split
    · rw [dropped_append]
      intro i hi
      simp only [List.mem_append] at hi ⊢
      exact hi.imp_right fun hi => .inr (ih hi)
    · intro i hi
      simp only [List.mem_append]
      exact .inr (.inr (ih hi))

theorem dropped_furtherContent_subset (components : Components) (n : Nat) (f : Forest) :
    f.furtherContent.dropped components n ⊆ f.dropped components n := by
  induction f with
  | nil => exact List.Subset.refl _
  | cons id label children siblings _ ih =>
    rw [furtherContent, dropped]
    intro i hi
    simp only [List.mem_append]
    refine .inr (.inr ?_)
    split at hi
    · exact dropped_allContent_subset components n siblings hi
    · exact ih hi

/-- All that is in further bodies is dropped, as a part of them or on its own. -/
theorem mem_furtherContent_or (components : Components) (hi : i < n) (f : Forest) :
    i ∈ f.furtherContent.preorder ∨ i ∈ f.dropped components n ↔
      i ∈ (f.furtherContent.lowered components n).preorder ∨ i ∈ f.dropped components n := by
  have hcount := f.furtherContent.count_preorder_lowered components hi
  have hsubset : i ∈ f.furtherContent.dropped components n → i ∈ f.dropped components n :=
    fun hmem => f.dropped_furtherContent_subset components n hmem
  simp only [← List.count_pos_iff] at hsubset ⊢
  omega

end Forest

namespace Document

variable {d : Document} {f : Forest} {components : Components} {n : Nat} {id : NodeId}

/-! ## What orphans leave behind -/

/-- An orphan leaves a node behind: itself, its bodies and its attributes, and all that is under a
body that is not its first one. -/
def LeavesBehind (d : Document) (orphan id : NodeId) : Prop :=
  id = orphan ∨
    (id ∈ d.children orphan ∧ (d.kind id = .constructBody ∨ d.kind id = .constructAttribute)) ∨
    ∃ body ∈ d.children orphan, d.kind body = .constructBody ∧ d.bodyOf? orphan ≠ some body ∧
      id ∈ (d.forestBelow body).preorder

instance (d : Document) (orphan id : NodeId) : Decidable (d.LeavesBehind orphan id) :=
  inferInstanceAs (Decidable (_ ∨ _ ∨ _))

theorem mem_setAside_iff (hf : d.Exhibits f) :
    id ∈ f.setAside ↔
      id ∈ f.roots ∧ (d.kind id = .constructBody ∨ d.kind id = .constructAttribute) := by
  induction f with
  | nil => simp [Forest.setAside, Forest.roots]
  | cons i label children siblings _ ih =>
    have hkind : d.kind i = label.kind := congrArg Label.kind hf.1.1
    have ih := ih hf.2.2
    rw [Forest.setAside, Forest.roots, List.mem_cons, ← hkind]
    by_cases he : id = i
    · subst he
      split <;> simp_all
    · split <;> simp_all

theorem mem_allContent_iff (hf : d.Occurs f) :
    id ∈ f.allContent.preorder ↔
      ∃ body ∈ f.roots, d.kind body = .constructBody ∧ id ∈ (d.forestBelow body).preorder := by
  induction f with
  | nil => simp [Forest.allContent, Forest.roots, Forest.preorder]
  | cons i label children siblings _ ih =>
    have hkind : d.kind i = label.kind := congrArg Label.kind hf.exhibits.1.1
    have hbelow : d.forestBelow i = children := hf.down.forestBelow_eq hf.exhibits.1.2
    simp only [Forest.roots, Forest.allContent, List.mem_cons, or_and_right, exists_or,
      exists_eq_left, ← ih hf.next, hbelow, hkind]
    split <;> simp_all

/-- All bodies but the first hold the further content. -/
theorem mem_furtherContent_iff (hf : d.Occurs f) :
    id ∈ f.furtherContent.preorder ↔
      ∃ body ∈ f.roots, d.kind body = .constructBody ∧
        f.roots.find? (d.kind · == .constructBody) ≠ some body ∧
        id ∈ (d.forestBelow body).preorder := by
  induction f with
  | nil => simp [Forest.furtherContent, Forest.roots, Forest.preorder]
  | cons i label children siblings _ ih =>
    have hkind : d.kind i = label.kind := congrArg Label.kind hf.exhibits.1.1
    have ih := ih hf.next
    simp only [Forest.roots, Forest.furtherContent, List.find?_cons, List.mem_cons, or_and_right,
      exists_or, exists_eq_left, hkind]
    by_cases hbody : label.kind = .constructBody
    · -- This is the first body, and no later root is the same node.
      have hne : ∀ j ∈ siblings.roots, some i ≠ some j := fun j hj he =>
        hf.notMem_next (Option.some.inj he ▸ Forest.mem_preorder_of_mem_roots hj)
      rw [if_pos hbody, mem_allContent_iff hf.next]
      simp only [hbody, BEq.rfl, ne_eq, not_true_eq_false, false_and, and_false, false_or]
      refine exists_congr fun j => and_congr_right fun hj => ?_
      simp [hne j hj]
    · have hother : (label.kind == .constructBody) = false := by simpa using hbody
      simp [ih, hbody, hother]

/-- What is dropped is what the orphans leave behind. -/
theorem mem_dropped_iff (components : Components) (hid : id < n) (hf : d.Occurs f)
    (parent : NodeId) :
    id ∈ f.dropped components n ↔
      ∃ orphan ∈ f.orphans components parent, d.LeavesBehind orphan.node id := by
  induction f generalizing parent with
  | nil => simp [Forest.dropped, Forest.orphans]
  | cons i label children siblings ihc ihs =>
    have ihc := ihc hf.down i
    have ihs := ihs hf.next parent
    have hfurther := children.mem_furtherContent_or components hid
    have hleaves : d.LeavesBehind i id ↔
        id = i ∨ id ∈ children.setAside ∨ id ∈ children.furtherContent.preorder := by
      rw [LeavesBehind, bodyOf?, hf.exhibits.1.2, mem_setAside_iff hf.down.exhibits,
        mem_furtherContent_iff hf.down]
    simp only [Forest.dropped, Forest.orphans, List.mem_append, or_and_right, exists_or, ← ihc,
      ← ihs]
    by_cases horphan : label.isOrphan components = true
    · simp only [horphan, if_true, List.mem_cons, List.mem_append, List.not_mem_nil, or_false,
        exists_eq_left, hleaves]
      grind
    · simp only [horphan, if_false, List.not_mem_nil, false_or, false_and, exists_false,
        Bool.false_eq_true]

/-- When a tree is lowered without a fault, every node that no orphan leaves behind is reached once
afterwards. What an orphan leaves behind is not reached any more. -/
theorem count_tree_lowered (h : d.IsTree) (hok : (d.lowered components).ok)
    (hid : id ∈ d.tree.preorder) :
    (d.lowered components).document.tree.preorder.count id =
      if ∃ orphan ∈ d.orphans components, d.LeavesBehind orphan.node id then 0 else 1 := by
  have hlt := h.lt_size id hid
  obtain ⟨-, -, hlowered⟩ := h.lowered (h.bodied_of_ok hok)
  refine h.occurs.count_eq hid ?_ (mem_dropped_iff components hlt h.occurs_below root)
  have hcount := (d.forestBelow root).count_preorder_lowered components hlt
  rw [← Forest.count_preorder_capped hlt, hlowered, h.tree_eq]
  simp only [Forest.preorder, List.append_nil, List.count_cons]
  omega

/-- A construct with an attribute, two bodies and a child between them, with some markup under the
second body. -/
def secondBody : Document :=
  ⟨#[{ kind := .document, children := [1] },
    { kind := .construct, name := utf8 "p", children := [2, 3, 4, 5] },
    { kind := .constructAttribute, name := utf8 "id" },
    { kind := .constructBody, children := [6] },
    { kind := .element, name := utf8 "b" },
    { kind := .constructBody, children := [7] },
    { kind := .markup, fragments := [utf8 "x"] },
    { kind := .markup, fragments := [utf8 "y"] }], by decide⟩

theorem secondBody_count :
    secondBody.IsTree ∧ (secondBody.lowered []).ok ∧
      secondBody.tree.preorder = [0, 1, 2, 3, 6, 4, 5, 7] ∧
      secondBody.tree.preorder.map (secondBody.lowered []).document.tree.preorder.count =
        [1, 0, 0, 0, 1, 1, 0, 0] := by
  have htree : secondBody.IsTree := by decide +kernel
  have hok : (secondBody.lowered []).ok := by decide +kernel
  refine ⟨htree, hok, by decide +kernel, ?_⟩
  rw [List.map_congr_left fun id hid => count_tree_lowered htree hok hid]
  decide +kernel

/-- What is in a second body is lost, and nothing is reported. -/
theorem secondBody_lowered :
    secondBody.IsTree ∧ (secondBody.lowered []).ok ∧ 7 ∈ secondBody.tree.preorder ∧
      secondBody.kind 7 = .markup ∧
      7 ∉ (secondBody.lowered []).document.tree.preorder := by
  decide +kernel

end Document

end MarkupTemplate
