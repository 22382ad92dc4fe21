import MarkupTemplate.Proofs.Unfolding

/-!
# Reshaped trees

Structuring gives new children to nodes and adds nodes, but it never changes what an old node stands
for. Tree by tree, the roots stay, and every old node under them comes once at the most. So such
changes can be followed one after another: side by side, under a node and on top of each other.

## Main definitions

* `Document.Stands`, `Document.Formed`: a forest stands in a document, and its nodes have the
  children that their kinds demand
* `Document.Remakes`, `Document.Reshapes`: a change of a document that makes one forest of another,
  and one that makes a forest of nodes with the children that their kinds demand

## Main results

* `Document.Remakes.stands`, `Document.Reshapes.formed`: what a forest is made into stands in the
  document
* `Document.Remakes.trans`, `Document.Remakes.append`, `Document.Remakes.under`: changes on top of
  each other, side by side and under a node; `Document.Reshapes` has the same
* `Document.verify_of_formed`: a document is well-formed if its tree is
-/

namespace MarkupTemplate

namespace Document

variable {d d' d₁ d₂ : Document} {f f' g g' : Forest}

/-! ## Forests in a document -/

theorem shows_append : d.Shows (f ++ g) ↔ d.Shows f ∧ d.Shows g := by
  induction f with
  | nil => simp [Shows]
  | cons id label children siblings _ ih => simp only [Forest.cons_append, Shows, ih, and_assoc]

/-- A document that exhibits a forest shows it. -/
theorem Exhibits.shows (h : d.Exhibits f) : d.Shows f := by
  induction f with
  | nil => trivial
  | cons id label children siblings ihc ihs => exact ⟨h.1.2, ihc h.2.1, ihs h.2.2⟩

/-- Whether a document shows a forest depends on no other nodes. -/
theorem Shows.congr (h : d.Shows f) (hd : ∀ id ∈ f.preorder, d'.node id = d.node id) :
    d'.Shows f := by
  induction f with
  | nil => trivial
  | cons id label children siblings ihc ihs =>
    obtain ⟨hid, hchildren, hsiblings⟩ := h
    simp only [Forest.preorder, List.mem_cons, List.mem_append] at hd
    refine ⟨?_, ihc hchildren fun i hi => hd i (.inr (.inl hi)),
      ihs hsiblings fun i hi => hd i (.inr (.inr hi))⟩
    rw [children_eq_of_node_eq (hd id (.inl rfl)), hid]

/-- With a node the forest has its children. -/
theorem Shows.mem_of_mem_children (h : d.Shows f) {id c : NodeId} (hid : id ∈ f.preorder)
    (hc : c ∈ d.children id) : c ∈ f.preorder := by
  induction f with
  | nil => exact absurd hid List.not_mem_nil
  | cons i label children siblings ihc ihs =>
    obtain ⟨hi, hchildren, hsiblings⟩ := h
    simp only [Forest.preorder, List.mem_cons, List.mem_append] at hid ⊢
    rcases hid with rfl | hid | hid
    · exact .inr (.inl (Forest.mem_preorder_of_mem_roots (hi ▸ hc)))
    · exact .inr (.inl (ihc hchildren hid))
    · exact .inr (.inr (ihs hsiblings hid))

/-- What is demanded of a node depends on its kind, its name and the kinds of its children. -/
theorem wellShaped_congr {id : NodeId} (hkind : d'.kind id = d.kind id)
    (hname : (d'.label id).name = (d.label id).name) (hchildren : d'.children id = d.children id)
    (hkinds : ∀ c ∈ d.children id, d'.kind c = d.kind c) : d'.wellShaped id = d.wellShaped id := by
  rw [wellShaped, wellShaped, hkind, hname, hchildren, List.map_congr_left hkinds]

/-- A forest of distinct nodes stands in a document. -/
structure Stands (d : Document) (f : Forest) : Prop where
  shows : d.Shows f
  nodup : f.preorder.Nodup
  lt_size : ∀ id ∈ f.preorder, id < d.size

section

variable {id : NodeId} {label : Label} {below siblings : Forest}

namespace Stands

theorem of_sublist (h : d.Stands f) (hshows : d.Shows g)
    (hsub : g.preorder.Sublist f.preorder) : d.Stands g :=
  ⟨hshows, hsub.nodup h.nodup, fun i hi => h.lt_size i (hsub.subset hi)⟩

theorem down (h : d.Stands (.cons id label below siblings)) : d.Stands below :=
  h.of_sublist h.shows.2.1 ((List.sublist_append_left ..).cons _)

theorem head (h : d.Stands (.cons id label below siblings)) :
    d.Stands (.cons id label below .nil) := by
  refine h.of_sublist ⟨h.shows.1, h.shows.2.1, trivial⟩ ?_
  simp only [Forest.preorder, List.append_nil]
  exact (List.sublist_append_left ..).cons_cons _

theorem next (h : d.Stands (.cons id label below siblings)) : d.Stands siblings :=
  h.of_sublist h.shows.2.2 ((List.sublist_append_right ..).cons _)

/-- A node is apart from what is under it. -/
theorem notMem (h : d.Stands (.cons id label below siblings)) : id ∉ below.preorder := by
  have hnodup := h.head.nodup
  rw [Forest.preorder, Forest.preorder, List.append_nil] at hnodup
  exact (List.nodup_cons.1 hnodup).1

/-- A tree is apart from the trees after it. -/
theorem disjoint (h : d.Stands (.cons id label below siblings)) :
    ∀ i ∈ (Forest.cons id label below .nil).preorder, i ∉ siblings.preorder := by
  have hnodup := h.nodup
  rw [Forest.preorder, ← List.cons_append, List.nodup_append] at hnodup
  intro i hi hmem
  rw [Forest.preorder, Forest.preorder, List.append_nil] at hi
  exact hnodup.2.2 i hi i hmem rfl

/-- The forest still stands if its nodes are kept. -/
theorem congr (h : d.Stands f) (hsize : d.size ≤ d'.size)
    (hnode : ∀ i ∈ f.preorder, d'.node i = d.node i) : d'.Stands f where
  shows := h.shows.congr hnode
  nodup := h.nodup
  lt_size := fun i hi => Nat.lt_of_lt_of_le (h.lt_size i hi) hsize

/-- With the labels of the document the forest occurs in it. -/
theorem occurs (h : d.Stands f) : d.Occurs (f.relabel d.label) :=
  ⟨h.shows.exhibits, by simpa using h.nodup, by simpa using h.lt_size⟩

end Stands

/-- A forest stands in a document, with distinct nodes that have the children that their kinds
demand. -/
structure Formed (d : Document) (f : Forest) : Prop extends Stands d f where
  wellShaped : ∀ id ∈ f.preorder, d.wellShaped id

namespace Formed

theorem down (h : d.Formed (.cons id label below siblings)) : d.Formed below :=
  ⟨h.toStands.down, fun i hi =>
    h.wellShaped i (List.mem_cons_of_mem _ (List.mem_append_left _ hi))⟩

theorem head (h : d.Formed (.cons id label below siblings)) :
    d.Formed (.cons id label below .nil) := by
  refine ⟨h.toStands.head, fun i hi => h.wellShaped i ?_⟩
  simp only [Forest.preorder, List.append_nil, List.mem_cons, List.mem_append] at hi ⊢
  exact hi.imp_right .inl

theorem next (h : d.Formed (.cons id label below siblings)) : d.Formed siblings :=
  ⟨h.toStands.next, fun i hi =>
    h.wellShaped i (List.mem_cons_of_mem _ (List.mem_append_right _ hi))⟩

/-- The forest still stands if its nodes are kept and no kind changes. -/
theorem congr (h : d.Formed f) (hsize : d.size ≤ d'.size)
    (hnode : ∀ i ∈ f.preorder, d'.node i = d.node i)
    (hkind : ∀ i < d.size, d'.kind i = d.kind i) : d'.Formed f where
  toStands := h.toStands.congr hsize hnode
  wellShaped := by
    intro i hi
    have hlabel := label_eq_of_node_eq (hnode i hi)
    rw [wellShaped_congr (hkind i (h.lt_size i hi)) (by rw [hlabel])
      (children_eq_of_node_eq (hnode i hi))
      fun c hc => hkind c (h.lt_size c (h.shows.mem_of_mem_children hi hc))]
    exact h.wellShaped i hi

end Formed

end

/-! ## Changes of trees -/

/-- The document `d'` comes from `d` by making the forest `g` of the forest `f`. The roots stay, an
old node comes in `g` at most as often as in `f`, and all nodes outside of `f` are as they were. No
old node changes its kind or its name. -/
structure Remakes (d d' : Document) (f g : Forest) : Prop where
  size_le : d.size ≤ d'.size
  kind : ∀ id < d.size, d'.kind id = d.kind id
  name : ∀ id < d.size, (d'.label id).name = (d.label id).name
  kept : ∀ id < d.size, id ∉ f.preorder → d'.node id = d.node id
  roots : g.roots = f.roots
  shows : d'.Shows g
  count_le : ∀ id, g.preorder.count id ≤ f.preorder.count id + fresh d.size d'.size id

namespace Remakes

theorem refl (h : d.Stands f) : Remakes d d f f where
  size_le := Nat.le_refl _
  kind := fun _ _ => rfl
  name := fun _ _ => rfl
  kept := fun _ _ _ => rfl
  roots := rfl
  shows := h.shows
  count_le := fun _ => Nat.le_add_right _ _

theorem mem (h : Remakes d d' f g) {id : NodeId} (hid : id ∈ g.preorder) :
    id ∈ f.preorder ∨ (d.size ≤ id ∧ id < d'.size) :=
  mem_of_count_le h.count_le hid

/-- What a forest is made into stands in the document. -/
theorem stands (h : Remakes d d' f g) (hf : d.Stands f) : d'.Stands g where
  shows := h.shows
  nodup := nodup_of_count_le h.count_le hf.nodup hf.lt_size
  lt_size := by
    intro i hi
    rcases h.mem hi with hi | ⟨-, hlt⟩
    · exact Nat.lt_of_lt_of_le (hf.lt_size i hi) h.size_le
    · exact hlt

/-- The nodes of a forest apart from the one that is changed are kept. -/
theorem node_eq_of_disjoint (h : Remakes d d' f g) (hf' : d.Stands f')
    (hdisjoint : ∀ i ∈ f.preorder, i ∉ f'.preorder) : ∀ i ∈ f'.preorder, d'.node i = d.node i :=
  fun i hi => h.kept i (hf'.lt_size i hi) fun hmem => hdisjoint i hmem hi

/-- A forest apart from the one that is changed still stands. -/
theorem stands_of_disjoint (h : Remakes d d' f g) (hf' : d.Stands f')
    (hdisjoint : ∀ i ∈ f.preorder, i ∉ f'.preorder) : d'.Stands f' :=
  hf'.congr h.size_le (h.node_eq_of_disjoint hf' hdisjoint)

theorem trans (h : Remakes d d₁ f g) (h' : Remakes d₁ d₂ g g') : Remakes d d₂ f g' where
  size_le := Nat.le_trans h.size_le h'.size_le
  kind := fun i hi => (h'.kind i (Nat.lt_of_lt_of_le hi h.size_le)).trans (h.kind i hi)
  name := fun i hi => (h'.name i (Nat.lt_of_lt_of_le hi h.size_le)).trans (h.name i hi)
  kept := by
    intro i hi hnot
    have hnot' : i ∉ g.preorder := by
      intro hmem
      rcases h.mem hmem with hmem | ⟨hle, -⟩
      · exact hnot hmem
      · exact absurd hi (Nat.not_lt.2 hle)
    exact (h'.kept i (Nat.lt_of_lt_of_le hi h.size_le) hnot').trans (h.kept i hi hnot)
  roots := h'.roots.trans h.roots
  shows := h'.shows
  count_le := by
    intro i
    have hle := h.count_le i
    have hle' := h'.count_le i
    have hfresh := fresh_add_fresh h.size_le h'.size_le i
    omega

/-- What a forest was made into is not touched by the change of another one, whether its nodes are
old or new. -/
theorem node_eq_of_next (h : Remakes d d₁ f g) (h' : Remakes d₁ d₂ f' g') (hf : d.Stands f)
    (hf' : d.Stands f') (hdisjoint : ∀ i ∈ f.preorder, i ∉ f'.preorder) :
    ∀ i ∈ g.preorder, d₂.node i = d₁.node i := by
  refine h'.node_eq_of_disjoint (h.stands hf) fun i hi hmem => ?_
  rcases h.mem hmem with hmem | ⟨hle, -⟩
  · exact hdisjoint i hmem hi
  · exact absurd (hf'.lt_size i hi) (Nat.not_lt.2 hle)

/-- Two forests side by side are changed one after the other. -/
theorem append (h : Remakes d d₁ f g) (h' : Remakes d₁ d₂ f' g') (hf : d.Stands f)
    (hf' : d.Stands f') (hdisjoint : ∀ i ∈ f.preorder, i ∉ f'.preorder) :
    Remakes d d₂ (f ++ f') (g ++ g') := by
  constructor
  · exact Nat.le_trans h.size_le h'.size_le
  · exact fun i hi => (h'.kind i (Nat.lt_of_lt_of_le hi h.size_le)).trans (h.kind i hi)
  · exact fun i hi => (h'.name i (Nat.lt_of_lt_of_le hi h.size_le)).trans (h.name i hi)
  · intro i hi hnot
    rw [Forest.preorder_append, List.mem_append, not_or] at hnot
    exact (h'.kept i (Nat.lt_of_lt_of_le hi h.size_le) hnot.2).trans (h.kept i hi hnot.1)
  · rw [Forest.roots_append, Forest.roots_append, h.roots, h'.roots]
  · exact shows_append.2 ⟨h.shows.congr (h.node_eq_of_next h' hf hf' hdisjoint), h'.shows⟩
  · intro i
    have hle := h.count_le i
    have hle' := h'.count_le i
    have hfresh := fresh_add_fresh h.size_le h'.size_le i
    rw [Forest.preorder_append, Forest.preorder_append, List.count_append, List.count_append]
    omega

section

variable {id : NodeId} {label : Label} {below : Forest}

/-- A change of what is under a node leaves the node as it is. -/
theorem node_eq (h : Remakes d d' below g) (hf : d.Stands (.cons id label below .nil)) :
    d'.node id = d.node id :=
  h.kept id (hf.lt_size id List.mem_cons_self) hf.notMem

theorem under (h : Remakes d d' below g) (hf : d.Stands (.cons id label below .nil)) :
    Remakes d d' (.cons id label below .nil) (.cons id label g .nil) := by
  constructor
  · exact h.size_le
  · exact h.kind
  · exact h.name
  · intro i hi hnot
    refine h.kept i hi fun hmem => hnot ?_
    exact List.mem_cons_of_mem _ (List.mem_append_left _ hmem)
  · rfl
  · exact ⟨by rw [children_eq_of_node_eq (h.node_eq hf), hf.shows.1, h.roots], h.shows, trivial⟩
  · intro i
    have hle := h.count_le i
    simp only [Forest.preorder, List.append_nil, List.count_cons]
    omega

end

end Remakes

/-- The document `d'` comes from `d` by making the forest `g` of the forest `f`, and all nodes of
`g` have the children that their kinds demand. -/
structure Reshapes (d d' : Document) (f g : Forest) : Prop extends Remakes d d' f g where
  wellShaped : ∀ id ∈ g.preorder, d'.wellShaped id

namespace Reshapes

theorem refl (h : d.Formed f) : Reshapes d d f f := ⟨.refl h.toStands, h.wellShaped⟩

/-- What a forest is made into stands in the document. -/
theorem formed (h : Reshapes d d' f g) (hf : d.Formed f) : d'.Formed g :=
  ⟨h.stands hf.toStands, h.wellShaped⟩

/-- A forest apart from the one that is changed still stands. -/
theorem formed_of_disjoint (h : Reshapes d d' f g) (hf' : d.Formed f')
    (hdisjoint : ∀ i ∈ f.preorder, i ∉ f'.preorder) : d'.Formed f' :=
  hf'.congr h.size_le (h.node_eq_of_disjoint hf'.toStands hdisjoint) h.kind

theorem trans (h : Reshapes d d₁ f g) (h' : Reshapes d₁ d₂ g g') : Reshapes d d₂ f g' :=
  ⟨h.toRemakes.trans h'.toRemakes, h'.wellShaped⟩

/-- Two forests side by side are changed one after the other. -/
theorem append (h : Reshapes d d₁ f g) (h' : Reshapes d₁ d₂ f' g') (hf : d.Formed f)
    (hf' : d.Formed f') (hdisjoint : ∀ i ∈ f.preorder, i ∉ f'.preorder) :
    Reshapes d d₂ (f ++ f') (g ++ g') := by
  refine ⟨h.toRemakes.append h'.toRemakes hf.toStands hf'.toStands hdisjoint, fun i hi => ?_⟩
  have hnode := h.node_eq_of_next h'.toRemakes hf.toStands hf'.toStands hdisjoint
  have hg : d₂.Formed g := (h.formed hf).congr h'.size_le hnode h'.kind
  rw [Forest.preorder_append, List.mem_append] at hi
  exact hi.elim (hg.wellShaped i) (h'.wellShaped i)

/-- A change of what is under a node leaves the node as it is. -/
theorem under {id : NodeId} {label : Label} {below : Forest} (h : Reshapes d d' below g)
    (hf : d.Formed (.cons id label below .nil)) :
    Reshapes d d' (.cons id label below .nil) (.cons id label g .nil) := by
  have hlt : id < d.size := hf.lt_size id List.mem_cons_self
  refine ⟨h.toRemakes.under hf.toStands, fun i hi => ?_⟩
  simp only [Forest.preorder, List.append_nil, List.mem_cons] at hi
  rcases hi with rfl | hi
  · rw [wellShaped_congr (h.kind i hlt) (h.name i hlt)
      (children_eq_of_node_eq (h.node_eq hf.toStands)) fun c hc => h.kind c
      (hf.lt_size c (hf.shows.mem_of_mem_children List.mem_cons_self hc))]
    exact hf.wellShaped i List.mem_cons_self
  · exact h.wellShaped i hi

end Reshapes

/-- A document is well-formed if the tree under its root is. -/
theorem verify_of_formed {label : Label} (h : d.Formed (.cons root label f .nil)) : d.verify := by
  have hpreorder : (Forest.cons root label f .nil).preorder = root :: f.preorder := by
    simp [Forest.preorder]
  refine verify_of_shows h.shows.1 h.shows.2.1 (fun i hi => ?_) (hpreorder ▸ h.nodup)
  rw [← hpreorder] at hi
  exact ⟨h.lt_size i hi, h.wellShaped i hi⟩

/-- The tree of a document that is one stands in it. -/
theorem IsTree.stands (h : d.IsTree) : d.Stands d.tree :=
  ⟨h.exhibits.shows, h.nodup, h.lt_size⟩

/-- The tree of a well-formed document stands in it, and its nodes have the children that their
kinds demand. -/
theorem formed_of_verify (h : d.verify) :
    d.Formed (.cons root (d.label root) (d.forestBelow root) .nil) := by
  obtain ⟨htree, hshaped⟩ := isTree_of_verify h
  have heq := htree.tree_eq
  exact ⟨heq ▸ htree.stands, heq ▸ hshaped⟩

end Document

end MarkupTemplate
