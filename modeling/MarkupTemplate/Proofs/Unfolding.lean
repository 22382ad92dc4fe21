import MarkupTemplate.Document.Acyclic
import MarkupTemplate.Proofs.Verification

/-!
# Documents and their trees

What is read off a document is read off its tree. A document is a tree if the walk from its root
comes to an end and meets every node once; a well-formed document is one. Whatever forest a
document exhibits is found again by unfolding it, so a change of a document can be followed on
forests.

## Main definitions

* `Forest.relabel`: a forest with other labels
* `Document.Exhibits`: a document has the labels and the children of all nodes of a forest
* `Document.IsTree`: a document is a tree
* `Document.Occurs`: a forest of distinct nodes occurs in a document
* `Document.Extends`: a document has further nodes, and other children under some nodes only
* `Document.Gains`: a document has grown so that it exhibits a forest of old nodes and new ones

## Main results

* `Document.unfold_of_exhibits`: unfolding finds a forest that a document exhibits
* `Document.Occurs.forestBelow_eq`, `Document.Occurs.isTree`: what occurs below a node is all that
  is below it, and a document in which a tree of its root occurs is that tree
* `Document.Acyclic.exhibits_forestBelow`: an acyclic document exhibits all that is below a node
* `Document.isTree_of_verify`: a well-formed document is a tree of nodes with the children that
  their kinds demand
* `Document.Gains.append`: what is gained in two steps
* `Document.nodup_of_count_le`: among old nodes and new ones none comes twice
-/

namespace MarkupTemplate

namespace Forest

variable {label label' : NodeId → Label}

/-- The forest with other labels. -/
def relabel (label : NodeId → Label) : Forest → Forest
  | nil => nil
  | cons id _ children siblings =>
    cons id (label id) (children.relabel label) (siblings.relabel label)

@[simp] theorem roots_relabel (f : Forest) : (f.relabel label).roots = f.roots := by
  induction f with
  | nil => rfl
  | cons id old children siblings _ ih => rw [relabel, roots, roots, ih]

@[simp] theorem preorder_relabel (f : Forest) : (f.relabel label).preorder = f.preorder := by
  induction f with
  | nil => rfl
  | cons id old children siblings ihc ihs => rw [relabel, preorder, preorder, ihc, ihs]

/-- Only the labels of the nodes in the forest matter. -/
theorem relabel_congr {f : Forest} (h : ∀ id ∈ f.preorder, label id = label' id) :
    f.relabel label = f.relabel label' := by
  induction f with
  | nil => rfl
  | cons id old children siblings ihc ihs =>
    simp only [preorder, List.mem_cons, List.mem_append] at h
    rw [relabel, relabel, h id (.inl rfl), ihc fun i hi => h i (.inr (.inl hi)),
      ihs fun i hi => h i (.inr (.inr hi))]

end Forest

namespace Document

variable {d d' : Document} {f g : Forest}

/-- The document has the labels and the children of all nodes of the forest. -/
def Exhibits (d : Document) : Forest → Prop
  | .nil => True
  | .cons id label children siblings =>
    (d.label id = label ∧ d.children id = children.roots) ∧
      d.Exhibits children ∧ d.Exhibits siblings

instance decidableExhibits (d : Document) : (f : Forest) → Decidable (d.Exhibits f)
  | .nil => isTrue trivial
  | .cons _ _ children siblings =>
    have := decidableExhibits d children
    have := decidableExhibits d siblings
    inferInstanceAs (Decidable (_ ∧ _ ∧ _))

@[simp] theorem exhibits_nil : d.Exhibits .nil := trivial

theorem exhibits_append : d.Exhibits (f ++ g) ↔ d.Exhibits f ∧ d.Exhibits g := by
  induction f with
  | nil => simp
  | cons id label children siblings _ ih => simp [Exhibits, ih, and_assoc]

/-- Whether a document exhibits a forest depends on no other nodes. -/
theorem Exhibits.congr (h : d.Exhibits f) (hd : ∀ id ∈ f.preorder, d'.node id = d.node id) :
    d'.Exhibits f := by
  induction f with
  | nil => trivial
  | cons id label children siblings ihc ihs =>
    obtain ⟨⟨hlabel, hid⟩, hchildren, hsiblings⟩ := h
    simp only [Forest.preorder, List.mem_cons, List.mem_append] at hd
    have hnode := hd id (.inl rfl)
    refine ⟨⟨?_, ?_⟩, ihc hchildren fun i hi => hd i (.inr (.inl hi)),
      ihs hsiblings fun i hi => hd i (.inr (.inr hi))⟩
    · rw [label_eq_of_node_eq hnode, hlabel]
    · rw [children_eq_of_node_eq hnode, hid]

/-- A document that shows a forest exhibits it, with the labels of the document. -/
theorem Shows.exhibits (h : d.Shows f) : d.Exhibits (f.relabel d.label) := by
  induction f with
  | nil => trivial
  | cons id label children siblings ihc ihs =>
    exact ⟨⟨rfl, by simpa using h.1⟩, ihc h.2.1, ihs h.2.2⟩

/-- Unfolding finds a forest that the document exhibits, if it goes deep enough. -/
theorem unfold_of_exhibits {depth : Nat} (h : d.Exhibits f) (hheight : f.height ≤ depth) :
    d.unfold depth f.roots = f := by
  induction f generalizing depth with
  | nil => exact d.unfold_nil depth
  | cons id label children siblings ihc ihs =>
    obtain ⟨⟨hlabel, hid⟩, hchildren, hsiblings⟩ := h
    simp only [Forest.height, Nat.max_le] at hheight
    obtain ⟨k, rfl⟩ := Nat.exists_eq_add_one_of_ne_zero (n := depth) (by omega)
    rw [Forest.roots, unfold_cons, hlabel, hid, ihc hchildren (Nat.le_of_succ_le_succ hheight.1),
      ihs hsiblings hheight.2]

/-! ## Trees -/

/-- A document is a tree: the walk from the root comes to an end, and it meets every node once. -/
structure IsTree (d : Document) : Prop where
  exhibits : d.Exhibits d.tree
  nodup : d.tree.preorder.Nodup
  lt_size : ∀ id ∈ d.tree.preorder, id < d.size

theorem isTree_iff : d.IsTree ↔
    d.Exhibits d.tree ∧ d.tree.preorder.Nodup ∧ ∀ id ∈ d.tree.preorder, id < d.size :=
  ⟨fun h => ⟨h.exhibits, h.nodup, h.lt_size⟩, fun ⟨h, h', h''⟩ => ⟨h, h', h''⟩⟩

instance (d : Document) : Decidable d.IsTree := decidable_of_iff' _ isTree_iff

/-- Distinct nodes of a document do not form a branch that is longer than its size. -/
theorem height_le_size (hnodup : f.preorder.Nodup) (hlt : ∀ id ∈ f.preorder, id < d.size) :
    f.height ≤ d.size := by
  have hlength : f.preorder.length ≤ (List.range d.size).length :=
    hnodup.length_le_of_subset fun id hid => List.mem_range.2 (hlt id hid)
  exact Nat.le_trans f.height_le_length_preorder (by simpa using hlength)

/-- A forest of distinct nodes occurs in a document, with the labels and the children that they
have there. -/
structure Occurs (d : Document) (f : Forest) : Prop where
  exhibits : d.Exhibits f
  nodup : f.preorder.Nodup
  lt_size : ∀ id ∈ f.preorder, id < d.size

namespace Occurs

theorem of_sublist (h : d.Occurs f) (hg : d.Exhibits g) (hsub : g.preorder.Sublist f.preorder) :
    d.Occurs g :=
  ⟨hg, hsub.nodup h.nodup, fun id hid => h.lt_size id (hsub.subset hid)⟩

section

variable {id : NodeId} {label : Label} {children siblings : Forest}

theorem down (h : d.Occurs (.cons id label children siblings)) : d.Occurs children :=
  h.of_sublist h.exhibits.2.1 ((List.sublist_append_left ..).cons _)

theorem next (h : d.Occurs (.cons id label children siblings)) : d.Occurs siblings :=
  h.of_sublist h.exhibits.2.2 ((List.sublist_append_right ..).cons _)

/-- A node does not come again among its siblings. -/
theorem notMem_next (h : d.Occurs (.cons id label children siblings)) : id ∉ siblings.preorder :=
  fun hmem => (List.nodup_cons.1 h.nodup).1 (List.mem_append_right _ hmem)

end

/-- Unfolding from the roots finds the forest. -/
theorem unfold_eq (h : d.Occurs f) : d.unfold d.size f.roots = f :=
  unfold_of_exhibits h.exhibits (height_le_size h.nodup h.lt_size)

theorem forestBelow_eq (h : d.Occurs f) {id : NodeId} (hid : d.children id = f.roots) :
    d.forestBelow id = f := by
  rw [forestBelow, hid, h.unfold_eq]

theorem tree_eq (h : d.Occurs f) (hroots : f.roots = [root]) : d.tree = f := by
  rw [tree, ← hroots, h.unfold_eq]

/-- When two lists share the nodes of a forest, a node that is not in the second one is in the first
one once. -/
theorem count_eq (h : d.Occurs f) {kept left : List NodeId} {id : NodeId} (hid : id ∈ f.preorder)
    (hcount : kept.count id + left.count id = f.preorder.count id) {P : Prop} [Decidable P]
    (hleft : id ∈ left ↔ P) : kept.count id = if P then 0 else 1 := by
  have hone : f.preorder.count id ≤ 1 := List.nodup_iff_count.1 h.nodup id
  have hpos : 0 < f.preorder.count id := List.count_pos_iff.2 hid
  by_cases hp : P
  · have hmem : 0 < left.count id := List.count_pos_iff.2 (hleft.2 hp)
    rw [if_pos hp]
    omega
  · have hzero : left.count id = 0 := List.count_eq_zero.2 fun hmem => hp (hleft.1 hmem)
    rw [if_neg hp]
    omega

/-- A document in which one tree occurs, with the root at its top, is that tree. -/
theorem isTree (h : d.Occurs f) (hroots : f.roots = [root]) : d.IsTree := by
  rw [isTree_iff, h.tree_eq hroots]
  exact ⟨h.exhibits, h.nodup, h.lt_size⟩

end Occurs

theorem roots_tree (d : Document) : d.tree.roots = [root] := by
  obtain ⟨k, hk⟩ := Nat.exists_eq_add_one_of_ne_zero (Nat.ne_of_gt d.size_pos)
  have hsize : d.size = k + 1 := hk
  rw [tree, hsize, roots_unfold_succ]

namespace IsTree

theorem occurs (h : d.IsTree) : d.Occurs d.tree := ⟨h.exhibits, h.nodup, h.lt_size⟩

/-- A tree is its root and the trees under the root. -/
theorem tree_eq (h : d.IsTree) :
    d.tree = .cons root (d.label root) (d.forestBelow root) .nil := by
  have hoccurs := h.occurs
  have hroots := d.roots_tree
  generalize d.tree = t at hoccurs hroots
  obtain _ | ⟨id, label, children, siblings⟩ := t
  · exact absurd hroots (by simp [Forest.roots])
  · obtain ⟨⟨hlabel, hid⟩, -⟩ := hoccurs.exhibits
    simp only [Forest.roots, List.cons.injEq] at hroots
    obtain ⟨rfl, hsiblings⟩ := hroots
    obtain rfl : siblings = .nil := by
      cases siblings with
      | nil => rfl
      | cons => exact absurd hsiblings (by simp [Forest.roots])
    rw [hlabel, hoccurs.down.forestBelow_eq hid]

/-- The trees under the root occur under it. -/
theorem occurs_below (h : d.IsTree) : d.Occurs (d.forestBelow root) := by
  have hoccurs := h.occurs
  rw [h.tree_eq] at hoccurs
  exact hoccurs.down

end IsTree

/-! ## Acyclic documents -/

/-- Ranks fall from node to node down a branch, so the branch meets no node twice, and it ends
before it is longer than the document has nodes. -/
theorem exhibits_unfold_of_rank {rank : NodeId → Nat}
    (hrank : ∀ id < d.size, ∀ c ∈ d.children id, c < d.size ∧ rank c < rank id) {depth : Nat}
    {branch ids : List NodeId} (hnodup : branch.Nodup) (hbranch : ∀ id ∈ branch, id < d.size)
    (hdepth : d.size ≤ depth + branch.length)
    (hids : ∀ id ∈ ids, id < d.size ∧ ∀ above ∈ branch, rank id < rank above) :
    d.Exhibits (d.unfold depth ids) ∧ (d.unfold depth ids).roots = ids := by
  induction depth generalizing branch ids with
  | zero =>
    cases ids with
    | nil => exact ⟨trivial, rfl⟩
    | cons id ids =>
      -- By now all nodes are on the branch, and yet one more would stand under it.
      obtain ⟨hlt, habove⟩ := hids id List.mem_cons_self
      have hnew : id ∉ branch := fun hmem => Nat.lt_irrefl _ (habove id hmem)
      have hlength : (id :: branch).length ≤ (List.range d.size).length := by
        refine (List.nodup_cons.2 ⟨hnew, hnodup⟩).length_le_of_subset fun i hi => ?_
        rcases List.mem_cons.1 hi with rfl | hi
        · exact List.mem_range.2 hlt
        · exact List.mem_range.2 (hbranch i hi)
      rw [List.length_cons, List.length_range] at hlength
      omega
  | succ depth ihd =>
    induction ids with
    | nil => exact ⟨trivial, rfl⟩
    | cons id ids ihs =>
      obtain ⟨hlt, habove⟩ := hids id List.mem_cons_self
      have hnew : id ∉ branch := fun hmem => Nat.lt_irrefl _ (habove id hmem)
      -- The node joins the branch, and its children rank below all of it.
      have hbranch' : ∀ i ∈ id :: branch, i < d.size := by simpa using ⟨hlt, hbranch⟩
      have hdepth' : d.size ≤ depth + (id :: branch).length := by
        rw [List.length_cons]
        omega
      have hchildren : ∀ c ∈ d.children id,
          c < d.size ∧ ∀ above ∈ id :: branch, rank c < rank above := by
        intro c hc
        obtain ⟨hc, hlower⟩ := hrank id hlt c hc
        refine ⟨hc, fun above hmem => ?_⟩
        rcases List.mem_cons.1 hmem with rfl | hmem
        · exact hlower
        · exact Nat.lt_trans hlower (habove above hmem)
      obtain ⟨hbelow, hroots⟩ :=
        ihd (List.nodup_cons.2 ⟨hnew, hnodup⟩) hbranch' hdepth' hchildren
      obtain ⟨hsiblings, hroots'⟩ := ihs fun i hi => hids i (List.mem_cons_of_mem _ hi)
      rw [unfold_cons]
      exact ⟨⟨⟨rfl, hroots.symm⟩, hbelow, hsiblings⟩, congrArg (id :: ·) hroots'⟩

/-- An acyclic document exhibits the whole of what is below a node. -/
theorem Acyclic.exhibits_forestBelow (h : d.Acyclic) {id : Nat} (hid : id < d.size) :
    d.Exhibits (d.forestBelow id) ∧ (d.forestBelow id).roots = d.children id := by
  obtain ⟨rank, hrank⟩ := h
  exact exhibits_unfold_of_rank hrank List.nodup_nil (by simp) (by simp) fun c hc =>
    ⟨(hrank id hid c hc).1, by simp⟩

/-! ## Well-formed documents -/

/-- The walk of verification unfolds the document: it meets the nodes of the forest in document
order, and none of them twice. -/
theorem exhibits_of_foldlM_verifyFrom (depth : Nat) {ids met met' : List NodeId}
    (h : ids.foldlM (d.verifyFrom depth) met = some met') :
    d.Exhibits (d.unfold depth ids) ∧ (d.unfold depth ids).roots = ids ∧
      met' = (d.unfold depth ids).preorder.reverse ++ met ∧ (met.Nodup → met'.Nodup) ∧
      ∀ id ∈ (d.unfold depth ids).preorder, id < d.size ∧ d.wellShaped id := by
  induction depth generalizing ids met met' with
  | zero =>
    cases ids with
    | nil =>
      obtain rfl : met = met' := by simpa using h
      exact ⟨trivial, rfl, rfl, id, by simp [unfold, Forest.preorder]⟩
    | cons id ids => simp [verifyFrom] at h
  | succ depth ihd =>
    induction ids generalizing met with
    | nil =>
      obtain rfl : met = met' := by simpa using h
      exact ⟨trivial, rfl, rfl, id, by simp [Forest.preorder]⟩
    | cons id ids ihs =>
      rw [List.foldlM_cons, Option.bind_eq_bind, Option.bind_eq_some_iff] at h
      obtain ⟨met₁, hid, hids⟩ := h
      rw [verifyFrom] at hid
      split at hid
      · next hcond =>
        simp only [Bool.and_eq_true, Bool.not_eq_true', decide_eq_true_eq] at hcond
        obtain ⟨⟨hlt, hfresh⟩, hshaped⟩ := hcond
        have hfresh : id ∉ met := by simpa using hfresh
        obtain ⟨hec, hrc, rfl, hnc, hbc⟩ := ihd hid
        obtain ⟨hes, hrs, rfl, hns, hbs⟩ := ihs hids
        refine ⟨⟨⟨rfl, hrc.symm⟩, hec, hes⟩, congrArg (id :: ·) hrs, ?_, fun hmet => ?_, ?_⟩
        · simp [unfold_cons, Forest.preorder]
        · exact hns (hnc (List.nodup_cons.2 ⟨hfresh, hmet⟩))
        · intro i hi
          rw [unfold_cons, Forest.preorder, List.mem_cons, List.mem_append] at hi
          rcases hi with rfl | hi | hi
          · exact ⟨hlt, hshaped⟩
          · exact hbc i hi
          · exact hbs i hi
      · exact absurd hid (by simp)

/-- A well-formed document is a tree of nodes with the children that their kinds demand. -/
theorem isTree_of_verify (h : d.verify) :
    d.IsTree ∧ ∀ id ∈ d.tree.preorder, d.wellShaped id := by
  obtain ⟨met, hmet⟩ := Option.isSome_iff_exists.1 h
  have hfold : [root].foldlM (d.verifyFrom d.size) [] = some met := by simpa using hmet
  obtain ⟨hexhibits, -, rfl, hnodup, hnodes⟩ := exhibits_of_foldlM_verifyFrom d.size hfold
  refine ⟨⟨hexhibits, ?_, fun id hid => (hnodes id hid).1⟩, fun id hid => (hnodes id hid).2⟩
  rw [List.append_nil] at hnodup
  exact (List.reverse_perm _).nodup_iff.1 (hnodup List.nodup_nil)

/-! ## Growing documents -/

section Growth

variable {d₁ d₂ : Document} {changed changed' : List NodeId}

/-- The document `d'` has all nodes of `d`, with what they say, and maybe further ones. Only the
nodes in the list may have other children. -/
structure Extends (changed : List NodeId) (d d' : Document) : Prop where
  size_le : d.size ≤ d'.size
  label : ∀ id < d.size, d'.label id = d.label id
  kept : ∀ id < d.size, id ∉ changed → d'.node id = d.node id

namespace Extends

theorem refl (d : Document) : Extends changed d d :=
  ⟨Nat.le_refl _, fun _ _ => rfl, fun _ _ _ => rfl⟩

/-- Nodes that were added by the first step may be changed by the second one. -/
theorem trans (h : Extends changed d d₁) (h' : Extends changed' d₁ d₂)
    (hsub : ∀ id ∈ changed', id < d.size → id ∈ changed) : Extends changed d d₂ := by
  refine ⟨Nat.le_trans h.size_le h'.size_le, fun id hid => ?_, fun id hid hnot => ?_⟩
  · rw [h'.label id (Nat.lt_of_lt_of_le hid h.size_le), h.label id hid]
  · have hnot' : id ∉ changed' := fun hmem => hnot (hsub id hmem hid)
    rw [h'.kept id (Nat.lt_of_lt_of_le hid h.size_le) hnot', h.kept id hid hnot]

theorem mono (h : Extends changed d d') (hsub : ∀ id ∈ changed, id ∈ changed') :
    Extends changed' d d' :=
  ⟨h.size_le, h.label, fun id hid hnot => h.kept id hid fun hmem => hnot (hsub id hmem)⟩

theorem exhibits (h : Extends changed d d') (hf : d.Exhibits f)
    (hnodes : ∀ id ∈ f.preorder, id < d.size ∧ id ∉ changed) : d'.Exhibits f :=
  hf.congr fun id hid => h.kept id (hnodes id hid).1 (hnodes id hid).2

theorem children (h : Extends changed d d') {id : NodeId} (hid : id < d.size)
    (hnot : id ∉ changed) : d'.children id = d.children id :=
  children_eq_of_node_eq (h.kept id hid hnot)

protected theorem add (node : Node) : Extends changed d (d.add node) :=
  ⟨by simp, fun _ hid => label_add_of_lt node hid, fun _ hid _ => node_add_of_lt d node hid⟩

protected theorem modify {parent : NodeId} {f : Node → Node}
    (hf : ∀ node, (f node).toLabel = node.toLabel) : Extends [parent] d (d.modify parent f) :=
  ⟨by simp, fun _ _ => label_modify hf, fun _ _ hnot => node_modify_of_ne (by simpa using hnot)⟩

protected theorem appendChild (parent child : NodeId) :
    Extends [parent] d (d.appendChild parent child) := .modify fun _ => rfl

end Extends

/-- How often a number is that of a node that came while a document grew: once or never. -/
def fresh (before after : Nat) (id : NodeId) : Nat := if before ≤ id ∧ id < after then 1 else 0

theorem fresh_add_fresh {a b c : Nat} (hab : a ≤ b) (hbc : b ≤ c) (id : NodeId) :
    fresh a b id + fresh b c id = fresh a c id := by
  grind [fresh]

/-- A list of nodes that were there before or are new: a node is one of them. -/
theorem mem_of_count_le {a b : Nat} {ids ids' : List NodeId}
    (h : ∀ id, ids'.count id ≤ ids.count id + fresh a b id) {id : NodeId} (hid : id ∈ ids') :
    id ∈ ids ∨ (a ≤ id ∧ id < b) := by
  have hle := h id
  have hpos := List.count_pos_iff.2 hid
  by_cases hnew : a ≤ id ∧ id < b
  · exact .inr hnew
  · rw [fresh, if_neg hnew] at hle
    exact .inl (List.count_pos_iff.1 (by omega))

/-- If no old node comes twice, none does. -/
theorem nodup_of_count_le {a b : Nat} {ids ids' : List NodeId}
    (h : ∀ id, ids'.count id ≤ ids.count id + fresh a b id) (hnodup : ids.Nodup)
    (hlt : ∀ id ∈ ids, id < a) : ids'.Nodup := by
  rw [List.nodup_iff_count]
  intro id
  have hle := h id
  by_cases hid : id ∈ ids
  · have hone := List.nodup_iff_count.1 hnodup id
    rw [fresh, if_neg fun hnew => absurd (hlt id hid) (Nat.not_lt.2 hnew.1)] at hle
    omega
  · have hzero := List.count_eq_zero.2 hid
    have hfresh : fresh a b id ≤ 1 := by
      unfold fresh
      split <;> omega
    omega

/-- The document `d'` extends `d`, and it exhibits a forest of old nodes and new ones: of the old
ones, none more often than the list says. -/
structure Gains (changed : List NodeId) (d d' : Document) (old : List NodeId) (f : Forest) :
    Prop where
  grows : Extends changed d d'
  exhibits : d'.Exhibits f
  count_le : ∀ id, f.preorder.count id ≤ old.count id + fresh d.size d'.size id

namespace Gains

variable {old old' : List NodeId}

theorem mem (h : Gains changed d d' old f) {id : NodeId} (hid : id ∈ f.preorder) :
    id ∈ old ∨ (d.size ≤ id ∧ id < d'.size) :=
  mem_of_count_le h.count_le hid

theorem mono (h : Gains changed d d' old f) (hsub : ∀ id ∈ changed, id ∈ changed') :
    Gains changed' d d' old f :=
  ⟨h.grows.mono hsub, h.exhibits, h.count_le⟩

/-- What is gained second comes after what was gained first, if it changes only old nodes that are
not in the first forest. -/
theorem append (h : Gains changed d d₁ old f) (h' : Gains changed' d₁ d₂ old' g)
    (hold : ∀ id ∈ old, id < d.size ∧ id ∉ changed')
    (hchanged : ∀ id ∈ changed', id < d.size ∧ id ∈ changed) :
    Gains changed d d₂ (old ++ old') (f ++ g) := by
  refine ⟨h.grows.trans h'.grows fun id hid _ => (hchanged id hid).2,
    exhibits_append.2 ⟨h'.grows.exhibits h.exhibits fun id hid => ?_, h'.exhibits⟩,
    fun id => ?_⟩
  · rcases h.mem hid with hid | hid
    · exact ⟨Nat.lt_of_lt_of_le (hold id hid).1 h.grows.size_le, (hold id hid).2⟩
    · exact ⟨hid.2, fun hmem => absurd (hchanged id hmem).1 (Nat.not_lt.2 hid.1)⟩
  · have hle := h.count_le id
    have hle' := h'.count_le id
    have hfresh := fresh_add_fresh h.grows.size_le h'.grows.size_le id
    rw [Forest.preorder_append, List.count_append, List.count_append]
    omega

end Gains

end Growth

end Document

end MarkupTemplate
