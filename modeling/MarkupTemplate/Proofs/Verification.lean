import MarkupTemplate.Proofs.Shape

/-!
# Verifying a forest

The test for well-formedness walks through a document. Where the document shows a forest, the walk
is through the forest: it meets the nodes in document order, and it succeeds if no node comes twice
and every node has the children that its kind demands.

## Main definitions

* `Document.Shows`: a document has the children of every node of a forest

## Main results

* `Document.foldlM_verifyFrom`: the walk through a forest
* `Document.verify_of_shows`: a document with one tree of shaped nodes is well-formed
* `Document.wellShaped_of_shaped`: what structuring makes has the children that its kind demands
-/

namespace MarkupTemplate

namespace Forest

/-- The number of nodes on the longest branch. -/
def height : Forest → Nat
  | nil => 0
  | cons _ _ children siblings => max (children.height + 1) siblings.height

theorem height_le_length_preorder (f : Forest) : f.height ≤ f.preorder.length := by
  induction f with
  | nil => exact Nat.le_refl 0
  | cons id label children siblings ihc ihs =>
    simp only [height, preorder, List.length_cons, List.length_append]
    omega

end Forest

namespace Document

variable {d : Document} {f : Forest}

/-- The document has the children of every node of the forest. -/
def Shows (d : Document) : Forest → Prop
  | .nil => True
  | .cons id _ children siblings =>
    d.children id = children.roots ∧ d.Shows children ∧ d.Shows siblings

/-- Verification meets the nodes of a forest in document order. -/
theorem foldlM_verifyFrom {k : Nat} {m : List NodeId} (hshows : d.Shows f)
    (hheight : f.height ≤ k) (hnodes : ∀ id ∈ f.preorder, id < d.size ∧ d.wellShaped id)
    (hnodup : f.preorder.Nodup) (hmet : ∀ id ∈ f.preorder, id ∉ m) :
    f.roots.foldlM (d.verifyFrom k) m = some (f.preorder.reverse ++ m) := by
  induction f generalizing k m with
  | nil => rfl
  | cons id label children siblings ihc ihs =>
    obtain ⟨hid, hchildren, hsiblings⟩ := hshows
    simp only [Forest.height, Nat.max_le] at hheight
    simp only [Forest.preorder, List.mem_cons, List.mem_append, List.nodup_cons, not_or,
      List.nodup_append] at hnodes hnodup hmet
    obtain ⟨⟨hidc, hids⟩, hnodupc, hnodups, hdisjoint⟩ := hnodup
    obtain ⟨depth, rfl⟩ := Nat.exists_eq_add_one_of_ne_zero (n := k) (by omega)
    -- Under the node verification has met the node itself, and what it had met before.
    have hc := ihc hchildren (Nat.le_of_succ_le_succ hheight.1)
      (fun i hi => hnodes i (.inr (.inl hi))) hnodupc (m := id :: m) fun i hi hmem => by
        rcases List.mem_cons.1 hmem with rfl | hmem
        · exact hidc hi
        · exact hmet i (.inr (.inl hi)) hmem
    -- After it, the nodes under it have been met as well.
    have hs := ihs (m := children.preorder.reverse ++ id :: m) hsiblings hheight.2
      (fun i hi => hnodes i (.inr (.inr hi))) hnodups fun i hi hmem => by
        rcases List.mem_append.1 hmem with hmem | hmem
        · exact hdisjoint i (List.mem_reverse.1 hmem) i hi rfl
        · rcases List.mem_cons.1 hmem with rfl | hmem
          · exact hids hi
          · exact hmet i (.inr (.inr hi)) hmem
    have hfresh : id ∉ m := hmet id (.inl rfl)
    have hstep : d.verifyFrom (depth + 1) m id =
        some (children.preorder.reverse ++ id :: m) := by
      rw [verifyFrom, if_pos (by simp [hnodes id (.inl rfl), hfresh]), hid, hc]
    rw [Forest.roots, List.foldlM_cons, hstep]
    simpa [Forest.preorder] using hs

/-- A document is well-formed if it shows one tree, in which every node comes once and has the
children that its kind demands. -/
theorem verify_of_shows (hroot : d.children root = f.roots) (hshows : d.Shows f)
    (hnodes : ∀ id ∈ root :: f.preorder, id < d.size ∧ d.wellShaped id)
    (hnodup : (root :: f.preorder).Nodup) : d.verify := by
  -- Verification starts at the root, so the root is a node of the forest that it walks.
  obtain ⟨tree, htree⟩ : ∃ tree : Forest, tree = .cons root default f .nil := ⟨_, rfl⟩
  have hpreorder : tree.preorder = root :: f.preorder := by simp [htree, Forest.preorder]
  have hlength : tree.preorder.length ≤ (List.range d.size).length := by
    rw [hpreorder]
    refine hnodup.length_le_of_subset fun id hid => ?_
    exact List.mem_range.2 (hnodes id hid).1
  have htreeShows : d.Shows tree := by
    rw [htree]
    exact ⟨hroot, hshows, trivial⟩
  have hfold := foldlM_verifyFrom (k := d.size) (m := []) htreeShows
    (Nat.le_trans tree.height_le_length_preorder (by simpa using hlength))
    (by rwa [hpreorder]) (by rwa [hpreorder]) (by simp)
  have hverify : d.verifyFrom d.size [] root = some (tree.preorder.reverse ++ []) := by
    simpa [htree, Forest.roots] using hfold
  rw [verify, hverify]
  rfl

end Document

/-! ## Shaped nodes in a document -/

/-- Kinds of embedded code are not told apart. -/
def NodeKind.bare : NodeKind → NodeKind
  | .embedded .. => default
  | kind => kind

namespace Document

variable {d : Document} {n : Nat} {f : Forest}

/-- Nothing is demanded of embedded code. -/
theorem wellShaped_of_bare {id : NodeId} (h : (d.kind id).bare = default) : d.wellShaped id := by
  unfold wellShaped
  generalize d.kind id = kind at h
  cases kind with
  | embedded form code => rfl
  | _ => exact absurd h (by decide)

theorem attributesFirst_map_bare (kinds : List NodeKind) :
    attributesFirst (kinds.map NodeKind.bare) = attributesFirst kinds := by
  have hkind : ∀ kind : NodeKind, (kind.bare == .attribute) = (kind == .attribute) := by
    intro kind
    cases kind <;> rfl
  induction kinds with
  | nil => rfl
  | cons kind kinds ih =>
    simp only [attributesFirst, List.map_cons, List.dropWhile_cons, hkind] at ih ⊢
    split
    · exact ih
    · simp [bne, hkind, Function.comp_def]

/-- The roots have the kinds that the forest says. -/
theorem map_kind_roots (hholds : d.Holds n f) (hshaped : f.Shaped n)
    (hholes : ∀ id ∈ f.holes n, (d.kind id).bare = default) :
    (f.roots.map d.kind).map NodeKind.bare = f.rootKinds.map NodeKind.bare := by
  induction f with
  | nil => rfl
  | cons id label children siblings _ ihs =>
    obtain ⟨hid, -, hsiblings⟩ := hholds
    obtain ⟨hlabel, -, hshaped'⟩ := hshaped
    have hrest := ihs hsiblings hshaped' fun i hi => hholes i ?_
    · simp only [Forest.roots, Forest.rootKinds, List.map_cons, hrest]
      split at hlabel
      · next hle =>
        have hkind : d.kind id = label.kind := by
          rw [← (hid hle).1]
          rfl
        rw [hkind]
      · next hlt =>
        have hhole := hholes id (by simp [Forest.holes, Forest.preorder, Nat.not_le.1 hlt])
        rw [hhole, hlabel]
        rfl
    · simp only [Forest.holes, Forest.preorder, List.mem_filter, List.mem_cons,
        List.mem_append] at hi ⊢
      exact ⟨.inr (.inr hi.1), hi.2⟩

theorem wellShaped_of_shapedNode {id : NodeId} {label : Label} {children : Forest}
    (hlabel : (d.label id).plain = label) (hchildren : d.children id = children.roots)
    (hkinds : (children.roots.map d.kind).map NodeKind.bare = children.rootKinds.map NodeKind.bare)
    (hshaped : Forest.ShapedNode label children) : d.wellShaped id := by
  have hkind : d.kind id = label.kind := by rw [← hlabel]; rfl
  have hname : (d.label id).name = label.name := by rw [← hlabel]; rfl
  rw [Forest.ShapedNode] at hshaped
  rw [wellShaped, hkind, hchildren, hname]
  split at hshaped
  · next hk =>
    rw [hk, hshaped]
    rfl
  · next hk =>
    -- Only whether a kind is an attribute matters for the order.
    have hfirst := attributesFirst_map_bare (children.roots.map d.kind)
    rw [hkinds, attributesFirst_map_bare, hshaped.2] at hfirst
    simp [hk, hshaped.1, ← hfirst]
  · next hk =>
    rw [hshaped] at hkinds
    rw [hk]
    simp only [beq_iff_eq]
    cases hroots : children.roots.map d.kind with
    | nil => simp [hroots] at hkinds
    | cons kind kinds =>
      simp only [hroots, List.map_cons, List.map_nil, List.cons.injEq, List.map_eq_nil_iff]
        at hkinds
      obtain ⟨hbare, rfl⟩ := hkinds
      cases kind <;> simp_all [NodeKind.bare]
  · next hk => rw [hk]
  · exact hshaped.elim

/-- A document that holds a shaped forest has its nodes with the kinds of their children. -/
theorem exists_shapedNode (hholds : d.Holds n f) (hshaped : f.Shaped n)
    (hholes : ∀ id ∈ f.holes n, (d.kind id).bare = default) {id : NodeId}
    (hid : id ∈ f.created n) :
    ∃ children : Forest, d.children id = children.roots ∧
      (children.roots.map d.kind).map NodeKind.bare = children.rootKinds.map NodeKind.bare ∧
      Forest.ShapedNode (d.label id).plain children := by
  induction f with
  | nil => simp at hid
  | cons i label children siblings ihc ihs =>
    obtain ⟨hi, hchildren, hsiblings⟩ := hholds
    obtain ⟨hlabel, hshapedc, hshapeds⟩ := hshaped
    simp only [Forest.holes, Forest.preorder, List.mem_filter, List.mem_cons,
      List.mem_append] at hholes
    have hholesc : ∀ j ∈ children.holes n, (d.kind j).bare = default := fun j hj =>
      hholes j ⟨.inr (.inl (List.mem_filter.1 hj).1), (List.mem_filter.1 hj).2⟩
    have hholess : ∀ j ∈ siblings.holes n, (d.kind j).bare = default := fun j hj =>
      hholes j ⟨.inr (.inr (List.mem_filter.1 hj).1), (List.mem_filter.1 hj).2⟩
    simp only [Forest.created, Forest.preorder, List.mem_filter, List.mem_cons,
      List.mem_append, decide_eq_true_eq] at hid
    obtain ⟨rfl | hmem | hmem, hle⟩ := hid
    · rw [if_pos hle] at hlabel
      exact ⟨children, (hi hle).2, map_kind_roots hchildren hshapedc hholesc,
        (hi hle).1.symm ▸ hlabel⟩
    · exact ihc hchildren hshapedc hholesc (by simp [Forest.created, hmem, hle])
    · exact ihs hsiblings hshapeds hholess (by simp [Forest.created, hmem, hle])

/-- What structuring makes has the children that its kind demands. -/
theorem wellShaped_of_shaped (hholds : d.Holds n f) (hshaped : f.Shaped n)
    (hholes : ∀ id ∈ f.holes n, (d.kind id).bare = default) {id : NodeId}
    (hid : id ∈ f.created n) : d.wellShaped id := by
  obtain ⟨children, hchildren, hkinds, hnode⟩ := exists_shapedNode hholds hshaped hholes hid
  exact wellShaped_of_shapedNode rfl hchildren hkinds hnode

/-- Structuring makes no constructs. -/
theorem kind_ne_construct_of_shaped (hholds : d.Holds n f) (hshaped : f.Shaped n)
    (hholes : ∀ id ∈ f.holes n, (d.kind id).bare = default) {id : NodeId}
    (hid : id ∈ f.created n) : d.kind id ≠ .construct := by
  obtain ⟨children, -, -, hnode⟩ := exists_shapedNode hholds hshaped hholes hid
  intro hkind
  rw [Forest.ShapedNode, show (d.label id).plain.kind = .construct from hkind] at hnode
  exact hnode

/-- A document that holds a forest shows it if the nodes that were there before are leaves. -/
theorem shows_of_holds {arrived : List NodeId} (hholds : d.Holds n f) (horder : f.InOrder n arrived)
    (hholes : ∀ id ∈ f.holes n, d.children id = []) : d.Shows f := by
  induction f with
  | nil => trivial
  | cons id label children siblings ihc ihs =>
    obtain ⟨hid, hchildren, hsiblings⟩ := hholds
    obtain ⟨hleaf, horders⟩ := horder
    simp only [Forest.holes, Forest.preorder, List.mem_filter, List.mem_cons,
      List.mem_append] at hholes
    have hshows := ihs hsiblings horders fun j hj =>
      hholes j ⟨.inr (.inr (List.mem_filter.1 hj).1), (List.mem_filter.1 hj).2⟩
    -- The forest has nothing under a hole, and neither has the document.
    split at hleaf
    · next hle =>
      refine ⟨(hid hle).2, ihc hchildren hleaf.2 fun j hj => ?_, hshows⟩
      exact hholes j ⟨.inr (.inl (List.mem_filter.1 hj).1), (List.mem_filter.1 hj).2⟩
    · next hlt =>
      subst hleaf
      exact ⟨hholes id ⟨.inl rfl, by simpa using hlt⟩, trivial, hshows⟩

end Document

end MarkupTemplate
