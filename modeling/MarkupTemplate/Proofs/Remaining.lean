import MarkupTemplate.Proofs.Reachability
import MarkupTemplate.Proofs.Walk

/-!
# What structuring leaves in place

Structuring takes markup out of a document and nothing else: every other node that is reached from
the root is still reached afterwards, maybe through elements that are new. Since the document is a
tree before and after, a node then has one parent.

## Main results

* `Document.Turn.holds_content`: what the turn of a node has made of its children is there in the
  end
* `Document.reached_structured`: what is reached and is no markup is reached after structuring
* `Document.IsTree.parent_unique`: a node of a tree has one parent
-/

namespace MarkupTemplate

namespace Document

variable {d : Document} {f : Forest} {id parent : NodeId}

/-- What a document holds is reached if its roots are. -/
theorem Holds.reached {n : Nat} {arrived : List NodeId} (h : d.Holds n f)
    (horder : f.InOrder n arrived) (hroots : ∀ i ∈ f.roots, d.Reached i) :
    ∀ i ∈ f.preorder, d.Reached i := by
  induction f with
  | nil => exact fun i hi => absurd hi List.not_mem_nil
  | cons id label children siblings ihc ihs =>
    obtain ⟨hid, hchildren, hsiblings⟩ := h
    obtain ⟨hleaf, horder⟩ := horder
    rw [Forest.roots, List.forall_mem_cons] at hroots
    rw [Forest.preorder, List.forall_mem_cons]
    refine ⟨hroots.1, fun i hi => ?_⟩
    rcases List.mem_append.1 hi with hi | hi
    · split at hleaf
      · next hle =>
        refine ihc hchildren hleaf.2 (fun j hj => hroots.1.child ?_) i hi
        rw [(hid hle).2]
        exact hj
      · rw [hleaf] at hi
        exact absurd hi List.not_mem_nil
    · exact ihs hsiblings horder hroots.2 i hi

namespace Turn

variable (t : d.Turn id) (hok : d.structured.ok)
include t hok

/-- A node that holds no markup stays as it is. -/
theorem node_structured (hnone : ∀ child ∈ d.children id, d.kind child ≠ .markup) :
    d.structured.document.node id = d.node id := by
  obtain ⟨-, -, hlater⟩ := t.keeps_later hok
  rw [t.visit_of_not_markup hnone] at hlater
  exact (hlater.kept id t.inRange.lt_size t.notMem_after).trans t.node_eq

/-- What the turn of a node has made of its children is there in the end. -/
theorem holds_content (hmarkup : ∃ child ∈ d.children id, d.kind child = .markup) :
    let d₁ := t.earlier.document
    (d₁.structureChildren id).ok ∧
      d.structured.document.children id = (d₁.assembly id).content.roots ∧
      d.structured.document.Holds d₁.size (d₁.assembly id).content := by
  intro d₁
  obtain ⟨-, hvisit, hlater⟩ := t.keeps_later hok
  rw [t.visit_of_markup hmarkup] at hvisit hlater
  have hrange := t.inRange
  have hstored := stored_structureChildren hrange.lt_size hrange.children
  obtain ⟨hpath, -, -⟩ := (ok_structureChildren_iff hrange.lt_size hrange.children).1 hvisit
  refine ⟨hvisit, ?_, hstored.content.congr fun i hi => ?_⟩
  · rw [hlater.children_eq (Nat.lt_of_lt_of_le hrange.lt_size hstored.le) t.notMem_after,
      children_structureChildren hrange.lt_size hrange.children hpath]
  · -- What was added is no node that is visited later.
    have hbounds := (accounted_children hrange.children).mem_created.1
      (List.mem_append_left _ hi)
    refine hlater.kept i (hstored.size ▸ hbounds.2) fun hmem => ?_
    exact absurd (t.lt_size_of_mem_after hmem)
      (Nat.not_lt.2 (Nat.le_trans t.keeps_earlier.size_le hbounds.1))

end Turn

/-- A node that is not visited stays as it is. -/
theorem node_structured_of_notMem (h : d.IsTree) (hid : id < d.size) (hnot : id ∉ d.visits) :
    d.structured.document.node id = d.node id := by
  rw [structured_eq_rewriteEach h]
  have hkeeps := keeps_rewriteEach h.occurs_root.nodup_visits fun i hi =>
    h.occurs_root.inRange_of_mem_visits hi
  exact hkeeps.kept id hid hnot

/-- Structuring loses no node but markup. -/
theorem reached_structured (h : d.verify) (hok : d.structured.ok) (hid : d.Reached id)
    (hkind : d.kind id ≠ .markup) : d.structured.document.Reached id := by
  have htree := (isTree_of_verify h).1
  have hformed := wellFormed_of_verify h
  obtain ⟨place, hplace⟩ := hid
  induction hplace with
  | root => exact reached_root _
  | @child place parent index id hparent hindex ih =>
    have hmem := List.mem_of_getElem? hindex
    have hreached : d.Reached parent := ⟨place, hparent⟩
    -- The parent has a child, so it is no markup itself.
    have hparent : d.structured.document.Reached parent := by
      refine ih fun hmarkup => ?_
      rw [(hformed.demands parent hreached).markup hmarkup] at hmem
      exact absurd hmem List.not_mem_nil
    by_cases hvisit : parent ∈ d.visits
    · obtain ⟨t⟩ := exists_turn htree hvisit
      by_cases hmarkup : ∃ child ∈ d.children parent, d.kind child = .markup
      · obtain ⟨hok', hchildren, hholds⟩ := t.holds_content hok hmarkup
        have hrange := t.inRange
        obtain ⟨-, horder⟩ :=
          (inOrder_children hrange.children).frames _ (Assembly.content_mem_frames _)
        refine hholds.reached horder (fun i hi => hparent.child (hchildren ▸ hi)) id ?_
        -- The node is one of the holes, and each of them has a place.
        have hcomplete := (ok_structureChildren_iff hrange.lt_size hrange.children).1 hok'
        have hmem' : id ∈ t.earlier.document.children parent := by
          rwa [children_eq_of_node_eq t.node_eq]
        have hkind' : t.earlier.document.kind id ≠ .markup := by
          rwa [t.keeps_earlier.kind_eq ((t.inRange_of_mem (by simp)).children id hmem)]
        have hhole := (perm_holes hrange.children hcomplete).mem_iff.2
          (List.mem_filter.2 ⟨hmem', by simpa using hkind'⟩)
        exact (List.mem_filter.1 hhole).1
      · refine hparent.child ?_
        rwa [children_eq_of_node_eq (t.node_structured hok (by simpa using hmarkup))]
    · refine hparent.child ?_
      rwa [children_eq_of_node_eq
        (node_structured_of_notMem htree (hformed.lt_size parent hreached) hvisit)]

/-- A node of a tree has one parent. -/
theorem IsTree.parent_unique (h : d.IsTree) {parent' : NodeId} (hparent : d.Reached parent)
    (hparent' : d.Reached parent') (hid : id ∈ d.children parent)
    (hid' : id ∈ d.children parent') : parent = parent' := by
  have hunique := (place_unique_of_shows h.exhibits.shows d.roots_tree h.nodup).2
  obtain ⟨place, hplace⟩ := hparent
  obtain ⟨place', hplace'⟩ := hparent'
  obtain ⟨index, hindex⟩ := List.mem_iff_getElem?.1 hid
  obtain ⟨index', hindex'⟩ := List.mem_iff_getElem?.1 hid'
  exact (Place.child.inj (hunique id _ _ (.child hplace hindex) (.child hplace' hindex'))).1

/-- Structuring makes a tree of a tree. -/
theorem isTree_structured (h : d.IsTree) (hok : d.structured.ok) :
    d.structured.document.IsTree := by
  have hstands : d.Stands (.cons root (d.label root) (d.forestBelow root) .nil) :=
    h.tree_eq ▸ h.stands
  have hheight := height_le_size hstands.nodup hstands.lt_size
  rw [Forest.height, Forest.height, Nat.max_zero] at hheight
  unfold structured at hok ⊢
  obtain ⟨k, hk⟩ := Nat.exists_eq_add_one_of_ne_zero (n := d.size + d.markupLength) (by omega)
  rw [hk] at hok ⊢
  obtain ⟨g, hg, -⟩ := remakes_structureFrom hstands
    (remakes_rewriteEach hstands.down (by omega)) hok
  exact (hg.stands hstands).occurs.isTree (by simp [Forest.roots])

end Document

end MarkupTemplate
