import MarkupTemplate.Proofs.Arrival
import MarkupTemplate.Proofs.PlainText

/-!
# The walk of structuring

Structuring walks through the tree of a document and changes one container after another. The order
of the containers can be told beforehand: a node comes after all that is below it, and neither
markup nor what stands in a value is visited. So structuring is a row of changes, each of which adds
nodes and changes one old node only; what a node is when its turn comes, and what it is in the end,
follows from its place in this row.

## Main definitions

* `Forest.visited`, `Document.visits`: the nodes that are visited, in order
* `Document.structureNode`: what is done on the visit to a node
* `Document.Keeps`: a change that adds nodes and gives new children to some nodes only

## Main results

* `Document.structured_eq_rewriteEach`: structuring is a row of visits
* `Document.mem_faults_rewriteEach`: what goes wrong in a row of rewrites goes wrong in one of them
* `Document.keeps_rewriteEach`: nodes that are not visited are kept
-/

namespace MarkupTemplate

/-! ## The nodes that are visited -/

namespace Forest

/-- The nodes of a forest that structuring comes to, each after those below it. Markup and
attributes are passed by, with what is below them. -/
def visited : Forest → List NodeId
  | nil => []
  | cons id label children siblings =>
    (if label.kind = .markup ∨ Document.holdsValue label.kind then []
      else children.visited ++ [id]) ++ siblings.visited

theorem count_visited_le (f : Forest) (id : NodeId) : f.visited.count id ≤ f.preorder.count id := by
  induction f with
  | nil => exact Nat.le_refl _
  | cons i label children siblings ihc ihs =>
    rw [visited, preorder, List.count_append, List.count_cons, List.count_append]
    split
    · rw [List.count_nil]
      omega
    · rw [List.count_append, List.count_singleton]
      omega

theorem mem_preorder_of_mem_visited {f : Forest} {id : NodeId} (h : id ∈ f.visited) :
    id ∈ f.preorder :=
  List.count_pos_iff.1 (Nat.lt_of_lt_of_le (List.count_pos_iff.2 h) (f.count_visited_le id))

theorem nodup_visited {f : Forest} (h : f.preorder.Nodup) : f.visited.Nodup :=
  List.nodup_iff_count.2 fun id =>
    Nat.le_trans (f.count_visited_le id) (List.nodup_iff_count.1 h id)

end Forest

namespace Document

variable {d d' d₁ d₂ : Document} {f : Forest} {id : NodeId} {changed changed' : List NodeId}

/-- Structures a node, if there is markup among its children. -/
def structureNode (d : Document) (id : NodeId) : Rewrite :=
  if (d.children id).any fun child => d.kind child == .markup then d.structureChildren id
  else ⟨d, []⟩

/-- The nodes that structuring comes to, in order; the root is the last. -/
def visits (d : Document) : List NodeId := (d.forestBelow root).visited ++ [root]

/-! ## Changes of some nodes -/

/-- The document `d'` has all nodes of `d`, and maybe further ones. The nodes say what they said,
apart from diagnostics, and none but those in the list is changed. -/
structure Keeps (changed : List NodeId) (d d' : Document) : Prop where
  size_le : d.size ≤ d'.size
  label : ∀ id < d.size, (d'.label id).undiagnosed = (d.label id).undiagnosed
  kept : ∀ id < d.size, id ∉ changed → d'.node id = d.node id

namespace Keeps

theorem refl (d : Document) : Keeps changed d d :=
  ⟨Nat.le_refl _, fun _ _ => rfl, fun _ _ _ => rfl⟩

theorem trans (h : Keeps changed d d₁) (h' : Keeps changed' d₁ d₂) :
    Keeps (changed ++ changed') d d₂ := by
  refine ⟨Nat.le_trans h.size_le h'.size_le, fun id hid => ?_, fun id hid hnot => ?_⟩
  · rw [h'.label id (Nat.lt_of_lt_of_le hid h.size_le), h.label id hid]
  · rw [List.mem_append, not_or] at hnot
    rw [h'.kept id (Nat.lt_of_lt_of_le hid h.size_le) hnot.2, h.kept id hid hnot.1]

theorem mono (h : Keeps changed d d') (hsub : ∀ id ∈ changed, id ∈ changed') :
    Keeps changed' d d' :=
  ⟨h.size_le, h.label, fun id hid hnot => h.kept id hid fun hmem => hnot (hsub id hmem)⟩

theorem kind_eq (h : Keeps changed d d') (hid : id < d.size) : d'.kind id = d.kind id := by
  simpa [label_kind] using congrArg Label.kind (h.label id hid)

theorem name_eq (h : Keeps changed d d') (hid : id < d.size) :
    (d'.label id).name = (d.label id).name := by
  simpa using congrArg Label.name (h.label id hid)

theorem text_eq (h : Keeps changed d d') (hid : id < d.size) :
    (d'.label id).text = (d.label id).text := by
  simpa using congrArg Label.text (h.label id hid)

theorem mention_eq (h : Keeps changed d d') (hid : id < d.size) : d'.mention id = d.mention id := by
  rw [mention, mention, h.kind_eq hid, h.name_eq hid]

theorem children_eq (h : Keeps changed d d') (hid : id < d.size) (hnot : id ∉ changed) :
    d'.children id = d.children id :=
  children_eq_of_node_eq (h.kept id hid hnot)

end Keeps

/-- A node is in the document, with all its children. -/
structure InRange (d : Document) (id : NodeId) : Prop where
  lt_size : id < d.size
  children : ∀ child ∈ d.children id, child < d.size

/-- Structuring a container changes no other node. -/
theorem keeps_structureChildren (h : d.InRange id) :
    Keeps [id] d (d.structureChildren id).document where
  size_le := (stored_structureChildren h.lt_size h.children).le
  label := fun _ hi => undiagnosed_taken h.lt_size h.children hi
  kept := fun i hi hnot =>
    (stored_structureChildren h.lt_size h.children).kept i hi (by simpa using hnot)

theorem keeps_structureNode (h : d.InRange id) : Keeps [id] d (d.structureNode id).document := by
  unfold structureNode
  split
  · exact keeps_structureChildren h
  · exact .refl d

theorem InRange.congr (h : d.InRange id) (hkeeps : Keeps changed d d') (hid : id ∉ changed) :
    d'.InRange id := by
  refine ⟨Nat.lt_of_lt_of_le h.lt_size hkeeps.size_le, fun child hchild => ?_⟩
  rw [hkeeps.children_eq h.lt_size hid] at hchild
  exact Nat.lt_of_lt_of_le (h.children child hchild) hkeeps.size_le

/-- A row of visits changes no node that is not visited. -/
theorem keeps_rewriteEach {ids : List NodeId} (hnodup : ids.Nodup)
    (hrange : ∀ id ∈ ids, d.InRange id) :
    Keeps ids d (d.rewriteEach structureNode ids).document := by
  induction ids generalizing d with
  | nil => exact .refl d
  | cons id ids ih =>
    obtain ⟨hid, hnodup⟩ := List.nodup_cons.1 hnodup
    rw [List.forall_mem_cons] at hrange
    have hfirst := keeps_structureNode hrange.1
    rw [rewriteEach_cons, Rewrite.andThen]
    split
    · refine hfirst.trans (ih hnodup fun i hi => (hrange.2 i hi).congr hfirst ?_)
      rw [List.mem_singleton]
      rintro rfl
      exact hid hi
    · exact hfirst.mono (by simp)

/-! ## The row of visits -/

/-- A fault of a row of rewrites is a fault of one of them, and those before it are complete. -/
theorem mem_faults_rewriteEach {α : Type} {f : Document → α → Rewrite} {items : List α}
    {fault : Fault} :
    fault ∈ (d.rewriteEach f items).faults ↔
      ∃ before item after, items = before ++ item :: after ∧ (d.rewriteEach f before).ok ∧
        fault ∈ (f (d.rewriteEach f before).document item).faults := by
  induction items generalizing d with
  | nil => simp
  | cons item items ih =>
    rw [rewriteEach_cons]
    constructor
    · intro h
      by_cases hok : (f d item).ok
      · rw [Rewrite.andThen_of_ok hok, ih] at h
        obtain ⟨before, item', after, rfl, hbefore, hfault⟩ := h
        refine ⟨item :: before, item', after, rfl, ?_⟩
        rw [rewriteEach_cons, Rewrite.andThen_of_ok hok]
        exact ⟨hbefore, hfault⟩
      · rw [Rewrite.andThen, if_neg hok] at h
        exact ⟨[], item, items, rfl, rfl, h⟩
    · rintro ⟨before, item', after, hsplit, hbefore, hfault⟩
      cases before with
      | nil =>
        obtain ⟨rfl, rfl⟩ := List.cons.inj hsplit
        have hnot : ¬(f d item).ok := fun hok =>
          List.ne_nil_of_mem hfault (List.isEmpty_iff.1 hok)
        rw [Rewrite.andThen, if_neg hnot]
        exact hfault
      | cons first before =>
        obtain ⟨rfl, rfl⟩ := List.cons.inj hsplit
        rw [rewriteEach_cons] at hbefore hfault
        have hok := Rewrite.ok_of_ok_andThen hbefore
        rw [Rewrite.andThen_of_ok hok] at hbefore hfault ⊢
        exact ih.2 ⟨before, item', after, rfl, hbefore, hfault⟩

/-- The nodes of a forest are in range where it occurs. -/
theorem Occurs.inRange (h : d.Occurs f) {id : NodeId} (hid : id ∈ f.preorder) : d.InRange id :=
  ⟨h.lt_size id hid, fun child hchild =>
    h.lt_size child (h.exhibits.shows.mem_of_mem_children hid hchild)⟩

/-- Visits to nodes that are not in a forest change nothing of it. -/
theorem Occurs.congr (h : d.Occurs f) (hkeeps : Keeps changed d d')
    (hdisjoint : ∀ id ∈ f.preorder, id ∉ changed) : d'.Occurs f where
  exhibits := h.exhibits.congr fun id hid => hkeeps.kept id (h.lt_size id hid) (hdisjoint id hid)
  nodup := h.nodup
  lt_size := fun id hid => Nat.lt_of_lt_of_le (h.lt_size id hid) hkeeps.size_le

theorem rewriteEach_singleton : d.rewriteEach structureNode [id] = d.structureNode id := by
  rw [rewriteEach_cons]
  exact Rewrite.andThen_of_unchanged fun _ => rfl

section

variable {label : Label} {below siblings : Forest}

theorem Occurs.notMem_below (h : d.Occurs (.cons id label below siblings)) :
    id ∉ below.visited := fun hmem =>
  (List.nodup_cons.1 h.nodup).1
    (List.mem_append_left _ (Forest.mem_preorder_of_mem_visited hmem))

theorem mem_cons_of_mem_visits {i : NodeId} (hi : i ∈ below.visited ++ [id]) :
    i ∈ id :: below.preorder := by
  rcases List.mem_append.1 hi with hi | hi
  · exact List.mem_cons_of_mem _ (Forest.mem_preorder_of_mem_visited hi)
  · rw [List.mem_singleton.1 hi]
    exact List.mem_cons_self

/-- The visits below a node change nothing else. -/
theorem keeps_visits_below (h : d.Occurs (.cons id label below siblings)) :
    Keeps below.visited d (d.rewriteEach structureNode below.visited).document :=
  keeps_rewriteEach (Forest.nodup_visited h.down.nodup) fun _ hi =>
    h.down.inRange (Forest.mem_preorder_of_mem_visited hi)

theorem Occurs.nodup_visits (h : d.Occurs (.cons id label below siblings)) :
    (below.visited ++ [id]).Nodup := by
  refine List.nodup_append.2 ⟨Forest.nodup_visited h.down.nodup, by simp, ?_⟩
  intro i hi j hj heq
  rw [List.mem_singleton.1 hj] at heq
  exact h.notMem_below (heq ▸ hi)

theorem Occurs.inRange_of_mem_visits (h : d.Occurs (.cons id label below siblings)) {i : NodeId}
    (hi : i ∈ below.visited ++ [id]) : d.InRange i := by
  refine h.inRange ?_
  rw [Forest.preorder, ← List.cons_append]
  exact List.mem_append_left _ (mem_cons_of_mem_visits hi)

/-- The visits to a tree change nothing outside of it. -/
theorem keeps_visits_tree (h : d.Occurs (.cons id label below siblings)) :
    Keeps (below.visited ++ [id]) d
      (d.rewriteEach structureNode (below.visited ++ [id])).document :=
  keeps_rewriteEach h.nodup_visits fun _ => h.inRange_of_mem_visits

/-- The visit to a node comes after those below it. -/
theorem structureFrom_eq_rewriteEach {depth : Nat} (h : d.Occurs (.cons id label below siblings))
    (hbelow : d.rewriteEach (structureChild depth) below.roots =
      d.rewriteEach structureNode below.visited) :
    structureFrom (depth + 1) d id = d.rewriteEach structureNode (below.visited ++ [id]) := by
  have hchildren : d.children id = below.roots := h.exhibits.1.2
  rw [structureFrom_succ, hchildren, hbelow, rewriteEach_append]
  by_cases hok : (d.rewriteEach structureNode below.visited).ok
  · rw [Rewrite.andThen_of_ok hok, Rewrite.andThen_of_ok hok, rewriteEach_singleton,
      structureNode, (keeps_visits_below h).children_eq (h.lt_size id List.mem_cons_self)
        h.notMem_below, hchildren]
  · rw [Rewrite.andThen, Rewrite.andThen, if_neg hok, if_neg hok]

end

/-- Structuring the trees of a forest is a row of visits. -/
theorem rewriteEach_structureChild {depth : Nat} (h : d.Occurs f) (hheight : f.height ≤ depth) :
    d.rewriteEach (structureChild depth) f.roots = d.rewriteEach structureNode f.visited := by
  induction f generalizing d depth with
  | nil => rfl
  | cons id label below siblings ihb ihs =>
    obtain ⟨hbelow, hsiblings⟩ := Nat.max_le.1 hheight
    obtain ⟨⟨rfl, -⟩, -, -⟩ := h.exhibits
    rw [Forest.roots, rewriteEach_cons, Forest.visited, rewriteEach_append, structureChild,
      label_kind]
    split
    · exact ihs h.next hsiblings
    · obtain ⟨k, rfl⟩ := Nat.exists_eq_add_one_of_ne_zero (Nat.ne_zero_of_lt hbelow)
      rw [structureFrom_eq_rewriteEach h (ihb h.down (Nat.le_of_succ_le_succ hbelow))]
      by_cases hok : (d.rewriteEach structureNode (below.visited ++ [id])).ok
      · -- What comes after the tree is not touched by the visits to it.
        rw [Rewrite.andThen_of_ok hok, Rewrite.andThen_of_ok hok]
        have hnodup := h.nodup
        rw [Forest.preorder, ← List.cons_append, List.nodup_append] at hnodup
        exact ihs (h.next.congr (keeps_visits_tree h) fun i hi hmem =>
          hnodup.2.2 i (mem_cons_of_mem_visits hmem) i hi rfl) hsiblings
      · rw [Rewrite.andThen, Rewrite.andThen, if_neg hok, if_neg hok]

theorem IsTree.occurs_root (h : d.IsTree) :
    d.Occurs (.cons root (d.label root) (d.forestBelow root) .nil) :=
  h.tree_eq ▸ h.occurs

/-- Structuring a document is a row of visits. -/
theorem structured_eq_rewriteEach (h : d.IsTree) :
    d.structured = d.rewriteEach structureNode d.visits := by
  have hoccurs := h.occurs_root
  have hheight := height_le_size hoccurs.nodup hoccurs.lt_size
  rw [Forest.height, Forest.height, Nat.max_zero] at hheight
  obtain ⟨k, hk⟩ := Nat.exists_eq_add_one_of_ne_zero (n := d.size + d.markupLength) (by omega)
  rw [structured, hk, visits, structureFrom_eq_rewriteEach hoccurs]
  exact rewriteEach_structureChild hoccurs.down (by omega)

/-- Structuring comes to the node: to the root, and from there to all children that are neither
markup nor attributes. -/
inductive Visited (d : Document) : NodeId → Prop
  | root : Visited d root
  | child {parent id : NodeId} : Visited d parent → id ∈ d.children parent → d.kind id ≠ .markup →
    holdsValue (d.kind id) = false → Visited d id

theorem visited_of_mem_visited (h : d.Exhibits f)
    (hroots : ∀ i ∈ f.roots, ∃ parent, d.Visited parent ∧ i ∈ d.children parent) :
    ∀ i ∈ f.visited, d.Visited i := by
  induction f with
  | nil => exact fun i hi => absurd hi List.not_mem_nil
  | cons id label children siblings ihc ihs =>
    obtain ⟨⟨rfl, hid⟩, hchildren, hsiblings⟩ := h
    rw [Forest.roots, List.forall_mem_cons] at hroots
    obtain ⟨⟨parent, hparent, hmem⟩, hroots⟩ := hroots
    intro i hi
    rw [Forest.visited, List.mem_append, label_kind] at hi
    rcases hi with hi | hi
    · split at hi
      · exact absurd hi List.not_mem_nil
      · next hnot =>
        have hvisited : d.Visited id :=
          .child hparent hmem (not_or.1 hnot).1 (Bool.eq_false_iff.2 (not_or.1 hnot).2)
        rcases List.mem_append.1 hi with hi | hi
        · exact ihc hchildren (fun j hj => ⟨id, hvisited, hid ▸ hj⟩) i hi
        · rwa [List.mem_singleton.1 hi]
    · exact ihs hsiblings hroots i hi

theorem mem_visited_of_mem_roots (h : d.Exhibits f) (hid : id ∈ f.roots)
    (hmarkup : d.kind id ≠ .markup) (hvalue : holdsValue (d.kind id) = false) : id ∈ f.visited := by
  induction f with
  | nil => exact absurd hid List.not_mem_nil
  | cons i label children siblings _ ihs =>
    obtain ⟨⟨rfl, -⟩, -, hsiblings⟩ := h
    rw [Forest.visited, List.mem_append, label_kind]
    rcases List.mem_cons.1 hid with rfl | hid
    · rw [if_neg (not_or.2 ⟨hmarkup, Bool.eq_false_iff.1 hvalue⟩)]
      exact .inl (List.mem_append_right _ (List.mem_singleton_self _))
    · exact .inr (ihs hsiblings hid)

theorem mem_visited_of_mem_children {parent : NodeId} (h : d.Exhibits f)
    (hparent : parent ∈ f.visited) (hid : id ∈ d.children parent) (hmarkup : d.kind id ≠ .markup)
    (hvalue : holdsValue (d.kind id) = false) : id ∈ f.visited := by
  induction f with
  | nil => exact absurd hparent List.not_mem_nil
  | cons i label children siblings ihc ihs =>
    obtain ⟨⟨rfl, hi⟩, hchildren, hsiblings⟩ := h
    rw [Forest.visited, List.mem_append] at hparent ⊢
    rcases hparent with hparent | hparent
    · split at hparent
      · exact absurd hparent List.not_mem_nil
      · next hnot =>
        rw [if_neg hnot]
        refine .inl (List.mem_append_left _ ?_)
        rcases List.mem_append.1 hparent with hparent | hparent
        · exact ihc hchildren hparent
        · rw [List.mem_singleton.1 hparent, hi] at hid
          exact mem_visited_of_mem_roots hchildren hid hmarkup hvalue
    · exact .inr (ihs hsiblings hparent)

/-- The nodes in the row are those that structuring comes to. -/
theorem mem_visits_iff (h : d.IsTree) : id ∈ d.visits ↔ d.Visited id := by
  obtain ⟨⟨-, hroot⟩, hbelow, -⟩ := h.occurs_root.exhibits
  rw [visits, List.mem_append, List.mem_singleton]
  constructor
  · rintro (hid | rfl)
    · exact visited_of_mem_visited hbelow (fun i hi => ⟨root, .root, hroot ▸ hi⟩) id hid
    · exact .root
  · intro hvisited
    induction hvisited with
    | root => exact .inr rfl
    | child _ hmem hmarkup hvalue ih =>
      refine .inl ?_
      rcases ih with hparent | rfl
      · exact mem_visited_of_mem_children hbelow hparent hmem hmarkup hvalue
      · exact mem_visited_of_mem_roots hbelow (hroot ▸ hmem) hmarkup hvalue

/-! ## The turn of a node -/

/-- The turn of a node in the row of visits to a tree. -/
structure Turn (d : Document) (id : NodeId) where
  isTree : d.IsTree
  /-- The nodes that are visited before. -/
  before : List NodeId
  /-- The nodes that are visited later. -/
  after : List NodeId
  visits : d.visits = before ++ id :: after

theorem exists_turn (h : d.IsTree) (hid : id ∈ d.visits) : Nonempty (d.Turn id) := by
  obtain ⟨before, after, hvisits⟩ := List.append_of_mem hid
  exact ⟨⟨h, before, after, hvisits⟩⟩

namespace Turn

/-- The visits before the turn of the node. -/
def earlier (t : d.Turn id) : Rewrite := d.rewriteEach structureNode t.before

/-- The visit to the node itself. -/
def visit (t : d.Turn id) : Rewrite := t.earlier.document.structureNode id

variable (t : d.Turn id)

/-- The turn of the node comes if all is complete up to it. -/
theorem structured_eq : d.structured =
    t.earlier.andThen fun _ =>
      t.visit.andThen fun d₁ => d₁.rewriteEach structureNode t.after := by
  rw [structured_eq_rewriteEach t.isTree, t.visits, rewriteEach_append]
  refine Eq.trans (congrArg t.earlier.andThen (funext fun _ => rewriteEach_cons ..)) ?_
  rfl

theorem mem_visits (t : d.Turn id) : id ∈ d.visits := by
  rw [t.visits]
  exact List.mem_append_right _ List.mem_cons_self

theorem nodup : (t.before ++ id :: t.after).Nodup :=
  t.visits ▸ t.isTree.occurs_root.nodup_visits

theorem notMem_before : id ∉ t.before := fun hmem =>
  (List.nodup_append.1 t.nodup).2.2 id hmem id List.mem_cons_self rfl

theorem notMem_after : id ∉ t.after :=
  (List.nodup_cons.1 (List.nodup_append.1 t.nodup).2.1).1

theorem inRange_of_mem {i : NodeId} (hi : i ∈ t.before ++ id :: t.after) : d.InRange i :=
  t.isTree.occurs_root.inRange_of_mem_visits (show i ∈ d.visits from t.visits ▸ hi)

theorem lt_size (t : d.Turn id) : id < d.size := (t.inRange_of_mem (by simp)).lt_size

theorem keeps_earlier : Keeps t.before d t.earlier.document :=
  keeps_rewriteEach (List.nodup_append.1 t.nodup).1 fun _ hi =>
    t.inRange_of_mem (List.mem_append_left _ hi)

/-- When its turn comes, the node is as it was. -/
theorem node_eq : t.earlier.document.node id = d.node id :=
  t.keeps_earlier.kept id t.lt_size t.notMem_before

theorem inRange : t.earlier.document.InRange id :=
  (t.inRange_of_mem (by simp)).congr t.keeps_earlier t.notMem_before

/-- The children of the node are then what they were to structuring. -/
theorem items_eq : t.earlier.document.items id = d.items id := by
  rw [items, items, children_eq_of_node_eq t.node_eq]
  refine List.map_congr_left fun child hchild => ?_
  have hlt := (t.inRange_of_mem (by simp)).children child hchild
  rw [item, item, t.keeps_earlier.kind_eq hlt, t.keeps_earlier.text_eq hlt]

/-- The visit to a node with markup. -/
theorem visit_of_markup (h : ∃ child ∈ d.children id, d.kind child = .markup) :
    t.visit = t.earlier.document.structureChildren id := by
  obtain ⟨child, hchild, hkind⟩ := h
  rw [visit, structureNode, if_pos]
  refine List.any_eq_true.2 ⟨child, ?_, beq_iff_eq.2 ?_⟩
  · rwa [children_eq_of_node_eq t.node_eq]
  · rwa [t.keeps_earlier.kind_eq ((t.inRange_of_mem (by simp)).children child hchild)]

/-- The visit to a node without markup. -/
theorem visit_of_not_markup (h : ∀ child ∈ d.children id, d.kind child ≠ .markup) :
    t.visit = ⟨t.earlier.document, []⟩ := by
  rw [visit, structureNode, if_neg]
  intro hany
  obtain ⟨child, hchild, hkind⟩ := List.any_eq_true.1 hany
  rw [children_eq_of_node_eq t.node_eq] at hchild
  rw [t.keeps_earlier.kind_eq ((t.inRange_of_mem (by simp)).children child hchild)] at hkind
  exact h child hchild (beq_iff_eq.1 hkind)

theorem keeps_visit : Keeps [id] t.earlier.document t.visit.document :=
  keeps_structureNode t.inRange

/-- What is complete is complete up to the turn of the node and in it. What comes later changes
neither the node nor any node that its turn has added. -/
theorem keeps_later (hok : d.structured.ok) :
    t.earlier.ok ∧ t.visit.ok ∧ Keeps t.after t.visit.document d.structured.document := by
  have heq := t.structured_eq
  rw [heq] at hok
  have hearlier := Rewrite.ok_of_ok_andThen hok
  rw [Rewrite.andThen_of_ok hearlier] at heq hok
  have hvisit : t.visit.ok := Rewrite.ok_of_ok_andThen hok
  refine ⟨hearlier, hvisit, ?_⟩
  rw [heq, Rewrite.andThen_of_ok hvisit]
  obtain ⟨-, hnodup, hdisjoint⟩ := List.nodup_append.1 t.nodup
  obtain ⟨-, hafter⟩ := List.nodup_cons.1 hnodup
  refine keeps_rewriteEach hafter fun i hi => ?_
  have hrange := t.inRange_of_mem (List.mem_append_right _ (List.mem_cons_of_mem _ hi))
  refine (hrange.congr t.keeps_earlier fun hmem => ?_).congr t.keeps_visit fun hmem => ?_
  · exact hdisjoint i hmem i (List.mem_cons_of_mem _ hi) rfl
  · rw [List.mem_singleton] at hmem
    exact t.notMem_after (hmem ▸ hi)

theorem lt_size_of_mem_after {i : NodeId} (hi : i ∈ t.after) : i < d.size :=
  (t.inRange_of_mem (List.mem_append_right _ (List.mem_cons_of_mem _ hi))).lt_size

end Turn

end Document

end MarkupTemplate
