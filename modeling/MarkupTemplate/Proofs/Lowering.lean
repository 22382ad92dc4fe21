import MarkupTemplate.Document.Lowered
import MarkupTemplate.Proofs.LoweredForest
import MarkupTemplate.Proofs.Unfolding

/-!
# Lowering a tree

In a document, orphans are lowered one after another. Inner orphans come first in the list, so an
outer one takes over what has become of them, and it is still where it was found. In the end the
tree of the document is lowered as one.

## Main definitions

* `Document.Placed`: a forest stands under a parent
* `Document.Lowers`: in a document a forest under a parent is lowered

## Main results

* `Document.lowerOrphan_eq`: what lowering one orphan does
* `Document.rewriteEach_orphans`: lowering all orphans of a forest lowers the forest
* `Document.bodied_of_ok`: lowering fails where an orphan has no body
* `Document.tree_lowered`: a well-formed document is lowered as its tree is
-/

namespace MarkupTemplate

namespace Document

variable {d d' d₁ d₂ : Document} {f g : Forest} {components : Components} {n : Nat}

/-! ## The children of one orphan -/

section Child

variable {element child : NodeId} {label : Label} {children : Forest}

theorem lowerChild_eq (element child : NodeId) (d : Document) :
    lowerChild element d child =
      if d.kind child = .constructBody then d
      else if d.kind child = .constructAttribute then
        (d.lowerAttribute child).1.appendChild element d.size
      else d.appendChild element child := by
  unfold lowerChild
  split <;> simp_all [lowerAttribute]

/-- An attribute of an orphan comes again under the element as two new nodes: the attribute and its
value. -/
theorem gains_lowerAttribute (helement : element < d.size)
    (hf : d.Exhibits (.cons child label children .nil))
    (hlt : ∀ id ∈ (Forest.cons child label children .nil).preorder, id < element) :
    let d' := (d.lowerAttribute child).1.appendChild element d.size
    Gains [element] d d' (Forest.cons child label children .nil).preorder
        (.cons d.size label.asAttribute
          (.cons (d.size + 1) { kind := .attributeValue } children .nil) .nil) ∧
      d'.children element = d.children element ++ [d.size] := by
  obtain ⟨⟨rfl, hchildren⟩, hbelow, -⟩ := hf
  simp only [Forest.preorder, List.append_nil, List.mem_cons] at hlt
  intro d'
  let n := d.node child
  let a : Node :=
    { n with kind := .attribute, fragments := [], descriptors := [], children := [d.size + 1] }
  let v : Node := { kind := .attributeValue, children := n.children }
  have hsize : (d.add a).size = d.size + 1 := size_add ..
  have hd' : d' = ((d.add a).add v).appendChild element d.size := rfl
  have hgrows : Extends [element] d d' :=
    ((Extends.add a).trans (.add v) fun _ hmem _ => hmem).trans (.appendChild _ _)
      fun _ hmem _ => hmem
  have hnode : (d.add a).node d.size = a := node_add_size ..
  have hnode' : ((d.add a).add v).node (d.size + 1) = v := by
    rw [← hsize, node_add_size]
  -- The element gets a child afterwards, and the two new nodes stay as they are.
  have hkeep : ∀ id, id ≠ element → d'.node id = ((d.add a).add v).node id :=
    fun id hne => node_modify_of_ne hne
  have hfirst : d'.node d.size = a := by
    rw [hkeep _ (Nat.ne_of_gt helement), node_add_of_lt _ _ (by simp [hsize]), hnode]
  have hsecond : d'.node (d.size + 1) = v := by
    rw [hkeep _ (Nat.ne_of_gt (Nat.lt_succ_of_lt helement)), hnode']
  refine ⟨⟨hgrows, ⟨⟨?_, ?_⟩, ⟨⟨?_, ?_⟩, ?_, trivial⟩, trivial⟩, fun id => ?_⟩, ?_⟩
  · rw [label, hfirst]
    rfl
  · rw [Document.children, hfirst]
    rfl
  · rw [label, hsecond]
  · rw [Document.children, hsecond]
    exact hchildren
  · exact hgrows.exhibits hbelow fun id hid =>
      ⟨Nat.lt_trans (hlt id (.inr hid)) helement,
        by simpa using Nat.ne_of_lt (hlt id (.inr hid))⟩
  · have hsize' : d'.size = d.size + 2 := by simp [hd', hsize]
    simp only [Forest.preorder, List.append_nil, List.count_cons, fresh, hsize']
    grind
  · have helement' : element < (d.add a).size := hsize ▸ Nat.lt_succ_of_lt helement
    rw [hd', children_appendChild (by simpa using Nat.lt_succ_of_lt helement'), if_pos rfl,
      children_add_of_lt _ helement', children_add_of_lt _ helement]

/-- Any other child goes under the element with all that is under it. -/
theorem gains_appendChild (helement : element < d.size) (hf : d.Exhibits f)
    (hlt : ∀ id ∈ f.preorder, id < element) :
    Gains [element] d (d.appendChild element child) f.preorder f ∧
      (d.appendChild element child).children element = d.children element ++ [child] := by
  have hgrows : Extends [element] d (d.appendChild element child) := .appendChild _ _
  refine ⟨⟨hgrows, hgrows.exhibits hf fun id hid => ?_, fun id => Nat.le_add_right _ _⟩, ?_⟩
  · exact ⟨Nat.lt_trans (hlt id hid) helement, by simpa using Nat.ne_of_lt (hlt id hid)⟩
  · rw [children_appendChild helement, if_pos rfl]

/-- A child that is no body comes under the element, an attribute of the orphan as an attribute of
the element. -/
theorem gains_lowerChild (hn : n ≤ element) (helement : element < d.size)
    (hf : d.Exhibits (.cons child label children .nil)) (hbody : label.kind ≠ .constructBody)
    (hlt : ∀ id ∈ (Forest.cons child label children .nil).preorder, id < element) :
    ∃ head : Forest,
      Gains [element] d (lowerChild element d child)
          (Forest.cons child label children .nil).preorder head ∧
        (lowerChild element d child).children element = d.children element ++ head.roots ∧
        head.capped n = ((Forest.cons child label children .nil).capped n).withAttributes n := by
  have hkind : d.kind child = label.kind := congrArg Label.kind hf.1.1
  rw [lowerChild_eq, if_neg (hkind ▸ hbody)]
  by_cases hattribute : label.kind = .constructAttribute
  · rw [if_pos (hkind.trans hattribute)]
    obtain ⟨hgains, hunder⟩ := gains_lowerAttribute helement hf hlt
    refine ⟨_, hgains, hunder, ?_⟩
    have hle : n ≤ d.size := Nat.le_trans hn (Nat.le_of_lt helement)
    simp [Forest.capped, Forest.withAttributes, hattribute, Nat.min_eq_right hle,
      Nat.min_eq_right (Nat.le_succ_of_le hle)]
  · rw [if_neg (hkind ▸ hattribute)]
    obtain ⟨hgains, hunder⟩ := gains_appendChild helement hf hlt
    exact ⟨_, hgains, hunder, by simp [Forest.capped, Forest.withAttributes, hattribute]⟩

/-- The children of an orphan but for its bodies come under the element. -/
theorem gains_foldl_lowerChild (hn : n ≤ element) (helement : element < d.size)
    (hf : d.Exhibits f) (hlt : ∀ id ∈ f.preorder, id < element) :
    ∃ g : Forest,
      Gains [element] d (f.roots.foldl (lowerChild element) d) f.withoutBodies.preorder g ∧
        (f.roots.foldl (lowerChild element) d).children element =
          d.children element ++ g.roots ∧
        g.capped n = (f.withoutBodies.capped n).withAttributes n := by
  induction f generalizing d with
  | nil => exact ⟨.nil, ⟨.refl d, trivial, fun _ => Nat.zero_le _⟩, by simp [Forest.roots], rfl⟩
  | cons child label children siblings _ ih =>
    obtain ⟨hchild, hbelow, hsiblings⟩ := hf
    simp only [Forest.preorder, List.mem_cons, List.mem_append] at hlt
    rw [Forest.roots, List.foldl_cons, Forest.withoutBodies]
    by_cases hbody : label.kind = .constructBody
    · have hkind : d.kind child = .constructBody := (congrArg Label.kind hchild.1).trans hbody
      rw [if_pos hbody, lowerChild_eq, if_pos hkind]
      exact ih helement hsiblings fun id hid => hlt id (.inr (.inr hid))
    · have hlt' : ∀ id ∈ (Forest.cons child label children .nil).preorder, id < element := by
        simp only [Forest.preorder, List.append_nil, List.mem_cons]
        exact fun id hid => hlt id (hid.imp_right .inl)
      have hold : ∀ id : Nat, id < element → id < d.size ∧ id ∉ [element] := fun id hid =>
        ⟨Nat.lt_trans hid helement, by simpa using Nat.ne_of_lt hid⟩
      -- The child and what is under it come first, and then what comes of the later children.
      obtain ⟨head, hhead, hroots, hcapped⟩ :=
        gains_lowerChild hn helement ⟨hchild, hbelow, trivial⟩ hbody hlt'
      obtain ⟨rest, hrest, hroots', hcapped'⟩ := ih
        (Nat.lt_of_lt_of_le helement hhead.grows.size_le)
        (hhead.grows.exhibits hsiblings fun id hid => hold id (hlt id (.inr (.inr hid))))
        fun id hid => hlt id (.inr (.inr hid))
      have hgains := hhead.append hrest (fun id hid => hold id (hlt' id hid)) fun id hid => by
        simpa [List.mem_singleton.1 hid] using helement
      refine ⟨head ++ rest, ?_, ?_, ?_⟩
      · rw [if_neg hbody]
        simpa [Forest.preorder] using hgains
      · rw [hroots', hroots, List.append_assoc, Forest.roots_append]
      · rw [if_neg hbody, Forest.capped_append, hcapped, hcapped', ← Forest.withAttributes_append]
        rfl

/-- The content of the body goes under the element as it is. -/
theorem extends_foldl_appendChild (helement : element < d.size) (ids : List NodeId) :
    let d' := ids.foldl (fun d child => d.appendChild element child) d
    Extends [element] d d' ∧ d'.size = d.size ∧
      d'.children element = d.children element ++ ids := by
  induction ids generalizing d with
  | nil => exact ⟨.refl d, rfl, by simp⟩
  | cons child ids ih =>
    obtain ⟨hgrows, hsize, hchildren⟩ := ih (d := d.appendChild element child) (by simpa)
    refine ⟨(Extends.appendChild _ _).trans hgrows fun _ hmem _ => hmem, by simpa using hsize, ?_⟩
    rw [List.foldl_cons, hchildren, children_appendChild helement, if_pos rfl, List.append_assoc]
    rfl

end Child

theorem map_kind_roots_of_exhibits (hf : d.Exhibits f) : f.roots.map d.kind = f.rootKinds := by
  induction f with
  | nil => rfl
  | cons id label children siblings _ ih =>
    rw [Forest.roots, List.map_cons, ih hf.2.2, Forest.rootKinds]
    exact congrArg (· :: _) (congrArg Label.kind hf.1.1)

/-- An orphan that can be lowered has a body. -/
theorem mem_rootKinds_of_ok {parent id : NodeId} (hid : d.children id = f.roots)
    (hf : d.Exhibits f) (hok : (d.lowerOrphan ⟨parent, id⟩).ok) :
    .constructBody ∈ f.rootKinds := by
  rw [← map_kind_roots_of_exhibits hf, ← hid]
  cases hfind : d.bodyOf? id with
  | none => simp [lowerOrphan, hfind, Rewrite.ok] at hok
  | some body =>
    have hkind : d.kind body = .constructBody := by simpa using List.find?_some hfind
    exact hkind ▸ List.mem_map_of_mem (List.mem_of_find?_eq_some hfind)

/-- The body of a construct is found, with its content. -/
theorem exists_bodyOf? {id : NodeId} (hid : d.children id = f.roots) (hf : d.Exhibits f)
    (hbody : .constructBody ∈ f.rootKinds) :
    ∃ body, d.bodyOf? id = some body ∧ d.children body = f.bodyContent.roots ∧
      d.Exhibits f.bodyContent := by
  rw [bodyOf?, hid]
  clear hid
  induction f with
  | nil => simp [Forest.rootKinds] at hbody
  | cons child label children siblings _ ih =>
    obtain ⟨⟨hlabel, hchildren⟩, hbelow, hsiblings⟩ := hf
    have hkind : d.kind child = label.kind := congrArg Label.kind hlabel
    rw [Forest.roots, List.find?_cons, hkind, Forest.bodyContent]
    by_cases hthis : label.kind = .constructBody
    · exact ⟨child, by simp [hthis], by rw [if_pos hthis]; exact hchildren,
        by rw [if_pos hthis]; exact hbelow⟩
    · have hlater : .constructBody ∈ siblings.rootKinds := by
        simpa [Forest.rootKinds, Ne.symm hthis] using hbody
      obtain ⟨body, hfind, hcontent⟩ := ih hsiblings hlater
      refine ⟨body, ?_, by rwa [if_neg hthis]⟩
      rw [show (label.kind == .constructBody) = false by simpa using hthis]
      exact hfind

/-! ## One orphan -/

section Orphan

variable {parent id : Nat} {before after : List NodeId}

/-- The children of the parent change at the place of the orphan only. -/
theorem children_replaceChild (element : NodeId) (hparent : parent < d.size)
    (hchildren : d.children parent = before ++ id :: after) (hbefore : id ∉ before) :
    (d.children parent).idxOf? id = some before.length ∧
      (d.replaceChild parent before.length element).children parent =
        before ++ element :: after := by
  refine ⟨?_, ?_⟩
  · have hnone : before.findIdx? (· == id) = none := by
      rw [List.findIdx?_eq_none_iff]
      intro i hi
      have hne : i ≠ id := fun he => hbefore (he ▸ hi)
      simpa using hne
    rw [hchildren, List.idxOf?, List.findIdx?_append, hnone, List.findIdx?_cons]
    simp
  · rw [Document.children, replaceChild, node_modify d _ hparent, if_pos rfl]
    change (d.children parent).set _ _ = _
    simp [hchildren]

/-- The element for an orphan is a new node. Under it come the children of the orphan but for the
bodies, and then the content of the body. -/
theorem gains_element (element : Node) (hn : n ≤ d.size) (hempty : element.children = [])
    (hf : d.Exhibits f) (hcontent : d.Exhibits f.bodyContent)
    (hlt : ∀ i ∈ f.preorder, i < d.size) :
    ∃ g : Forest,
      Gains [] d
          (f.bodyContent.roots.foldl (fun d' child => d'.appendChild d.size child)
            (f.roots.foldl (lowerChild d.size) (d.add element)))
          f.preorder (.cons d.size element.toLabel g .nil) ∧
        g.capped n = (f.capped n).withoutBodies.withAttributes n ++ (f.capped n).bodyContent := by
  let d₁ := d.add element
  have hnew : Extends [] d d₁ := .add element
  have hsize : d₁.size = d.size + 1 := size_add ..
  have helement : d.size < d₁.size := hsize ▸ Nat.lt_succ_self _
  obtain ⟨g, hgains, hunder, hcapped⟩ := gains_foldl_lowerChild hn helement
    (hnew.exhibits hf fun i hi => ⟨hlt i hi, List.not_mem_nil⟩) hlt
  generalize f.roots.foldl (lowerChild d.size) d₁ = d₂ at hgains hunder ⊢
  obtain ⟨happends, -, hunder'⟩ := extends_foldl_appendChild
    (Nat.lt_of_lt_of_le helement hgains.grows.size_le) f.bodyContent.roots
  generalize f.bodyContent.roots.foldl (fun d' child => d'.appendChild d.size child) d₂ = d₃
    at happends hunder' ⊢
  -- Only the new element is changed after it was added.
  have hold : Extends [] d d₃ := by
    have hlater : ∀ i ∈ [d.size], i < d.size → i ∈ ([] : List NodeId) := by simp
    exact (hnew.trans hgains.grows hlater).trans happends hlater
  have hgains' : Gains [d.size] d₁ d₃ (f.withoutBodies.preorder ++ f.bodyContent.preorder)
      (g ++ f.bodyContent) := by
    refine hgains.append ⟨happends, hold.exhibits hcontent fun i hi =>
      ⟨hlt i (Forest.mem_of_mem_bodyContent hi), List.not_mem_nil⟩, fun i => Nat.le_add_right _ _⟩
      (fun i hi => ?_) fun i hi => ⟨List.mem_singleton.1 hi ▸ helement, hi⟩
    have hi := hlt i (Forest.mem_of_mem_withoutBodies hi)
    exact ⟨Nat.lt_trans hi helement, by simpa using Nat.ne_of_lt hi⟩
  refine ⟨g ++ f.bodyContent, ⟨hold, ⟨⟨?_, ?_⟩, hgains'.exhibits, trivial⟩, fun i => ?_⟩, ?_⟩
  · rw [hgains'.grows.label d.size helement, label_add_size]
  · rw [hunder', hunder, children_add_size, hempty, Forest.roots_append]
    rfl
  · -- The old nodes under the element are nodes under the orphan, and all others are new.
    have hle := hgains'.count_le i
    have hle' := f.count_withoutBodies_add_count_bodyContent_le i
    have hone : fresh d.size (d.size + 1) i = if d.size == i then 1 else 0 := by grind [fresh]
    have hfresh := fresh_add_fresh (Nat.le_add_right d.size 1) (hsize ▸ hgains'.grows.size_le) i
    rw [hsize, List.count_append] at hle
    simp only [Forest.preorder, List.append_nil, List.count_cons]
    rw [← hone]
    omega
  · rw [Forest.capped_append, hcapped, Forest.withoutBodies_capped, Forest.bodyContent_capped]

/-- The element for an orphan stands where the orphan stood. -/
theorem lowerOrphan_eq (hn : n ≤ d.size) (hid : d.children id = f.roots) (hf : d.Exhibits f)
    (hbody : .constructBody ∈ f.rootKinds) (hlt : ∀ i ∈ f.preorder, i < d.size)
    (hparent : parent < d.size) (hnot : parent ∉ f.preorder)
    (hchildren : d.children parent = before ++ id :: after) (hbefore : id ∉ before) :
    ∃ (d' : Document) (g : Forest),
      d.lowerOrphan ⟨parent, id⟩ = ⟨d', []⟩ ∧
        Gains [parent] d d' f.preorder (.cons d.size (d.label id).asElement g .nil) ∧
        d'.children parent = before ++ d.size :: after ∧
        g.capped n = (f.capped n).withoutBodies.withAttributes n ++ (f.capped n).bodyContent := by
  obtain ⟨body, hfind, hcontent, hexhibits⟩ := exists_bodyOf? hid hf hbody
  let element : Node := { kind := .element, name := (d.node id).name, span := (d.node id).span,
                          diagnostics := (d.node id).diagnostics }
  obtain ⟨g, hgains, hcapped⟩ := gains_element element hn rfl hf hexhibits hlt
  generalize hd' : f.bodyContent.roots.foldl _ (f.roots.foldl _ _) = d' at hgains
  have horphan : d.lowerOrphan ⟨parent, id⟩ =
      ⟨d'.replaceChild parent before.length d.size, []⟩ := by
    have hindex := (children_replaceChild d.size hparent hchildren hbefore).1
    simp only [lowerOrphan, hfind, hindex, hcontent]
    rw [show (d.node id).children = f.roots from hid, ← hd']
  have hgrows := hgains.grows
  have hplace := children_replaceChild d.size
    (Nat.lt_of_lt_of_le hparent hgrows.size_le)
    ((hgrows.children hparent List.not_mem_nil).trans hchildren) hbefore
  have hreplace : Extends [parent] d' (d'.replaceChild parent before.length d.size) :=
    .modify fun _ => rfl
  refine ⟨_, g, horphan, ⟨(hgrows.mono fun _ hi => absurd hi List.not_mem_nil).trans hreplace
    fun _ hi _ => hi, hreplace.exhibits hgains.exhibits fun i hi => ?_, fun i => ?_⟩, hplace.2,
    hcapped⟩
  · -- The parent is not one of the nodes under the element.
    rw [List.mem_singleton]
    rcases hgains.mem hi with hi | ⟨hle, hi⟩
    · exact ⟨Nat.lt_of_lt_of_le (hlt i hi) hgrows.size_le, fun he => hnot (he ▸ hi)⟩
    · exact ⟨hi, fun he => absurd (he ▸ hparent) (Nat.not_lt.2 hle)⟩
  · rw [replaceChild, size_modify]
    exact hgains.count_le i

end Orphan

/-! ## All orphans of a forest -/

/-- The forest stands in the document under the parent, after other children of it. All its nodes
are distinct, and the number `n` separates them from nodes that were added later. -/
structure Placed (n : Nat) (parent : NodeId) (before : List NodeId) (d : Document) (f : Forest) :
    Prop where
  le_size : n ≤ d.size
  children : d.children parent = before ++ f.roots
  exhibits : d.Exhibits f
  lt : ∀ i ∈ parent :: f.preorder, i < n
  nodup : (parent :: f.preorder).Nodup
  notMem : ∀ i ∈ before, i ∉ f.preorder

/-- The document `d'` comes from `d` by lowering the forest `f` under the parent: the forest `g`
stands in its place. -/
structure Lowers (components : Components) (n : Nat) (parent : NodeId) (before : List NodeId)
    (d d' : Document) (f g : Forest) : Prop where
  gains : Gains (parent :: f.preorder) d d' f.preorder g
  children : d'.children parent = before ++ g.roots
  capped : g.capped n = f.lowered components n

section Run

variable {parent id : Nat} {label : Label} {below siblings head : Forest}
variable {before : List NodeId}

namespace Placed

theorem lt_size (h : Placed n parent before d f) {i : Nat} (hi : i ∈ parent :: f.preorder) :
    i < d.size :=
  Nat.lt_of_lt_of_le (h.lt i hi) h.le_size

/-- Later siblings are apart from the node and what is under it, and from the parent. -/
theorem disjoint (h : Placed n parent before d (.cons id label below siblings)) {i : Nat}
    (hi : i ∈ siblings.preorder) : i ∉ parent :: id :: below.preorder := by
  have hnodup := h.nodup
  simp only [Forest.preorder, List.mem_cons, List.mem_append, List.nodup_cons, List.nodup_append,
    not_or] at hnodup
  obtain ⟨⟨-, -, hparent⟩, ⟨-, hid⟩, -, -, hdisjoint⟩ := hnodup
  simp only [List.mem_cons, not_or]
  exact ⟨fun he => hparent (he ▸ hi), fun he => hid (he ▸ hi),
    fun hmem => hdisjoint i hmem i hi rfl⟩

/-- What is under the first node stands under it. -/
theorem down (h : Placed n parent before d (.cons id label below siblings)) :
    Placed n id [] d below := by
  have hlt := h.lt
  have hnodup := h.nodup
  simp only [Forest.preorder, List.mem_cons, List.mem_append, List.nodup_cons,
    List.nodup_append, not_or] at hlt hnodup
  obtain ⟨-, ⟨hid, -⟩, hnodup, -⟩ := hnodup
  exact
    { le_size := h.le_size
      children := h.exhibits.1.2
      exhibits := h.exhibits.2.1
      lt := fun i hi => hlt i (.inr ((List.mem_cons.1 hi).imp_right .inl))
      nodup := List.nodup_cons.2 ⟨hid, hnodup⟩
      notMem := by simp }

/-- The siblings of the first node still stand after it when it is replaced. -/
theorem next (h : Placed n parent before d (.cons id label below siblings))
    (hgains : Gains (parent :: id :: below.preorder) d d' (id :: below.preorder) head)
    (hchildren : d'.children parent = before ++ head.roots ++ siblings.roots) :
    Placed n parent (before ++ head.roots) d' siblings := by
  have hlt := h.lt
  have hnodup := h.nodup
  have hbefore := h.notMem
  simp only [Forest.preorder, List.mem_cons, List.mem_append, List.nodup_cons, List.nodup_append,
    not_or] at hlt hnodup hbefore
  obtain ⟨⟨-, -, hparent⟩, -, -, hsiblings, -⟩ := hnodup
  have hltd : ∀ i ∈ siblings.preorder, i < d.size := fun i hi =>
    Nat.lt_of_lt_of_le (hlt i (.inr (.inr (.inr hi)))) h.le_size
  exact
    { le_size := Nat.le_trans h.le_size hgains.grows.size_le
      children := hchildren
      exhibits := hgains.grows.exhibits h.exhibits.2.2 fun i hi => ⟨hltd i hi, h.disjoint hi⟩
      lt := fun i hi => hlt i ((List.mem_cons.1 hi).imp_right fun hi => .inr (.inr hi))
      nodup := List.nodup_cons.2 ⟨hparent, hsiblings⟩
      notMem := fun i hi hmem => by
        rcases List.mem_append.1 hi with hi | hi
        · exact (hbefore i hi).2.2 hmem
        · rcases hgains.mem (Forest.mem_preorder_of_mem_roots hi) with hi | hi
          · exact h.disjoint hmem (List.mem_cons_of_mem _ hi)
          · exact absurd (hltd i hmem) (Nat.not_lt.2 hi.1) }

end Placed

namespace Lowers

/-- While what is under it is lowered, a node stays where it is, as what it is. -/
theorem place (h : Placed n parent before d (.cons id label below siblings))
    (hbelow : Lowers components n id [] d d₁ below g) :
    Extends (parent :: id :: below.preorder) d d₁ ∧
      d₁.children parent = before ++ id :: siblings.roots ∧ d₁.label id = label := by
  have hgrows := hbelow.gains.grows
  have hnodup := h.nodup
  simp only [Forest.preorder, List.mem_cons, List.mem_append, List.nodup_cons, not_or] at hnodup
  obtain ⟨⟨hne, hnot, -⟩, -⟩ := hnodup
  refine ⟨hgrows.mono fun i hi => List.mem_cons_of_mem _ hi, ?_, ?_⟩
  · rw [hgrows.children (h.lt_size List.mem_cons_self) (by simp [hne, hnot]), h.children,
      Forest.roots]
  · rw [hgrows.label id (h.lt_size (by simp [Forest.preorder])), h.exhibits.1.1]

/-- Once what is under it is lowered, an orphan is lowered. -/
theorem orphan (h : Placed n parent before d (.cons id label below siblings))
    (horphan : label.isOrphan components = true) (hbody : .constructBody ∈ below.rootKinds)
    (hbelow : Lowers components n id [] d d₁ below g) :
    ∃ (d₂ : Document) (head : Forest),
      d₁.rewriteEach lowerOrphan [⟨parent, id⟩] = ⟨d₂, []⟩ ∧
        Gains (parent :: id :: below.preorder) d d₂ (id :: below.preorder) head ∧
        d₂.children parent = before ++ head.roots ++ siblings.roots ∧
        head.capped n = (Forest.cons id label below .nil).lowered components n := by
  obtain ⟨hgrows, hparent, hlabel⟩ := place h hbelow
  have hle : n ≤ d₁.size := Nat.le_trans h.le_size hgrows.size_le
  have hbefore : id ∉ before := fun hmem => h.notMem id hmem (by simp [Forest.preorder])
  have hnodup := h.nodup
  simp only [Forest.preorder, List.mem_cons, List.mem_append, List.nodup_cons, not_or] at hnodup
  have hbody' : .constructBody ∈ g.rootKinds := by
    rw [← Forest.rootKinds_capped (n := n), hbelow.capped, Forest.mem_rootKinds_lowered]
    exact hbody
  -- What is under the orphan by now was under it before, or it is new.
  have hlt : ∀ i ∈ g.preorder, i < d₁.size := fun i hi => (hbelow.gains.mem hi).elim
    (fun hi => Nat.lt_of_lt_of_le (h.lt_size (by simp [Forest.preorder, hi])) hgrows.size_le)
    And.right
  have hparentlt : parent < d.size := h.lt_size List.mem_cons_self
  have hnot : parent ∉ g.preorder := fun hi => (hbelow.gains.mem hi).elim hnodup.1.2.1
    fun hnew => absurd hparentlt (Nat.not_lt.2 hnew.1)
  obtain ⟨d₂, g', hrun, hgains, hplace, hcapped⟩ := lowerOrphan_eq hle hbelow.children
    hbelow.gains.exhibits hbody' hlt (Nat.lt_of_lt_of_le hparentlt hgrows.size_le) hnot hparent
    hbefore
  refine ⟨d₂, .cons d₁.size label.asElement g' .nil, ?_, ⟨hgrows.trans hgains.grows ?_,
    hlabel ▸ hgains.exhibits, fun i => ?_⟩, ?_, ?_⟩
  · rw [rewriteEach_cons, hrun]
    rfl
  · simp
  · have hle := hbelow.gains.count_le i
    have hle' := hgains.count_le i
    have hfresh := fresh_add_fresh hgrows.size_le hgains.grows.size_le i
    simp only [Forest.preorder, List.count_cons] at hle' ⊢
    omega
  · simpa [Forest.roots] using hplace
  · simp [Forest.capped, Forest.lowered, horphan, hcapped, hbelow.capped, Nat.min_eq_right hle]

/-- Once what is under it is lowered, any other node stays. -/
theorem other (h : Placed n parent before d (.cons id label below siblings))
    (horphan : label.isOrphan components ≠ true)
    (hbelow : Lowers components n id [] d d₁ below g) :
    let head := Forest.cons id label g .nil
    Gains (parent :: id :: below.preorder) d d₁ (id :: below.preorder) head ∧
      d₁.children parent = before ++ head.roots ++ siblings.roots ∧
      head.capped n = (Forest.cons id label below .nil).lowered components n := by
  obtain ⟨hgrows, hparent, hlabel⟩ := place h hbelow
  refine ⟨⟨hgrows, ⟨⟨hlabel, hbelow.children⟩, hbelow.gains.exhibits, trivial⟩, fun i => ?_⟩,
    ?_, ?_⟩
  · have hle := hbelow.gains.count_le i
    simp only [Forest.preorder, List.append_nil, List.count_cons]
    omega
  · simpa [Forest.roots] using hparent
  · have hlt : id < n := h.lt id (by simp [Forest.preorder])
    simp [Forest.capped, Forest.lowered, horphan, hbelow.capped, Nat.min_eq_left (Nat.le_of_lt hlt)]

/-- Once what is under it is lowered, a node is lowered if it is an orphan, and stays otherwise. -/
theorem node (h : Placed n parent before d (.cons id label below siblings))
    (hbody : label.isOrphan components → .constructBody ∈ below.rootKinds)
    (hbelow : Lowers components n id [] d d₁ below g) :
    ∃ (d₂ : Document) (head : Forest),
      d₁.rewriteEach lowerOrphan (if label.isOrphan components then [⟨parent, id⟩] else []) =
          ⟨d₂, []⟩ ∧
        Gains (parent :: id :: below.preorder) d d₂ (id :: below.preorder) head ∧
        d₂.children parent = before ++ head.roots ++ siblings.roots ∧
        head.capped n = (Forest.cons id label below .nil).lowered components n := by
  by_cases horphan : label.isOrphan components = true
  · rw [if_pos horphan]
    exact orphan h horphan (hbody horphan) hbelow
  · rw [if_neg horphan]
    exact ⟨d₁, _, rfl, other h horphan hbelow⟩

end Lowers

/-- Lowering the orphans of a forest one after another lowers the forest. -/
theorem rewriteEach_orphans (h : Placed n parent before d f) (hbodied : f.Bodied components) :
    ∃ (d' : Document) (g : Forest),
      d.rewriteEach lowerOrphan (f.orphans components parent) = ⟨d', []⟩ ∧
        Lowers components n parent before d d' f g := by
  induction f generalizing d parent before with
  | nil => exact ⟨d, .nil, rfl, ⟨.refl d, trivial, fun _ => Nat.zero_le _⟩, h.children, rfl⟩
  | cons id label below siblings ihb ihs =>
    obtain ⟨hbody, hbodiedb, hbodieds⟩ := hbodied
    obtain ⟨d₁, g, hrun₁, hlowers⟩ := ihb h.down hbodiedb
    obtain ⟨d₂, head, hrun₂, hgains, hhead, hcapped⟩ := Lowers.node h hbody hlowers
    obtain ⟨d₃, rest, hrun₃, hrest⟩ := ihs (h.next hgains hhead) hbodieds
    refine ⟨d₃, head ++ rest, ?_, ⟨?_, ?_, ?_⟩⟩
    · rw [Forest.orphans, rewriteEach_append, hrun₁, Rewrite.andThen_of_ok rfl,
        rewriteEach_append, hrun₂, Rewrite.andThen_of_ok rfl, hrun₃]
    · -- The later siblings are lowered without a change to what is there before them.
      have hparent : parent ∉ id :: below.preorder := fun hmem => (List.nodup_cons.1 h.nodup).1 (by
        simp only [Forest.preorder, List.mem_cons, List.mem_append] at hmem ⊢
        exact hmem.imp_right .inl)
      have hgains' : Gains (parent :: (Forest.cons id label below siblings).preorder) d d₂
          (id :: below.preorder) head := hgains.mono fun i hi => by
        simp only [Forest.preorder, List.mem_cons, List.mem_append] at hi ⊢
        exact hi.imp_right fun hi => hi.imp_right .inl
      refine hgains'.append hrest.gains (fun i hi => ⟨h.lt_size ?_, fun hmem => ?_⟩) fun i hi => ?_
      · simp only [Forest.preorder, List.mem_cons, List.mem_append] at hi ⊢
        exact .inr (hi.imp_right .inl)
      · rcases List.mem_cons.1 hmem with rfl | hmem
        · exact hparent hi
        · exact h.disjoint hmem (List.mem_cons_of_mem _ hi)
      · have hi : i ∈ parent :: (Forest.cons id label below siblings).preorder := by
          simp only [Forest.preorder, List.mem_cons, List.mem_append] at hi ⊢
          exact hi.imp_right fun hi => .inr (.inr hi)
        exact ⟨h.lt_size hi, hi⟩
    · rw [hrest.children, Forest.roots_append, List.append_assoc]
    · rw [Forest.capped_append, hcapped, hrest.capped]
      simp only [Forest.lowered]
      split <;> rfl

/-- Lowering fails where an orphan has no body. -/
theorem bodied_of_ok (h : Placed n parent before d f)
    (hok : (d.rewriteEach lowerOrphan (f.orphans components parent)).ok) :
    f.Bodied components := by
  induction f generalizing d parent before with
  | nil => trivial
  | cons id label below siblings ihb ihs =>
    rw [Forest.orphans, rewriteEach_append] at hok
    have hbodiedb := ihb h.down (Rewrite.ok_of_ok_andThen hok)
    obtain ⟨d₁, g, hrun₁, hlowers⟩ := rewriteEach_orphans h.down hbodiedb
    rw [hrun₁, Rewrite.andThen_of_ok rfl, rewriteEach_append] at hok
    have hbody : label.isOrphan components → .constructBody ∈ below.rootKinds := by
      intro horphan
      have hthis := Rewrite.ok_of_ok_andThen hok
      rw [if_pos horphan, rewriteEach_cons] at hthis
      have hkinds := mem_rootKinds_of_ok hlowers.children hlowers.gains.exhibits
        (Rewrite.ok_of_ok_andThen hthis)
      rwa [← Forest.rootKinds_capped (n := n), hlowers.capped, Forest.mem_rootKinds_lowered]
        at hkinds
    obtain ⟨d₂, head, hrun₂, hgains, hhead, -⟩ := Lowers.node h hbody hlowers
    rw [hrun₂, Rewrite.andThen_of_ok rfl] at hok
    exact ⟨hbody, hbodiedb, ihs (h.next hgains hhead) hok⟩

end Run

/-! ## Whole documents -/

/-- Among distinct nodes none comes a second time. -/
theorem firstRepeated_eq_none {met ids : List NodeId} (hnodup : ids.Nodup)
    (hmet : ∀ id ∈ ids, id ∉ met) : firstRepeated met ids = none := by
  induction ids generalizing met with
  | nil => rfl
  | cons id ids ih =>
    obtain ⟨hid, hids⟩ := List.nodup_cons.1 hnodup
    rw [firstRepeated, if_neg (by simpa using hmet id List.mem_cons_self)]
    refine ih hids fun i hi hmem => ?_
    rcases List.mem_cons.1 hmem with rfl | hmem
    · exact hid hi
    · exact hmet i (List.mem_cons_of_mem _ hi) hmem

namespace IsTree

/-- The trees under the root stand there. -/
theorem placed (h : d.IsTree) : Placed d.size root [] d (d.forestBelow root) := by
  have hexhibits := h.exhibits
  have hnodup := h.nodup
  have hlt := h.lt_size
  rw [h.tree_eq] at hexhibits hnodup hlt
  simp only [Forest.preorder, List.append_nil] at hnodup hlt
  exact ⟨Nat.le_refl _, hexhibits.1.2, hexhibits.2.1, hlt, hnodup, by simp⟩

/-- No orphan of a tree is found twice, so each is lowered in turn. -/
theorem lowered_eq_rewriteEach (h : d.IsTree) :
    d.lowered components = d.rewriteEach lowerOrphan (d.orphans components) := by
  have hnodup : ((d.orphans components).map Orphan.node).Nodup := by
    rw [List.nodup_iff_count]
    intro id
    have hle := (d.forestBelow root).count_orphans_le components root id
    have hone := List.nodup_iff_count.1 h.occurs_below.nodup id
    exact Nat.le_trans hle hone
  rw [lowered, firstRepeated_eq_none hnodup (by simp)]

/-- A tree in which all orphans have bodies is lowered, and the result is a tree. -/
theorem lowered (h : d.IsTree) (hbodied : (d.forestBelow root).Bodied components) :
    (d.lowered components).faults = [] ∧ (d.lowered components).document.IsTree ∧
      (d.lowered components).document.tree.capped d.size =
        .cons root (d.label root) ((d.forestBelow root).lowered components d.size) .nil := by
  obtain ⟨d', g, hrun, hlowers⟩ := rewriteEach_orphans h.placed hbodied
  have heq : d.lowered components = ⟨d', []⟩ := h.lowered_eq_rewriteEach.trans hrun
  have hroot : root < d.size := d.size_pos
  have hexhibits : d'.Exhibits (.cons root (d.label root) g .nil) :=
    ⟨⟨hlowers.gains.grows.label root hroot, hlowers.children⟩, hlowers.gains.exhibits, trivial⟩
  have hcount : ∀ id, (root :: g.preorder).count id ≤
      (root :: (d.forestBelow root).preorder).count id + fresh d.size d'.size id := by
    intro id
    have hle := hlowers.gains.count_le id
    simp only [List.count_cons]
    omega
  have hlt := fun i hi => h.placed.lt i hi
  have hnodup := nodup_of_count_le hcount h.placed.nodup hlt
  have hlt' : ∀ i ∈ root :: g.preorder, i < d'.size := fun i hi =>
    (mem_of_count_le hcount hi).elim
      (fun hi => Nat.lt_of_lt_of_le (hlt i hi) hlowers.gains.grows.size_le) And.right
  have hoccurs : d'.Occurs (.cons root (d.label root) g .nil) :=
    ⟨hexhibits, by simpa [Forest.preorder] using hnodup, by simpa [Forest.preorder] using hlt'⟩
  rw [heq]
  refine ⟨rfl, hoccurs.isTree rfl, ?_⟩
  rw [hoccurs.tree_eq rfl, Forest.capped, hlowers.capped, Nat.min_eq_left (Nat.le_of_lt hroot)]
  rfl

/-- If a tree is lowered without a fault, all its orphans have bodies. -/
theorem bodied_of_ok (h : d.IsTree) (hok : (d.lowered components).ok) :
    (d.forestBelow root).Bodied components :=
  Document.bodied_of_ok h.placed (h.lowered_eq_rewriteEach ▸ hok)

end IsTree

/-- In a well-formed document every construct has a body. -/
theorem bodied_of_wellShaped (hf : d.Exhibits f) (h : ∀ id ∈ f.preorder, d.wellShaped id) :
    f.Bodied components := by
  induction f with
  | nil => trivial
  | cons id label below siblings ihb ihs =>
    obtain ⟨⟨hlabel, hid⟩, hbelow, hsiblings⟩ := hf
    simp only [Forest.preorder, List.mem_cons, List.mem_append] at h
    refine ⟨fun horphan => ?_, ihb hbelow fun i hi => h i (.inr (.inl hi)),
      ihs hsiblings fun i hi => h i (.inr (.inr hi))⟩
    have hkind : d.kind id = .construct :=
      (congrArg Label.kind hlabel).trans (Label.kind_of_isOrphan horphan)
    have hshaped := h id (.inl rfl)
    simp only [wellShaped, hkind, hid, map_kind_roots_of_exhibits hbelow, beq_iff_eq] at hshaped
    exact List.count_pos_iff.1 (by omega)

theorem bodied_of_verify (h : d.verify) (components : Components) :
    (d.forestBelow root).Bodied components := by
  obtain ⟨htree, hshaped⟩ := isTree_of_verify h
  refine bodied_of_wellShaped htree.placed.exhibits fun id hid => hshaped id ?_
  rw [htree.tree_eq]
  exact List.mem_cons_of_mem _ (List.mem_append_left _ hid)

/-- A well-formed document is lowered without a fault, and its tree is lowered from the inside out.
The root stands for the whole document and stays; nodes that come with the lowering are not told
apart by their numbers. -/
theorem tree_lowered (h : d.verify) (components : Components) :
    (d.lowered components).faults = [] ∧
      d.tree = .cons root (d.label root) (d.forestBelow root) .nil ∧
      (d.lowered components).document.tree.capped d.size =
        .cons root (d.label root) ((d.forestBelow root).lowered components d.size) .nil := by
  have htree := (isTree_of_verify h).1
  obtain ⟨hfaults, -, hlowered⟩ := htree.lowered (bodied_of_verify h components)
  exact ⟨hfaults, htree.tree_eq, hlowered⟩

/-- A construct with an attribute, and another construct in its body. -/
def nestedConstructs : Document :=
  ⟨#[{ kind := .document, children := [1] },
    { kind := .construct, name := utf8 "p", children := [2, 3] },
    { kind := .constructBody, children := [4] },
    { kind := .constructAttribute, name := utf8 "id", children := [5] },
    { kind := .construct, name := utf8 "b", children := [6] },
    { kind := .markup, fragments := [utf8 "x"] },
    { kind := .constructBody }], by decide⟩

theorem nestedConstructs_lowered :
    nestedConstructs.verify ∧
      (nestedConstructs.lowered []).document.tree.capped 7 =
        .cons 0 { kind := .document }
          (.cons 7 { kind := .element, name := utf8 "p" }
            (.cons 7 { kind := .attribute, name := utf8 "id" }
              (.cons 7 { kind := .attributeValue }
                (.cons 5 { kind := .markup, fragments := [utf8 "x"] } .nil .nil) .nil)
              (.cons 7 { kind := .element, name := utf8 "b" } .nil .nil))
            .nil) .nil := by
  have h : nestedConstructs.verify := by decide
  exact ⟨h, (tree_lowered h []).2.2.trans (by decide)⟩

end Document

end MarkupTemplate
