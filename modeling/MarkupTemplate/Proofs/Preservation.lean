import MarkupTemplate.Proofs.AttributeOrder
import MarkupTemplate.Proofs.Reshaping

/-!
# Structuring keeps documents well-formed

What is assembled of the children of a container has holes, and each hole is the root of a tree
that was there before. With these trees in their places the assembly is the forest under the
container after structuring. It has no node twice, and every node in it has the children that its
kind demands: old nodes still have the same ones, and those of new nodes are in order. Container by
container, from the leaves to the root, a document is so made into a well-formed one.

## Main definitions

* `Forest.under`, `Forest.graft`: what is under a root, and a forest with such trees in its holes
* `Document.Sealed`: no construct has markup among its children

## Main results

* `Document.reshapes_structureChildren`: structuring a container makes its tree into another one
* `Document.reshapes_structureFrom`, `Document.reshapes_rewriteEach`: so does structuring all
  containers in a tree, and in a forest
* `Document.structureFrom_eq_structured`: no branch is too deep to be structured
* `Document.verify_structured`: a well-formed document is structured into a well-formed one
-/

namespace MarkupTemplate

/-! ## Trees in the holes of a forest -/

namespace Forest

variable {n : Nat} {arrived : List NodeId} {b f : Forest}

/-- What is under the first root of the given number. -/
def under (root : NodeId) : Forest → Forest
  | nil => nil
  | cons id _ children siblings => if id = root then children else siblings.under root

/-- The forest with what the forest `b` has under the nodes below the number `n`. -/
def graft (n : Nat) (b : Forest) : Forest → Forest
  | nil => nil
  | cons id label children siblings =>
    cons id label (if id < n then b.under id else graft n b children) (graft n b siblings)

theorem roots_graft (f : Forest) : (graft n b f).roots = f.roots := by
  induction f with
  | nil => rfl
  | cons id label children siblings _ ih => rw [graft, roots, ih, roots]

theorem roots_sublist (f : Forest) : f.roots.Sublist f.preorder := by
  induction f with
  | nil => exact .slnil
  | cons id label children siblings _ ih =>
    exact (ih.trans (List.sublist_append_right ..)).cons_cons id

theorem under_cons_of_ne {root id : NodeId} (hne : id ≠ root) (label : Label)
    (children siblings : Forest) :
    (cons id label children siblings).under root = siblings.under root := if_neg hne

/-- A forest is its roots, each with what is under it. -/
theorem flatMap_under (h : b.roots.Nodup) :
    (b.roots.flatMap fun id => id :: (b.under id).preorder) = b.preorder := by
  induction b with
  | nil => rfl
  | cons id label children siblings _ ih =>
    obtain ⟨hid, hsiblings⟩ := List.nodup_cons.1 h
    have hrest : (siblings.roots.flatMap fun i =>
        i :: ((cons id label children siblings).under i).preorder) = siblings.preorder := by
      rw [← ih hsiblings, List.flatMap_def, List.flatMap_def]
      refine congrArg List.flatten (List.map_congr_left fun i hi => ?_)
      have hne : id ≠ i := by
        rintro rfl
        exact hid hi
      rw [under_cons_of_ne hne]
    rw [roots, List.flatMap_cons, hrest, under, if_pos rfl]
    rfl

/-- The nodes of a grafted forest: those that were made, and the trees of the holes. -/
theorem perm_preorder_graft (horder : f.InOrder n arrived) :
    (graft n b f).preorder.Perm
      (f.created n ++ (f.holes n).flatMap fun id => id :: (b.under id).preorder) := by
  induction f with
  | nil => exact .refl _
  | cons id label children siblings ihc ihs =>
    obtain ⟨hleaf, hsiblings⟩ := horder
    have hs := List.perm_iff_count.1 (ihs hsiblings)
    rw [List.perm_iff_count]
    intro i
    have hs := hs i
    split at hleaf
    · next hle =>
      have hc := List.perm_iff_count.1 (ihc hleaf.2) i
      rw [graft, if_neg (Nat.not_lt.2 hle), created_cons_of_le hle, holes_cons_of_le hle]
      simp only [preorder, List.cons_append, List.count_cons, List.count_append,
        List.flatMap_append] at hc hs ⊢
      omega
    · next hlt =>
      subst hleaf
      have hlt := Nat.not_le.1 hlt
      rw [graft, if_pos hlt, created_cons_of_lt hlt, holes_cons_of_lt hlt]
      simp only [preorder, created_nil, holes_nil, List.nil_append, List.flatMap_cons,
        List.cons_append, List.count_cons, List.count_append] at hs ⊢
      omega

/-- The nodes in the holes are some of those in the forest that the holes come from. -/
theorem count_holes_le (hnodup : b.roots.Nodup) {p : NodeId → Bool}
    (hholes : (f.holes n).Perm (b.roots.filter p)) (i : NodeId) :
    ((f.holes n).flatMap fun id => id :: (b.under id).preorder).count i ≤ b.preorder.count i := by
  have hsplit := (List.filter_append_perm p b.roots).flatMap_right fun id =>
    id :: (b.under id).preorder
  rw [List.flatMap_append, flatMap_under hnodup] at hsplit
  have hcount := hsplit.count_eq i
  rw [List.count_append, ← (hholes.flatMap_right _).count_eq i] at hcount
  omega

end Forest

namespace Document

variable {d d' d₁ : Document} {n : Nat} {arrived : List NodeId} {b f below siblings : Forest}
variable {id : Nat} {label : Label}

/-- The tree of a root stands in the document. -/
theorem shows_under (h : d.Shows b) (hid : id ∈ b.roots) :
    d.children id = (b.under id).roots ∧ d.Shows (b.under id) := by
  induction b with
  | nil => exact absurd hid List.not_mem_nil
  | cons i label children siblings _ ih =>
    obtain ⟨hi, hchildren, hsiblings⟩ := h
    by_cases he : i = id
    · subst he
      rw [Forest.under, if_pos rfl]
      exact ⟨hi, hchildren⟩
    · rw [Forest.under_cons_of_ne he]
      exact ih hsiblings ((List.mem_cons.1 hid).resolve_left fun hid => he hid.symm)

/-- A document that holds a forest shows it with the trees of its holes. -/
theorem shows_graft (hholds : d.Holds n f) (hb : d.Shows b)
    (hholes : ∀ id ∈ f.holes n, id ∈ b.roots) : d.Shows (Forest.graft n b f) := by
  induction f with
  | nil => trivial
  | cons id label children siblings ihc ihs =>
    obtain ⟨hid, hchildren, hsiblings⟩ := hholds
    rw [Forest.graft]
    by_cases hlt : id < n
    · rw [Forest.holes_cons_of_lt hlt] at hholes
      rw [if_pos hlt]
      obtain ⟨hroots, hunder⟩ := shows_under hb (hholes id List.mem_cons_self)
      refine ⟨hroots, hunder, ihs hsiblings fun i hi => hholes i ?_⟩
      exact List.mem_cons_of_mem _ (List.mem_append_right _ hi)
    · have hle := Nat.not_lt.1 hlt
      rw [Forest.holes_cons_of_le hle] at hholes
      rw [if_neg hlt]
      refine ⟨?_, ihc hchildren fun i hi => hholes i (List.mem_append_left _ hi),
        ihs hsiblings fun i hi => hholes i (List.mem_append_right _ hi)⟩
      rw [(hid hle).2, Forest.roots_graft]

/-- A node that a document has in addition comes once. -/
theorem count_added_le (hle : d.size ≤ d'.size) (i : NodeId) :
    (d.added d').count i ≤ fresh d.size d'.size i := by
  unfold fresh added
  split
  · exact List.nodup_iff_count.1 (List.nodup_range' 1) i
  · next hnot =>
    refine Nat.le_of_eq (List.count_eq_zero.2 fun hmem => hnot ?_)
    obtain ⟨hi, hlt⟩ := List.mem_range'_1.1 hmem
    rw [Nat.add_sub_of_le hle] at hlt
    exact ⟨hi, hlt⟩

/-! ## One container -/

section

variable (h : d.Stands (.cons id label below .nil))
include h

theorem lt_size_children : id < d.size ∧ ∀ child ∈ d.children id, child < d.size := by
  refine ⟨h.lt_size id List.mem_cons_self, fun child hchild => ?_⟩
  exact h.lt_size child (h.shows.mem_of_mem_children List.mem_cons_self hchild)

/-- Structuring changes the kind and the name of no node. -/
theorem kind_structureChildren {i : NodeId} (hi : i < d.size) :
    (d.structureChildren id).document.kind i = d.kind i ∧
      ((d.structureChildren id).document.label i).name = (d.label i).name := by
  obtain ⟨hid, hchildren⟩ := lt_size_children h
  have hstored := stored_structureChildren hid hchildren
  by_cases he : i = id
  · subst he
    have hkind := congrArg Label.kind hstored.label
    have hname := congrArg Label.name hstored.label
    exact ⟨hkind, hname⟩
  · have hnode := hstored.kept i hi he
    exact ⟨by rw [kind, hnode, kind], by rw [label_eq_of_node_eq hnode]⟩

/-- What was under the container is kept. -/
theorem node_structureChildren {i : NodeId} (hi : i ∈ below.preorder) :
    (d.structureChildren id).document.node i = d.node i := by
  obtain ⟨hid, hchildren⟩ := lt_size_children h
  exact (stored_structureChildren hid hchildren).kept i (h.down.lt_size i hi) fun he =>
    h.notMem (he ▸ hi)

/-- The holes of the assembly are roots of what was under the container. -/
theorem perm_holes_below (hok : (d.structureChildren id).ok) :
    ((d.assembly id).content.holes d.size).Perm
      (below.roots.filter fun child => d.kind child != .markup) := by
  obtain ⟨hid, hchildren⟩ := lt_size_children h
  have hroots : d.children id = below.roots := h.shows.1
  rw [← hroots]
  exact perm_holes hchildren ((ok_structureChildren_iff hid hchildren).1 hok)

theorem mem_roots_of_mem_holes (hok : (d.structureChildren id).ok) :
    ∀ i ∈ (d.assembly id).content.holes d.size, i ∈ below.roots := fun _ hi =>
  (List.mem_filter.1 ((perm_holes_below h hok).mem_iff.1 hi)).1

theorem perm_preorder_graft :
    (Forest.graft d.size below (d.assembly id).content).preorder.Perm
      ((d.assembly id).content.created d.size ++
        ((d.assembly id).content.holes d.size).flatMap fun hole =>
          hole :: (below.under hole).preorder) := by
  obtain ⟨-, hchildren⟩ := lt_size_children h
  obtain ⟨-, horder⟩ := (inOrder_children hchildren).frames _ (Assembly.content_mem_frames _)
  exact Forest.perm_preorder_graft horder

/-- Structuring has no node under the container twice. -/
theorem count_graft_le (hok : (d.structureChildren id).ok) (i : NodeId) :
    (Forest.graft d.size below (d.assembly id).content).preorder.count i ≤
      below.preorder.count i + fresh d.size (d.structureChildren id).document.size i := by
  obtain ⟨hid, hchildren⟩ := lt_size_children h
  obtain ⟨hpath, -, -⟩ := (ok_structureChildren_iff hid hchildren).1 hok
  have hcount := (perm_preorder_graft h).count_eq i
  rw [List.count_append, (perm_created hid hchildren hpath).count_eq i] at hcount
  have hold := Forest.count_holes_le (below.roots_sublist.nodup h.down.nodup)
    (perm_holes_below h hok) i
  have hnew := count_added_le (stored_structureChildren hid hchildren).le i
  omega

/-- Structuring makes the tree of a container into another one. -/
theorem remakes_structureChildren (hok : (d.structureChildren id).ok) :
    Remakes d (d.structureChildren id).document (.cons id label below .nil)
      (.cons id label (.graft d.size below (d.assembly id).content) .nil) := by
  obtain ⟨hid, hchildren⟩ := lt_size_children h
  obtain ⟨hpath, -, -⟩ := (ok_structureChildren_iff hid hchildren).1 hok
  have hstored := stored_structureChildren hid hchildren
  constructor
  · exact hstored.le
  · exact fun i hi => (kind_structureChildren h hi).1
  · exact fun i hi => (kind_structureChildren h hi).2
  · intro i hi hnot
    refine hstored.kept i hi fun he => hnot ?_
    rw [he]
    exact List.mem_cons_self
  · rfl
  · refine ⟨?_, ?_, trivial⟩
    · rw [children_structureChildren hid hchildren hpath, Forest.roots_graft]
    · exact shows_graft hstored.content
        (h.down.shows.congr fun i hi => node_structureChildren h hi) (mem_roots_of_mem_holes h hok)
  · intro i
    have hcount := count_graft_le h hok i
    simp only [Forest.preorder, List.append_nil, List.count_cons]
    omega

end

section

variable (h : d.Formed (.cons id label below .nil))
include h

/-- A node with markup among its children, unless it is a construct, may get any other children of
which the attributes come first. -/
theorem wellShaped_of_markup (hconstruct : d.kind id ≠ .construct)
    (hmarkup : ∃ child ∈ d.children id, d.kind child = .markup)
    (hkind : d'.kind id = d.kind id) (hname : (d'.label id).name = (d.label id).name)
    (hfirst : attributesFirst ((d'.children id).map d'.kind)) : d'.wellShaped id := by
  obtain ⟨child, hchild, hmarkup⟩ := hmarkup
  have hshaped := h.wellShaped id List.mem_cons_self
  have hmem : NodeKind.markup ∈ (d.children id).map d.kind := hmarkup ▸ List.mem_map_of_mem hchild
  rw [wellShaped] at hshaped ⊢
  rw [hkind, hname]
  cases hk : d.kind id with
  | document => simpa [hk] using hshaped
  | markup =>
    simp only [hk, List.isEmpty_iff] at hshaped
    rw [hshaped] at hmem
    exact absurd hmem List.not_mem_nil
  | element =>
    simp only [hk, Bool.and_eq_true] at hshaped ⊢
    exact ⟨hshaped.1, hfirst⟩
  | «attribute» =>
    simp only [hk, beq_iff_eq] at hshaped
    rw [hshaped] at hmem
    exact absurd hmem (by decide)
  | construct => exact absurd hk hconstruct
  | _ => rfl

/-- Everything that stands under the container has the children that its kind demands. -/
theorem wellShaped_graft (hok : (d.structureChildren id).ok) {i : NodeId}
    (hi : i ∈ (Forest.graft d.size below (d.assembly id).content).preorder) :
    (d.structureChildren id).document.wellShaped i := by
  obtain ⟨hid, hchildren⟩ := lt_size_children h.toStands
  have hstored := stored_structureChildren hid hchildren
  have hkind := fun i hi => (kind_structureChildren h.toStands (i := i) hi).1
  rw [(perm_preorder_graft h.toStands).mem_iff, List.mem_append, List.mem_flatMap] at hi
  rcases hi with hi | ⟨hole, hhole, hi⟩
  · obtain ⟨-, hordered⟩ := (ordered_children hchildren).frames _ (Assembly.content_mem_frames _)
    obtain ⟨hshaped, -⟩ := (shaped_children hchildren).frames _ (Assembly.content_mem_frames _)
    exact wellShaped_of_ordered hkind hstored.content hshaped hordered hi
  · -- What is in a hole stands as it stood before.
    have hbelow : (d.structureChildren id).document.Formed below :=
      h.down.congr hstored.le (fun i hi => node_structureChildren h.toStands hi) hkind
    refine hbelow.wellShaped i ?_
    rw [← Forest.flatMap_under (below.roots_sublist.nodup h.down.nodup)]
    exact List.mem_flatMap.2 ⟨hole, mem_roots_of_mem_holes h.toStands hok hole hhole, hi⟩

/-- What structuring makes of a container with markup, unless it is a construct, has the children
that its kind demands. -/
theorem reshapes_structureChildren (hconstruct : d.kind id ≠ .construct)
    (hmarkup : ∃ child ∈ d.children id, d.kind child = .markup)
    (hok : (d.structureChildren id).ok) :
    ∃ g, Reshapes d (d.structureChildren id).document (.cons id label below .nil)
      (.cons id label g .nil) := by
  obtain ⟨hid, hchildren⟩ := lt_size_children h.toStands
  obtain ⟨hpath, -, -⟩ := (ok_structureChildren_iff hid hchildren).1 hok
  have hkind := fun i hi => (kind_structureChildren h.toStands (i := i) hi).1
  refine ⟨_, remakes_structureChildren h.toStands hok, fun i hi => ?_⟩
  rw [Forest.preorder, Forest.preorder, List.append_nil] at hi
  rcases List.mem_cons.1 hi with rfl | hi
  · obtain ⟨hfirst, -⟩ := (ordered_children hchildren).frames _ (Assembly.content_mem_frames _)
    refine wellShaped_of_markup h hconstruct hmarkup (hkind i hid)
      (kind_structureChildren h.toStands hid).2 ?_
    rwa [children_structureChildren hid hchildren hpath,
      map_kind_roots_of_holds hkind (stored_structureChildren hid hchildren).content]
  · exact wellShaped_graft h hok hi

end

/-! ## All containers -/

/-- No construct in a forest has markup among its children. -/
def Sealed (d : Document) (f : Forest) : Prop :=
  ∀ id ∈ f.preorder, d.kind id = .construct → ∀ c ∈ d.children id, d.kind c ≠ .markup

namespace Sealed

theorem of_subset (h : d.Sealed f) (hsub : b.preorder ⊆ f.preorder) : d.Sealed b :=
  fun i hi => h i (hsub hi)

theorem down (h : d.Sealed (.cons id label below siblings)) : d.Sealed below :=
  h.of_subset fun _ hi => List.mem_cons_of_mem _ (List.mem_append_left _ hi)

theorem head (h : d.Sealed (.cons id label below siblings)) :
    d.Sealed (.cons id label below .nil) := by
  refine h.of_subset fun i hi => ?_
  simp only [Forest.preorder, List.append_nil, List.mem_cons, List.mem_append] at hi ⊢
  exact hi.imp_right .inl

theorem next (h : d.Sealed (.cons id label below siblings)) : d.Sealed siblings :=
  h.of_subset fun _ hi => List.mem_cons_of_mem _ (List.mem_append_right _ hi)

/-- Constructs that are not touched stay without markup. -/
theorem congr (h : d.Sealed f) (hf : d.Formed f) (hnode : ∀ i ∈ f.preorder, d'.node i = d.node i)
    (hkind : ∀ i < d.size, d'.kind i = d.kind i) : d'.Sealed f := by
  intro i hi hconstruct c hc
  rw [hkind i (hf.lt_size i hi)] at hconstruct
  rw [children_eq_of_node_eq (hnode i hi)] at hc
  rw [hkind c (hf.lt_size c (hf.shows.mem_of_mem_children hi hc))]
  exact h i hi hconstruct c hc

/-- No construct gets markup by a change of another forest. -/
theorem of_reshapes (h : d.Sealed f) (hf : d.Formed f) (hchange : Reshapes d d' b g)
    (hdisjoint : ∀ i ∈ b.preorder, i ∉ f.preorder) : d'.Sealed f := by
  refine h.congr hf (fun i hi => ?_) hchange.kind
  exact hchange.kept i (hf.lt_size i hi) fun hmem => hdisjoint i hmem hi

end Sealed

/-- Structures a child and what is under it, if it can hold markup that is no value. -/
def structureChild (depth : Nat) (d : Document) (child : NodeId) : Rewrite :=
  if d.kind child = .markup ∨ holdsValue (d.kind child) then ⟨d, []⟩
  else structureFrom depth d child

/-- A container comes after all that is under it. -/
theorem structureFrom_succ (depth : Nat) (d : Document) (id : NodeId) :
    structureFrom (depth + 1) d id =
      (d.rewriteEach (structureChild depth) (d.children id)).andThen fun d₁ =>
        if (d.children id).any fun child => d₁.kind child == .markup then d₁.structureChildren id
        else ⟨d₁, []⟩ := rfl

/-- A container is made into another one once this is done with the trees under it. -/
theorem reshapes_structureFrom {depth : Nat} (h : d.Formed (.cons id label below .nil))
    (hsealed : d.Sealed (.cons id label below .nil))
    (hbelow : (d.rewriteEach (structureChild depth) below.roots).ok →
      ∃ g, Reshapes d (d.rewriteEach (structureChild depth) below.roots).document below g)
    (hok : (structureFrom (depth + 1) d id).ok) :
    ∃ g, Reshapes d (structureFrom (depth + 1) d id).document (.cons id label below .nil)
      (.cons id label g .nil) := by
  have hroots : d.children id = below.roots := h.shows.1
  rw [structureFrom_succ, hroots] at hok ⊢
  have hfirst := Rewrite.ok_of_ok_andThen hok
  obtain ⟨g, hg⟩ := hbelow hfirst
  rw [Rewrite.andThen_of_ok hfirst] at hok ⊢
  have hchange := hg.under h
  have hformed := hchange.formed h
  generalize (d.rewriteEach (structureChild depth) below.roots).document = d₁ at *
  split at hok
  · next hany =>
    rw [if_pos hany]
    obtain ⟨child, hchild, hmarkup⟩ := List.any_eq_true.1 hany
    rw [beq_iff_eq] at hmarkup
    rw [← hroots] at hchild
    obtain ⟨hid, hchildren⟩ := lt_size_children h.toStands
    -- The kinds are still the old ones, so the container is no construct.
    have hconstruct : d₁.kind id ≠ .construct := by
      rw [hchange.kind id hid]
      intro hkind
      refine hsealed id List.mem_cons_self hkind child hchild ?_
      rw [← hchange.kind child (hchildren child hchild), hmarkup]
    have hstill : child ∈ d₁.children id := by
      rwa [hformed.shows.1, hg.roots, ← hroots]
    obtain ⟨g', hg'⟩ :=
      reshapes_structureChildren hformed hconstruct ⟨child, hstill, hmarkup⟩ hok
    exact ⟨g', hchange.trans hg'⟩
  · next hany =>
    rw [if_neg hany]
    exact ⟨g, hchange⟩

/-- The trees of a forest are made into others one after another, each from its leaves up. -/
theorem reshapes_rewriteEach (h : d.Formed f) (hsealed : d.Sealed f) (depth : Nat)
    (hok : (d.rewriteEach (structureChild depth) f.roots).ok) :
    ∃ g, Reshapes d (d.rewriteEach (structureChild depth) f.roots).document f g := by
  induction f generalizing d depth with
  | nil => exact ⟨.nil, .refl h⟩
  | cons id label below siblings ihb ihs =>
    rw [Forest.roots, rewriteEach_cons] at hok ⊢
    have hfirst := Rewrite.ok_of_ok_andThen hok
    rw [Rewrite.andThen_of_ok hfirst] at hok ⊢
    have htree : ∃ g,
        Reshapes d (structureChild depth d id).document (.cons id label below .nil) g := by
      unfold structureChild at hfirst ⊢
      split
      · exact ⟨_, .refl h.head⟩
      · next hnot =>
        rw [if_neg hnot] at hfirst
        cases depth with
        | zero => exact ⟨_, .refl h.head⟩
        | succ depth =>
          obtain ⟨g, hg⟩ :=
            reshapes_structureFrom h.head hsealed.head (ihb h.down hsealed.down depth) hfirst
          exact ⟨_, hg⟩
    obtain ⟨g, hg⟩ := htree
    obtain ⟨g', hg'⟩ := ihs (hg.formed_of_disjoint h.next h.disjoint)
      (hsealed.next.of_reshapes h.next hg h.disjoint) depth hok
    exact ⟨g ++ g', hg.append hg' h.head h.next h.disjoint⟩

/-- A depth that no branch reaches makes no difference. -/
theorem rewriteEach_structureChild_congr (h : d.Formed f) (hsealed : d.Sealed f)
    {depth depth' : Nat} (hle : f.height ≤ depth) (hle' : f.height ≤ depth') :
    d.rewriteEach (structureChild depth) f.roots =
      d.rewriteEach (structureChild depth') f.roots := by
  induction f generalizing d depth depth' with
  | nil => rfl
  | cons id label below siblings ihb ihs =>
    obtain ⟨hbelow, hsiblings⟩ := Nat.max_le.1 hle
    obtain ⟨hbelow', hsiblings'⟩ := Nat.max_le.1 hle'
    have htree : structureChild depth d id = structureChild depth' d id := by
      obtain ⟨k, rfl⟩ := Nat.exists_eq_add_one_of_ne_zero (Nat.ne_zero_of_lt hbelow)
      obtain ⟨k', rfl⟩ := Nat.exists_eq_add_one_of_ne_zero (Nat.ne_zero_of_lt hbelow')
      have hroots : d.children id = below.roots := h.shows.1
      rw [structureChild, structureChild, structureFrom_succ, structureFrom_succ, hroots,
        ihb h.down hsealed.down (Nat.le_of_succ_le_succ hbelow) (Nat.le_of_succ_le_succ hbelow')]
    rw [Forest.roots, rewriteEach_cons, rewriteEach_cons, htree]
    by_cases hok : (structureChild depth' d id).ok
    · rw [Rewrite.andThen_of_ok hok, Rewrite.andThen_of_ok hok]
      have hsingle : d.rewriteEach (structureChild depth') (Forest.cons id label below .nil).roots =
          structureChild depth' d id := by
        rw [Forest.roots, Forest.roots, rewriteEach_cons]
        exact Rewrite.andThen_of_unchanged fun _ => rfl
      obtain ⟨g, hg⟩ := reshapes_rewriteEach h.head hsealed.head depth' (hsingle ▸ hok)
      rw [hsingle] at hg
      exact ihs (hg.formed_of_disjoint h.next h.disjoint)
        (hsealed.next.of_reshapes h.next hg h.disjoint) hsiblings hsiblings'
    · -- A fault in the first tree is the end of both.
      rw [Rewrite.andThen, Rewrite.andThen, if_neg hok, if_neg hok]

/-- No branch of a well-formed document is cut off: any depth from the number of nodes on gives the
same. -/
theorem structureFrom_eq_structured (h : d.verify) (hsealed : d.Sealed d.tree) {depth : Nat}
    (hle : d.size ≤ depth) : structureFrom depth d root = d.structured := by
  have hformed := formed_of_verify h
  rw [(isTree_of_verify h).1.tree_eq] at hsealed
  have hheight := height_le_size hformed.nodup hformed.lt_size
  rw [Forest.height, Forest.height, Nat.max_zero] at hheight
  obtain ⟨k, rfl⟩ := Nat.exists_eq_add_one_of_ne_zero (n := depth) (by omega)
  obtain ⟨k', hk'⟩ := Nat.exists_eq_add_one_of_ne_zero (n := d.size + d.markupLength) (by omega)
  have hroots : d.children root = (d.forestBelow root).roots := hformed.shows.1
  have hbelow : d.rewriteEach (structureChild k) (d.forestBelow root).roots =
      d.rewriteEach (structureChild k') (d.forestBelow root).roots :=
    rewriteEach_structureChild_congr hformed.down hsealed.down (by omega) (by omega)
  rw [structured, hk', structureFrom_succ, structureFrom_succ, hroots, hbelow]

/-- Structuring a well-formed document, in which no construct has markup of its own, gives a
well-formed document. -/
theorem verify_structured (h : d.verify)
    (hsealed : ∀ id ∈ d.tree.preorder, d.kind id = .construct →
      ∀ child ∈ d.children id, d.kind child ≠ .markup)
    (hok : d.structured.ok) : d.structured.document.verify := by
  have hformed := formed_of_verify h
  have hsealed : d.Sealed d.tree := hsealed
  rw [(isTree_of_verify h).1.tree_eq] at hsealed
  unfold structured at hok ⊢
  cases hdepth : d.size + d.markupLength with
  | zero => exact h
  | succ depth =>
    rw [hdepth] at hok
    obtain ⟨g, hg⟩ := reshapes_structureFrom hformed hsealed
      (reshapes_rewriteEach hformed.down hsealed.down depth) hok
    exact verify_of_formed (hg.formed hformed)

/-- Markup under the root, under an element, under embedded code and in the content of a construct.
An expression stands in a value, a construct between two attributes, and an attribute that has none
of the markup in the middle of a tag. -/
def layeredMarkup : Document :=
  ⟨#[{ kind := .document, children := [1, 2, 3, 4, 16, 17, 20] },
    { kind := .markup, fragments := [utf8 "<ul class=\"a "] },
    { kind := .embedded .expression (utf8 "c") },
    { kind := .markup, fragments := [utf8 "\" "] },
    { kind := .construct, name := utf8 "Card", children := [5, 7] },
    { kind := .constructAttribute, name := utf8 "title", children := [6] },
    { kind := .markup, fragments := [utf8 "t"] },
    { kind := .constructBody, children := [8, 9, 12, 13, 15] },
    { kind := .markup, fragments := [utf8 "<li "] },
    { kind := .attribute, name := utf8 "id", children := [10] },
    { kind := .attributeValue, children := [11] },
    { kind := .markup, fragments := [utf8 "<i>"] },
    { kind := .markup, fragments := [utf8 " lang=en>y<b>"] },
    { kind := .element, name := utf8 "p", children := [14] },
    { kind := .markup, fragments := [utf8 "<i>z</i>"] },
    { kind := .markup, fragments := [utf8 "</b></li>"] },
    { kind := .markup, fragments := [utf8 "hidden>x"] },
    { kind := .embedded .codeBlock (utf8 "if"), children := [18, 19] },
    { kind := .markup, fragments := [utf8 "<u"] },
    { kind := .markup, fragments := [utf8 ">w</u>"] },
    { kind := .markup, fragments := [utf8 "</ul>"] }], by decide⟩

theorem layeredMarkup_structured :
    layeredMarkup.structured.ok ∧ layeredMarkup.structured.document.verify := by
  have hverify : layeredMarkup.verify := by decide +kernel
  have hok : layeredMarkup.structured.ok := by decide +kernel
  exact ⟨hok, verify_structured hverify (by decide +kernel) hok⟩

end Document

end MarkupTemplate
