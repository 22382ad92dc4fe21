import Mathlib.Data.Finset.Card
import Mathlib.Data.List.NodupEquivFin
import MarkupTemplate.Proofs.LoweredForest
import MarkupTemplate.Proofs.Reachability

/-!
# Paths and orphans

Nodes may be shared, so more than one path may lead from the root to a node. In an acyclic document
the walk that lists the orphans goes along every path once. So an orphan is listed as often as it
can be reached, under every parent that it is reached from, and after all orphans below it.

## Main definitions

* `Document.follow`: the node at the end of a path
* `Forest.placesFrom`: the nodes of a forest with the paths that lead to them
* `Document.SharedOrphan`: two paths lead to the same orphan
* `Document.BodilessOrphan`: an orphan has no body
* `Document.InnerFirst`: orphans are listed after what stands under them

## Main results

* `Document.reached_iff_follow`: the nodes that are reached are those at the end of a path
* `Forest.mem_placesFrom_iff`, `Forest.nodup_placesFrom`: a forest has every path once
* `Document.Acyclic.two_le_count_orphans_iff`: an orphan is listed twice just if it is shared
* `Document.Acyclic.mem_orphans_iff`: with which parents orphans are listed
* `Document.Acyclic.innerFirst_orphans`: orphans are listed after what stands under them
-/

namespace MarkupTemplate

variable {components : Components} {d : Document} {f : Forest} {id parent : NodeId}

namespace Document

/-! ## Paths -/

/-- The node to which a path leads from a node on. A path tells of every node on the way which child
comes next, counted from zero. -/
def follow (d : Document) (id : NodeId) : List Nat → Option NodeId
  | [] => some id
  | index :: path => (d.children id)[index]?.bind fun child => d.follow child path

theorem follow_append (id : NodeId) (path path' : List Nat) :
    d.follow id (path ++ path') = (d.follow id path).bind fun below => d.follow below path' := by
  induction path generalizing id with
  | nil => rfl
  | cons index path ih =>
    rw [List.cons_append, follow, follow, Option.bind_assoc]
    exact congrArg _ (funext ih)

theorem follow_singleton (id : NodeId) (index : Nat) :
    d.follow id [index] = (d.children id)[index]? := by
  cases h : (d.children id)[index]? <;> simp [follow, h]

theorem Reached.follow {path : List Nat} {below : NodeId} (h : d.Reached id)
    (hpath : d.follow id path = some below) : d.Reached below := by
  induction path generalizing id with
  | nil => exact Option.some.inj hpath ▸ h
  | cons index path ih =>
    obtain ⟨child, hchild, hpath⟩ := Option.bind_eq_some_iff.1 hpath
    exact ih (h.child (List.mem_of_getElem? hchild)) hpath

/-- The nodes that are reached are those at the end of a path from the root. -/
theorem reached_iff_follow : d.Reached id ↔ ∃ path, d.follow root path = some id := by
  refine ⟨?_, fun ⟨path, hpath⟩ => d.reached_root.follow hpath⟩
  rintro ⟨place, hplace⟩
  induction hplace with
  | root => exact ⟨[], rfl⟩
  | @child _ _ index _ _ hindex ih =>
    obtain ⟨path, hpath⟩ := ih
    refine ⟨path ++ [index], ?_⟩
    rw [follow_append, hpath, Option.bind_some, follow_singleton, hindex]

/-- Every node of a path ranks below the one before it. -/
theorem rank_add_length_le_of_follow {rank : NodeId → Nat}
    (hrank : ∀ id < d.size, ∀ c ∈ d.children id, c < d.size ∧ rank c < rank id)
    {path : List Nat} {below : NodeId} (hid : id < d.size)
    (hpath : d.follow id path = some below) :
    below < d.size ∧ rank below + path.length ≤ rank id := by
  induction path generalizing id with
  | nil =>
    obtain rfl := Option.some.inj hpath
    exact ⟨hid, Nat.le_refl _⟩
  | cons index path ih =>
    obtain ⟨child, hchild, hpath⟩ := Option.bind_eq_some_iff.1 hpath
    obtain ⟨hlt, hlower⟩ := hrank id hid child (List.mem_of_getElem? hchild)
    obtain ⟨hbelow, hle⟩ := ih hlt hpath
    refine ⟨hbelow, ?_⟩
    rw [List.length_cons]
    omega

namespace Acyclic

theorem child_lt_size (h : d.Acyclic) {child : NodeId} (hchild : child ∈ d.children id) :
    child < d.size := by
  obtain ⟨rank, hrank⟩ := h
  rcases Nat.lt_or_ge id d.size with hid | hid
  · exact (hrank id hid child hchild).1
  · rw [children_of_size_le hid] at hchild
    exact absurd hchild List.not_mem_nil

theorem lt_size (h : d.Acyclic) (hid : d.Reached id) : id < d.size := by
  obtain ⟨rank, hrank⟩ := h
  obtain ⟨path, hpath⟩ := reached_iff_follow.1 hid
  exact (rank_add_length_le_of_follow hrank d.size_pos hpath).1

/-- In an acyclic document no path leads back to the root. -/
theorem eq_nil_of_follow_root (h : d.Acyclic) {path : List Nat}
    (hpath : d.follow root path = some root) : path = [] := by
  obtain ⟨rank, hrank⟩ := h
  have hle := (rank_add_length_le_of_follow hrank d.size_pos hpath).2
  exact List.length_eq_zero_iff.1 (Nat.le_zero.1 (Nat.le_of_add_le_add_left hle))

/-- All nodes that are reached are reached from another node, apart from the root. -/
theorem reached_and_ne_root_iff (h : d.Acyclic) :
    id ≠ root ∧ d.Reached id ↔ ∃ above, d.Reached above ∧ id ∈ d.children above := by
  constructor
  · rintro ⟨hne, place, hplace⟩
    cases hplace with
    | root => exact absurd rfl hne
    | child habove hindex => exact ⟨_, ⟨_, habove⟩, List.mem_of_getElem? hindex⟩
  · rintro ⟨above, habove, hchild⟩
    refine ⟨?_, habove.child hchild⟩
    rintro rfl
    obtain ⟨path, hpath⟩ := reached_iff_follow.1 habove
    obtain ⟨index, hindex⟩ := List.mem_iff_getElem?.1 hchild
    have hroot : d.follow root (path ++ [index]) = some root := by
      rw [follow_append, hpath, Option.bind_some, follow_singleton, hindex]
    simpa using h.eq_nil_of_follow_root hroot

end Acyclic

/-! ## Orphans that are not lowered -/

/-- An orphan that two paths lead to. -/
def SharedOrphan (components : Components) (d : Document) (id : NodeId) : Prop :=
  (d.label id).isOrphan components ∧
    ∃ path path', path ≠ path' ∧ d.follow root path = some id ∧ d.follow root path' = some id

/-- An orphan without a body. The root stands for the whole document and is no orphan, whatever it
says. -/
def BodilessOrphan (components : Components) (d : Document) (id : NodeId) : Prop :=
  id ≠ root ∧ d.Reached id ∧ (d.label id).isOrphan components ∧
    ∀ child ∈ d.children id, d.kind child ≠ .constructBody

/-! ## The order of lowering -/

/-- After the first list of orphans, those of the second can be lowered one after another: by then,
what stands under an orphan has been lowered, and so has what stands under its bodies and its
attributes. -/
def InnerFirst (components : Components) (d : Document) : List Orphan → List Orphan → Prop
  | _, [] => True
  | done, orphan :: todo =>
    (∀ above, above = orphan.node ∨ above ∈ d.children orphan.node →
      ∀ id ∈ d.children above, (d.label id).isOrphan components → ⟨above, id⟩ ∈ done) ∧
        InnerFirst components d (done ++ [orphan]) todo

theorem innerFirst_append {done todo todo' : List Orphan} :
    d.InnerFirst components done (todo ++ todo') ↔
      d.InnerFirst components done todo ∧ d.InnerFirst components (done ++ todo) todo' := by
  induction todo generalizing done with
  | nil => simp [InnerFirst]
  | cons orphan todo ih => simp [InnerFirst, ih, and_assoc]

end Document

/-! ## The paths of a forest -/

namespace Forest

/-- The nodes of a forest with the paths that lead to them from the node above. The first root is
the child of the number `k` there. -/
def placesFrom (k : Nat) : Forest → List (List Nat × NodeId)
  | nil => []
  | cons id _ children siblings =>
    ([k], id) :: ((children.placesFrom 0).map (fun place => (k :: place.1, place.2)) ++
      siblings.placesFrom (k + 1))

theorem map_snd_placesFrom (k : Nat) (f : Forest) : (f.placesFrom k).map Prod.snd = f.preorder := by
  induction f generalizing k with
  | nil => rfl
  | cons id label children siblings ihc ihs =>
    rw [placesFrom, List.map_cons, List.map_append, List.map_map, ihs, preorder, ← ihc 0]
    rfl

/-- The paths of a forest are those of the document from one of the roots on. -/
theorem mem_placesFrom_iff (hf : d.Exhibits f) {k : Nat} {path : List Nat} :
    (path, id) ∈ f.placesFrom k ↔ ∃ index rest, path = (k + index) :: rest ∧
      (f.roots[index]?.bind fun child => d.follow child rest) = some id := by
  induction f generalizing k path id with
  | nil => simp [placesFrom, roots]
  | cons i label children siblings ihc ihs =>
    obtain ⟨⟨-, hchildren⟩, hbelow, hsiblings⟩ := hf
    simp only [placesFrom, List.mem_cons, List.mem_append, List.mem_map, Prod.mk.injEq, Prod.exists,
      ihc hbelow, ihs hsiblings]
    constructor
    · rintro (⟨rfl, rfl⟩ | ⟨path, _, ⟨index, rest, rfl, hrest⟩, rfl, rfl⟩ |
        ⟨index, rest, rfl, hrest⟩)
      · exact ⟨0, [], rfl, rfl⟩
      · refine ⟨0, (0 + index) :: rest, rfl, ?_⟩
        simpa [roots, Document.follow, hchildren] using hrest
      · refine ⟨index + 1, rest, by rw [Nat.add_assoc, Nat.add_comm 1], ?_⟩
        simpa [roots] using hrest
    · rintro ⟨index, rest, rfl, hrest⟩
      cases index with
      | zero =>
        cases rest with
        | nil => exact .inl ⟨rfl, (Option.some.inj hrest).symm⟩
        | cons next rest =>
          refine .inr (.inl ⟨next :: rest, id, ⟨next, rest, by rw [Nat.zero_add], ?_⟩, rfl, rfl⟩)
          simpa [roots, Document.follow, hchildren] using hrest
      | succ index =>
        refine .inr (.inr ⟨index, rest, by rw [Nat.add_assoc, Nat.add_comm 1], ?_⟩)
        simpa [roots] using hrest

/-- No path comes twice in a forest. -/
theorem nodup_placesFrom (hf : d.Exhibits f) (k : Nat) : (f.placesFrom k).Nodup := by
  induction f generalizing k with
  | nil => exact List.nodup_nil
  | cons i label children siblings ihc ihs =>
    obtain ⟨-, hbelow, hsiblings⟩ := hf
    rw [placesFrom, List.nodup_cons, List.nodup_append]
    -- Paths through the first root start with its number and go on; all others start higher up.
    have hnext : ∀ path id', (path, id') ∈ siblings.placesFrom (k + 1) →
        ∀ rest, path ≠ k :: rest := by
      intro path id' hmem rest he
      obtain ⟨index, rest', rfl, -⟩ := (mem_placesFrom_iff hsiblings).1 hmem
      have := (List.cons.inj he).1
      omega
    refine ⟨?_, (ihc hbelow 0).map ?_, ihs hsiblings (k + 1), ?_⟩
    · rw [List.mem_append, List.mem_map]
      rintro (⟨⟨path, id'⟩, hmem, he⟩ | hmem)
      · obtain ⟨index, rest, rfl, -⟩ := (mem_placesFrom_iff hbelow).1 hmem
        simp at he
      · exact hnext _ _ hmem [] rfl
    · rintro ⟨path, id'⟩ ⟨path', id''⟩ he
      simpa using he
    · rintro place hplace place' hplace' rfl
      obtain ⟨⟨path, id'⟩, -, rfl⟩ := List.mem_map.1 hplace
      exact hnext _ _ hplace' path rfl

/-! ## The orphans of a forest -/

/-- Every node of a forest that is an orphan is listed once for every time it is met. -/
theorem perm_orphans (hf : d.Exhibits f) (parent : NodeId) :
    ((f.orphans components parent).map Orphan.node).Perm
      (f.preorder.filter fun id => (d.label id).isOrphan components) := by
  induction f generalizing parent with
  | nil => exact .refl _
  | cons i label children siblings ihc ihs =>
    obtain ⟨⟨rfl, -⟩, hbelow, hsiblings⟩ := hf
    have hc := ihc hbelow i
    have hs := ihs hsiblings parent
    rw [List.perm_iff_count] at hc hs ⊢
    intro id
    have hc := hc id
    have hs := hs id
    simp only [orphans, preorder, List.map_append, List.filter_cons, List.filter_append]
    split <;> simp only [List.map_cons, List.map_nil, List.count_cons, List.count_append,
      List.count_nil] <;> omega

/-- An orphan is listed with the node above it. -/
theorem mem_orphans_iff (hf : d.Exhibits f) {above : NodeId} :
    ⟨above, id⟩ ∈ f.orphans components parent ↔
      (above = parent ∧ id ∈ f.roots ∨ above ∈ f.preorder ∧ id ∈ d.children above) ∧
        (d.label id).isOrphan components := by
  induction f generalizing parent with
  | nil => simp [orphans, roots, preorder]
  | cons i label children siblings ihc ihs =>
    obtain ⟨⟨rfl, hchildren⟩, hbelow, hsiblings⟩ := hf
    have hthis : (⟨above, id⟩ : Orphan) ∈ (if (d.label i).isOrphan components then
          [(⟨parent, i⟩ : Orphan)] else []) ↔
        above = parent ∧ id = i ∧ (d.label id).isOrphan components := by
      split
      · next h => simp only [List.mem_singleton, Orphan.mk.injEq]; grind
      · next h => simp only [List.not_mem_nil, false_iff]; grind
    simp only [orphans, roots, preorder, List.mem_append, List.mem_cons, ihc hbelow,
      ihs hsiblings, hthis, ← hchildren]
    grind

/-- The orphans of a forest are listed with inner ones before outer ones. -/
theorem innerFirst_orphans (hf : d.Exhibits f) (parent : NodeId) (done : List Orphan) :
    d.InnerFirst components done (f.orphans components parent) := by
  induction f generalizing parent done with
  | nil => trivial
  | cons i label children siblings ihc ihs =>
    obtain ⟨⟨rfl, hchildren⟩, hbelow, hsiblings⟩ := hf
    rw [orphans, Document.innerFirst_append, Document.innerFirst_append]
    refine ⟨ihc hbelow i done, ?_, ihs hsiblings parent _⟩
    split
    · refine ⟨fun above habove id hid horphan => List.mem_append_right _ ?_, trivial⟩
      rw [mem_orphans_iff hbelow]
      refine ⟨?_, horphan⟩
      rcases habove with rfl | habove
      · exact .inl ⟨rfl, hchildren ▸ hid⟩
      · exact .inr ⟨mem_preorder_of_mem_roots (hchildren ▸ habove), hid⟩
    · trivial

end Forest

namespace Document

/-! ## The orphans of an acyclic document -/

namespace Acyclic

theorem exhibits_below_root (h : d.Acyclic) :
    d.Exhibits (d.forestBelow root) ∧ (d.forestBelow root).roots = d.children root := by
  have hroot : root < d.size := d.size_pos
  exact h.exhibits_forestBelow hroot

/-- The paths of the forest below the root are all that are not empty. -/
theorem mem_placesFrom_iff (h : d.Acyclic) {path : List Nat} :
    (path, id) ∈ (d.forestBelow root).placesFrom 0 ↔
      path ≠ [] ∧ d.follow root path = some id := by
  obtain ⟨hexhibits, hroots⟩ := h.exhibits_below_root
  rw [Forest.mem_placesFrom_iff hexhibits, hroots]
  constructor
  · rintro ⟨index, rest, rfl, hrest⟩
    rw [Nat.zero_add]
    exact ⟨List.cons_ne_nil _ _, hrest⟩
  · rintro ⟨hne, hpath⟩
    cases path with
    | nil => exact absurd rfl hne
    | cons index rest => exact ⟨index, rest, by rw [Nat.zero_add], hpath⟩

theorem reached_iff (h : d.Acyclic) :
    d.Reached id ↔ id = root ∨ id ∈ (d.forestBelow root).preorder := by
  rw [reached_iff_follow, ← Forest.map_snd_placesFrom 0, List.mem_map]
  simp only [Prod.exists, exists_eq_right, h.mem_placesFrom_iff]
  constructor
  · rintro ⟨_ | ⟨index, path⟩, hpath⟩
    · exact .inl (Option.some.inj hpath).symm
    · exact .inr ⟨_, List.cons_ne_nil _ _, hpath⟩
  · rintro (rfl | ⟨path, -, hpath⟩)
    · exact ⟨[], rfl⟩
    · exact ⟨path, hpath⟩

/-- All orphans that are reached are listed, with all parents that they are reached from. -/
theorem mem_orphans_iff (h : d.Acyclic) {above : NodeId} :
    ⟨above, id⟩ ∈ d.orphans components ↔
      d.Reached above ∧ id ∈ d.children above ∧ (d.label id).isOrphan components := by
  obtain ⟨hexhibits, hroots⟩ := h.exhibits_below_root
  rw [orphans, Forest.mem_orphans_iff hexhibits, hroots, h.reached_iff]
  grind

/-- The orphans without a body are among those that are listed. -/
theorem bodilessOrphan_iff (h : d.Acyclic) :
    d.BodilessOrphan components id ↔ ∃ orphan ∈ d.orphans components, orphan.node = id ∧
      ∀ child ∈ d.children orphan.node, d.kind child ≠ .constructBody := by
  rw [BodilessOrphan, ← and_assoc, h.reached_and_ne_root_iff]
  constructor
  · rintro ⟨⟨above, habove, hchild⟩, horphan, hbody⟩
    exact ⟨⟨above, id⟩, h.mem_orphans_iff.2 ⟨habove, hchild, horphan⟩, rfl, hbody⟩
  · rintro ⟨orphan, hmem, rfl, hbody⟩
    obtain ⟨habove, hchild, horphan⟩ := h.mem_orphans_iff.1 hmem
    exact ⟨⟨_, habove, hchild⟩, horphan, hbody⟩

theorem innerFirst_orphans (h : d.Acyclic) : d.InnerFirst components [] (d.orphans components) :=
  Forest.innerFirst_orphans h.exhibits_below_root.1 root []

/-- A node is met below the root once for every path that leads to it. -/
theorem two_le_count_preorder_iff (h : d.Acyclic) :
    2 ≤ (d.forestBelow root).preorder.count id ↔
      ∃ path path', path ≠ path' ∧ d.follow root path = some id ∧
        d.follow root path' = some id := by
  -- The places of the node are pairs of a path and the node, so no two have the same path.
  let places := ((d.forestBelow root).placesFrom 0).filter fun place => place.2 == id
  have hnodup : places.Nodup := (Forest.nodup_placesFrom h.exhibits_below_root.1 0).filter _
  have hmem : ∀ {place}, place ∈ places ↔
      place.2 = id ∧ place.1 ≠ [] ∧ d.follow root place.1 = some id := by
    rintro ⟨path, id'⟩
    simp only [places, List.mem_filter, h.mem_placesFrom_iff, beq_iff_eq]
    grind
  have hcount : (d.forestBelow root).preorder.count id = places.toFinset.card := by
    rw [← Forest.map_snd_placesFrom 0, List.count, List.countP_map, List.countP_eq_length_filter,
      List.toFinset_card_of_nodup hnodup]
    rfl
  rw [hcount]
  refine Finset.one_lt_card.trans ?_
  simp only [List.mem_toFinset, hmem]
  constructor
  · rintro ⟨⟨path, _⟩, ⟨rfl, -, hpath⟩, ⟨path', _⟩, ⟨rfl, -, hpath'⟩, hne⟩
    exact ⟨path, path', fun he => hne (he ▸ rfl), hpath, hpath'⟩
  · -- A path that is empty leads to the root, and no other path does.
    have hnil : ∀ {path path' : List Nat}, path ≠ path' → d.follow root path = some id →
        d.follow root path' = some id → path ≠ [] := by
      rintro path path' hne hpath hpath' rfl
      obtain rfl := Option.some.inj hpath
      exact hne (h.eq_nil_of_follow_root hpath').symm
    rintro ⟨path, path', hne, hpath, hpath'⟩
    exact ⟨(path, id), ⟨rfl, hnil hne hpath hpath', hpath⟩, (path', id),
      ⟨rfl, hnil hne.symm hpath' hpath, hpath'⟩, fun he => hne (Prod.mk.inj he).1⟩

/-- An orphan is listed once for every path that leads to it. -/
theorem two_le_count_orphans_iff (h : d.Acyclic) :
    2 ≤ ((d.orphans components).map Orphan.node).count id ↔ d.SharedOrphan components id := by
  have hperm : ((d.orphans components).map Orphan.node).Perm
      ((d.forestBelow root).preorder.filter fun id => (d.label id).isOrphan components) :=
    Forest.perm_orphans h.exhibits_below_root.1 root
  rw [hperm.count_eq id, SharedOrphan, ← h.two_le_count_preorder_iff]
  by_cases horphan : (d.label id).isOrphan components
  · rw [List.count_filter (p := fun id => (d.label id).isOrphan components) horphan,
      and_iff_right horphan]
  · rw [List.count_eq_zero.2 (by simp [horphan])]
    simp [horphan]

/-- A child of a node that is listed with it and listed once is a child once. -/
theorem count_children_eq_one (h : d.Acyclic) {orphan : Orphan}
    (hnodup : ((d.orphans components).map Orphan.node).Nodup)
    (hmem : orphan ∈ d.orphans components) :
    (d.children orphan.parent).count orphan.node = 1 := by
  obtain ⟨hreached, hchild, horphan⟩ := h.mem_orphans_iff.1 hmem
  have hpos := List.count_pos_iff.2 hchild
  by_contra hne
  -- A child twice would be at the end of two paths.
  have htwo : 2 ≤ (d.children orphan.parent).count orphan.node := by omega
  obtain ⟨i, j, hij, hi, hj⟩ :=
    List.duplicate_iff_exists_distinct_get.1 (List.duplicate_iff_two_le_count.2 htwo)
  obtain ⟨path, hpath⟩ := reached_iff_follow.1 hreached
  have hfollow : ∀ k : Fin (d.children orphan.parent).length,
      orphan.node = (d.children orphan.parent).get k →
        d.follow root (path ++ [k.val]) = some orphan.node := by
    intro k hk
    rw [follow_append, hpath, Option.bind_some, follow_singleton, hk]
    exact List.getElem?_eq_getElem k.isLt
  have hshared : d.SharedOrphan components orphan.node :=
    ⟨horphan, path ++ [i.val], path ++ [j.val], by simp; omega, hfollow i hi, hfollow j hj⟩
  have := List.nodup_iff_count_le_one.1 hnodup orphan.node
  have := h.two_le_count_orphans_iff.2 hshared
  omega

end Acyclic

end Document

end MarkupTemplate
