import Mathlib.Data.List.Nodup
import Mathlib.Data.List.Pairwise
import Mathlib.Logic.Relation
import MarkupTemplate.Proofs.Reshaping

/-!
# What verification accepts

The test for well-formedness walks down from the root, marks every node that it enters, and breaks
off at the first node that it has to refuse. Which documents it accepts can be said without the
walk: all that is reached from the root is in the document, every node is reached at one place only,
and has the children that its kind demands. Children may be anything, numbers that no node has and
nodes above them included, and the walk still comes to an end, since it never enters a node twice.

## Main definitions

* `Document.StandsAt`, `Document.Reached`: the places at which nodes are met from the root
* `Document.Demands`: what its kind demands of a node, kind by kind
* `Document.WellFormed`: the condition on a whole document
* `Document.Walks`: the walk of verification, rule by rule and without a bound on its depth

## Main results

* `Document.Walks.unique`, `Document.walks_foldlM`: the walk ends, and it ends in one way
* `Document.perm_preorder_children`: the nodes of a forest are its roots and the children of its
  nodes
* `Document.WellFormed.not_below_self`: no node of a well-formed document is below itself
* `Document.verify_iff`: verification accepts the well-formed documents and no others
-/

namespace MarkupTemplate

namespace Document

/-! ## Places -/

/-- A place in a document: its top, or one among the children of a node. -/
inductive Place where
  /-- The place of the root. -/
  | top
  /-- The place of the child of the given index, counted from zero. -/
  | child (parent : NodeId) (index : Nat)
deriving DecidableEq, Repr, Inhabited

/-- On the way down from the root the node is met at the place. -/
inductive StandsAt (d : Document) : Place → NodeId → Prop
  | root : StandsAt d .top root
  | child {place : Place} {parent index id : Nat} : StandsAt d place parent →
    (d.children parent)[index]? = some id → StandsAt d (.child parent index) id

variable {d : Document} {f : Forest} {met met' ids : List NodeId} {id parent : NodeId}

/-- The node is met somewhere on the way down from the root. -/
def Reached (d : Document) (id : NodeId) : Prop := ∃ place, d.StandsAt place id

theorem reached_root (d : Document) : d.Reached root := ⟨_, .root⟩

theorem Reached.child (h : d.Reached parent) (hid : id ∈ d.children parent) : d.Reached id := by
  obtain ⟨place, hplace⟩ := h
  obtain ⟨index, hindex⟩ := List.mem_iff_getElem?.1 hid
  exact ⟨_, .child hplace hindex⟩

/-! ## Demands -/

/-- What its kind demands of a node. -/
structure Demands (d : Document) (id : NodeId) : Prop where
  /-- Only the root stands for a document. -/
  document : d.kind id = .document → id = root
  /-- Markup is a leaf. -/
  markup : d.kind id = .markup → d.children id = []
  /-- An element is named. -/
  name : d.kind id = .element → (d.label id).name ≠ []
  /-- No child of an element that is an attribute comes after one that is not. -/
  attributes : d.kind id = .element →
    (d.children id).Pairwise fun before after => d.kind after = .attribute →
      d.kind before = .attribute
  /-- An attribute has one child, its value. -/
  value : d.kind id = .attribute →
    ∃ value, d.children id = [value] ∧ d.kind value = .attributeValue
  /-- Just one child of a construct is a body. -/
  body : d.kind id = .construct →
    (d.children id).countP (fun child => d.kind child = .constructBody) = 1

theorem attributesFirst_iff (kinds : List NodeKind) :
    attributesFirst kinds = true ↔
      kinds.Pairwise fun before after => after = .attribute → before = .attribute := by
  induction kinds with
  | nil => simp [attributesFirst]
  | cons kind kinds ih =>
    rw [List.pairwise_cons, ← ih]
    by_cases hkind : kind = .attribute
    · simp [attributesFirst, hkind]
    · -- After the first child that is no attribute none may be one.
      have hall : attributesFirst (kind :: kinds) = true ↔ ∀ after ∈ kinds, after ≠ .attribute := by
        simp [attributesFirst, hkind]
      rw [hall]
      constructor
      · intro h
        refine ⟨fun after hafter he => absurd he (h after hafter), ih.2 ?_⟩
        exact List.pairwise_of_forall_mem_list fun _ _ b hb he => absurd he (h b hb)
      · rintro ⟨h, -⟩ after hafter he
        exact hkind (h after hafter he)

/-- The test of one node is that for the demands of its kind. -/
theorem wellShaped_iff : d.wellShaped id = true ↔ d.Demands id := by
  have hfirst : attributesFirst ((d.children id).map d.kind) = true ↔
      (d.children id).Pairwise fun before after => d.kind after = .attribute →
        d.kind before = .attribute := by
    rw [attributesFirst_iff, List.pairwise_map]
  have hcount : ((d.children id).map d.kind).count .constructBody =
      (d.children id).countP fun child => d.kind child = .constructBody := by
    rw [List.count, List.countP_map]
    rfl
  have hvalue : (d.children id).map d.kind = [.attributeValue] ↔
      ∃ value, d.children id = [value] ∧ d.kind value = .attributeValue := by
    rw [List.map_eq_singleton_iff]
  constructor
  · intro h
    unfold wellShaped at h
    constructor <;> intro hkind <;> rw [hkind] at h
    · simpa using h
    · simpa using h
    · simp only [Bool.and_eq_true, Bool.not_eq_true', List.isEmpty_eq_false_iff] at h
      exact h.1
    · simp only [Bool.and_eq_true] at h
      exact hfirst.1 h.2
    · exact hvalue.1 (by simpa using h)
    · rw [← hcount]
      simpa using h
  · intro h
    unfold wellShaped
    split
    · next hkind => simpa using h.document hkind
    · next hkind => simp [h.markup hkind]
    · next hkind => simp [h.name hkind, hfirst.2 (h.attributes hkind)]
    · next hkind => simpa using hvalue.2 (h.value hkind)
    · next hkind => simpa [hcount] using h.body hkind
    · rfl

/-! ## The walk -/

/-- Verification enters a node that the document has, that was not met before, and that has the
children its kind demands. -/
def Enters (d : Document) (met : List NodeId) (id : NodeId) : Prop :=
  id < d.size ∧ id ∉ met ∧ d.wellShaped id

/-- The walk of verification from the given nodes on, one after another and each with all below it,
given the nodes that were met before. It ends with all nodes met by then, or it is broken off where
a node is refused. The rules say nothing of a depth. -/
inductive Walks (d : Document) : List NodeId → List NodeId → Option (List NodeId) → Prop
  | done {met : List NodeId} : Walks d met [] (some met)
  | refused {met : List NodeId} {id : NodeId} {ids : List NodeId} :
    ¬ d.Enters met id → Walks d met (id :: ids) none
  | brokenOff {met : List NodeId} {id : NodeId} {ids : List NodeId} : d.Enters met id →
    Walks d (id :: met) (d.children id) none → Walks d met (id :: ids) none
  | entered {met met' : List NodeId} {id : NodeId} {ids : List NodeId}
      {answer : Option (List NodeId)} : d.Enters met id →
    Walks d (id :: met) (d.children id) (some met') → Walks d met' ids answer →
      Walks d met (id :: ids) answer

theorem Walks.unique {answer answer' : Option (List NodeId)} (h : d.Walks met ids answer)
    (h' : d.Walks met ids answer') : answer = answer' := by
  induction h generalizing answer' with
  | done =>
    cases h'
    rfl
  | refused hrefused =>
    cases h' with
    | refused => rfl
    | brokenOff => rfl
    | entered henters => exact absurd henters hrefused
  | brokenOff henters _ ih =>
    cases h' with
    | refused => rfl
    | brokenOff => rfl
    | entered _ hbelow => exact absurd (ih hbelow) (by simp)
  | entered henters _ _ ihbelow ihnext =>
    cases h' with
    | refused hrefused => exact absurd henters hrefused
    | brokenOff _ hbelow => exact absurd (ihbelow hbelow) (by simp)
    | entered _ hbelow hnext =>
      obtain rfl := Option.some.inj (ihbelow hbelow)
      exact ihnext hnext

theorem verifyFrom_succ_of_enters {depth : Nat} (h : d.Enters met id) :
    d.verifyFrom (depth + 1) met id =
      (d.children id).foldlM (d.verifyFrom depth) (id :: met) := by
  obtain ⟨hlt, hfresh, hshaped⟩ := h
  rw [verifyFrom, if_pos (by simp [hlt, hfresh, hshaped])]

theorem verifyFrom_of_not_enters {depth : Nat} (h : ¬ d.Enters met id) :
    d.verifyFrom depth met id = none := by
  cases depth with
  | zero => rfl
  | succ depth =>
    rw [verifyFrom, if_neg]
    intro hcond
    simp only [Bool.and_eq_true, decide_eq_true_eq, Bool.not_eq_true', List.contains_eq_mem,
      decide_eq_false_iff_not] at hcond
    exact h ⟨hcond.1.1, hcond.1.2, hcond.2⟩

/-- There is a node to enter only as long as not all nodes have been met. -/
theorem Enters.length_lt (h : d.Enters met id) (hnodup : met.Nodup)
    (hlt : ∀ i ∈ met, i < d.size) : met.length < d.size := by
  have hlength : (id :: met).length ≤ (List.range d.size).length := by
    refine (List.nodup_cons.2 ⟨h.2.1, hnodup⟩).length_le_of_subset fun i hi => ?_
    rcases List.mem_cons.1 hi with rfl | hi
    · exact List.mem_range.2 h.1
    · exact List.mem_range.2 (hlt i hi)
  rwa [List.length_cons, List.length_range] at hlength

/-- A bound on the depth that leaves room for all nodes not yet met is no bound: the walk within it
goes by the rules to its end. -/
theorem walks_foldlM {depth : Nat} (hnodup : met.Nodup) (hlt : ∀ i ∈ met, i < d.size)
    (hdepth : d.size ≤ depth + met.length) :
    d.Walks met ids (ids.foldlM (d.verifyFrom depth) met) := by
  induction depth generalizing met ids with
  | zero =>
    cases ids with
    | nil => exact .done
    | cons id ids =>
      -- All nodes have been met, so there is none to enter.
      refine .refused fun henters => ?_
      have hless := henters.length_lt hnodup hlt
      omega
  | succ depth ihd =>
    induction ids generalizing met with
    | nil => exact .done
    | cons id ids ihs =>
      rw [List.foldlM_cons]
      by_cases henters : d.Enters met id
      · have hnodup' : (id :: met).Nodup := List.nodup_cons.2 ⟨henters.2.1, hnodup⟩
        have hlt' : ∀ i ∈ id :: met, i < d.size := by simpa using ⟨henters.1, hlt⟩
        have hdepth' : d.size ≤ depth + (id :: met).length := by
          rw [List.length_cons]
          omega
        have hbelow : d.Walks (id :: met) (d.children id)
            ((d.children id).foldlM (d.verifyFrom depth) (id :: met)) := ihd hnodup' hlt' hdepth'
        rw [verifyFrom_succ_of_enters henters]
        cases hresult : (d.children id).foldlM (d.verifyFrom depth) (id :: met) with
        | none =>
          rw [hresult] at hbelow
          exact .brokenOff henters hbelow
        | some met₁ =>
          rw [hresult] at hbelow
          obtain ⟨-, -, hmet₁, hnodup₁, hnodes⟩ := exhibits_of_foldlM_verifyFrom depth hresult
          refine .entered henters hbelow (ihs (hnodup₁ hnodup') (fun i hi => ?_) ?_)
          · rw [hmet₁, List.mem_append, List.mem_reverse] at hi
            exact hi.elim (fun hi => (hnodes i hi).1) (hlt' i)
          · rw [hmet₁, List.length_append, List.length_cons]
            omega
      · rw [verifyFrom_of_not_enters henters]
        exact .refused henters

/-! ## Well-formed documents -/

/-- A document is well-formed if all nodes that are reached from the root are nodes of the document,
none of them at two places, and have the children that their kinds demand. -/
structure WellFormed (d : Document) : Prop where
  lt_size : ∀ id, d.Reached id → id < d.size
  place_unique : ∀ id place place', d.StandsAt place id → d.StandsAt place' id → place = place'
  demands : ∀ id, d.Reached id → d.Demands id

namespace WellFormed

/-- Above the root there is nothing. -/
theorem root_notMem (h : d.WellFormed) (hparent : d.Reached parent) :
    root ∉ d.children parent := by
  intro hroot
  obtain ⟨place, hplace⟩ := hparent
  obtain ⟨index, hindex⟩ := List.mem_iff_getElem?.1 hroot
  exact absurd (h.place_unique root _ _ .root (.child hplace hindex)) (by simp)

/-- A node has one parent. -/
theorem parent_unique {parent' : NodeId} (h : d.WellFormed) (hparent : d.Reached parent)
    (hparent' : d.Reached parent') (hid : id ∈ d.children parent)
    (hid' : id ∈ d.children parent') : parent = parent' := by
  obtain ⟨place, hplace⟩ := hparent
  obtain ⟨place', hplace'⟩ := hparent'
  obtain ⟨index, hindex⟩ := List.mem_iff_getElem?.1 hid
  obtain ⟨index', hindex'⟩ := List.mem_iff_getElem?.1 hid'
  have heq := h.place_unique id _ _ (.child hplace hindex) (.child hplace' hindex')
  exact (Place.child.inj heq).1

/-- No node is a child of the same parent twice. -/
theorem nodup_children (h : d.WellFormed) (hparent : d.Reached parent) :
    (d.children parent).Nodup := by
  obtain ⟨place, hplace⟩ := hparent
  rw [List.nodup_iff_getElem?_ne_getElem?]
  intro i j hlt hj heq
  have hj : (d.children parent)[j]? = some (d.children parent)[j] := List.getElem?_eq_getElem hj
  have hsame := h.place_unique _ _ _ (.child hplace (heq.trans hj)) (.child hplace hj)
  exact absurd (Place.child.inj hsame).2 (Nat.ne_of_lt hlt)

/-- No node is below itself: whoever is reached stands at one place, and going up from there one
comes to the root and to no node a second time. -/
theorem not_below_self (h : d.WellFormed) (hid : d.Reached id) :
    ¬ Relation.TransGen (fun parent child => child ∈ d.children parent) id id := by
  obtain ⟨place, hplace⟩ := hid
  have hreach : ∀ {above below}, Relation.ReflTransGen (fun p c => c ∈ d.children p) above below →
      d.Reached above → d.Reached below := by
    intro above below hpath habove
    induction hpath with
    | refl => exact habove
    | tail _ hstep ih => exact ih.child hstep
  induction hplace with
  | root =>
    intro hcycle
    obtain ⟨parent, hpath, hstep⟩ := Relation.TransGen.tail'_iff.1 hcycle
    exact h.root_notMem (hreach hpath d.reached_root) hstep
  | child hparent hindex ih =>
    intro hcycle
    have hmem := List.mem_of_getElem? hindex
    obtain ⟨last, hpath, hstep⟩ := Relation.TransGen.tail'_iff.1 hcycle
    -- The last node of the cycle is the one parent, so the cycle runs through the parent as well.
    have hlast := h.parent_unique (hreach hpath (Reached.child ⟨_, hparent⟩ hmem)) ⟨_, hparent⟩
      hstep hmem
    rw [hlast] at hpath
    exact ih (Relation.TransGen.head' hmem hpath)

end WellFormed

/-! ## Well-formed documents are accepted -/

/-- In a well-formed document verification is about to walk from the given nodes on. None of them
has been met, but their parents have, and nothing below a node that has not been met. -/
structure Pending (d : Document) (met ids : List NodeId) : Prop where
  fresh : ∀ id ∈ ids, id ∉ met
  nodup : ids.Nodup
  reached : ∀ id ∈ ids, d.Reached id
  parent_mem : ∀ id ∈ ids, ∀ parent, d.Reached parent → id ∈ d.children parent → parent ∈ met
  closed : ∀ parent, d.Reached parent → parent ∉ met → ∀ c ∈ d.children parent, c ∉ met

namespace Pending

theorem start (h : d.WellFormed) : d.Pending [] [root] where
  fresh := by simp
  nodup := List.nodup_singleton _
  reached := by simpa using d.reached_root
  parent_mem := by
    intro id hid parent hparent hmem
    obtain rfl := List.mem_singleton.1 hid
    exact absurd hmem (h.root_notMem hparent)
  closed := by simp

/-- Below a node that is entered the walk goes on with its children. -/
theorem below (h : d.WellFormed) (hp : d.Pending met (id :: ids)) :
    d.Pending (id :: met) (d.children id) := by
  have hid := hp.reached id List.mem_cons_self
  have hfresh := hp.fresh id List.mem_cons_self
  have hparents := hp.parent_mem id List.mem_cons_self
  -- The node is the one parent of its children, and it has not been met: nor have they.
  constructor
  · intro c hc hmem
    rcases List.mem_cons.1 hmem with rfl | hmem
    · exact hfresh (hparents c hid hc)
    · exact hp.closed id hid hfresh c hc hmem
  · exact h.nodup_children hid
  · exact fun c hc => hid.child hc
  · intro c hc parent hparent hmem
    rw [h.parent_unique hparent hid hmem hc]
    exact List.mem_cons_self
  · intro parent hparent hnot c hc hmem
    rw [List.mem_cons, not_or] at hnot
    rcases List.mem_cons.1 hmem with rfl | hmem
    · exact hnot.2 (hparents parent hparent hc)
    · exact hp.closed parent hparent hnot.2 c hc hmem

end Pending

/-- What a walk has met at its end: the nodes that it started from, and the children of nodes that
had not been met before. -/
structure Completes (d : Document) (met ids met' : List NodeId) : Prop where
  subset : met ⊆ met'
  closed : ∀ parent, d.Reached parent → parent ∉ met' → ∀ c ∈ d.children parent, c ∉ met'
  mem : ∀ id ∈ met', id ∈ met ∨ id ∈ ids ∨
    ∃ parent, d.Reached parent ∧ parent ∉ met ∧ id ∈ d.children parent

/-- After a node and all below it the walk goes on with the next nodes. -/
theorem Pending.next {met₁ : List NodeId} (hp : d.Pending met (id :: ids))
    (hbelow : d.Completes (id :: met) (d.children id) met₁) : d.Pending met₁ ids := by
  have hid := hp.reached id List.mem_cons_self
  obtain ⟨hnotMem, hnodup⟩ := List.nodup_cons.1 hp.nodup
  refine ⟨fun i hi hmem => ?_, hnodup, fun i hi => hp.reached i (List.mem_cons_of_mem _ hi),
    fun i hi parent hparent hmem => ?_, hbelow.closed⟩
  · have hparents := hp.parent_mem i (List.mem_cons_of_mem _ hi)
    rcases hbelow.mem i hmem with hmem | hmem | ⟨parent, hparent, hnot, hmem⟩
    · rcases List.mem_cons.1 hmem with rfl | hmem
      · exact hnotMem hi
      · exact hp.fresh i (List.mem_cons_of_mem _ hi) hmem
    · exact hp.fresh id List.mem_cons_self (hparents id hid hmem)
    · exact hnot (List.mem_cons_of_mem _ (hparents parent hparent hmem))
  · refine hbelow.subset (List.mem_cons_of_mem _ ?_)
    exact hp.parent_mem i (List.mem_cons_of_mem _ hi) parent hparent hmem

/-- In a well-formed document no node is refused, and no mark is left where the walk has not
been. -/
theorem Walks.completes {answer : Option (List NodeId)} (h : d.WellFormed)
    (hw : d.Walks met ids answer) (hp : d.Pending met ids) :
    ∃ met', answer = some met' ∧ d.Completes met ids met' := by
  induction hw with
  | done => exact ⟨_, rfl, fun _ hid => hid, hp.closed, fun _ hid => .inl hid⟩
  | @refused met id ids hrefused =>
    have hid := hp.reached id List.mem_cons_self
    exact absurd ⟨h.lt_size id hid, hp.fresh id List.mem_cons_self,
      wellShaped_iff.2 (h.demands id hid)⟩ hrefused
  | brokenOff _ _ ih =>
    obtain ⟨met', hmet', -⟩ := ih (hp.below h)
    exact absurd hmet' (by simp)
  | @entered met met₁ id ids answer henters _ _ ihbelow ihnext =>
    obtain ⟨_, hmet₁, hbelow⟩ := ihbelow (hp.below h)
    obtain rfl := Option.some.inj hmet₁
    obtain ⟨met', hmet', hnext⟩ := ihnext (hp.next hbelow)
    have hsubset : met ⊆ met₁ := fun i hi => hbelow.subset (List.mem_cons_of_mem _ hi)
    -- What has been met by the end was met before, below the node, or from the next nodes on.
    refine ⟨met', hmet', List.Subset.trans hsubset hnext.subset, hnext.closed, fun i hi => ?_⟩
    rcases hnext.mem i hi with hi | hi | ⟨parent, hparent, hnot, hi⟩
    · rcases hbelow.mem i hi with hi | hi | ⟨parent, hparent, hnot, hi⟩
      · exact (List.mem_cons.1 hi).elim (fun he => .inr (.inl (he ▸ List.mem_cons_self))) .inl
      · exact .inr (.inr ⟨id, hp.reached id List.mem_cons_self, henters.2.1, hi⟩)
      · exact .inr (.inr ⟨parent, hparent, fun hmem => hnot (List.mem_cons_of_mem _ hmem), hi⟩)
    · exact .inr (.inl (List.mem_cons_of_mem _ hi))
    · exact .inr (.inr ⟨parent, hparent, fun hmem => hnot (hsubset hmem), hi⟩)

/-! ## No other documents are accepted -/

/-- The nodes of a forest are its roots and the children of its nodes. -/
theorem perm_preorder_children (h : d.Shows f) :
    f.preorder.Perm (f.roots ++ f.preorder.flatMap d.children) := by
  induction f with
  | nil => exact .nil
  | cons id label children siblings ihc ihs =>
    obtain ⟨hid, hchildren, hsiblings⟩ := h
    rw [List.perm_iff_count] at ihc ihs ⊢
    intro i
    have hc := ihc hchildren i
    have hs := ihs hsiblings i
    simp only [Forest.preorder, Forest.roots, List.flatMap_cons, List.flatMap_append, hid,
      List.count_append, List.count_cons] at hc hs ⊢
    omega

/-- What stands somewhere in a document is in each forest that the document shows under its root. -/
theorem mem_preorder_of_standsAt (h : d.Shows f) (hroots : f.roots = [root]) {place : Place}
    (hplace : d.StandsAt place id) : id ∈ f.preorder := by
  induction hplace with
  | root => exact Forest.mem_preorder_of_mem_roots (by simp [hroots])
  | child _ hindex ih => exact h.mem_of_mem_children ih (List.mem_of_getElem? hindex)

/-- A tree of distinct nodes that a document shows under its root holds all that is reached, each
node at one place. -/
theorem place_unique_of_shows (h : d.Shows f) (hroots : f.roots = [root])
    (hnodup : f.preorder.Nodup) :
    (∀ id, d.Reached id → id ∈ f.preorder) ∧
      ∀ id place place', d.StandsAt place id → d.StandsAt place' id → place = place' := by
  have hmem : ∀ place id, d.StandsAt place id → id ∈ f.preorder := fun _ _ hplace =>
    mem_preorder_of_standsAt h hroots hplace
  have hperm := (perm_preorder_children h).nodup_iff.1 hnodup
  rw [hroots, List.singleton_append, List.nodup_cons, List.nodup_flatMap] at hperm
  obtain ⟨hroot, hchildren, hdisjoint⟩ := hperm
  have htop : ∀ {place : Place} {parent index : Nat}, d.StandsAt place parent →
      (d.children parent)[index]? ≠ some root := by
    intro place parent index hplace hindex
    exact hroot (List.mem_flatMap.2 ⟨parent, hmem _ _ hplace, List.mem_of_getElem? hindex⟩)
  refine ⟨fun id ⟨place, hplace⟩ => hmem place id hplace, fun id place place' hplace hplace' => ?_⟩
  cases hplace with
  | root =>
    cases hplace' with
    | root => rfl
    | child hparent hindex => exact absurd hindex (htop hparent)
  | @child _ parent index _ hparent hindex =>
    cases hplace' with
    | root => exact absurd hindex (htop hparent)
    | @child _ parent' index' _ hparent' hindex' =>
      obtain rfl : parent = parent' := by
        by_contra hne
        -- Two parents would be two nodes of the tree with a child in common.
        have : Std.Symm (Function.onFun List.Disjoint d.children) :=
          ⟨fun _ _ h _ hi hj => h hj hi⟩
        have hdisjoint' := hdisjoint.forall (hmem _ _ hparent) (hmem _ _ hparent') hne
        exact hdisjoint' (List.mem_of_getElem? hindex) (List.mem_of_getElem? hindex')
      have hlt := (List.getElem?_eq_some_iff.1 hindex).1
      have hsame := (List.getElem?_inj hlt (hchildren parent (hmem _ _ hparent))).1
        (hindex.trans hindex'.symm)
      rw [hsame]

theorem wellFormed_of_verify (h : d.verify) : d.WellFormed := by
  have hformed := formed_of_verify h
  obtain ⟨hmem, hunique⟩ := place_unique_of_shows hformed.shows rfl hformed.nodup
  exact ⟨fun id hid => hformed.lt_size id (hmem id hid), hunique,
    fun id hid => wellShaped_iff.1 (hformed.wellShaped id (hmem id hid))⟩

/-- The walk of verification from the root comes to an end in every document, whatever its children
are, and in one way. Verification accepts a document just if the walk is not broken off, and this is
so just if the document is well-formed. No node of such a document is below itself. -/
theorem verify_iff (d : Document) :
    (∃! answer, d.Walks [] [root] answer) ∧
      (d.verify ↔ ∃ met, d.Walks [] [root] (some met)) ∧ (d.verify ↔ d.WellFormed) ∧
      (d.verify → ∀ id, d.Reached id →
        ¬ Relation.TransGen (fun parent child => child ∈ d.children parent) id id) := by
  have hwalk : d.Walks [] [root] (d.verifyFrom d.size [] root) := by
    have hwalk : d.Walks [] [root] ([root].foldlM (d.verifyFrom d.size) []) :=
      walks_foldlM List.nodup_nil (by simp) (Nat.le_refl _)
    simpa using hwalk
  have haccepts : d.verify ↔ ∃ met, d.Walks [] [root] (some met) := by
    rw [verify, Option.isSome_iff_exists]
    constructor
    · rintro ⟨met, hmet⟩
      exact ⟨met, hmet ▸ hwalk⟩
    · rintro ⟨met, hmet⟩
      exact ⟨met, hwalk.unique hmet⟩
  refine ⟨⟨_, hwalk, fun answer h => h.unique hwalk⟩, haccepts, ⟨wellFormed_of_verify, fun h => ?_⟩,
    fun h id hid => (wellFormed_of_verify h).not_below_self hid⟩
  obtain ⟨met, hmet, -⟩ := hwalk.completes h (.start h)
  exact haccepts.2 ⟨met, hmet ▸ hwalk⟩

end Document

end MarkupTemplate
