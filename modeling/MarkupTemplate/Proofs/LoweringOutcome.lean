import MarkupTemplate.Proofs.Replacement

/-!
# The outcome of lowering

Orphans are lowered in the order in which they are listed, each where it is listed. Every one of
them is lowered after all that it takes over, so an element never gets an orphan as a child, and
none is taken away from the place where it is listed before its turn. So lowering fails only for
what could be told from the document beforehand, and when it does not fail no orphan is left.

## Main definitions

* `Document.Replaces`: the orphans of a list have been lowered, and nothing else has changed

## Main results

* `Document.Replaces.next`: how one more orphan is lowered
* `Document.Replaces.run`: how the orphans that are left are lowered
* `Document.Replaces.orphans_eq_nil`: in the end no orphan is left
* `Document.lowered_idempotent`: a document is lowered once and for all
* `Document.lowered_fails_iff`: when lowering fails, and how
-/

namespace MarkupTemplate

namespace Document

variable {components : Components} {d e e' : Document} {id child : Nat}
variable {done todo : List Orphan} {orphan : Orphan}

/-! ## Orphans that have been lowered -/

/-- The document `e` comes from `d` by lowering the orphans in a list where they were listed. Nodes
that were there have the children that they had, apart from these, and what the new nodes took over
from the orphans is reached and is no orphan. -/
structure Replaces (components : Components) (d : Document) (done : List Orphan) (e : Document) :
    Prop where
  acyclic : e.Acyclic
  size_le : d.size ≤ e.size
  label : ∀ id < d.size, e.label id = d.label id
  count : ∀ id < d.size, ∀ child < d.size, (e.children id).count child =
    if (⟨id, child⟩ : Orphan) ∈ done then 0 else (d.children id).count child
  kind : ∀ id, d.size ≤ id → id < e.size → (e.kind id).isOfElement
  settled : ∀ id, d.size ≤ id → ∀ child ∈ e.children id, child < d.size →
    d.Reached child ∧ (d.label child).isOrphan components = false

namespace Replaces

theorem refl (h : d.Acyclic) : d.Replaces components [] d where
  acyclic := h
  size_le := Nat.le_refl _
  label _ _ := rfl
  count _ _ _ _ := by simp
  kind id hle hlt := absurd hlt (Nat.not_lt.2 hle)
  settled id hle child hchild := by
    rw [children_of_size_le hle] at hchild
    exact absurd hchild List.not_mem_nil

/-- Of the nodes that were there, a node has the children that it had but for the orphans. -/
theorem mem_children_iff (h : d.Replaces components done e) (hid : id < d.size)
    (hchild : child < d.size) :
    child ∈ e.children id ↔ child ∈ d.children id ∧ (⟨id, child⟩ : Orphan) ∉ done := by
  rw [← List.count_pos_iff, h.count id hid child hchild]
  split <;> simp_all [List.count_pos_iff]

/-- Only nodes that were there have the kind of a construct or of a part of one. -/
theorem lt_size_of_kind (h : d.Replaces components done e) (hid : id < e.size)
    (hkind : (e.kind id).isOfElement = false) : id < d.size := by
  by_contra hle
  simp [h.kind id (Nat.not_lt.1 hle) hid] at hkind

theorem kind_eq (h : d.Replaces components done e) (hid : id < d.size) : e.kind id = d.kind id :=
  congrArg Label.kind (h.label id hid)

/-- The nodes that were there are reached only if they were reached before. -/
theorem reached (h : d.Replaces components done e) (hid : e.Reached id) (hlt : id < d.size) :
    d.Reached id := by
  obtain ⟨place, hplace⟩ := hid
  induction hplace with
  | root => exact d.reached_root
  | @child place above index below habove hindex ih =>
    have hbelow := List.mem_of_getElem? hindex
    rcases Nat.lt_or_ge above d.size with hold | hnew
    · exact (ih hold).child ((h.mem_children_iff hold hlt).1 hbelow).1
    · exact (h.settled above hnew below hbelow hlt).1

/-- A construct has a body just if it had one. -/
theorem exists_body_iff (h : d.Replaces components done e)
    (hdone : ∀ orphan ∈ done, (d.label orphan.node).isOrphan components) (hd : d.Acyclic)
    (hid : id < d.size) :
    (∃ body ∈ e.children id, e.kind body = .constructBody) ↔
      ∃ body ∈ d.children id, d.kind body = .constructBody := by
  constructor
  · rintro ⟨body, hbody, hkind⟩
    have hold : body < d.size :=
      h.lt_size_of_kind (h.acyclic.child_lt_size hbody) (by rw [hkind]; rfl)
    exact ⟨body, ((h.mem_children_iff hid hold).1 hbody).1, h.kind_eq hold ▸ hkind⟩
  · rintro ⟨body, hbody, hkind⟩
    have hold := hd.child_lt_size hbody
    -- A body is no orphan, so it is still there.
    have hnot : (⟨id, body⟩ : Orphan) ∉ done := fun hmem =>
      absurd (hkind.symm.trans (Label.kind_of_isOrphan (hdone _ hmem))) nofun
    exact ⟨body, (h.mem_children_iff hid hold).2 ⟨hbody, hnot⟩, (h.kind_eq hold).trans hkind⟩

/-- What an orphan hands on is reached and is no orphan, if the orphan can be lowered next. -/
theorem settled_of_takenOver (h : d.Replaces components done e) (hd : d.Acyclic)
    (hreached : d.Reached orphan.node) (hinner : d.InnerFirst components done (orphan :: todo))
    (hchild : child < d.size) (htaken : e.TakenOver orphan.node child) :
    d.Reached child ∧ (d.label child).isOrphan components = false := by
  have horphan := hd.lt_size hreached
  -- What is still under the orphan, or under its bodies and attributes, was there before.
  have hstill : ∀ above, (above = orphan.node ∨ above ∈ d.children orphan.node) →
      d.Reached above → child ∈ e.children above →
      d.Reached child ∧ (d.label child).isOrphan components = false := by
    intro above habove hreached hmem
    obtain ⟨hmem, hnot⟩ := (h.mem_children_iff (hd.lt_size hreached) hchild).1 hmem
    exact ⟨hreached.child hmem, by simpa using mt (hinner.1 above habove child hmem) hnot⟩
  rcases htaken with hmem | ⟨part, hpart, hkind, hmem⟩
  · exact hstill _ (.inl rfl) hreached hmem
  · have hold : part < d.size := h.lt_size_of_kind (h.acyclic.child_lt_size hpart) (by
      rcases hkind with hkind | hkind <;> rw [hkind] <;> rfl)
    have hpart := ((h.mem_children_iff horphan hold).1 hpart).1
    exact hstill part (.inr hpart) (hreached.child hpart) hmem

/-- One more orphan is lowered. It has been at its place until now, once, and it goes from there. -/
theorem next (h : d.Replaces components done e) (hd : d.Acyclic)
    (hparent : d.Reached orphan.parent) (hmem : orphan.node ∈ d.children orphan.parent)
    (hone : (d.children orphan.parent).count orphan.node = 1) (hnot : orphan ∉ done)
    (hinner : d.InnerFirst components done (orphan :: todo)) (hlowers : e.LowersAt orphan e') :
    d.Replaces components (done ++ [orphan]) e' := by
  have hparentlt : orphan.parent < d.size := hd.lt_size hparent
  have hnodelt : orphan.node < d.size := hd.child_lt_size hmem
  have hlt : ∀ {id : Nat}, id < d.size → id < e.size := fun hid => Nat.lt_of_lt_of_le hid h.size_le
  refine
    { acyclic := hlowers.acyclic
      size_le := Nat.le_trans h.size_le (Nat.le_of_lt hlowers.size_lt)
      label := fun id hid => by rw [hlowers.grows.label id (hlt hid), h.label id hid]
      count := fun id hid child hchild => ?_
      kind := fun id hle hid => ?_
      settled := fun id hle child hmem' hchild => ?_ }
  · have hbefore := h.count id hid child hchild
    rw [hlowers.count_children (hlt hid) (hlt hchild)] at hbefore
    simp only [List.mem_append, List.mem_singleton]
    by_cases he : (⟨id, child⟩ : Orphan) = orphan
    · -- The orphan was once at its place, and it is not there any more.
      subst he
      rw [if_neg hnot, hone, if_pos rfl] at hbefore
      rw [if_pos (.inr rfl)]
      exact Nat.succ.inj hbefore
    · rw [if_neg he, Nat.add_zero] at hbefore
      simpa only [he, or_false] using hbefore
  · rcases Nat.lt_or_ge id e.size with hid' | hle'
    · rw [show e'.kind id = e.kind id from congrArg Label.kind (hlowers.grows.label id hid')]
      exact h.kind id hle hid'
    · exact hlowers.kind id hle' hid
  · rcases Nat.lt_or_ge id e.size with hid' | hle'
    · -- What was made for earlier orphans is not the parent, so it keeps its children.
      have hne : id ∉ [orphan.parent] := by
        simpa using Nat.ne_of_gt (Nat.lt_of_lt_of_le hparentlt hle)
      rw [hlowers.grows.children hid' hne] at hmem'
      exact h.settled id hle child hmem' hchild
    · exact h.settled_of_takenOver hd (hparent.child hmem) hinner hchild
        (hlowers.takenOver id hle' child hmem' (hlt hchild))

/-- In the end no orphan is left. -/
theorem orphans_eq_nil (h : d.Replaces components (d.orphans components) e) (hd : d.Acyclic) :
    e.orphans components = [] := by
  rw [List.eq_nil_iff_forall_not_mem]
  rintro ⟨above, id⟩ hmem
  obtain ⟨hreached, hchild, horphan⟩ := h.acyclic.mem_orphans_iff.1 hmem
  have hkind : e.kind id = .construct := Label.kind_of_isOrphan horphan
  have hid : id < d.size :=
    h.lt_size_of_kind (h.acyclic.child_lt_size hchild) (by rw [hkind]; rfl)
  rw [h.label id hid] at horphan
  rcases Nat.lt_or_ge above d.size with hold | hnew
  · -- It would have been listed with its parent.
    obtain ⟨hchild, hnot⟩ := (h.mem_children_iff hold hid).1 hchild
    exact hnot (hd.mem_orphans_iff.2 ⟨h.reached hreached hold, hchild, horphan⟩)
  · simp [(h.settled above hnew id hchild hid).2] at horphan

/-- The orphans that are left are lowered one after another, up to the first without a body. -/
theorem run (h : d.Replaces components done e) (hd : d.Acyclic)
    (hnodup : ((d.orphans components).map Orphan.node).Nodup)
    (hsplit : done ++ todo = d.orphans components) (hinner : d.InnerFirst components done todo) :
    (∃ e', e.rewriteEach lowerOrphan todo = ⟨e', []⟩ ∧
      d.Replaces components (d.orphans components) e' ∧
        ∀ orphan ∈ todo, ∃ body ∈ d.children orphan.node, d.kind body = .constructBody) ∨
    ∃ orphan ∈ todo, (∀ child ∈ d.children orphan.node, d.kind child ≠ .constructBody) ∧
      (e.rewriteEach lowerOrphan todo).faults =
        [.constructWithoutBody orphan.node (d.label orphan.node).name] := by
  induction todo generalizing done e with
  | nil =>
    rw [List.append_nil] at hsplit
    exact .inl ⟨e, rfl, hsplit ▸ h, by simp⟩
  | cons orphan todo ih =>
    -- All that was known of the orphan from the start still holds when its turn comes.
    have hlisted : ∀ other ∈ done ++ orphan :: todo, d.Reached other.parent ∧
        other.node ∈ d.children other.parent ∧ (d.label other.node).isOrphan components :=
      fun other hmem => hd.mem_orphans_iff.1 (hsplit ▸ hmem)
    obtain ⟨hparent, hmem, -⟩ := hlisted orphan (by simp)
    have hnot : orphan ∉ done := by
      have hdistinct := hsplit ▸ hnodup.of_map
      exact fun hdone => (List.nodup_append.1 hdistinct).2.2 _ hdone _ List.mem_cons_self rfl
    have hparentlt := hd.lt_size hparent
    have hnodelt := hd.child_lt_size hmem
    have hbody := h.exists_body_iff (fun other hother => (hlisted other (by simp [hother])).2.2) hd
      hnodelt
    by_cases hbodied : ∃ body ∈ d.children orphan.node, d.kind body = .constructBody
    · obtain ⟨body, hbodymem, hkind⟩ := hbody.2 hbodied
      obtain ⟨e', hrun, hlowers⟩ := h.acyclic.lowersAt_lowerOrphan
        (Nat.lt_of_lt_of_le hparentlt h.size_le)
        ((h.mem_children_iff hparentlt hnodelt).2 ⟨hmem, hnot⟩) hbodymem hkind
      have hone := hd.count_children_eq_one hnodup (hsplit ▸ by simp : orphan ∈ _)
      have hnext := h.next hd hparent hmem hone hnot hinner hlowers
      rw [rewriteEach_cons, hrun, Rewrite.andThen_of_ok rfl]
      refine (ih hnext (by rwa [List.append_assoc]) hinner.2).imp ?_ ?_
      · rintro ⟨e'', hrest, hreplaces, hall⟩
        exact ⟨e'', hrest, hreplaces, List.forall_mem_cons.2 ⟨hbodied, hall⟩⟩
      · rintro ⟨other, hother, hfault⟩
        exact ⟨other, List.mem_cons_of_mem _ hother, hfault⟩
    · refine .inr ⟨orphan, List.mem_cons_self, by simpa using hbodied, ?_⟩
      have hnone : ∀ child ∈ e.children orphan.node, e.kind child ≠ .constructBody := by
        simpa using mt hbody.1 hbodied
      rw [rewriteEach_cons, lowerOrphan_of_forall_ne hnone, h.label _ hnodelt]
      rfl

end Replaces

/-! ## Whole documents -/

/-- What is found to be repeated comes twice. -/
theorem two_le_count_of_firstRepeated {met ids : List NodeId} {id : NodeId}
    (h : firstRepeated met ids = some id) : 2 ≤ (met ++ ids).count id := by
  induction ids generalizing met with
  | nil => cases h
  | cons i ids ih =>
    rw [firstRepeated] at h
    split at h
    · next hmem =>
      obtain rfl := Option.some.inj h
      have hpos := List.count_pos_iff.2 (List.contains_iff_mem.1 hmem)
      rw [List.count_append, List.count_cons_self]
      omega
    · have hle := ih h
      rwa [List.cons_append, List.perm_middle.symm.count_eq] at hle

/-- If nothing is found to be repeated, all are distinct. -/
theorem nodup_of_firstRepeated_eq_none {met ids : List NodeId}
    (h : firstRepeated met ids = none) : ids.Nodup ∧ ∀ id ∈ ids, id ∉ met := by
  induction ids generalizing met with
  | nil => simp
  | cons i ids ih =>
    rw [firstRepeated] at h
    split at h
    · cases h
    · next hnot =>
      obtain ⟨hnodup, hmet⟩ := ih h
      simp only [List.mem_cons, not_or] at hmet
      refine ⟨List.nodup_cons.2 ⟨fun hmem => (hmet i hmem).1 rfl, hnodup⟩, ?_⟩
      exact List.forall_mem_cons.2 ⟨by simpa using hnot, fun id hid => (hmet id hid).2⟩

namespace Acyclic

/-- Lowering succeeds, or an orphan is shared, or an orphan has no body. -/
theorem lowered_cases (h : d.Acyclic) (components : Components) :
    (∃ e, d.lowered components = ⟨e, []⟩ ∧ d.Replaces components (d.orphans components) e ∧
      (∀ id, ¬ d.SharedOrphan components id) ∧ ∀ id, ¬ d.BodilessOrphan components id) ∨
    (∃ id, d.SharedOrphan components id ∧ d.lowered components = ⟨d, [.sharedConstruct id]⟩) ∨
    (∀ id, ¬ d.SharedOrphan components id) ∧ ∃ id, d.BodilessOrphan components id ∧
      (d.lowered components).faults = [.constructWithoutBody id (d.label id).name] := by
  cases hrepeated : firstRepeated [] ((d.orphans components).map Orphan.node) with
  | some id =>
    refine .inr (.inl ⟨id, ?_, by simp only [lowered, hrepeated]⟩)
    exact h.two_le_count_orphans_iff.1 (two_le_count_of_firstRepeated hrepeated)
  | none =>
    have hnodup := (nodup_of_firstRepeated_eq_none hrepeated).1
    have hshared : ∀ id, ¬ d.SharedOrphan components id := fun id hid => by
      have hle := List.nodup_iff_count_le_one.1 hnodup id
      have htwo := h.two_le_count_orphans_iff.2 hid
      omega
    have hlowered : d.lowered components =
        d.rewriteEach lowerOrphan (d.orphans components) := by
      simp only [lowered, hrepeated]
    rw [hlowered]
    rcases (Replaces.refl h).run h hnodup rfl h.innerFirst_orphans with
      ⟨e, hrun, hreplaces, hall⟩ | ⟨orphan, hmem, hbodiless, hfault⟩
    · refine .inl ⟨e, hrun, hreplaces, hshared, fun id hid => ?_⟩
      obtain ⟨orphan, hmem, -, hbodiless⟩ := h.bodilessOrphan_iff.1 hid
      obtain ⟨body, hbody, hkind⟩ := hall orphan hmem
      exact hbodiless body hbody hkind
    · exact .inr (.inr ⟨hshared, orphan.node,
        h.bodilessOrphan_iff.2 ⟨orphan, hmem, rfl, hbodiless⟩, hfault⟩)

end Acyclic

/-- Whether an acyclic document is lowered can be told beforehand: there is a fault just if an
orphan is shared or has no body, and then there is one. A shared orphan is found before anything is
changed. No orphan is missed where it was listed. -/
theorem lowered_fails_iff (h : d.Acyclic) (components : Components) :
    let outcome := d.lowered components
    (outcome.ok = false ↔
      (∃ id, d.SharedOrphan components id) ∨ ∃ id, d.BodilessOrphan components id) ∧
    outcome.faults.length = (if outcome.ok then 0 else 1) ∧
    ((∃ id, d.SharedOrphan components id) → outcome.document = d ∧
      outcome.faults.map Fault.code = [utf8 "STENCIL-I5102"] ∧
        ∃ id, d.SharedOrphan components id ∧ outcome.faults = [.sharedConstruct id]) ∧
    (outcome.ok = false → (∀ id, ¬ d.SharedOrphan components id) →
      ∃ id, d.BodilessOrphan components id ∧
        outcome.faults = [.constructWithoutBody id (d.label id).name]) ∧
    ∀ id name parent, Fault.detachedConstruct id name parent ∉ outcome.faults := by
  intro outcome
  rcases h.lowered_cases components with
    ⟨e, hrun, -, hshared, hbodiless⟩ | ⟨id, hid, hrun⟩ | ⟨hshared, id, hid, hfault⟩
  · have houtcome : outcome = ⟨e, []⟩ := hrun
    simp [houtcome, Rewrite.ok, hshared, hbodiless]
  · have houtcome : outcome = ⟨d, [.sharedConstruct id]⟩ := hrun
    have hsome : ∃ id, d.SharedOrphan components id := ⟨id, hid⟩
    rw [houtcome]
    refine ⟨by simp [Rewrite.ok, hsome], rfl, fun _ => ⟨rfl, rfl, id, hid, rfl⟩, ?_, by simp⟩
    exact fun _ hnone => absurd hid (hnone id)
  · have houtcome : outcome.faults = [.constructWithoutBody id (d.label id).name] := hfault
    have hsome : ∃ id, d.BodilessOrphan components id := ⟨id, hid⟩
    have hok : outcome.ok = false := by rw [Rewrite.ok, houtcome]; rfl
    refine ⟨by simp [hok, hsome], by simp [hok, houtcome], ?_, fun _ _ => ⟨id, hid, houtcome⟩,
      by simp [houtcome]⟩
    rintro ⟨id, hid⟩
    exact absurd hid (hshared id)

/-- Two elements share a construct without a body. -/
def sharedConstruct : Document :=
  ⟨#[{ kind := .document, children := [1, 2] },
    { kind := .element, name := utf8 "p", children := [3] },
    { kind := .element, name := utf8 "p", children := [3] },
    { kind := .construct, name := utf8 "b" }], by decide⟩

theorem sharedConstruct_fails :
    sharedConstruct.Acyclic ∧ (sharedConstruct.lowered []).ok = false ∧
      (sharedConstruct.lowered []).document = sharedConstruct ∧
      (sharedConstruct.lowered []).faults.map Fault.code = [utf8 "STENCIL-I5102"] := by
  have hacyclic : sharedConstruct.Acyclic := ⟨fun id => sharedConstruct.size - id, by decide⟩
  have hshared : sharedConstruct.SharedOrphan [] 3 :=
    ⟨by decide, [0, 0], [1, 0], by decide, rfl, rfl⟩
  obtain ⟨hfails, -, hunchanged, -⟩ := lowered_fails_iff hacyclic []
  obtain ⟨hdocument, hcode, -⟩ := hunchanged ⟨3, hshared⟩
  exact ⟨hacyclic, hfails.2 (.inl ⟨3, hshared⟩), hdocument, hcode⟩

/-- When an acyclic document is lowered without a fault, no orphan is left, and lowering again
changes nothing. The constructs that are left were reached before, as what they are now. -/
theorem lowered_idempotent (h : d.Acyclic) (hok : (d.lowered components).ok) :
    let d' := (d.lowered components).document
    d'.Acyclic ∧ d'.orphans components = [] ∧
      (∀ id, d'.Reached id → d'.kind id = .construct →
        d.Reached id ∧ d'.label id = d.label id) ∧
      d'.lowered components = ⟨d', []⟩ := by
  rcases h.lowered_cases components with
    ⟨e, hrun, hreplaces, -⟩ | ⟨id, -, hrun⟩ | ⟨-, id, -, hfault⟩
  · rw [hrun]
    have hnone := hreplaces.orphans_eq_nil h
    refine ⟨hreplaces.acyclic, hnone, fun id hid hkind => ?_, ?_⟩
    · have hlt := hreplaces.lt_size_of_kind (hreplaces.acyclic.lt_size hid) (by rw [hkind]; rfl)
      exact ⟨hreplaces.reached hid hlt, hreplaces.label id hlt⟩
    · simp [lowered, hnone, firstRepeated]
  · simp [hrun, Rewrite.ok] at hok
  · simp [hfault, Rewrite.ok] at hok

/-- A construct with an attribute, and a component and another construct in its body. An element
shares the content of the body of the component. -/
def sharedCard : Document :=
  ⟨#[{ kind := .document, children := [1, 2] },
    { kind := .construct, name := utf8 "p", children := [3, 4] },
    { kind := .element, name := utf8 "div", children := [7] },
    { kind := .constructAttribute, name := utf8 "id", children := [9] },
    { kind := .constructBody, children := [5, 8] },
    { kind := .construct, name := utf8 "Card", descriptors := [utf8 "card"], children := [6] },
    { kind := .constructBody, children := [7] },
    { kind := .element, name := utf8 "hr" },
    { kind := .construct, name := utf8 "b", children := [10] },
    { kind := .markup, fragments := [utf8 "x"] },
    { kind := .constructBody }], by decide⟩

theorem sharedCard_lowered :
    sharedCard.Acyclic ∧ (sharedCard.lowered [utf8 "card"]).ok ∧
      (sharedCard.lowered [utf8 "card"]).document ≠ sharedCard ∧
      (sharedCard.lowered [utf8 "card"]).document.orphans [utf8 "card"] = [] ∧
      (sharedCard.lowered [utf8 "card"]).document.lowered [utf8 "card"] =
        ⟨(sharedCard.lowered [utf8 "card"]).document, []⟩ := by
  have hacyclic : sharedCard.Acyclic := ⟨fun id => sharedCard.size - id, by decide⟩
  have hok : (sharedCard.lowered [utf8 "card"]).ok := by decide +kernel
  obtain ⟨-, hnone, -, hagain⟩ := lowered_idempotent hacyclic hok
  exact ⟨hacyclic, hok, by decide +kernel, hnone, hagain⟩

end Document

end MarkupTemplate
