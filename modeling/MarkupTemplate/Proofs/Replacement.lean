import Mathlib.Logic.Function.Basic
import MarkupTemplate.Proofs.Lowering
import MarkupTemplate.Proofs.Paths

/-!
# Lowering where nodes are shared

In a tree the forest below an orphan is its own. In an acyclic document other nodes may share it, so
here the lowering of an orphan is told from the nodes: which ones change, which ones are made, and
what comes under them. No rank has to rise for the nodes that are made, so the document stays
acyclic.

## Main definitions

* `Document.Ranked`: ranks that fall from every node to its children
* `Document.TakenOver`: what the element for an orphan and its attributes have as children
* `Document.Builds`: the element for an orphan is on its way
* `Document.RanksOn`: the new nodes rank between what they took over and the parents of the orphan
* `Document.LowersAt`: one orphan has been lowered where it was listed

## Main results

* `Document.builds_lowerChild`: what becomes of one child of an orphan
* `Document.Acyclic.lowersAt_lowerOrphan`: an orphan with a body is lowered where it is listed
* `Document.lowerOrphan_of_forall_ne`: an orphan without a body is not
* `Document.LowersAt.count_children`: the orphan goes from its place, and no other node does
-/

namespace MarkupTemplate

/-- The kinds of nodes that stand for an element and its attributes. -/
def NodeKind.isOfElement : NodeKind → Bool
  | .element | .attribute | .attributeValue => true
  | _ => false

namespace Document

variable {d e : Document} {rank rank' : NodeId → Nat} {parent child orphan : Nat}

/-! ## Ranks -/

/-- The children of all nodes are nodes of the document, and they rank below them. -/
def Ranked (rank : NodeId → Nat) (d : Document) : Prop :=
  ∀ id < d.size, ∀ child ∈ d.children id, child < d.size ∧ rank child < rank id

namespace Ranked

theorem acyclic (h : d.Ranked rank) : d.Acyclic := ⟨rank, h⟩

theorem congr (h : d.Ranked rank) (hrank : ∀ id < d.size, rank' id = rank id) : d.Ranked rank' := by
  intro id hid child hchild
  obtain ⟨hlt, hlower⟩ := h id hid child hchild
  rw [hrank id hid, hrank child hlt]
  exact ⟨hlt, hlower⟩

/-- A further child that ranks below its parent. -/
theorem appendChild (h : d.Ranked rank) (hchild : child < d.size)
    (hlower : rank child < rank parent) : (d.appendChild parent child).Ranked rank := by
  intro id hid c hc
  rw [size_appendChild] at hid ⊢
  by_cases he : id = parent
  · subst he
    rw [children_appendChild hid, if_pos rfl, List.mem_append, List.mem_singleton] at hc
    rcases hc with hc | rfl
    · exact h id hid c hc
    · exact ⟨hchild, hlower⟩
  · rw [children_appendChild_of_ne he] at hc
    exact h id hid c hc

/-- A further node with children that rank below it. -/
theorem add (h : d.Ranked rank) {n : Node}
    (hn : ∀ child ∈ n.children, child < d.size ∧ rank child < rank d.size) :
    (d.add n).Ranked rank := by
  intro id hid c hc
  rw [size_add] at hid ⊢
  rcases Nat.lt_or_eq_of_le (Nat.le_of_lt_succ hid) with hlt | rfl
  · rw [children_add_of_lt n hlt] at hc
    exact (h id hlt c hc).imp_left Nat.lt_succ_of_lt
  · rw [children_add_size] at hc
    exact (hn c hc).imp_left Nat.lt_succ_of_lt

/-- Two further nodes, the second under the first. -/
theorem add_add (h : d.Ranked rank) {n m : Node} (hn : n.children = [d.size + 1])
    (hlower : rank (d.size + 1) < rank d.size)
    (hm : ∀ child ∈ m.children, child < d.size ∧ rank child < rank (d.size + 1)) :
    ((d.add n).add m).Ranked rank := by
  intro id hid c hc
  rw [size_add, size_add] at hid ⊢
  have hsize : (d.add n).size = d.size + 1 := size_add ..
  rcases Nat.lt_trichotomy id d.size with hlt | rfl | hgt
  · rw [children_add_of_lt m (hsize ▸ Nat.lt_succ_of_lt hlt), children_add_of_lt n hlt] at hc
    obtain ⟨hc, hrank⟩ := h id hlt c hc
    exact ⟨Nat.lt_succ_of_lt (Nat.lt_succ_of_lt hc), hrank⟩
  · rw [children_add_of_lt m (hsize ▸ Nat.lt_succ_self _), children_add_size, hn] at hc
    obtain rfl := List.mem_singleton.1 hc
    exact ⟨Nat.lt_succ_self _, hlower⟩
  · obtain rfl : id = (d.add n).size := by omega
    rw [children_add_size] at hc
    obtain ⟨hc, hrank⟩ := hm c hc
    exact ⟨Nat.lt_succ_of_lt (Nat.lt_succ_of_lt hc), hsize ▸ hrank⟩

/-- Another child that ranks below its parent. -/
theorem replaceChild (h : d.Ranked rank) (hchild : child < d.size)
    (hlower : rank child < rank parent) (index : Nat) :
    (d.replaceChild parent index child).Ranked rank := by
  intro id hid c hc
  rw [Document.replaceChild, size_modify] at hid ⊢
  rw [Document.replaceChild, Document.children] at hc
  by_cases he : id = parent
  · subst he
    rw [node_modify d _ hid, if_pos rfl] at hc
    rcases List.mem_or_eq_of_mem_set hc with hc | rfl
    · exact h id hid c hc
    · exact ⟨hchild, hlower⟩
  · rw [node_modify_of_ne he] at hc
    exact h id hid c hc

end Ranked

/-! ## The element for an orphan -/

@[simp] theorem size_lowerAttribute (d : Document) (id : NodeId) :
    (d.lowerAttribute id).1.size = d.size + 2 := by
  simp [lowerAttribute]

/-- What comes under the element for an orphan, and under its attributes: the children of the
orphan, of its bodies and of its attributes. -/
def TakenOver (d : Document) (orphan child : NodeId) : Prop :=
  child ∈ d.children orphan ∨ ∃ part ∈ d.children orphan,
    (d.kind part = .constructBody ∨ d.kind part = .constructAttribute) ∧ child ∈ d.children part

theorem Ranked.lower_of_takenOver (h : d.Ranked rank) (horphan : orphan < d.size)
    (htaken : d.TakenOver orphan child) : rank child < rank orphan := by
  rcases htaken with hchild | ⟨part, hpart, -, hchild⟩
  · exact (h orphan horphan child hchild).2
  · obtain ⟨hlt, hlower⟩ := h orphan horphan part hpart
    exact Nat.lt_trans (h part hlt child hchild).2 hlower

/-- The document `e` is on the way from `d` to the document in which an orphan is lowered: nodes of
an element were added, and they took over something of the orphan. -/
structure Builds (d : Document) (orphan : NodeId) (e : Document) : Prop extends
    Extends [] d e where
  kind : ∀ id, d.size ≤ id → id < e.size → (e.kind id).isOfElement
  takenOver : ∀ id, d.size ≤ id → ∀ child ∈ e.children id, child < d.size →
    d.TakenOver orphan child

namespace Builds

theorem refl (d : Document) (orphan : NodeId) : d.Builds orphan d := by
  refine ⟨.refl d, fun id hle hlt => absurd hlt (Nat.not_lt.2 hle), fun id hle child hchild _ => ?_⟩
  rw [children_of_size_le hle] at hchild
  exact absurd hchild List.not_mem_nil

theorem add (h : d.Builds orphan e) {n : Node} (hkind : n.kind.isOfElement)
    (htaken : ∀ child ∈ n.children, child < d.size → d.TakenOver orphan child) :
    d.Builds orphan (e.add n) := by
  refine ⟨h.toExtends.trans (.add n) fun _ hmem _ => hmem, fun id hle hlt => ?_,
    fun id hle child hchild hlt => ?_⟩
  · rw [size_add] at hlt
    rcases Nat.lt_or_eq_of_le (Nat.le_of_lt_succ hlt) with hlt | rfl
    · rw [Document.kind, node_add_of_lt _ _ hlt]
      exact h.kind id hle hlt
    · rw [Document.kind, node_add_size]
      exact hkind
  · rcases Nat.lt_trichotomy id e.size with hid | rfl | hid
    · rw [children_add_of_lt n hid] at hchild
      exact h.takenOver id hle child hchild hlt
    · rw [children_add_size] at hchild
      exact htaken child hchild hlt
    · rw [children_of_size_le (by rw [size_add]; exact hid)] at hchild
      exact absurd hchild List.not_mem_nil

theorem appendChild (h : d.Builds orphan e) (hparent : d.size ≤ parent) (hlt : parent < e.size)
    (htaken : child < d.size → d.TakenOver orphan child) :
    d.Builds orphan (e.appendChild parent child) := by
  refine ⟨h.toExtends.trans (.appendChild parent child) fun id hmem hid => ?_, fun id hle hid => ?_,
    fun id hle c hc hid => ?_⟩
  · exact absurd (List.mem_singleton.1 hmem ▸ hid) (Nat.not_lt.2 hparent)
  · have hkind : (e.appendChild parent child).kind id = e.kind id :=
      congrArg Label.kind label_appendChild
    rw [hkind]
    exact h.kind id hle (by simpa using hid)
  · rw [children_appendChild hlt] at hc
    split at hc
    · rcases List.mem_append.1 hc with hc | hc
      · exact h.takenOver parent hparent c hc hid
      · obtain rfl := List.mem_singleton.1 hc
        exact htaken hid
    · exact h.takenOver id hle c hc hid

/-- The two nodes for an attribute of the orphan. -/
theorem lowerAttribute (h : d.Builds orphan e) {part : NodeId} (hlt : part < d.size)
    (hpart : part ∈ d.children orphan) (hkind : d.kind part = .constructAttribute) :
    d.Builds orphan (e.lowerAttribute part).1 := by
  refine (h.add (n := { e.node part with
    kind := .attribute, fragments := [], descriptors := [], children := [e.size + 1] }) rfl ?_).add
    rfl fun child hchild _ => ?_
  · intro child hchild hlt
    obtain rfl := List.mem_singleton.1 hchild
    exact absurd hlt (Nat.not_lt.2 (Nat.le_succ_of_le h.size_le))
  · exact .inr ⟨part, hpart, .inr hkind, h.children hlt List.not_mem_nil ▸ hchild⟩

end Builds

/-- The ranks of `d` go on in `e`: the first new node, which is the element, ranks as high as the
orphan, and all other new nodes rank below it. -/
structure RanksOn (d : Document) (rank : NodeId → Nat) (orphan : NodeId) (e : Document) : Prop where
  size_lt : d.size < e.size
  exists_rank : ∃ rank' : NodeId → Nat, (∀ id < d.size, rank' id = rank id) ∧
    rank' d.size = rank orphan ∧
    (∀ id, d.size < id → id < e.size → rank' id < rank orphan) ∧ e.Ranked rank'

namespace RanksOn

/-- The element is made first. -/
theorem start (h : d.Ranked rank) (orphan : NodeId) {n : Node} (hchildren : n.children = []) :
    d.RanksOn rank orphan (d.add n) := by
  have hagrees : ∀ id < d.size, Function.update rank d.size (rank orphan) id = rank id :=
    fun id hid => Function.update_of_ne (Nat.ne_of_lt hid) ..
  refine ⟨by simp, _, hagrees, Function.update_self .., fun id hgt hlt => ?_,
    (h.congr hagrees).add (by simp [hchildren])⟩
  rw [size_add] at hlt
  exact absurd hlt (Nat.not_lt.2 hgt)

/-- The element can get any other new node as a child, and what it takes over from the orphan. -/
theorem appendChild (h : d.RanksOn rank orphan e) (hd : d.Ranked rank) (horphan : orphan < d.size)
    (hchild : child < e.size) (hne : child ≠ d.size)
    (htaken : child < d.size → d.TakenOver orphan child) :
    d.RanksOn rank orphan (e.appendChild d.size child) := by
  obtain ⟨rank', hagrees, helement, hnew, hranked⟩ := h.exists_rank
  refine ⟨by simpa using h.size_lt, rank', hagrees, helement, by simpa using hnew,
    hranked.appendChild hchild ?_⟩
  rw [helement]
  rcases Nat.lt_or_gt_of_ne hne with hlt | hgt
  · rw [hagrees child hlt]
    exact hd.lower_of_takenOver horphan (htaken hlt)
  · exact hnew child hgt hchild

/-- The two nodes for an attribute of the orphan rank between the parts of the value and the
element, so the orphan has to rank more than one step above its attribute. -/
theorem lowerAttribute (h : d.RanksOn rank orphan e) (hd : d.Ranked rank) {part : NodeId}
    (hlt : part < d.size) (hchildren : e.children part = d.children part)
    (hspace : rank part + 1 < rank orphan) : d.RanksOn rank orphan (e.lowerAttribute part).1 := by
  obtain ⟨rank', hagrees, helement, hnew, hranked⟩ := h.exists_rank
  let rank'' : NodeId → Nat := fun id =>
    if id < e.size then rank' id else if id = e.size then rank part + 1 else rank part
  have hold : ∀ id < e.size, rank'' id = rank' id := fun id hid => if_pos hid
  have hfirst : rank'' e.size = rank part + 1 := by simp [rank'']
  have hsecond : rank'' (e.size + 1) = rank part := by simp [rank'']
  refine ⟨?_, rank'', fun id hid => ?_, (hold _ h.size_lt).trans helement, fun id hgt _ => ?_,
    (hranked.congr hold).add_add rfl (by rw [hfirst, hsecond]; exact Nat.lt_succ_self _)
      fun child hchild => ?_⟩
  · rw [size_lowerAttribute]
    exact Nat.lt_add_right 2 h.size_lt
  · rw [hold id (Nat.lt_trans hid h.size_lt), hagrees id hid]
  · by_cases hid : id < e.size
    · rw [hold id hid]
      exact hnew id hgt hid
    · simp only [rank'', if_neg hid]
      split
      · exact hspace
      · exact Nat.lt_of_succ_lt hspace
  · obtain ⟨hchildlt, hlower⟩ := hd part hlt child (hchildren ▸ hchild)
    have hchildlt' := Nat.lt_trans hchildlt h.size_lt
    rw [hsecond, hold child hchildlt', hagrees child hchildlt]
    exact ⟨hchildlt', hlower⟩

end RanksOn

/-! ## The children of one orphan -/

section Child

/-- What becomes of one child of an orphan. -/
theorem builds_lowerChild (hd : d.Ranked rank) (horphan : orphan < d.size)
    (hspace : ∀ part ∈ d.children orphan, rank part + 1 < rank orphan)
    (hchild : child ∈ d.children orphan) (h : d.Builds orphan e ∧ d.RanksOn rank orphan e) :
    d.Builds orphan (lowerChild d.size e child) ∧
      d.RanksOn rank orphan (lowerChild d.size e child) := by
  obtain ⟨hbuilds, hranks⟩ := h
  have hsize := hranks.size_lt
  obtain ⟨hlt, -⟩ := hd orphan horphan child hchild
  have hkept := hbuilds.kept child hlt List.not_mem_nil
  rw [lowerChild_eq, show e.kind child = d.kind child from congrArg (·.kind) hkept]
  by_cases hbody : d.kind child = .constructBody
  · rw [if_pos hbody]
    exact ⟨hbuilds, hranks⟩
  by_cases hattribute : d.kind child = .constructAttribute
  · -- Two nodes are made, and the first of them comes under the element.
    rw [if_neg hbody, if_pos hattribute]
    have hnew : e.size < d.size → d.TakenOver orphan e.size := fun hlt =>
      absurd hlt (Nat.not_lt.2 (Nat.le_of_lt hsize))
    have hsize' : e.size < (e.lowerAttribute child).1.size := by simp
    have hbuilds' := hbuilds.lowerAttribute hlt hchild hattribute
    have hranks' := hranks.lowerAttribute hd hlt (children_eq_of_node_eq hkept)
      (hspace child hchild)
    exact ⟨hbuilds'.appendChild (Nat.le_refl _) (Nat.lt_trans hsize hsize') hnew,
      hranks'.appendChild hd horphan hsize' (Nat.ne_of_gt hsize) hnew⟩
  · rw [if_neg hbody, if_neg hattribute]
    have htaken : d.TakenOver orphan child := .inl hchild
    exact ⟨hbuilds.appendChild (Nat.le_refl _) hsize fun _ => htaken,
      hranks.appendChild hd horphan (Nat.lt_trans hlt hsize) (Nat.ne_of_lt hlt) fun _ => htaken⟩

/-- The children of the orphan come first under the element, and then the content of a body. -/
theorem builds_element (hd : d.Ranked rank) (horphan : orphan < d.size)
    (hspace : ∀ part ∈ d.children orphan, rank part + 1 < rank orphan) {body : NodeId}
    (hbody : body ∈ d.children orphan) (hkind : d.kind body = .constructBody) {n : Node}
    (hn : n.kind = .element) (hchildren : n.children = []) :
    let e := (d.children body).foldl (fun d' child => d'.appendChild d.size child)
      ((d.children orphan).foldl (lowerChild d.size) (d.add n))
    d.Builds orphan e ∧ d.RanksOn rank orphan e := by
  obtain ⟨hbodylt, -⟩ := hd orphan horphan body hbody
  have hstart : d.Builds orphan (d.add n) ∧ d.RanksOn rank orphan (d.add n) :=
    ⟨(Builds.refl d orphan).add (by rw [hn]; rfl) (by simp [hchildren]), .start hd orphan hchildren⟩
  let underway (e : Document) : Prop := d.Builds orphan e ∧ d.RanksOn rank orphan e
  have hunder := List.foldlRecOn (motive := underway) (d.children orphan) (lowerChild d.size) hstart
    fun e h child hchild => builds_lowerChild hd horphan hspace hchild h
  refine List.foldlRecOn (motive := underway) (d.children body) _ hunder fun e h child hchild => ?_
  obtain ⟨hbuilds, hranks⟩ := h
  have htaken : d.TakenOver orphan child := .inr ⟨body, hbody, .inl hkind, hchild⟩
  obtain ⟨hlt, -⟩ := hd body hbodylt child hchild
  have hsize := hranks.size_lt
  exact ⟨hbuilds.appendChild (Nat.le_refl _) hsize fun _ => htaken,
    hranks.appendChild hd horphan (Nat.lt_trans hlt hsize) (Nat.ne_of_lt hlt) fun _ => htaken⟩

end Child

/-! ## One orphan -/

/-- The document `e` comes from `d` by lowering one orphan: the element is the first new node, and
it stands where the orphan was found. The orphan itself is still there, and it may have other
parents. -/
structure LowersAt (d : Document) (orphan : Orphan) (e : Document) : Prop where
  grows : Extends [orphan.parent] d e
  size_lt : d.size < e.size
  place : ∃ before after, d.children orphan.parent = before ++ orphan.node :: after ∧
    orphan.node ∉ before ∧ e.children orphan.parent = before ++ d.size :: after
  kind : ∀ id, d.size ≤ id → id < e.size → (e.kind id).isOfElement
  takenOver : ∀ id, d.size ≤ id → ∀ child ∈ e.children id, child < d.size →
    d.TakenOver orphan.node child
  acyclic : e.Acyclic

/-- The element takes the place of the orphan. It ranks as high, so this makes no cycle. -/
theorem Builds.lowersAt {orphan : Orphan} (hbuilds : d.Builds orphan.node e)
    (hranks : d.RanksOn rank orphan.node e) (hd : d.Ranked rank) (hparent : orphan.parent < d.size)
    {before after : List NodeId}
    (hchildren : d.children orphan.parent = before ++ orphan.node :: after)
    (hbefore : orphan.node ∉ before) :
    d.LowersAt orphan (e.replaceChild orphan.parent before.length d.size) := by
  have hparent' := Nat.lt_of_lt_of_le hparent hbuilds.size_le
  have hsame : e.children orphan.parent = d.children orphan.parent :=
    hbuilds.children hparent List.not_mem_nil
  have hreplace : Extends [orphan.parent] e (e.replaceChild orphan.parent before.length d.size) :=
    .modify fun _ => rfl
  have hnew : ∀ id, d.size ≤ id →
      (e.replaceChild orphan.parent before.length d.size).node id = e.node id := fun id hle =>
    node_modify_of_ne (Nat.ne_of_gt (Nat.lt_of_lt_of_le hparent hle))
  obtain ⟨rank', hagrees, helement, -, hranked⟩ := hranks.exists_rank
  refine
    { grows := (hbuilds.toExtends.mono fun _ hi => absurd hi List.not_mem_nil).trans hreplace
        fun _ hi _ => hi
      size_lt := by simpa [replaceChild] using hranks.size_lt
      place := ⟨before, after, hchildren, hbefore,
        (children_replaceChild d.size hparent' (hsame.trans hchildren) hbefore).2⟩
      kind := fun id hle hlt => ?_
      takenOver := fun id hle child hchild => ?_
      acyclic := (hranked.replaceChild hranks.size_lt ?_ before.length).acyclic }
  · rw [Document.kind, hnew id hle]
    exact hbuilds.kind id hle (by simpa [replaceChild] using hlt)
  · rw [children_eq_of_node_eq (hnew id hle)] at hchild
    exact hbuilds.takenOver id hle child hchild
  · rw [helement, hagrees _ hparent]
    exact (hd _ hparent orphan.node (by simp [hchildren])).2

/-- At its place the orphan goes once. Apart from that, what was there has the children that it
had. -/
theorem LowersAt.count_children {orphan : Orphan} (h : d.LowersAt orphan e) {id : NodeId}
    (hid : id < d.size) (hchild : child < d.size) :
    (d.children id).count child =
      (e.children id).count child + if (⟨id, child⟩ : Orphan) = orphan then 1 else 0 := by
  by_cases hparent : id = orphan.parent
  · subst hparent
    obtain ⟨before, after, hold, -, hnew⟩ := h.place
    have hne : d.size ≠ child := Nat.ne_of_gt hchild
    rw [hold, hnew, List.count_append, List.count_append, List.count_cons_of_ne hne]
    by_cases hnode : orphan.node = child
    · subst hnode
      rw [List.count_cons_self, if_pos rfl, Nat.add_assoc]
    · rw [List.count_cons_of_ne hnode, if_neg fun he => hnode (congrArg Orphan.node he).symm]
      rfl
  · rw [h.grows.children hid (by simpa using hparent),
      if_neg fun he => hparent (congrArg Orphan.parent he)]
    rfl

/-- An orphan with a body is lowered where it is listed. -/
theorem Acyclic.lowersAt_lowerOrphan (h : d.Acyclic) {orphan : Orphan} {body : NodeId}
    (hparent : orphan.parent < d.size) (hchild : orphan.node ∈ d.children orphan.parent)
    (hbody : body ∈ d.children orphan.node) (hkind : d.kind body = .constructBody) :
    ∃ e, d.lowerOrphan orphan = ⟨e, []⟩ ∧ d.LowersAt orphan e := by
  obtain ⟨rank, hrank⟩ := h
  -- Ranks two steps apart leave room for the attributes between the element and their values.
  have hd : d.Ranked fun id => 2 * rank id := fun id hid child hchild => by
    obtain ⟨hlt, hlower⟩ := hrank id hid child hchild
    exact ⟨hlt, Nat.mul_lt_mul_of_pos_left hlower Nat.two_pos⟩
  obtain ⟨horphan, -⟩ := hrank _ hparent _ hchild
  have hspace : ∀ part ∈ d.children orphan.node, 2 * rank part + 1 < 2 * rank orphan.node :=
    fun part hpart => by
      have hlower := (hrank _ horphan part hpart).2
      omega
  have hsome : (d.bodyOf? orphan.node).isSome := by
    rw [bodyOf?, List.find?_isSome]
    exact ⟨body, hbody, by simp [hkind]⟩
  obtain ⟨found, hfound⟩ := Option.isSome_iff_exists.1 hsome
  have hfoundkind : d.kind found = .constructBody := by simpa using List.find?_some hfound
  obtain ⟨before, after, hchildren, hbefore⟩ := List.eq_append_cons_of_mem hchild
  have helement := builds_element hd horphan hspace (List.mem_of_find?_eq_some hfound) hfoundkind
    (n := { kind := .element, name := (d.node orphan.node).name, span := (d.node orphan.node).span,
            diagnostics := (d.node orphan.node).diagnostics }) rfl rfl
  refine ⟨_, ?_, helement.1.lowersAt helement.2 hd hparent hchildren hbefore⟩
  have hindex := (children_replaceChild d.size hparent hchildren hbefore).1
  simp only [lowerOrphan, hfound, hindex]
  rfl

/-- An orphan without a body is not lowered. -/
theorem lowerOrphan_of_forall_ne {orphan : Orphan}
    (hbody : ∀ child ∈ d.children orphan.node, d.kind child ≠ .constructBody) :
    d.lowerOrphan orphan =
      ⟨d, [.constructWithoutBody orphan.node (d.label orphan.node).name]⟩ := by
  have hnone : d.bodyOf? orphan.node = none := by
    rw [bodyOf?, List.find?_eq_none]
    exact fun child hchild => by simpa using hbody child hchild
  simp only [lowerOrphan, hnone]
  rfl

end Document

end MarkupTemplate
