import MarkupTemplate.Proofs.Assembly

/-!
# Every node has one place

An assembly numbers the nodes it makes without gaps and keeps each of them in one place; the nodes
that were there before either have one place too or still wait for one.

## Main definitions

* `Assembly.created`, `Assembly.placed`: the nodes that were made, and the older nodes with a place
* `Assembly.Accounted`: every node made and every node that has arrived is accounted for

## Main results

* `Assembly.Accounted.apply`, `Assembly.Accounted.take`: tokens and children keep the account
* `Assembly.accounted_run`: the account of a whole container
-/

namespace MarkupTemplate

open Markup

/-! ## The nodes of values and attributes -/

/-- The holes among the parts of a value. -/
def partHoles : List ValuePart → List NodeId
  | [] => []
  | .literal _ :: parts => partHoles parts
  | .hole node :: parts => node :: partHoles parts

theorem partHoles_append (ps qs : List ValuePart) :
    partHoles (ps ++ qs) = partHoles ps ++ partHoles qs := by
  induction ps with
  | nil => rfl
  | cons p ps ih => cases p <;> simp [partHoles, ih]

/-- Splicing keeps all holes in order. -/
theorem partHoles_spliceFrom (value : Slice) (offset : Nat) (holes : List Hole) :
    partHoles (spliceFrom value offset holes) = holes.map Hole.node := by
  induction holes generalizing offset with
  | nil => rw [spliceFrom]; split <;> rfl
  | cons hole holes ih =>
    simp only [spliceFrom, partHoles_append]
    split <;> simp [partHoles, ih]

/-- The parts of a value hold exactly the holes in it. -/
theorem partHoles_parts (a : Attribute) (waiting : List Hole) :
    partHoles (a.parts (waiting.filter (·.isIn a))) =
      (waiting.filter (·.isIn a)).map Hole.node := by
  obtain ⟨name, value⟩ := a
  cases value with
  | none =>
    have hnone : waiting.filter (·.isIn ⟨name, none⟩) = [] := by
      rw [List.filter_eq_nil_iff]
      rintro ⟨node, _ | offset⟩ - <;> simp [Hole.isIn, Attribute.valueHolds]
    rw [hnone]
    rfl
  | some value =>
    simp only [Attribute.parts, Option.elim_some, splice]
    split
    · next h => rw [List.isEmpty_iff.1 h]; rfl
    · exact partHoles_spliceFrom ..

section

variable {n next : Nat} {parts : List ValuePart} (hnext : n ≤ next)
  (hparts : ∀ id ∈ partHoles parts, id < n)
include hnext hparts

theorem created_valueForest :
    (valueForest next parts).created n = List.range' next (literalCount parts) := by
  -- A literal part takes the next number, a hole keeps its own.
  induction parts generalizing next with
  | nil => rfl
  | cons part parts ih =>
    cases part with
    | literal text =>
      rw [valueForest, Forest.created_cons_of_le hnext, ih (by omega) hparts, literalCount,
        List.range'_succ]
      rfl
    | hole node =>
      rw [valueForest, Forest.created_cons_of_lt (hparts node (by simp [partHoles])),
        ih hnext fun id hid => hparts id (by simp [partHoles, hid])]
      rfl

theorem holes_valueForest : (valueForest next parts).holes n = partHoles parts := by
  induction parts generalizing next with
  | nil => rfl
  | cons part parts ih =>
    cases part with
    | literal text =>
      rw [valueForest, Forest.holes_cons_of_le hnext, ih (by omega) hparts]
      rfl
    | hole node =>
      rw [valueForest, Forest.holes_cons_of_lt (hparts node (by simp [partHoles])),
        ih hnext fun id hid => hparts id (by simp [partHoles, hid])]
      rfl

theorem created_attributeForest (name : Bytes) :
    (attributeForest next name parts).created n =
      List.range' next (2 + literalCount parts) := by
  rw [attributeForest, Forest.created_cons_of_le hnext, Forest.created_cons_of_le (by omega),
    created_valueForest (by omega) hparts, Nat.add_comm 2, List.range'_succ, List.range'_succ]
  simp

theorem holes_attributeForest (name : Bytes) :
    (attributeForest next name parts).holes n = partHoles parts := by
  rw [attributeForest, Forest.holes_cons_of_le hnext, Forest.holes_cons_of_le (by omega),
    holes_valueForest (by omega) hparts]
  simp

end

/-! ## The account of an assembly -/

namespace Assembly

variable {n : Nat} {arrived : List NodeId} {a a' : Assembly}

/-- The nodes that were made, the open elements among them. -/
def created (n : Nat) (a : Assembly) : List NodeId :=
  a.content.created n ++ a.path.flatMap fun branch => branch.node :: branch.before.created n

/-- The nodes that were there before and have a place now. -/
def placed (n : Nat) (a : Assembly) : List NodeId :=
  a.content.holes n ++ a.path.flatMap fun branch => branch.before.holes n

/-- The nodes from the number `n` on are those that were made, each in one place; those that have
arrived are older, and each has one place or waits for one. -/
structure Accounted (n : Nat) (arrived : List NodeId) (a : Assembly) : Prop where
  le : n ≤ a.next
  created : (a.created n).Perm (List.range' n (a.next - n))
  holes : (a.placed n ++ a.waiting.map Hole.node).Perm arrived
  old : ∀ id ∈ arrived, id < n

namespace Accounted

theorem start (n : Nat) : Accounted n [] { next := n } :=
  ⟨Nat.le_refl n, by simp [Assembly.created], by simp [placed], by simp⟩

theorem waiting_lt (h : Accounted n arrived a) : ∀ hole ∈ a.waiting, hole.node < n :=
  fun _ hmem => h.old _ (h.holes.mem_iff.1
    (List.mem_append_right _ (List.mem_map_of_mem hmem)))

/-- The holes that are released were there before. -/
theorem released_lt (h : Accounted n arrived a) (p : Hole → Bool) :
    ∀ id ∈ (a.waiting.filter p).map Hole.node, id < n := by
  intro id hid
  obtain ⟨hole, hmem, rfl⟩ := List.mem_map.1 hid
  exact h.waiting_lt hole (List.mem_filter.1 hmem).1

/-- The holes in a value were there before. -/
theorem parts_lt (h : Accounted n arrived a) (entry : Attribute) :
    ∀ id ∈ partHoles (a.parts entry), id < n := by
  rw [Assembly.parts, partHoles_parts]
  exact h.released_lt (·.isIn entry)

theorem nodup (h : Accounted n arrived a) : (a.created n).Nodup :=
  h.created.nodup_iff.2 (List.nodup_range' 1)

theorem mem_created (h : Accounted n arrived a) {id : Nat} :
    id ∈ a.created n ↔ n ≤ id ∧ id < a.next := by
  have hle := h.le
  rw [h.created.mem_iff, List.mem_range'_1]
  omega

/-- A step that makes nodes in order and moves the others keeps the account. -/
theorem step (h : Accounted n arrived a) {k : Nat} (hnext : a'.next = a.next + k)
    (hcreated : (a'.created n).Perm (a.created n ++ List.range' a.next k))
    (hholes : (a'.placed n ++ a'.waiting.map Hole.node).Perm
      (a.placed n ++ a.waiting.map Hole.node)) : Accounted n arrived a' where
  le := by have := h.le; omega
  created := by
    have hle := h.le
    -- The numbers given out so far and the further ones are one range.
    have hrange : List.range' n (a'.next - n) =
        List.range' n (a.next - n) ++ List.range' a.next k := by
      rw [show a'.next - n = a.next - n + k by omega, ← List.range'_append,
        show n + 1 * (a.next - n) = a.next by omega]
    rw [hrange]
    exact hcreated.trans (h.created.append_right _)
  holes := hholes.trans h.holes
  old := h.old

theorem release (h : Accounted n arrived a) (p : Hole → Bool) :
    Accounted n arrived (a.release p) := by
  have hlt := h.released_lt p
  refine h.step (k := 0) rfl ?_ ?_
  · simp [Assembly.created, Assembly.release, Forest.created_leaves hlt]
  · -- What is released and what still waits are together what waited.
    have hsplit := (List.filter_append_perm p a.waiting).map Hole.node
    rw [List.perm_iff_count] at hsplit ⊢
    intro id
    have := hsplit id
    simp only [Assembly.placed, Assembly.release, Forest.holes_append, Forest.holes_leaves hlt,
      List.map_append, List.count_append] at this ⊢
    omega

theorem attach (h : Accounted n arrived a) (entry : Attribute) :
    Accounted n arrived (a.attach entry) := by
  have hparts := h.parts_lt entry
  refine h.step (k := 2 + literalCount (a.parts entry)) (by rw [← Nat.add_assoc]; rfl) ?_ ?_
  · simp only [Assembly.created, Assembly.attach, Forest.created_append,
      created_attributeForest h.le hparts, List.append_assoc]
    exact List.Perm.append_left _ List.perm_append_comm
  · -- The holes in the value become its parts, and all others wait on.
    have hsplit := (List.filter_append_perm (·.isIn entry) a.waiting).map Hole.node
    rw [List.perm_iff_count] at hsplit ⊢
    intro id
    have := hsplit id
    simp only [Assembly.placed, Assembly.attach, Forest.holes_append,
      holes_attributeForest h.le hparts, List.map_append, List.count_append] at this ⊢
    rw [Assembly.parts, partHoles_parts]
    omega

theorem enter (h : Accounted n arrived a) (name : Bytes) :
    Accounted n arrived (a.enter name) := by
  refine h.step (k := 1) rfl ?_ ?_
  · rw [List.perm_iff_count]
    intro id
    simp only [Assembly.created, Assembly.enter, Forest.created_nil, List.nil_append,
      List.flatMap_cons, List.cons_append, List.count_cons, List.count_append, List.range'_one,
      List.count_nil]
    omega
  · simp [Assembly.placed, Assembly.enter]

theorem foldl_attach (h : Accounted n arrived a) (entries : List Attribute) :
    Accounted n arrived (entries.foldl Assembly.attach a) := by
  induction entries generalizing a with
  | nil => exact h
  | cons entry entries ih => exact ih (h.attach entry)

theorem openElement (h : Accounted n arrived a) (name : Bytes) (attributes : List Attribute) :
    Accounted n arrived (a.openElement name attributes) :=
  (((h.release _).enter name).foldl_attach attributes).release _

theorem closeElement (h : Accounted n arrived a) (name : Bytes) :
    Accounted n arrived (a.closeElement name) := by
  unfold Assembly.closeElement
  split
  · exact h.step (k := 0) rfl (by simp [Assembly.created]) (by simp [Assembly.placed])
  · next branch path hpath =>
    -- The element moves from the path to the content, with what is before it.
    have hnode : n ≤ branch.node :=
      (h.mem_created.1 (by simp [Assembly.created, hpath])).1
    refine h.step (k := 0) rfl ?_ ?_
    · rw [List.perm_iff_count]
      intro id
      simp only [Assembly.created, hpath, Forest.created_append,
        Forest.created_cons_of_le hnode, Forest.created_nil, List.flatMap_cons, List.count_append,
        List.count_cons, List.count_nil, List.range'_zero]
      omega
    · rw [List.perm_iff_count]
      intro id
      simp only [Assembly.placed, hpath, Forest.holes_append, Forest.holes_cons_of_le hnode,
        Forest.holes_nil, List.flatMap_cons, List.count_append, List.count_nil]
      omega

theorem addText (h : Accounted n arrived a) (data : Bytes) :
    Accounted n arrived (a.addText data) := by
  unfold Assembly.addText
  split
  · exact h
  · refine h.step (k := 1) rfl ?_ ?_
    · simp only [Assembly.created, Forest.created_append, Forest.created_cons_of_le h.le,
        Forest.created_nil, List.append_assoc, List.range'_one]
      exact List.Perm.append_left _ List.perm_append_comm
    · simp [Assembly.placed, Forest.holes_cons_of_le h.le]

/-- A token loses no node and makes none twice. -/
theorem apply (h : Accounted n arrived a) (t : Token) : Accounted n arrived (a.apply t) := by
  unfold Assembly.apply
  split
  · next name attributes selfClosing _ =>
    have hopen := h.openElement name.text attributes
    split
    · exact hopen.closeElement _
    · exact hopen
  · exact (h.release _).closeElement _
  · exact (h.release _).addText _
  · exact h.release _

theorem foldl_apply (h : Accounted n arrived a) (ts : List Token) :
    Accounted n arrived (ts.foldl Assembly.apply a) := by
  induction ts generalizing a with
  | nil => exact h
  | cons t ts ih => exact ih (h.apply t)

theorem takeMarkup (h : Accounted n arrived a) (text : Bytes) :
    Accounted n arrived (a.takeMarkup text) := by
  have hfold := h.foldl_apply (scan (a.carried ++ text)).tokens
  simp only [Assembly.takeMarkup]
  split
  · exact hfold.step (k := 0) rfl (by simp [Assembly.created]) (by simp [Assembly.placed])
  · exact hfold.step (k := 0) rfl (by simp [Assembly.created])
      (by simp [Assembly.placed])

/-- A node that arrives is accounted for. -/
theorem arrive (h : Accounted n arrived a) {node : NodeId} (hnode : node < n)
    (hnext : a'.next = a.next) (hcreated : (a'.created n).Perm (a.created n))
    (hholes : (a'.placed n ++ a'.waiting.map Hole.node).Perm
      (node :: (a.placed n ++ a.waiting.map Hole.node))) :
    Accounted n (arrived ++ [node]) a' where
  le := by rw [hnext]; exact h.le
  created := by rw [hnext]; exact hcreated.trans h.created
  holes := hholes.trans ((h.holes.cons node).trans (List.perm_append_singleton node arrived).symm)
  old := by
    intro id hid
    rcases List.mem_append.1 hid with hid | hid
    · exact h.old id hid
    · exact List.mem_singleton.1 hid ▸ hnode

/-- The next child is accounted for, whatever it is. -/
theorem take (h : Accounted n arrived a) {item : Item} (hitem : ∀ id ∈ item.node?, id < n) :
    Accounted n (arrived ++ item.node?.toList) (a.take item) := by
  cases item with
  | markup text =>
    simpa [Item.node?, Assembly.take] using h.takeMarkup text
  | «attribute» node =>
    refine h.arrive (hitem node rfl) rfl (.refl _) ?_
    simp only [Assembly.placed, Assembly.take, List.map_append, List.map_cons, List.map_nil,
      ← List.append_assoc]
    exact List.perm_append_singleton ..
  | hole node =>
    have hnode : node < n := hitem node rfl
    -- Outside a tag the node gets its place, inside one it waits for it.
    have hleaf : ∀ id ∈ [node], id < n := by simpa using hnode
    simp only [Assembly.take]
    split
    · refine h.arrive hnode rfl ?_ ?_
      · simp [Assembly.created, Forest.created_leaves hleaf]
      · simp only [Assembly.placed, Forest.holes_append, Forest.holes_leaves hleaf,
          List.append_assoc, List.singleton_append]
        exact List.perm_middle
    · refine h.arrive hnode rfl (.refl _) ?_
      simp only [Assembly.placed, List.map_append, List.map_cons, List.map_nil,
        ← List.append_assoc]
      exact List.perm_append_singleton ..

theorem foldl_take (h : Accounted n arrived a) {items : List Item}
    (hitems : ∀ item ∈ items, ∀ id ∈ item.node?, id < n) :
    Accounted n (arrived ++ items.filterMap Item.node?) (items.foldl Assembly.take a) := by
  induction items generalizing arrived a with
  | nil => simpa using h
  | cons item items ih =>
    have hnext := ih (h.take (hitems item (by simp))) fun i hi => hitems i (by simp [hi])
    rw [List.append_assoc] at hnext
    rw [List.foldl_cons, List.filterMap_cons]
    cases hnode : item.node? <;> simpa [hnode] using hnext

end Accounted

/-- The account of a whole container. -/
theorem accounted_run {items : List Item} (hitems : ∀ item ∈ items, ∀ id ∈ item.node?, id < n) :
    Accounted n (items.filterMap Item.node?) (run n items) := by
  simpa [run] using (Accounted.start n).foldl_take hitems

end Assembly

end MarkupTemplate
