import MarkupTemplate.Proofs.Accounting
import MarkupTemplate.Proofs.Storage

/-!
# What structuring a container has to do with

While the children of a container are taken, every change goes to the container, to an element that
is open, or to a node that is just being made, and all of these but the container are new. So
whatever the markup is, and whether or not it comes to a good end, no other node that was there
before is touched; and what gets a parent is new or was a child of the container. The children may
be anything, numbers that no node has included.

## Main definitions

* `Document.Confined`: a document has come from another by work on one container
* `Structuring.Confined`: structuring has touched nothing but its container, and will not

## Main results

* `Document.Confined.appendChild`, `Document.Confined.extend`, `Document.Confined.addDiagnostic`:
  the changes that keep to the container and to new nodes
* `Structuring.Confined.apply`, `Structuring.Confined.take`: tokens and children keep to them
* `Document.confined_structureChildren`: what structuring leaves as it is
-/

namespace MarkupTemplate

open Markup

namespace Document

variable {d d' d'' : Document} {container id parent child : NodeId}

/-- The document `d'` has come from the document `d` by work on one container. All other nodes are
there as they were, the container says what it said with more reports behind it, and the children of
the container and of the new nodes are new nodes themselves or were children of the container. -/
structure Confined (d : Document) (container : NodeId) (d' : Document) : Prop where
  size_le : d.size ≤ d'.size
  kept : ∀ id < d.size, id ≠ container → d'.node id = d.node id
  label : ∃ more, d'.label container =
    { d.label container with diagnostics := (d.label container).diagnostics ++ more }
  children : ∀ id, id = container ∨ d.size ≤ id → ∀ child ∈ d'.children id,
    child ∈ d.children container ∨ d.size ≤ child ∧ child < d'.size

namespace Confined

/-- The children of the container are taken away before they are taken in turn. -/
theorem start (hcontainer : container < d.size) :
    d.Confined container (d.setChildren container []) := by
  refine ⟨by simp, fun id _ hne => node_modify_of_ne hne, ⟨[], by simp⟩, fun id hid => ?_⟩
  have hnone : (d.setChildren container []).children id = [] := by
    rw [children_setChildren _ hcontainer]
    rcases hid with rfl | hid
    · exact if_pos rfl
    · rw [if_neg (Nat.ne_of_gt (Nat.lt_of_lt_of_le hcontainer hid)), children_of_size_le hid]
  simp [hnone]

/-- New nodes may have new nodes as children, and what was a child of the container. -/
theorem extend (h : d.Confined container d') (hcontainer : container < d.size)
    (hsize : d'.size ≤ d''.size) (hsame : ∀ id < d'.size, d''.node id = d'.node id)
    (hnew : ∀ id, d'.size ≤ id → ∀ child ∈ d''.children id, d.size ≤ child ∧ child < d''.size) :
    d.Confined container d'' := by
  have hlt : ∀ {id : NodeId}, id < d.size → id < d'.size := fun hid =>
    Nat.lt_of_lt_of_le hid h.size_le
  refine ⟨Nat.le_trans h.size_le hsize, fun id hid hne => ?_, ?_, fun id hid child hchild => ?_⟩
  · rw [hsame id (hlt hid), h.kept id hid hne]
  · rw [label_eq_of_node_eq (hsame container (hlt hcontainer))]
    exact h.label
  · rcases Nat.lt_or_ge id d'.size with hold | hnew'
    · rw [children_eq_of_node_eq (hsame id hold)] at hchild
      exact (h.children id hid child hchild).imp_right fun hle =>
        ⟨hle.1, Nat.lt_of_lt_of_le hle.2 hsize⟩
    · exact .inr (hnew id hnew' child hchild)

/-- A further node without children. -/
theorem add (h : d.Confined container d') (hcontainer : container < d.size) {n : Node}
    (hn : n.children = []) : d.Confined container (d'.add n) := by
  refine h.extend hcontainer (by simp) (fun id hid => node_add_of_lt d' n hid) fun id hid => ?_
  have hnone : (d'.add n).children id = [] := by
    rcases Nat.eq_or_lt_of_le hid with rfl | hid
    · rw [children_add_size, hn]
    · exact children_of_size_le (by rw [size_add]; exact hid)
  simp [hnone]

/-- A further attribute with its value. -/
theorem addAttribute (h : d.Confined container d') (hcontainer : container < d.size)
    (name : Bytes) : d.Confined container (d'.addAttribute name).1 := by
  let a : Node := { kind := .attribute, name := name, children := [d'.size + 1] }
  let v : Node := { kind := .attributeValue }
  have hsize : (d'.add a).size = d'.size + 1 := size_add ..
  have hsize' : ((d'.add a).add v).size = d'.size + 2 := by rw [size_add, hsize]
  change d.Confined container ((d'.add a).add v)
  refine h.extend hcontainer (hsize' ▸ Nat.le_add_right _ _) (fun id hid => ?_)
    fun id hid child hchild => ?_
  · rw [node_add_of_lt _ v (hsize ▸ Nat.lt_succ_of_lt hid), node_add_of_lt d' a hid]
  · -- Only the attribute itself has a child, which is its value.
    rcases Nat.lt_trichotomy id (d'.size + 1) with hlt | rfl | hgt
    · obtain rfl := Nat.le_antisymm (Nat.le_of_lt_succ hlt) hid
      rw [children_add_of_lt v (hsize ▸ hlt), children_add_size] at hchild
      rw [List.mem_singleton.1 hchild, hsize']
      exact ⟨Nat.le_succ_of_le h.size_le, Nat.lt_succ_self _⟩
    · rw [← hsize, children_add_size] at hchild
      exact absurd hchild List.not_mem_nil
    · rw [children_of_size_le (hsize' ▸ hgt)] at hchild
      exact absurd hchild List.not_mem_nil

/-- A further child under the container or under a new node. -/
theorem appendChild (h : d.Confined container d') (hparent : parent = container ∨ d.size ≤ parent)
    (hchild : child ∈ d.children container ∨ d.size ≤ child ∧ child < d'.size) :
    d.Confined container (d'.appendChild parent child) := by
  refine ⟨by simpa using h.size_le, fun id hid hne => ?_, by simpa using h.label,
    fun id hid c hc => ?_⟩
  · have hne' : id ≠ parent := by
      rintro rfl
      exact hparent.elim hne fun hle => absurd hid (Nat.not_lt.2 hle)
    rw [Document.appendChild, node_modify_of_ne hne', h.kept id hid hne]
  · rw [size_appendChild]
    rcases Nat.lt_or_ge parent d'.size with hlt | hle
    · rw [children_appendChild hlt] at hc
      split at hc
      · rcases List.mem_append.1 hc with hc | hc
        · exact h.children parent hparent c hc
        · exact List.mem_singleton.1 hc ▸ hchild
      · exact h.children id hid c hc
    · rw [Document.children, Document.appendChild, node_modify_of_size_le hle] at hc
      exact h.children id hid c hc

/-- A report about the container or about a new node. -/
theorem addDiagnostic (h : d.Confined container d') (hcontainer : container < d.size)
    (hid : id = container ∨ d.size ≤ id) (g : Diagnostic) :
    d.Confined container (d'.addDiagnostic id g) := by
  refine ⟨by simpa using h.size_le, fun i hi hne => ?_, ?_, by simpa using h.children⟩
  · have hne' : i ≠ id := by
      rintro rfl
      exact hid.elim hne fun hle => absurd hi (Nat.not_lt.2 hle)
    rw [Document.addDiagnostic, node_modify_of_ne hne', h.kept i hi hne]
  · obtain ⟨more, hmore⟩ := h.label
    by_cases he : container = id
    · subst he
      have hlabel := label_addDiagnostic g (Nat.lt_of_lt_of_le hcontainer h.size_le) container
      rw [if_pos rfl, hmore] at hlabel
      exact ⟨more ++ [g], by rw [hlabel, List.append_assoc]⟩
    · have hsame : (d'.addDiagnostic id g).node container = d'.node container :=
        node_modify_of_ne he
      exact ⟨more, by rw [label_eq_of_node_eq hsame, hmore]⟩

end Confined

end Document

namespace Structuring

variable {d : Document} {container : NodeId} {s : Structuring}

/-- Structuring has touched nothing but the container and nodes that it made itself. It will not
touch others: open elements are new, and what waits was a child of the container. -/
structure Confined (d : Document) (container : NodeId) (s : Structuring) : Prop where
  document : d.Confined container s.document
  openElements : ∀ element ∈ s.openElements, d.size ≤ element
  waiting : ∀ hole ∈ s.waiting, hole.node ∈ d.children container

namespace Confined

theorem start (hcontainer : container < d.size) :
    Confined d container { document := d.setChildren container [] } :=
  ⟨.start hcontainer, by simp, by simp⟩

/-- What comes next goes under the container or under a new element. -/
theorem top (h : Confined d container s) :
    s.top container = container ∨ d.size ≤ s.top container := by
  unfold Structuring.top
  cases hopen : s.openElements with
  | nil => exact .inl rfl
  | cons element rest => exact .inr (h.openElements element (by simp [hopen]))

theorem append (h : Confined d container s) {node : NodeId}
    (hnode : node ∈ d.children container ∨ d.size ≤ node ∧ node < s.document.size) :
    Confined d container (s.append container node) :=
  ⟨h.document.appendChild h.top hnode, h.openElements, h.waiting⟩

theorem release (h : Confined d container s) (p : Hole → Bool) :
    Confined d container (s.release container p) := by
  have hall : Confined d container
      ((s.waiting.filter p).foldl (fun s hole => s.append container hole.node) s) := by
    refine List.foldlRecOn (motive := Confined d container) _ _ h fun s' hs' hole hhole => ?_
    exact hs'.append (.inl (h.waiting hole (List.mem_filter.1 hhole).1))
  exact ⟨hall.document, hall.openElements, fun hole hhole =>
    h.waiting hole (List.mem_filter.1 hhole).1⟩

/-- The parts of a value are new nodes, and holes that were children of the container. -/
theorem addPart {d' : Document} (h : d.Confined container d') (hcontainer : container < d.size)
    {value : NodeId} (hvalue : d.size ≤ value) {part : ValuePart}
    (hpart : ∀ node, part = .hole node → node ∈ d.children container) :
    d.Confined container (addPart value d' part) := by
  cases part with
  | literal text =>
    refine (h.add hcontainer rfl).appendChild (.inr hvalue) (.inr ⟨h.size_le, ?_⟩)
    rw [Document.size_add]
    exact Nat.lt_succ_self _
  | hole node => exact h.appendChild (.inr hvalue) (.inl (hpart node rfl))

theorem mem_partHoles {parts : List ValuePart} {node : NodeId} :
    node ∈ partHoles parts ↔ .hole node ∈ parts := by
  induction parts with
  | nil => simp [partHoles]
  | cons part parts ih => cases part <;> simp [partHoles, ih]

theorem attach (h : Confined d container s) (hcontainer : container < d.size) {element : NodeId}
    (helement : d.size ≤ element) (a : Attribute) :
    Confined d container (s.attach element a) := by
  have hsize := h.document.size_le
  have hadd := h.document.addAttribute hcontainer a.name.text
  have hholes : ∀ node, .hole node ∈ a.parts (s.waiting.filter (·.isIn a)) →
      node ∈ d.children container := by
    intro node hnode
    rw [← mem_partHoles, partHoles_parts] at hnode
    obtain ⟨hole, hhole, rfl⟩ := List.mem_map.1 hnode
    exact h.waiting hole (List.mem_filter.1 hhole).1
  have hparts : d.Confined container
        ((a.parts (s.waiting.filter (·.isIn a))).foldl (Structuring.addPart (s.document.size + 1))
          (s.document.addAttribute a.name.text).1) ∧
      (s.document.addAttribute a.name.text).1.size ≤
        ((a.parts (s.waiting.filter (·.isIn a))).foldl (Structuring.addPart (s.document.size + 1))
          (s.document.addAttribute a.name.text).1).size := by
    refine List.foldlRecOn (motive := fun d' => d.Confined container d' ∧
      (s.document.addAttribute a.name.text).1.size ≤ d'.size) _ _ ⟨hadd, Nat.le_refl _⟩ ?_
    rintro d' ⟨hd', hle⟩ part hpart
    refine ⟨addPart hd' hcontainer (Nat.le_succ_of_le hsize) fun node he =>
      hholes node (he ▸ hpart), Nat.le_trans hle ?_⟩
    cases part <;> simp [Structuring.addPart, Document.under, Document.addMarkup, Document.addNode]
  refine ⟨hparts.1.appendChild (.inr helement) (.inr ⟨hsize, ?_⟩), h.openElements,
    fun hole hhole => h.waiting hole (List.mem_filter.1 hhole).1⟩
  refine Nat.lt_of_lt_of_le ?_ hparts.2
  simp only [Document.addAttribute, Document.size_add]
  omega

theorem openElement (h : Confined d container s) (hcontainer : container < d.size)
    (span : Option Span) (name : Bytes) (attributes : List Attribute) :
    Confined d container (s.openElement container span name attributes) := by
  unfold Structuring.openElement
  have hbefore := h.release fun hole => hole.isPositional && !attributes.any hole.isIn
  generalize s.release container _ = s' at hbefore
  have hsize := hbefore.document.size_le
  -- The new element is open before its attributes come under it.
  have hentered : Confined d container
      { s' with
        document := (Document.under (s'.top container)
          (s'.document.addNode { kind := .element, name := name, span := span })).1
        openElements := s'.document.size :: s'.openElements } := by
    refine ⟨(hbefore.document.add hcontainer rfl).appendChild hbefore.top (.inr ⟨hsize, ?_⟩), ?_,
      hbefore.waiting⟩
    · simp [Document.addNode]
    · rw [List.forall_mem_cons]
      exact ⟨hsize, hbefore.openElements⟩
  exact (List.foldlRecOn (motive := Confined d container) _ _ hentered
    fun _ hs' a _ => hs'.attach hcontainer hsize a).release _

theorem closeElement (h : Confined d container s) (hcontainer : container < d.size)
    (name : Bytes) : Confined d container (s.closeElement container name) := by
  unfold Structuring.closeElement
  cases hopen : s.openElements with
  | nil => exact ⟨h.document.addDiagnostic hcontainer (.inl rfl) _, by simp, h.waiting⟩
  | cons element rest =>
    have hnew := h.openElements
    rw [hopen, List.forall_mem_cons] at hnew
    refine ⟨?_, hnew.2, h.waiting⟩
    dsimp only
    split
    · exact h.document
    · exact h.document.addDiagnostic hcontainer (.inr hnew.1) _

theorem addText (h : Confined d container s) (hcontainer : container < d.size) (data : Bytes) :
    Confined d container (s.addText container data) := by
  unfold Structuring.addText
  split
  · exact h
  · have hadd : Confined d container { s with document := (s.document.addMarkup data).1 } :=
      ⟨h.document.add hcontainer rfl, h.openElements, h.waiting⟩
    exact hadd.append (.inr ⟨h.document.size_le, by simp [Document.addMarkup, Document.addNode]⟩)

/-- A token touches the container, the innermost open element and what it makes itself. -/
theorem apply (h : Confined d container s) (hcontainer : container < d.size) (span : Option Span)
    (t : Token) : Confined d container (s.apply container span t) := by
  obtain ⟨offset, length, content⟩ := t
  cases content with
  | startTag name attributes selfClosing =>
    have hopen := h.openElement hcontainer span name.text attributes
    simp only [Structuring.apply]
    split
    · exact hopen.closeElement hcontainer name.text
    · exact hopen
  | endTag name => exact (h.release _).closeElement hcontainer name.text
  | text data => exact (h.release _).addText hcontainer data
  | comment data => exact h.release _

theorem takeMarkup (h : Confined d container s) (hcontainer : container < d.size)
    (markup : NodeId) : Confined d container (s.takeMarkup container markup) := by
  have hall := List.foldlRecOn (motive := Confined d container)
    (scan (s.carried ++ (s.document.label markup).text)).tokens
    (Structuring.apply container (s.document.label markup).span) h
    fun _ hs' t _ => hs'.apply hcontainer _ t
  unfold Structuring.takeMarkup
  dsimp only
  split
  · exact ⟨hall.document, hall.openElements, hall.waiting⟩
  · refine ⟨hall.document, hall.openElements, fun hole hhole => ?_⟩
    obtain ⟨hole', hhole', rfl⟩ := List.mem_map.1 hhole
    exact hall.waiting hole' hhole'

/-- A child of the container goes under the container or a new element, or it waits. -/
theorem take (h : Confined d container s) (hcontainer : container < d.size) {child : NodeId}
    (hchild : child ∈ d.children container) : Confined d container (s.take container child) := by
  have hwait : ∀ offset, Confined d container
      { s with waiting := s.waiting ++ [⟨child, offset⟩] } := by
    refine fun offset => ⟨h.document, h.openElements, ?_⟩
    rw [List.forall_mem_append, List.forall_mem_singleton]
    exact ⟨h.waiting, hchild⟩
  unfold Structuring.take
  split
  · exact h.takeMarkup hcontainer child
  · exact hwait none
  · split
    · exact h.append (.inl hchild)
    · exact hwait _

end Confined

end Structuring

namespace Document

/-- Structuring a container, with or without a fault at the end, leaves all other nodes as they are.
The container keeps what it says, with further reports behind those that it had, and its children
and those of the new nodes are new nodes or were children of the container. -/
theorem confined_structureChildren (d : Document) {container : NodeId}
    (hcontainer : container < d.size) :
    d.Confined container (d.structureChildren container).document :=
  (List.foldlRecOn (motive := Structuring.Confined d container) _ _ (.start hcontainer)
    fun _ hs _ hchild => hs.take hcontainer hchild).document

/-- An element with a report of its own. A closing tag comes too early in it, a hole stands in a
value, and at the end an element and a tag are left open. -/
def cutMarkup : Document :=
  ⟨#[{ kind := .document, children := [1] },
    { kind := .element, name := utf8 "p", children := [2, 3, 4, 5],
      diagnostics := [.unexpectedClosingTag (utf8 "u") none] },
    { kind := .markup, fragments := [utf8 "</i><a b=\"x"] },
    { kind := .embedded .expression (utf8 "v") },
    { kind := .markup, fragments := [utf8 "y\">t<b"] },
    { kind := .attribute, name := utf8 "id" }], by decide⟩

theorem cutMarkup_confined :
    1 < cutMarkup.size ∧
      (cutMarkup.structureChildren 1).faults.map Fault.code =
        [utf8 "STENCIL-I5001", utf8 "STENCIL-I5002", utf8 "STENCIL-I5003"] ∧
      cutMarkup.Confined 1 (cutMarkup.structureChildren 1).document := by
  have hcontainer : 1 < cutMarkup.size := by decide
  exact ⟨hcontainer, by decide +kernel, cutMarkup.confined_structureChildren hcontainer⟩

end Document

end MarkupTemplate
