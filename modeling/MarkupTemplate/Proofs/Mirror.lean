import MarkupTemplate.Proofs.Storage

/-!
# Structuring mirrors an assembly

Structuring and an assembly take the same children step by step, and after each step the state of
structuring says what the assembly says. So what structuring makes of a container can be read off
the assembly of its children.

## Main definitions

* `Structuring.Mirrors`: the state of structuring says what the assembly says

## Main results

* `Structuring.Mirrors.apply`, `Structuring.Mirrors.take`: tokens and children keep the mirror
* `Document.mirrors_children`: the mirror after all children of a container
* `Document.ok_structureChildren_iff`: structuring is complete if nothing is left open
-/

namespace MarkupTemplate

open Markup

namespace Structuring

/-- The state of structuring says what the assembly says. -/
structure Mirrors (old : Document) (container : NodeId) (s : Structuring) (a : Assembly) : Prop
    where
  stored : Assembly.Stored old container s.document a
  openElements : s.openElements = a.path.map OpenBranch.node
  waiting : s.waiting = a.waiting
  carried : s.carried = a.carried

namespace Mirrors

variable {old : Document} {container : NodeId} {arrived : List NodeId} {s : Structuring}
  {a : Assembly}

theorem top_eq (h : Mirrors old container s a) : s.top container = a.top container := by
  rw [top, h.openElements, Assembly.top, Document.pathTop]

theorem append (h : Mirrors old container s a) (hcontainer : container < old.size)
    (hfresh : a.Fresh old.size) {node : NodeId} (hnode : node < old.size) :
    Mirrors old container (s.append container node)
      { a with content := a.content ++ Forest.leaves [node] } := by
  refine ⟨?_, h.openElements, h.waiting, h.carried⟩
  rw [Structuring.append, h.top_eq]
  exact h.stored.append hcontainer hfresh hnode

/-- Older nodes that go under the innermost open element one after another. -/
theorem foldl_append (h : Mirrors old container s a) (hcontainer : container < old.size)
    (hfresh : a.Fresh old.size) {holes : List Hole}
    (hholes : ∀ hole ∈ holes, hole.node < old.size) :
    Mirrors old container (holes.foldl (fun s hole => s.append container hole.node) s)
      { a with content := a.content ++ Forest.leaves (holes.map Hole.node) } := by
  induction holes generalizing s a with
  | nil => simpa [Forest.leaves] using h
  | cons hole holes ih =>
    have hnode := hholes hole (by simp)
    have hfresh' : Assembly.Fresh old.size
        { a with content := a.content ++ Forest.leaves [hole.node] } := by
      have hcreated : Assembly.created old.size
          { a with content := a.content ++ Forest.leaves [hole.node] } = a.created old.size := by
        have hleaf : ∀ id ∈ [hole.node], id < old.size := by simpa using hnode
        simp [Assembly.created, Forest.created_leaves hleaf]
      exact ⟨hcreated ▸ hfresh.nodup, hcreated ▸ hfresh.bounds⟩
    have hrest := ih (h.append hcontainer hfresh hnode) hfresh' fun i hi => hholes i (by simp [hi])
    simpa [Forest.leaves] using hrest

theorem release (h : Mirrors old container s a) (hcontainer : container < old.size)
    (haccount : a.Accounted old.size arrived) (p : Hole → Bool) :
    Mirrors old container (s.release container p) (a.release p) := by
  have hholes : ∀ hole ∈ s.waiting.filter p, hole.node < old.size := by
    intro hole hmem
    rw [h.waiting] at hmem
    exact haccount.waiting_lt hole (List.mem_filter.1 hmem).1
  have hfold := h.foldl_append hcontainer haccount.fresh hholes
  rw [h.waiting] at hfold
  refine ⟨?_, ?_, ?_, ?_⟩
  · rw [Structuring.release, h.waiting]
    exact hfold.stored.wait _ _
  · rw [Structuring.release, h.waiting]
    exact hfold.openElements
  · rw [Structuring.release, h.waiting]
    rfl
  · rw [Structuring.release, h.waiting]
    exact hfold.carried

theorem attach (h : Mirrors old container s a) (hcontainer : container < old.size)
    (haccount : a.Accounted old.size arrived) {element : NodeId}
    (helement : element = a.top container) (entry : Attribute) :
    Mirrors old container (s.attach element entry) (a.attach entry) := by
  have hsize : s.document.size = a.next := h.stored.size
  have hparts := haccount.parts_lt entry
  obtain ⟨hsize', hsame, hholds⟩ :=
    holds_attribute (d := s.document) entry.name.text (a.parts entry) h.stored.le hparts
  have hcreated := created_attributeForest h.stored.le hparts entry.name.text
  have hplace := h.stored.place hcontainer haccount.fresh (by rw [hsize']; omega) hsame rfl hholds
    (by rw [hcreated]; intro id hid; exact (List.mem_range'_1.1 hid).1)
  refine ⟨?_, h.openElements, ?_, h.carried⟩
  · have hid : (s.document.addAttribute entry.name.text).2 = a.next := hsize
    rw [hsize', hsize] at hplace
    simp only [Structuring.attach, h.waiting, helement, hid]
    exact hplace.wait _ _
  · simp only [Structuring.attach, Assembly.attach, h.waiting]

theorem foldl_attach (h : Mirrors old container s a) (hcontainer : container < old.size)
    (haccount : a.Accounted old.size arrived) {element : NodeId}
    (helement : element = a.top container) (entries : List Attribute) :
    Mirrors old container (entries.foldl (Structuring.attach element) s)
      (entries.foldl Assembly.attach a) := by
  induction entries generalizing s a with
  | nil => exact h
  | cons entry entries ih =>
    exact ih (h.attach hcontainer haccount helement entry) (haccount.attach entry) helement

/-- A new element is open and has no children yet. -/
theorem enter (h : Mirrors old container s a) (hcontainer : container < old.size)
    (haccount : a.Accounted old.size arrived) (span : Option Span) (name : Bytes) :
    Mirrors old container
      { s with
        document := (Document.under (s.top container)
          (s.document.addNode { kind := .element, name := name, span := span })).1
        openElements := s.document.size :: s.openElements }
      (a.enter name) := by
  have hle : old.size ≤ s.document.size := h.stored.le
  have hsize : s.document.size = a.next := h.stored.size
  have hplace := h.stored.place hcontainer haccount.fresh (by simp)
    (fun id hid => Document.node_add_of_lt _ { kind := .element, name := name, span := span } hid)
    (f := .cons s.document.size { kind := .element, name := name } .nil .nil) rfl
    ⟨fun _ => by simp [Label.plain, Forest.roots], trivial, trivial⟩
    (by simp [Forest.created_cons_of_le hle])
  rw [Document.size_add, hsize] at hplace
  refine ⟨?_, ?_, h.waiting, h.carried⟩
  · rw [h.top_eq, ← Assembly.Stored.close_iff (a := a.enter name) rfl haccount.le]
    simp only [Document.under, Document.addNode, hsize]
    exact hplace
  · simp only [h.openElements, hsize]
    rfl

theorem openElement (h : Mirrors old container s a) (hcontainer : container < old.size)
    (haccount : a.Accounted old.size arrived) (span : Option Span) (name : Bytes)
    (attributes : List Attribute) :
    Mirrors old container (s.openElement container span name attributes)
      (a.openElement name attributes) := by
  have hrelease := h.release hcontainer haccount
    fun hole => hole.isPositional && !attributes.any hole.isIn
  have haccount' := haccount.release fun hole => hole.isPositional && !attributes.any hole.isIn
  have henter := hrelease.enter hcontainer haccount' span name
  have hattach := henter.foldl_attach hcontainer (haccount'.enter name) hrelease.stored.size
    attributes
  exact hattach.release hcontainer ((haccount'.enter name).foldl_attach attributes) _

theorem closeElement (h : Mirrors old container s a) (hcontainer : container < old.size)
    (haccount : a.Accounted old.size arrived) (name : Bytes) :
    Mirrors old container (s.closeElement container name) (a.closeElement name) := by
  -- Without an open element the diagnostic is about the container, else about the element.
  cases hpath : a.path with
  | nil =>
    have hopen : s.openElements = [] := by rw [h.openElements, hpath]; rfl
    have hstored := h.stored.addContainerDiagnostic hcontainer haccount.fresh
      (.unexpectedClosingTag name (s.document.label container).span)
    simp only [Structuring.closeElement, hopen, Assembly.closeElement, hpath]
    exact ⟨by rwa [hpath] at hstored, rfl, h.waiting, h.carried⟩
  | cons branch path =>
    have hopen : s.openElements = branch.node :: path.map OpenBranch.node := by
      rw [h.openElements, hpath]
      rfl
    have hnode : old.size ≤ branch.node :=
      (haccount.mem_created.1 (by simp [Assembly.created, hpath])).1
    have hholds := h.stored.path
    rw [hpath] at hholds
    have hlabel : (s.document.label branch.node).name = branch.label.name := by
      rw [← hholds.1.1, Label.plain_name]
    simp only [Structuring.closeElement, hopen, Assembly.closeElement, hpath, Assembly.closedLabel,
      hlabel]
    by_cases hname : Bytes.equalsIgnoringCase branch.label.name name
    · simp only [hname, if_true]
      exact ⟨(Assembly.Stored.close_iff hpath hnode).2 h.stored, rfl, h.waiting, h.carried⟩
    · rw [if_neg hname, if_neg hname]
      have hstored := h.stored.addDiagnostic hcontainer haccount.fresh hpath
        (.mismatchedClosingTag name branch.label.name (s.document.label branch.node).span)
      exact ⟨(Assembly.Stored.close_iff rfl (by exact hnode)).2 hstored, rfl, h.waiting, h.carried⟩

theorem addText (h : Mirrors old container s a) (hcontainer : container < old.size)
    (haccount : a.Accounted old.size arrived) (data : Bytes) :
    Mirrors old container (s.addText container data) (a.addText data) := by
  have hopen : s.openElements.isEmpty = a.path.isEmpty := by simp [h.openElements]
  simp only [Structuring.addText, Assembly.addText, hopen]
  split
  · exact h
  · -- The text is a new node without children.
    have hle : old.size ≤ s.document.size := h.stored.le
    have hsize : s.document.size = a.next := h.stored.size
    have hplace := h.stored.place hcontainer haccount.fresh (by simp)
      (fun id hid => Document.node_add_of_lt _ { kind := .markup, fragments := [data] } hid)
      (f := .cons s.document.size { kind := .markup, fragments := [data] } .nil .nil) rfl
      ⟨fun _ => by simp [Label.plain, Forest.roots], trivial, trivial⟩
      (by simp [Forest.created_cons_of_le hle])
    rw [Document.size_add, hsize] at hplace
    have htop : Structuring.top container
        { s with document := s.document.add { kind := .markup, fragments := [data] } } =
          a.top container := h.top_eq
    refine ⟨?_, h.openElements, h.waiting, h.carried⟩
    simp only [Document.addMarkup, Document.addNode, Structuring.append, htop, hsize]
    exact hplace

/-- A token does to the document what it does to the assembly. -/
theorem apply (h : Mirrors old container s a) (hcontainer : container < old.size)
    (haccount : a.Accounted old.size arrived) (span : Option Span) (t : Token) :
    Mirrors old container (s.apply container span t) (a.apply t) := by
  obtain ⟨offset, length, content⟩ := t
  cases content with
  | startTag name attributes selfClosing =>
    have hopen := h.openElement hcontainer haccount span name.text attributes
    simp only [Structuring.apply, Assembly.apply]
    split
    · exact hopen.closeElement hcontainer (haccount.openElement name.text attributes) name.text
    · exact hopen
  | endTag name =>
    exact (h.release hcontainer haccount _).closeElement hcontainer (haccount.release _) name.text
  | text data =>
    exact (h.release hcontainer haccount _).addText hcontainer (haccount.release _) data
  | comment data => exact h.release hcontainer haccount _

theorem foldl_apply (h : Mirrors old container s a) (hcontainer : container < old.size)
    (haccount : a.Accounted old.size arrived) (span : Option Span) (ts : List Token) :
    Mirrors old container (ts.foldl (Structuring.apply container span) s)
      (ts.foldl Assembly.apply a) := by
  induction ts generalizing s a with
  | nil => exact h
  | cons t ts ih => exact ih (h.apply hcontainer haccount span t) (haccount.apply t)

theorem takeMarkup (h : Mirrors old container s a) (hcontainer : container < old.size)
    (haccount : a.Accounted old.size arrived) {child : NodeId} {text : Bytes}
    (htext : (s.document.label child).text = text) :
    Mirrors old container (s.takeMarkup container child) (a.takeMarkup text) := by
  have hfold := h.foldl_apply hcontainer haccount (s.document.label child).span
    (scan (a.carried ++ text)).tokens
  simp only [Structuring.takeMarkup, Assembly.takeMarkup, htext, h.carried]
  split
  · exact ⟨hfold.stored.wait _ _, hfold.openElements, hfold.waiting, rfl⟩
  · exact ⟨hfold.stored.wait _ _, hfold.openElements, by rw [hfold.waiting], rfl⟩

/-- The next child does to the document what it does to the assembly. -/
theorem take (h : Mirrors old container s a) (hcontainer : container < old.size)
    (haccount : a.Accounted old.size arrived) {child : NodeId} (hchild : child < old.size) :
    Mirrors old container (s.take container child) (a.take (old.item child)) := by
  have hwait : ∀ hole : Hole, Mirrors old container { s with waiting := s.waiting ++ [hole] }
      { a with waiting := a.waiting ++ [hole] } :=
    fun hole => ⟨h.stored.wait _ _, h.openElements, by rw [h.waiting], h.carried⟩
  rw [← h.stored.item_eq hchild, Document.item, Structuring.take]
  cases s.document.kind child with
  | markup => exact h.takeMarkup hcontainer haccount rfl
  | «attribute» => exact hwait _
  | _ =>
    have hempty : a.carried.isEmpty = s.carried.isEmpty := by rw [h.carried]
    have hlength : a.carried.length = s.carried.length := by rw [h.carried]
    simp only [Assembly.take, hempty, hlength]
    split
    · exact h.append hcontainer haccount.fresh hchild
    · exact hwait _

theorem foldl_take (h : Mirrors old container s a) (hcontainer : container < old.size)
    (haccount : a.Accounted old.size arrived) {children : List NodeId}
    (hchildren : ∀ child ∈ children, child < old.size) :
    Mirrors old container (children.foldl (Structuring.take container) s)
      ((children.map old.item).foldl Assembly.take a) := by
  induction children generalizing arrived s a with
  | nil => exact h
  | cons child children ih =>
    have hchild := hchildren child (by simp)
    exact ih (h.take hcontainer haccount hchild)
      (haccount.take fun id hid => Document.node?_item_eq hid ▸ hchild) fun i hi =>
        hchildren i (by simp [hi])

end Mirrors

end Structuring

/-! ## The mirror of a whole container -/

namespace Document

variable {d : Document} {container : NodeId}

/-- The assembly of the children of a container. -/
def assembly (d : Document) (container : NodeId) : Assembly :=
  .run d.size (d.items container)

/-- At the start only the children of the container are taken away. -/
theorem mirrors_start (hcontainer : container < d.size) :
    Structuring.Mirrors d container { document := d.setChildren container [] }
      { next := d.size } := by
  refine ⟨⟨by simp, by simp, fun id _ hne => ?_, by simp [Label.plain], trivial, ?_⟩, rfl, rfl, rfl⟩
  · rw [setChildren, node_modify_of_ne hne]
  · exact (children_setChildren [] hcontainer).trans (if_pos rfl)

section

variable (hcontainer : container < d.size)
  (hchildren : ∀ child ∈ d.children container, child < d.size)
include hchildren

/-- The nodes that arrive with the children of a container were there before. -/
theorem node_lt_of_mem_items :
    ∀ item ∈ d.items container, ∀ id ∈ item.node?, id < d.size := by
  intro item hitem id hid
  obtain ⟨child, hchild, rfl⟩ := List.mem_map.1 hitem
  rw [node?_item_eq hid]
  exact hchildren child hchild

/-- Every node made and every node among the children has one place, or waits for one. -/
theorem accounted_children : (d.assembly container).Accounted d.size
    ((d.items container).filterMap Item.node?) :=
  Assembly.accounted_run (node_lt_of_mem_items hchildren)

include hcontainer

/-- After the last child the document holds the assembly of all children. -/
theorem mirrors_children : Structuring.Mirrors d container
    ((d.children container).foldl (Structuring.take container)
      { document := d.setChildren container [] })
    (d.assembly container) :=
  (mirrors_start hcontainer).foldl_take hcontainer (.start d.size) hchildren

/-- Structuring is complete if nothing is left open. -/
theorem ok_structureChildren_iff :
    (d.structureChildren container).ok ↔ (d.assembly container).Complete := by
  have h := d.mirrors_children hcontainer hchildren
  simp only [Rewrite.ok, structureChildren, Structuring.faults, h.openElements, h.waiting,
    h.carried, Assembly.Complete]
  cases (d.assembly container).path <;> cases (d.assembly container).carried <;>
    cases (d.assembly container).waiting <;> simp

/-- After structuring the document holds what was assembled. -/
theorem stored_structureChildren :
    Assembly.Stored d container (d.structureChildren container).document (d.assembly container) :=
  (d.mirrors_children hcontainer hchildren).stored

end

end Document

end MarkupTemplate
