import MarkupTemplate.Proofs.Arrival

/-!
# Where structuring reports what is wrong

Structuring does three sorts of things to a document: it adds nodes with nothing wrong about them,
it puts nodes under others, and it reports closing tags. What these three keep is kept by all of
structuring. So whatever is reported is reported behind what was there before, and it is about the
stretch of the template that the node was written in.

## Main definitions

* `Structuring.Stable`: a property of documents that the changes made by structuring keep
* `Document.Annotates`: a document reports more than another, each time about the node itself

## Main results

* `Structuring.Stable.structureChildren`: structuring a container keeps what its changes keep
* `Document.annotates_structureChildren`: structuring only adds reports, each about its node
* `Document.Annotates.diagnostics_eq`: such reports are known once they are known up to their places
-/

namespace MarkupTemplate

open Markup

namespace Structuring

/-- A property of documents that the changes made by structuring a container keep: further nodes
that report nothing, further children, and reports of closing tags. -/
structure Stable (container : NodeId) (P : Document → Prop) : Prop where
  add {d : Document} {n : Node} (h : P d) (hn : n.diagnostics = []) : P (d.add n)
  appendChild {d : Document} (h : P d) (parent child : NodeId) : P (d.appendChild parent child)
  unexpected {d : Document} (h : P d) (name : Bytes) :
    P (d.addDiagnostic container (.unexpectedClosingTag name (d.label container).span))
  mismatched {d : Document} (h : P d) (element : NodeId) (name : Bytes) :
    P (d.addDiagnostic element
      (.mismatchedClosingTag name (d.label element).name (d.label element).span))

namespace Stable

variable {container : NodeId} {P : Document → Prop} {s : Structuring}
  (hP : Stable container P)
include hP

theorem release (h : P s.document) (p : Hole → Bool) : P (s.release container p).document :=
  List.foldlRecOn (motive := fun s : Structuring => P s.document) _ _ h
    fun _ h _ _ => hP.appendChild h _ _

theorem addPart {d : Document} (h : P d) (value : NodeId) (part : ValuePart) :
    P (addPart value d part) := by
  cases part with
  | literal text => exact hP.appendChild (hP.add h rfl) _ _
  | hole node => exact hP.appendChild h _ _

theorem attach (h : P s.document) (element : NodeId) (a : Attribute) :
    P (s.attach element a).document := by
  have hadd : P (s.document.addAttribute a.name.text).1 := hP.add (hP.add h rfl) rfl
  exact hP.appendChild (List.foldlRecOn _ _ hadd fun _ h part _ => hP.addPart h _ part) _ _

theorem openElement (h : P s.document) (span : Option Span) (name : Bytes)
    (attributes : List Attribute) :
    P (s.openElement container span name attributes).document := by
  refine hP.release (List.foldlRecOn (motive := fun s : Structuring => P s.document) _ _ ?_
    fun _ h a _ => hP.attach h _ a) _
  exact hP.appendChild (hP.add (hP.release h _) rfl) _ _

theorem closeElement (h : P s.document) (name : Bytes) :
    P (s.closeElement container name).document := by
  unfold Structuring.closeElement
  split
  · exact hP.unexpected h name
  · next element _ _ =>
    dsimp only
    split
    · exact h
    · exact hP.mismatched h element name

theorem addText (h : P s.document) (data : Bytes) : P (s.addText container data).document := by
  unfold Structuring.addText
  split
  · exact h
  · exact hP.appendChild (hP.add h rfl) _ _

theorem apply (h : P s.document) (span : Option Span) (t : Token) :
    P (s.apply container span t).document := by
  obtain ⟨offset, length, content⟩ := t
  cases content with
  | startTag name attributes selfClosing =>
    have hopen := hP.openElement h span name.text attributes
    simp only [Structuring.apply]
    split
    · exact hP.closeElement hopen name.text
    · exact hopen
  | endTag name => exact hP.closeElement (hP.release h _) name.text
  | text data => exact hP.addText (hP.release h _) data
  | comment data => exact hP.release h _

theorem take (h : P s.document) (child : NodeId) : P (s.take container child).document := by
  unfold Structuring.take
  split
  · have hall := List.foldlRecOn (motive := fun s : Structuring => P s.document)
      (scan (s.carried ++ (s.document.label child).text)).tokens
      (Structuring.apply container (s.document.label child).span) h
      fun _ h t _ => hP.apply h _ t
    simp only [takeMarkup]
    split <;> exact hall
  · exact h
  · split
    · exact hP.appendChild h _ _
    · exact h

/-- Structuring a container keeps what its changes keep, if it holds without the children. -/
theorem structureChildren {d : Document} (h : P (d.setChildren container [])) :
    P (d.structureChildren container).document :=
  List.foldlRecOn (motive := fun s : Structuring => P s.document) _ _ h
    fun _ h child _ => hP.take h child

end Stable

end Structuring

/-! ## Further reports -/

namespace Document

variable {old d : Document} {container : NodeId}

/-- Every node of the document reports what it reported in the old document, and what it reports
beyond that is about the stretch that the node was written in. -/
def Annotates (old d : Document) : Prop :=
  ∀ id, ∃ added, (d.label id).diagnostics = (old.label id).diagnostics ++ added ∧
    ∀ g ∈ added, g.span = (d.label id).span

namespace Annotates

theorem of_label_eq {d' : Document} (h : old.Annotates d)
    (hlabel : ∀ id, d'.label id = d.label id) : old.Annotates d' := by
  intro id
  rw [hlabel id]
  exact h id

/-- A further node reports nothing, and neither does a number that no node has. -/
theorem add (h : old.Annotates d) {n : Node} (hn : n.diagnostics = []) :
    old.Annotates (d.add n) := by
  intro id
  rcases Nat.lt_trichotomy id d.size with hlt | rfl | hlt
  · rw [label_add_of_lt n hlt]
    exact h id
  · obtain ⟨added, hadded, -⟩ := h d.size
    have hnone : (d.label d.size).diagnostics = [] := by
      rw [label, node_of_size_le d (Nat.le_refl _)]
      rfl
    rw [hnone] at hadded
    obtain ⟨hold, rfl⟩ := List.append_eq_nil_iff.1 hadded.symm
    rw [label_add_size, hn, hold]
    exact ⟨[], rfl, by simp⟩
  · have hbeyond : (d.add n).label id = d.label id := by
      rw [label, label, node_of_size_le _ (by rw [size_add]; exact hlt),
        node_of_size_le d (Nat.le_of_lt hlt)]
    rw [hbeyond]
    exact h id

/-- A further report about a node names the stretch of the node. -/
theorem addDiagnostic (h : old.Annotates d) (id : NodeId) {g : Diagnostic}
    (hg : g.span = (d.label id).span) : old.Annotates (d.addDiagnostic id g) := by
  rcases Nat.lt_or_ge id d.size with hid | hid
  · intro id'
    rw [label_addDiagnostic g hid]
    split
    · obtain ⟨added, hadded, hspan⟩ := h id
      refine ⟨added ++ [g], ?_, fun g' hg' => ?_⟩
      · next he => rw [he, hadded, List.append_assoc]
      · rcases List.mem_append.1 hg' with hg' | hg'
        · exact hspan g' hg'
        · rw [List.mem_singleton.1 hg']
          exact hg
    · exact h id'
  · exact h.of_label_eq fun id' => label_eq_of_node_eq (node_modify_of_size_le hid id')

/-- What a node reports beyond the old document is known once it is known up to its places. -/
theorem diagnostics_eq (h : old.Annotates d) {id : NodeId} {new : List Diagnostic}
    (hnew : (d.label id).plain.diagnostics = (old.label id).plain.diagnostics ++ new) :
    (d.label id).diagnostics =
      (old.label id).diagnostics ++ new.map fun g => { g with span := (d.label id).span } := by
  obtain ⟨added, hadded, hspan⟩ := h id
  have hplain : added.map Diagnostic.plain = new := by
    simp only [Label.plain, hadded, List.map_append] at hnew
    exact List.append_cancel_left hnew
  -- Each of them has its place back when the stretch of the node is put in again.
  have hback : added.map ((fun g => { g with span := (d.label id).span }) ∘ Diagnostic.plain) =
      added.map fun g => g := by
    refine List.map_congr_left fun g hg => ?_
    rw [← hspan g hg]
    rfl
  rw [hadded, ← hplain, List.map_map, hback, List.map_id']

end Annotates

/-- The changes made by structuring only add reports about the nodes themselves. -/
theorem stable_annotates (old : Document) (container : NodeId) :
    Structuring.Stable container old.Annotates where
  add h hn := h.add hn
  appendChild h _ _ := h.of_label_eq fun _ => label_appendChild
  unexpected h _ := h.addDiagnostic container rfl
  mismatched h element _ := h.addDiagnostic element rfl

/-- Structuring only adds reports, each of them about its node. -/
theorem annotates_structureChildren (d : Document) (container : NodeId) :
    d.Annotates (d.structureChildren container).document :=
  (d.stable_annotates container).structureChildren fun id =>
    ⟨[], by rw [label_setChildren, List.append_nil], by simp⟩

/-- Structuring keeps the stretches in which the nodes were written. -/
theorem span_structureChildren (hcontainer : container < d.size)
    (hchildren : ∀ child ∈ d.children container, child < d.size) {id : NodeId} (hid : id < d.size) :
    ((d.structureChildren container).document.label id).span = (d.label id).span := by
  have hlabel := undiagnosed_taken hcontainer hchildren hid
  exact (congrArg Label.span hlabel :)

end Document

end MarkupTemplate
