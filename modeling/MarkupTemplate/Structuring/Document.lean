import MarkupTemplate.Document.Rewrite
import MarkupTemplate.Structuring.State

/-!
# Structured documents

A document comes with its markup as text. Structuring turns the markup of every container into
elements, from the leaves to the root.

## Main definitions

* `Document.structureChildren`: the elements of one container
* `Document.structured`: the elements of all containers
-/

namespace MarkupTemplate.Document

/-- The markup among the children of a container becomes elements; the other children go where they
stand in the markup. -/
def structureChildren (d : Document) (container : NodeId) : Rewrite :=
  let s := (d.children container).foldl (Structuring.take container)
    { document := d.setChildren container [] }
  ⟨s.document, s.faults container⟩

/-- The children of an attribute are parts of a value and never markup. -/
def holdsValue : NodeKind → Bool
  | .attribute | .constructAttribute => true
  | _ => false

/-- Structures the containers under a node before the node itself, and a node only if it holds
markup. The first container with a fault is the last one. -/
def structureFrom : Nat → Document → NodeId → Rewrite
  | 0, d, _ => ⟨d, []⟩
  | depth + 1, d, id =>
    let children := d.children id
    let below := d.rewriteEach (fun d child =>
      if d.kind child = .markup ∨ holdsValue (d.kind child) then ⟨d, []⟩
      else structureFrom depth d child) children
    below.andThen fun d =>
      if children.any fun child => d.kind child == .markup then d.structureChildren id
      else ⟨d, []⟩

/-- The number of bytes of markup under all nodes, as often as it is a child. Every element that
structuring makes takes a part of it. -/
def markupLength (d : Document) : Nat :=
  d.nodes.foldl (fun total n => n.children.foldl (fun total c =>
    if d.kind c = .markup then total + (d.label c).text.length else total) total) 0

/-- The document with all its markup turned into elements. No branch, the elements made on the way
included, is longer than the nodes and the markup of the document. -/
def structured (d : Document) : Rewrite := structureFrom (d.size + d.markupLength) d root

end MarkupTemplate.Document
