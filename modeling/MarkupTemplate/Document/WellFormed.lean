import MarkupTemplate.Document.Basic

/-!
# Well-formed documents

A document is well-formed if it is a tree and every node has the children that its kind demands.

## Main definitions

* `Document.wellShaped`: a node has the children that its kind demands
* `Document.verify`: the test for well-formedness
-/

namespace MarkupTemplate.Document

variable (d : Document)

/-- No attribute comes after a child of another kind. -/
def attributesFirst (kinds : List NodeKind) : Bool :=
  (kinds.dropWhile (· == .attribute)).all (· != .attribute)

/-- What its kind demands of a node: only the root stands for a document; markup is a leaf; an
element is named and has its attributes first; an attribute has a value and nothing else; a
construct has one body. -/
def wellShaped (id : NodeId) : Bool :=
  let kinds := (d.children id).map d.kind
  match d.kind id with
  | .document => id == root
  | .markup => kinds.isEmpty
  | .element => !(d.label id).name.isEmpty && attributesFirst kinds
  | .attribute => kinds == [.attributeValue]
  | .construct => kinds.count .constructBody == 1
  | _ => true

/-- Verifies the tree under a node, given the nodes that were met before, and answers with all nodes
met by then. A number that no node has, and a node that was met before, belong to no tree. -/
def verifyFrom : Nat → List NodeId → NodeId → Option (List NodeId)
  | 0, _, _ => none
  | depth + 1, met, id =>
    if id < d.size && !met.contains id && d.wellShaped id then
      (d.children id).foldlM (verifyFrom depth) (id :: met)
    else none

/-- The test for well-formedness. No branch of a tree is longer than the document has nodes. -/
def verify : Bool := (d.verifyFrom d.size [] root).isSome

end MarkupTemplate.Document
