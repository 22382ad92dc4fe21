import MarkupTemplate.Document.Basic

/-!
# Building documents

Each function adds nodes of one kind to a document and answers with the first of them. An attribute
comes with the node of its value, a construct with its body.

## Main definitions

* `Document.addMarkup`, `Document.addEmbedded`, `Document.addElement`, `Document.addAttribute`,
  `Document.addConstruct`, `Document.addConstructAttribute`: further nodes, not yet under a parent
* `Document.under`: what was added, as the last child of a parent
-/

namespace MarkupTemplate.Document

/-- One more node. -/
def addNode (d : Document) (n : Node) : Document × NodeId := (d.add n, d.size)

/-- One more piece of markup, or literal part of a value. -/
def addMarkup (d : Document) (text : Bytes) : Document × NodeId :=
  d.addNode { kind := .markup, fragments := [text] }

/-- One more piece of embedded code. -/
def addEmbedded (d : Document) (form : Form) (code : Bytes) : Document × NodeId :=
  d.addNode { kind := .embedded form code }

/-- One more element. -/
def addElement (d : Document) (name : Bytes) : Document × NodeId :=
  d.addNode { kind := .element, name := name }

/-- One more attribute; its value is the node after it. -/
def addAttribute (d : Document) (name : Bytes) : Document × NodeId :=
  ((d.add { kind := .attribute, name := name, children := [d.size + 1] }).add
    { kind := .attributeValue }, d.size)

/-- One more construct; its body is the node after it. -/
def addConstruct (d : Document) (name : Bytes) (descriptors : List Bytes) : Document × NodeId :=
  ((d.add { kind := .construct, name, descriptors, children := [d.size + 1] }).add
    { kind := .constructBody }, d.size)

/-- One more attribute of a construct. -/
def addConstructAttribute (d : Document) (name : Bytes) : Document × NodeId :=
  d.addNode { kind := .constructAttribute, name := name }

/-- A node that was just added becomes the last child of a parent. -/
def under (parent : NodeId) (added : Document × NodeId) : Document × NodeId :=
  (added.1.appendChild parent added.2, added.2)

end MarkupTemplate.Document
