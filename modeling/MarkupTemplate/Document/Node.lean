import MarkupTemplate.Diagnostic

/-!
# Nodes

A document is made of nodes: what a node is and says stands in its label, and its children are named
by their numbers.

## Main definitions

* `NodeKind`, `Form`: what a node stands for, and the three forms of embedded code
* `Label`, `Node`: what a node says, and a node with its children
* `Label.text`: the markup of a node
-/

namespace MarkupTemplate

/-- Nodes are numbered in the order of their creation. -/
abbrev NodeId := Nat

/-- The forms of code that a template embeds in its markup. -/
inductive Form where
  /-- Code with a value, which is written where it stands. -/
  | expression
  /-- Statements. -/
  | codeBlock
  /-- Code for the template itself, of which nothing is written. -/
  | directive
deriving DecidableEq, Repr, Inhabited

/-- What a node stands for. -/
inductive NodeKind where
  /-- The whole of a document. -/
  | document
  /-- Markup as the author wrote it, or the literal part of a value. -/
  | markup
  /-- An element. -/
  | element
  /-- An attribute of an element. -/
  | attribute
  /-- The value of an attribute: its parts are the children. -/
  | attributeValue
  /-- A construct: an element with a meaning of its own, bound to descriptors. -/
  | construct
  /-- An attribute of a construct: the parts of its value are the children. -/
  | constructAttribute
  /-- The content of a construct. -/
  | constructBody
  /-- Embedded code. -/
  | embedded (form : Form) (code : Bytes)
deriving DecidableEq, Repr

instance : Inhabited NodeKind := ⟨.embedded .expression []⟩

/-- The name of a kind of nodes, as messages use it. -/
def NodeKind.title : NodeKind → Bytes
  | .document => utf8 "Document"
  | .markup => utf8 "RawMarkup"
  | .element => utf8 "Element"
  | .attribute => utf8 "Attribute"
  | .attributeValue => utf8 "AttributeValue"
  | .construct => utf8 "StructuredConstruct"
  | .constructAttribute => utf8 "ConstructAttribute"
  | .constructBody => utf8 "ConstructBody"
  | .embedded .. => utf8 "Opaque"

/-- What a node is and says, its children apart. -/
structure Label where
  /-- What the node stands for. -/
  kind : NodeKind := default
  /-- The name of an element, construct or attribute. -/
  name : Bytes := []
  /-- The markup, in the pieces in which it arrived. -/
  fragments : List Bytes := []
  /-- The descriptors that a construct is bound to. -/
  descriptors : List Bytes := []
  /-- The stretch of the template that the node was written in. -/
  span : Option Span := none
  /-- What is wrong with the node. -/
  diagnostics : List Diagnostic := []
deriving DecidableEq, Repr, Inhabited

/-- The markup of a node: its fragments in order. -/
def Label.text (l : Label) : Bytes := l.fragments.flatten

/-- A node: its label and its children in order. -/
structure Node extends Label where
  /-- The numbers of the children. -/
  children : List NodeId := []
deriving DecidableEq, Repr, Inhabited

end MarkupTemplate
