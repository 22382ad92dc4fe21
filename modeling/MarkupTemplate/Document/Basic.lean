import MarkupTemplate.Document.Node

/-!
# Documents

A document numbers its nodes from zero, and node zero is its root. Nodes are added and changed but
never removed: what is replaced is merely no longer reached from the root.

## Main definitions

* `Document`: the nodes of a document
* `Document.node`, `Document.kind`, `Document.children`: what is known of a node
* `Document.add`, `Document.modify`: a further node, and a change of one
* `Document.appendChild`, `Document.setChildren`, `Document.replaceChild`: changes of the children
* `Document.attributesOf`, `Document.contentOf`, `Document.valueOf?`, `Document.bodyOf?`: the
  children of a node by their kind

## Main results

* `Document.node_add_of_lt`, `Document.node_add_size`: adding a node changes no other
* `Document.node_modify`: modifying a node changes no other
-/

namespace MarkupTemplate

/-- The nodes of a document in the order of their numbers. -/
structure Document where
  /-- The nodes. -/
  nodes : Array Node
  /-- There is a root. -/
  size_pos : 0 < nodes.size
deriving DecidableEq, Repr

namespace Document

/-- The document without content. -/
def empty : Document := ⟨#[{ kind := .document }], by decide⟩

instance : Inhabited Document := ⟨empty⟩

/-- The root is the first node. -/
def root : NodeId := 0

variable (d : Document)

/-- The number of nodes. The next node to be added gets this number. -/
def size : Nat := d.nodes.size

/-- The node of the given number; a number that no node has stands for a leaf that says nothing. -/
def node (id : NodeId) : Node := d.nodes[id]?.getD default

/-- What a node is and says. -/
def label (id : NodeId) : Label := (d.node id).toLabel

/-- What a node stands for. -/
def kind (id : NodeId) : NodeKind := (d.node id).kind

/-- The children of a node in order. -/
def children (id : NodeId) : List NodeId := (d.node id).children

/-! ## Changes -/

/-- The document with one more node. -/
def add (n : Node) : Document := ⟨d.nodes.push n, by simp⟩

/-- The document with one node changed; a number that no node has changes nothing. -/
def modify (id : NodeId) (f : Node → Node) : Document :=
  ⟨d.nodes.modify id f, by simpa using d.size_pos⟩

/-- The document with one more child, the last, under a node. -/
def appendChild (parent child : NodeId) : Document :=
  d.modify parent fun n => { n with children := n.children ++ [child] }

/-- The document with other children under a node. -/
def setChildren (parent : NodeId) (children : List NodeId) : Document :=
  d.modify parent fun n => { n with children := children }

/-- The document with another child at one position under a node. -/
def replaceChild (parent : NodeId) (index : Nat) (child : NodeId) : Document :=
  d.modify parent fun n => { n with children := n.children.set index child }

/-- The document with one more diagnostic on a node. -/
def addDiagnostic (id : NodeId) (diagnostic : Diagnostic) : Document :=
  d.modify id fun n => { n with diagnostics := n.diagnostics ++ [diagnostic] }

/-! ## Children by kind -/

/-- The attributes among the children of a node. -/
def attributesOf (id : NodeId) : List NodeId :=
  (d.children id).filter fun c => d.kind c == .attribute

/-- The children of a node that are not attributes. -/
def contentOf (id : NodeId) : List NodeId :=
  (d.children id).filter fun c => d.kind c != .attribute

/-- The value of an attribute: the first child of that kind. -/
def valueOf? (id : NodeId) : Option NodeId :=
  (d.children id).find? fun c => d.kind c == .attributeValue

/-- The body of a construct: the first child of that kind. -/
def bodyOf? (id : NodeId) : Option NodeId :=
  (d.children id).find? fun c => d.kind c == .constructBody

/-! ## What a change keeps -/

@[simp] theorem size_empty : empty.size = 1 := rfl

@[simp] theorem size_add (n : Node) : (d.add n).size = d.size + 1 := by simp [add, size]

@[simp] theorem size_modify (id : NodeId) (f : Node → Node) : (d.modify id f).size = d.size := by
  simp [modify, size]

/-- Adding a node changes no other. -/
theorem node_add_of_lt {id : NodeId} (n : Node) (h : id < d.size) :
    (d.add n).node id = d.node id := by
  simp only [size] at h
  simp [add, node, Array.getElem?_push, Nat.ne_of_lt h]

/-- The new node gets the next number. -/
@[simp] theorem node_add_size (n : Node) : (d.add n).node d.size = n := by
  simp [add, node, size]

/-- A number that no node has stands for a leaf that says nothing. -/
theorem node_of_size_le {id : NodeId} (h : d.size ≤ id) : d.node id = default := by
  simp only [size] at h
  simp [node, h]

/-- Modifying a node changes no other. -/
theorem node_modify {id : NodeId} (f : Node → Node) (h : id < d.size) (id' : NodeId) :
    (d.modify id f).node id' = if id' = id then f (d.node id) else d.node id' := by
  simp only [size] at h
  by_cases he : id' = id
  · subst he
    simp [modify, node, h, Array.getElem_modify]
  · simp [modify, node, he, Array.getElem?_modify, Ne.symm he]

end Document

end MarkupTemplate
