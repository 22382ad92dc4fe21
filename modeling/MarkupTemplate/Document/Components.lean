import MarkupTemplate.Document.Forest

/-!
# Components and orphans

A construct is bound to descriptors. It stands for a component if one of them is the descriptor of a
component; otherwise it is an orphan, which nothing more will make use of.

## Main definitions

* `Components`: the descriptors of components
* `Label.isComponent`: the label belongs to a component
* `Orphan`, `Forest.orphans`, `Document.orphans`: constructs that stand for no component, with the
  place where they were found
-/

namespace MarkupTemplate

/-- The descriptors of components. -/
abbrev Components := List Bytes

/-- One of the descriptors is that of a component. -/
def Label.isComponent (components : Components) (l : Label) : Bool :=
  l.descriptors.any components.contains

/-- The label of a construct that stands for no component. -/
def Label.isOrphan (components : Components) (l : Label) : Bool :=
  l.kind == .construct && !l.isComponent components

/-- A construct that stands for no component. -/
structure Orphan where
  /-- The node under which the construct was found. -/
  parent : NodeId
  /-- The construct. -/
  node : NodeId
deriving DecidableEq, Repr, Inhabited

/-- The orphans of a forest, inner ones before outer ones. -/
def Forest.orphans (components : Components) (parent : NodeId) : Forest → List Orphan
  | .nil => []
  | .cons id label children siblings =>
    children.orphans components id ++
      ((if label.isOrphan components then [⟨parent, id⟩] else []) ++
        siblings.orphans components parent)

/-- The orphans of a document, inner ones before outer ones. -/
def Document.orphans (components : Components) (d : Document) : List Orphan :=
  (d.forestBelow root).orphans components root

end MarkupTemplate
