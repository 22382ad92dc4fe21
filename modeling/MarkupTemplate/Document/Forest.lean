import MarkupTemplate.Document.Basic

/-!
# Forests

What is read off a document does not depend on how its nodes are stored, only on the tree under its
root. A forest is a list of such trees: its first tree, with the forest of its children, and the
trees after it.

## Main definitions

* `Forest`: lists of trees of labelled nodes
* `Document.tree`, `Document.forestBelow`: the tree of a document, and the trees under a node
* `Forest.preorder`, `Forest.diagnostics`: the nodes and the diagnostics in document order

A document whose children lists form a cycle has no tree. The unfolding stops at a depth that no
branch of an acyclic document reaches, since a branch does not meet a node twice.
-/

namespace MarkupTemplate

/-- A list of trees. -/
inductive Forest where
  /-- No tree. -/
  | nil
  /-- A tree, given by its root and the trees under it, and the trees after it. -/
  | cons (id : NodeId) (label : Label) (children siblings : Forest)
deriving DecidableEq, Repr, Inhabited

namespace Forest

/-- The roots of the trees. -/
def roots : Forest → List NodeId
  | nil => []
  | cons id _ _ siblings => id :: siblings.roots

/-- The nodes in document order: a node before its children, and these before its siblings. -/
def preorder : Forest → List NodeId
  | nil => []
  | cons id _ children siblings => id :: (children.preorder ++ siblings.preorder)

/-- The diagnostics of all nodes in document order. -/
def diagnostics : Forest → List Diagnostic
  | nil => []
  | cons _ label children siblings =>
    label.diagnostics ++ (children.diagnostics ++ siblings.diagnostics)

/-- The trees of one forest before those of another. -/
def append : Forest → Forest → Forest
  | nil, g => g
  | cons id label children siblings, g => cons id label children (siblings.append g)

instance : Append Forest := ⟨append⟩

@[simp] theorem nil_append (g : Forest) : nil ++ g = g := rfl

@[simp] theorem cons_append (id : NodeId) (label : Label) (children siblings g : Forest) :
    cons id label children siblings ++ g = cons id label children (siblings ++ g) := rfl

@[simp] theorem preorder_append (f g : Forest) : (f ++ g).preorder = f.preorder ++ g.preorder := by
  induction f with
  | nil => rfl
  | cons _ _ _ _ _ ih => simp [preorder, ih]

@[simp] theorem diagnostics_append (f g : Forest) :
    (f ++ g).diagnostics = f.diagnostics ++ g.diagnostics := by
  induction f with
  | nil => rfl
  | cons _ _ _ _ _ ih => simp [diagnostics, ih]

end Forest

namespace Document

variable (d : Document)

/-- The trees under the given roots, down to the given depth. -/
def unfold : Nat → List NodeId → Forest
  | 0, _ => .nil
  | depth + 1, ids =>
    ids.foldr
      (fun id siblings => .cons id (d.label id) (unfold depth (d.children id)) siblings) .nil

/-- The tree of a document. -/
def tree : Forest := d.unfold d.size [root]

/-- The trees under a node. -/
def forestBelow (id : NodeId) : Forest := d.unfold d.size (d.children id)

/-- The diagnostics of a document in document order. -/
def diagnostics : List Diagnostic := d.tree.diagnostics

@[simp] theorem unfold_nil (depth : Nat) : d.unfold depth [] = .nil := by
  cases depth <;> rfl

@[simp] theorem unfold_cons (depth : Nat) (id : NodeId) (ids : List NodeId) :
    d.unfold (depth + 1) (id :: ids) =
      .cons id (d.label id) (d.unfold depth (d.children id)) (d.unfold (depth + 1) ids) := rfl

/-- A branch that is cut off has no roots; any other keeps them all. -/
theorem roots_unfold_succ (depth : Nat) (ids : List NodeId) :
    (d.unfold (depth + 1) ids).roots = ids := by
  induction ids with
  | nil => rfl
  | cons id ids ih => rw [unfold_cons, Forest.roots, ih]

end Document

end MarkupTemplate
