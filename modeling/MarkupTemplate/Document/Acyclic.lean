import MarkupTemplate.Document.Basic

/-!
# Acyclic documents

## Main definitions

* `Document.Acyclic`: the nodes can be ranked so that every child is a node of lower rank
* `Document.isAcyclic`: a test that settles, round by round, the nodes of which all children are
  settled

Sharing is no cycle: a node may be a child of several nodes, and a child of one node several times.
-/

namespace MarkupTemplate.Document

variable (d : Document)

/-- Every child is a node of the document and ranks below its parent, for some ranking. Nodes that
are not reached from the root count as well. -/
def Acyclic : Prop :=
  ∃ rank : NodeId → Nat, ∀ id < d.size, ∀ c ∈ d.children id, c < d.size ∧ rank c < rank id

/-- The nodes of which all children are settled. -/
def settleRound (settled : Array Bool) : Array Bool :=
  d.nodes.map fun n => n.children.all fun c => settled.getD c false

/-- The nodes that are settled after at most the given number of rounds; a round that settles
nothing is the last. -/
def settle : Nat → Array Bool → Array Bool
  | 0, settled => settled
  | rounds + 1, settled =>
    let next := d.settleRound settled
    if next = settled then settled else settle rounds next

/-- The test for acyclicity: in the end all nodes are settled. -/
def isAcyclic : Bool := (d.settle d.size (Array.replicate d.size false)).all id

end MarkupTemplate.Document
