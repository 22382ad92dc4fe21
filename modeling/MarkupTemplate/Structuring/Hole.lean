import MarkupTemplate.Document.Basic
import MarkupTemplate.Markup.Token

/-!
# Holes

A hole is a node that stands between two pieces of markup. Where the first of them ends inside a
tag, the hole has to wait for the rest of the tag: it then belongs to the value that it stands in,
if there is one.

## Main definitions

* `Hole`: a node that waits for the rest of a tag
* `ValuePart`, `splice`: the parts of a value with holes in it
* `Markup.Attribute.parts`: the parts of the value of an attribute
-/

namespace MarkupTemplate

/-- A node that waits for the rest of a tag. -/
structure Hole where
  /-- The node. -/
  node : NodeId
  /-- How much of the tag stands before the hole. A node that is itself an attribute has no place in
  the tag and only waits for a tag to belong to. -/
  offset : Option Nat
deriving DecidableEq, Repr, Inhabited

/-- The hole stands in the text of a tag. -/
def Hole.isPositional (h : Hole) : Bool := h.offset.isSome

/-- The hole stands in the value of an attribute, or at one of its two ends. -/
def Hole.isIn (h : Hole) (a : Markup.Attribute) : Bool := h.offset.any a.valueHolds

/-- A part of a value. -/
inductive ValuePart where
  /-- A text. -/
  | literal (text : Bytes)
  /-- A hole. -/
  | hole (node : NodeId)
deriving DecidableEq, Repr, Inhabited

/-- The parts of a value from an offset on: each hole after the text before it, and the rest of the
text at the end. No text between them is empty. -/
def spliceFrom (value : Slice) (offset : Nat) : List Hole → List ValuePart
  | [] => if offset < value.stop then [.literal (value.text.drop (offset - value.offset))] else []
  | hole :: holes =>
    let place := hole.offset.getD offset
    let before :=
      if offset < place then
        [.literal ((value.text.drop (offset - value.offset)).take (place - offset))]
      else []
    before ++ .hole hole.node :: spliceFrom value place holes

/-- The parts of a value in which the given holes stand; a value without holes is one text, which
may be empty. -/
def splice (value : Slice) (holes : List Hole) : List ValuePart :=
  if holes.isEmpty then [.literal value.text] else spliceFrom value value.offset holes

/-- The parts of the value of an attribute, given the holes in it; a bare attribute has none. -/
def Markup.Attribute.parts (a : Markup.Attribute) (holes : List Hole) : List ValuePart :=
  a.value.elim [] fun value => splice value holes

end MarkupTemplate
