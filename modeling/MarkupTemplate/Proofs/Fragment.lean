import MarkupTemplate.Proofs.Assembly

/-!
# Written fragments

A fragment is what an author has in mind: elements with attributes, texts and holes. It is written
as one sequence of texts and holes, in which a value stands in double quotes with its holes between
the quotes. Not every fragment can be written: a text must not look like a tag, a name must end
where its bytes do, and two texts side by side would be one.

## Main definitions

* `Fragment`, `Entry`: markup as a tree, and the attributes of its elements
* `Fragment.written`: the texts and holes that a fragment is written as
* `Fragment.Writable`: a fragment that can be written
* `Fragment.forest`: the nodes of a fragment, numbered in document order
* `gather`: texts and holes as the children of a container
-/

namespace MarkupTemplate

open Markup

/-! ## Fragments -/

/-- An attribute as it is written: bare, or with a value. -/
structure Entry where
  /-- The name. -/
  name : Bytes
  /-- The texts and holes between the quotes; a bare attribute has none. -/
  value : Option (List ValuePart) := none
deriving DecidableEq, Repr, Inhabited

/-- Markup with holes, as a list of trees. -/
inductive Fragment where
  /-- Nothing. -/
  | nil
  /-- A text, and what follows it. -/
  | text (data : Bytes) (siblings : Fragment)
  /-- A hole, and what follows it. -/
  | hole (node : NodeId) (siblings : Fragment)
  /-- An element, what is under it, and what follows it. -/
  | element (name : Bytes) (entries : List Entry) (children siblings : Fragment)
deriving DecidableEq, Repr, Inhabited

/-! ## How a fragment is written -/

/-- What is written for an attribute, with a space before it. -/
def Entry.written (e : Entry) : List ValuePart :=
  .literal (Byte.space :: e.name) :: e.value.elim [] fun parts =>
    .literal [Byte.equals, Byte.doubleQuote] :: (parts ++ [.literal [Byte.doubleQuote]])

/-- What is written for several attributes. -/
def writtenEntries (entries : List Entry) : List ValuePart := entries.flatMap Entry.written

/-- The end tag of an element. -/
def endTagText (name : Bytes) : Bytes := Byte.lessThan :: Byte.slash :: (name ++ [Byte.greaterThan])

namespace Fragment

/-- What is written for a fragment. An element that never has content has no end tag either. -/
def written : Fragment → List ValuePart
  | nil => []
  | text data siblings => .literal data :: siblings.written
  | hole node siblings => .hole node :: siblings.written
  | element name entries children siblings =>
    .literal (Byte.lessThan :: name) :: (writtenEntries entries ++
      .literal [Byte.greaterThan] :: ((if isVoid name then [] else
        children.written ++ [.literal (endTagText name)]) ++ siblings.written))

end Fragment

/-- A text before the children of a container. It is part of the markup that they start with, if
they do. -/
def prependMarkup (text : Bytes) (items : List Item) : List Item :=
  if text.isEmpty then items
  else
    match items with
    | .markup more :: items => .markup (text ++ more) :: items
    | items => .markup text :: items

/-- Texts and holes as the children of a container: texts side by side are one piece of markup. -/
def gather : List ValuePart → List Item
  | [] => []
  | .literal text :: parts => prependMarkup text (gather parts)
  | .hole node :: parts => .hole node :: gather parts

/-! ## What can be written -/

/-- Nowhere in the text a tag or a comment starts. -/
def isPlain : Bytes → Bool
  | [] => true
  | b :: rest => !startsMarkup (b :: rest) && isPlain rest

/-- A name that a tag may have. -/
def isTagName (name : Bytes) : Bool := name.head?.any Byte.isLetter && name.all isTagNamePart

/-- No text is empty, and no two texts stand side by side. -/
def isAlternating : List ValuePart → Bool
  | .literal _ :: .literal _ :: _ => false
  | .literal text :: parts => !text.isEmpty && isAlternating parts
  | .hole _ :: parts => isAlternating parts
  | [] => true

/-- A value that can be written between double quotes and is not divided further: one empty text, or
texts and holes in turn. -/
def isValue (parts : List ValuePart) : Bool :=
  (parts == [.literal []] || !parts.isEmpty && isAlternating parts) &&
    !(literalText parts).contains Byte.doubleQuote

/-- An attribute that can be written. -/
def Entry.isWritable (e : Entry) : Bool :=
  !e.name.isEmpty && e.name.all isAttributeNamePart && e.value.all isValue

namespace Fragment

/-- The fragment starts with a text. -/
def startsWithText : Fragment → Bool
  | text _ _ => true
  | _ => false

/-- A fragment that can be written, under a container or under an element. White space under a
container has no content, so it cannot be written there. -/
def isWritable (underContainer : Bool) : Fragment → Bool
  | nil => true
  | text data siblings =>
    !data.isEmpty && isPlain data && !(underContainer && Bytes.isWhite data) &&
      !siblings.startsWithText && siblings.isWritable underContainer
  | hole _ siblings => siblings.isWritable underContainer
  | element name entries children siblings =>
    isTagName name && entries.all Entry.isWritable && (!isVoid name || children == nil) &&
      children.isWritable false && siblings.isWritable underContainer

end Fragment

/-! ## The nodes of a fragment -/

/-- The parts of the value; a bare attribute has none. -/
def Entry.parts (e : Entry) : List ValuePart := e.value.getD []

/-- The nodes of attributes, numbered from `next` on. -/
def entriesForest (next : Nat) : List Entry → Forest
  | [] => .nil
  | e :: entries =>
    attributeForest next e.name e.parts ++ entriesForest (next + 2 + literalCount e.parts) entries

/-- The number of nodes of attributes, without the holes. -/
def entriesSize : List Entry → Nat
  | [] => 0
  | e :: entries => 2 + literalCount e.parts + entriesSize entries

namespace Fragment

/-- The number of nodes, without the holes. -/
def size : Fragment → Nat
  | nil => 0
  | text _ siblings => 1 + siblings.size
  | hole _ siblings => siblings.size
  | element _ entries children siblings =>
    1 + entriesSize entries + children.size + siblings.size

/-- The nodes of a fragment, numbered from `next` on in document order. -/
def forest (next : Nat) : Fragment → Forest
  | nil => .nil
  | text data siblings =>
    .cons next { kind := .markup, fragments := [data] } .nil (siblings.forest (next + 1))
  | hole node siblings => .cons node default .nil (siblings.forest next)
  | element name entries children siblings =>
    .cons next { kind := .element, name := name }
      (entriesForest (next + 1) entries ++ children.forest (next + 1 + entriesSize entries))
      (siblings.forest (next + 1 + entriesSize entries + children.size))

end Fragment

end MarkupTemplate
