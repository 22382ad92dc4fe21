import MarkupTemplate.Text.Bytes

/-!
# Markup tokens

Markup falls into texts, start tags, end tags and comments. A token remembers where it was written,
and so do the names and values inside a tag, because what is embedded in a tag is placed by its
offset.

## Main definitions

* `Slice`: a part of a text, and where it starts
* `Markup.Attribute`: an attribute of a start tag, with a value or bare
* `Markup.Token`, `Markup.Content`: a token, and what it says
-/

namespace MarkupTemplate

/-- A part of a text, with the number of bytes before it. -/
structure Slice where
  /-- The number of bytes before the part. -/
  offset : Nat
  /-- The bytes of the part. -/
  text : Bytes
deriving DecidableEq, Repr, Inhabited

/-- The offset just after a part. -/
def Slice.stop (s : Slice) : Nat := s.offset + s.text.length

namespace Markup

/-- An attribute as it is written in a start tag. -/
structure Attribute where
  /-- The name. -/
  name : Slice
  /-- The value without its quotes; a bare attribute has none. -/
  value : Option Slice
deriving DecidableEq, Repr, Inhabited

namespace Attribute

/-- Where the value starts; a bare attribute has an empty stretch after its name instead. -/
def valueStart (a : Attribute) : Nat := a.value.elim a.name.stop Slice.offset

/-- The offset just after the value. -/
def valueStop (a : Attribute) : Nat := a.value.elim a.name.stop Slice.stop

/-- A place inside the value or at one of its two ends. -/
def valueHolds (a : Attribute) (offset : Nat) : Bool :=
  a.value.any fun v => v.offset ≤ offset && offset ≤ v.stop

end Attribute

/-- What a token says. -/
inductive Content where
  /-- A text between tags. -/
  | text (data : Bytes)
  /-- A start tag; names are as the author wrote them. -/
  | startTag (name : Slice) (attributes : List Attribute) (selfClosing : Bool)
  /-- An end tag. -/
  | endTag (name : Slice)
  /-- A comment or a declaration, without its marks. -/
  | comment (data : Bytes)
deriving DecidableEq, Repr, Inhabited

/-- A stretch of markup with one meaning. -/
structure Token where
  /-- The number of bytes before the token. -/
  offset : Nat
  /-- The number of bytes of the token. -/
  length : Nat
  /-- What the token says. -/
  content : Content
deriving DecidableEq, Repr, Inhabited

/-- The elements that never have content, so that their start tag is all there is of them. -/
def voidElements : List Bytes :=
  [utf8 "area", utf8 "base", utf8 "br", utf8 "col", utf8 "embed", utf8 "hr", utf8 "img",
    utf8 "input", utf8 "link", utf8 "meta", utf8 "param", utf8 "source", utf8 "track", utf8 "wbr"]

/-- An element of this name never has content; the case of the name does not matter. -/
def isVoid (name : Bytes) : Bool := voidElements.any (Bytes.equalsIgnoringCase name)

end Markup

end MarkupTemplate
