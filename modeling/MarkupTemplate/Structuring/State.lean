import MarkupTemplate.Document.Build
import MarkupTemplate.Fault
import MarkupTemplate.Markup.Scan
import MarkupTemplate.Structuring.Hole

/-!
# The children of a container, one after another

The children of a container are taken in order: markup opens and closes elements, and every other
child goes under the innermost open element. While a tag is cut off, its beginning is carried on to
the next piece of markup, and the children in between wait as holes.

## Main definitions

* `Structuring`: the document so far, the open elements, the waiting holes and the markup carried on
* `Structuring.take`: the next child
* `Structuring.faults`: what is left open after the last child
-/

namespace MarkupTemplate

/-- How far the children of a container are taken. -/
structure Structuring where
  /-- The document so far. -/
  document : Document
  /-- The open elements, the innermost first. -/
  openElements : List NodeId := []
  /-- The holes that wait for the rest of a tag, in order. -/
  waiting : List Hole := []
  /-- The beginning of a tag or comment of which the rest has not arrived, empty if none is cut
  off. -/
  carried : Bytes := []
deriving DecidableEq, Repr, Inhabited

namespace Structuring

open Markup

variable (container : NodeId)

/-- The innermost open element, or the container if no element is open. -/
def top (s : Structuring) : NodeId := s.openElements.headD container

/-- A node becomes the last child of the innermost open element. -/
def append (node : NodeId) (s : Structuring) : Structuring :=
  { s with document := s.document.appendChild (s.top container) node }

/-- The waiting holes in `p` become children of the innermost open element, in order. -/
def release (p : Hole → Bool) (s : Structuring) : Structuring :=
  let released := (s.waiting.filter p).foldl (fun s hole => s.append container hole.node) s
  { released with waiting := s.waiting.filter fun hole => !p hole }

/-- One part of a value becomes the last child of a node. -/
def addPart (value : NodeId) (d : Document) : ValuePart → Document
  | .literal text => (Document.under value (d.addMarkup text)).1
  | .hole node => d.appendChild value node

/-- An element gets an attribute, with the waiting holes that stand in its value. -/
def attach (element : NodeId) (s : Structuring) (a : Attribute) : Structuring :=
  let (d, node) := s.document.addAttribute a.name.text
  let d := (a.parts (s.waiting.filter (·.isIn a))).foldl (addPart (node + 1)) d
  { s with
    document := d.appendChild element node
    waiting := s.waiting.filter fun hole => !hole.isIn a }

/-- A start tag opens an element. Holes between the attributes go before the element, those in
values into the values, and attribute nodes after the attributes of the tag. -/
def openElement (span : Option Span) (name : Bytes) (attributes : List Attribute)
    (s : Structuring) : Structuring :=
  -- These stand in the tag, but in no value of it.
  let s := s.release container fun hole => hole.isPositional && !attributes.any hole.isIn
  let (d, element) := Document.under (s.top container)
    (s.document.addNode { kind := .element, name := name, span := span })
  let s := { s with document := d, openElements := element :: s.openElements }
  -- What still waits after the attributes are attributes itself.
  (attributes.foldl (attach element) s).release container fun _ => true

/-- A closing tag closes the innermost open element, whatever its name. Another name, or no open
element, is diagnosed on the element or on the container. -/
def closeElement (name : Bytes) (s : Structuring) : Structuring :=
  match s.openElements with
  | [] =>
    let span := (s.document.label container).span
    { s with document := s.document.addDiagnostic container (.unexpectedClosingTag name span) }
  | element :: rest =>
    let label := s.document.label element
    let document :=
      if Bytes.equalsIgnoringCase label.name name then s.document
      else s.document.addDiagnostic element (.mismatchedClosingTag name label.name label.span)
    { s with document := document, openElements := rest }

/-- A text goes under the innermost open element. White space between the elements of the container
has no content and is dropped. -/
def addText (data : Bytes) (s : Structuring) : Structuring :=
  if s.openElements.isEmpty && data.isWhite then s
  else
    let (d, node) := s.document.addMarkup data
    ({ s with document := d } : Structuring).append container node

/-- What a token does. Only a start tag has values for the waiting holes; any other token puts the
holes that stand in the text before what it adds. -/
def apply (span : Option Span) (s : Structuring) (t : Token) : Structuring :=
  match t.content with
  | .startTag name attributes selfClosing =>
    let s := s.openElement container span name.text attributes
    if selfClosing || isVoid name.text then s.closeElement container name.text else s
  | .endTag name => (s.release container Hole.isPositional).closeElement container name.text
  | .text data => (s.release container Hole.isPositional).addText container data
  | .comment _ => s.release container Hole.isPositional

/-- The place of a hole once the given number of bytes before it are done with. -/
def rebase (stop : Nat) (hole : Hole) : Hole :=
  { hole with offset := hole.offset.map (· - stop) }

/-- A piece of markup goes on what was carried, and what it cuts off is carried on. -/
def takeMarkup (markup : NodeId) (s : Structuring) : Structuring :=
  let label := s.document.label markup
  -- The beginning that was carried on is read once more, now with what follows it.
  let scan := scan (s.carried ++ label.text)
  let s := scan.tokens.foldl (apply container label.span) s
  if scan.remainder.isEmpty then { s with carried := [] }
  else { s with carried := scan.remainder, waiting := s.waiting.map (rebase scan.stop.offset) }

/-- The next child of the container. Attribute nodes wait for a start tag; other nodes wait only
while a tag is cut off. -/
def take (s : Structuring) (child : NodeId) : Structuring :=
  match s.document.kind child with
  | .markup => s.takeMarkup container child
  | .attribute => { s with waiting := s.waiting ++ [⟨child, none⟩] }
  | _ =>
    if s.carried.isEmpty then s.append container child
    else { s with waiting := s.waiting ++ [⟨child, some s.carried.length⟩] }

/-- What is left open after the last child: elements, a tag or comment, and holes. -/
def faults (s : Structuring) : List Fault :=
  let mention := s.document.mention container
  let unclosed :=
    match s.openElements with
    | [] => []
    | innermost :: _ =>
      [.unclosedElements mention s.openElements.length (s.document.label innermost).name]
  let unterminated := if s.carried.isEmpty then [] else [.unterminatedMarkup mention s.carried]
  let unattached := if s.waiting.isEmpty then [] else [.unattachedHoles mention s.waiting.length]
  unclosed ++ unterminated ++ unattached

end Structuring

end MarkupTemplate
