import MarkupTemplate.Document.Node
import MarkupTemplate.Template.Bracket

/-!
# Pieces of a template

A template is markup with embedded code. The sign `@` leaves the markup: for itself when it is
doubled, for a comment, for code in brackets, or for an implicit expression. Where nothing of the
kind follows, and after an identifier, it stands for itself as well.

## Main definitions

* `Construct`: what may be left unterminated
* `Piece`: a stretch of a template with one meaning
* `implicitLength`: the extent of an implicit expression
* `pieces`: all pieces of a template in order
-/

namespace MarkupTemplate

/-- What `@` starts and a template may leave without its end. -/
inductive Construct where
  /-- A comment of the template. -/
  | comment
  /-- Code in brackets. -/
  | code (form : Form)
deriving DecidableEq, Repr, Inhabited

/-- The name of a construct, as messages use it. -/
def Construct.title : Construct → Bytes
  | .comment => utf8 "comment"
  | .code .codeBlock => utf8 "code block"
  | .code _ => utf8 "expression"

/-- What a stretch of a template means. -/
inductive PieceContent where
  /-- Markup. -/
  | text (data : Bytes)
  /-- Nothing. -/
  | comment
  /-- Embedded code. -/
  | embedded (form : Form) (code : Bytes)
  /-- The rest of the template from a construct without its end, and what of it is markup. -/
  | unterminated (construct : Construct) (data : Bytes)
deriving DecidableEq, Repr, Inhabited

/-- A stretch of a template with one meaning. -/
structure Piece where
  /-- The number of bytes of the stretch. -/
  length : Nat
  /-- What the stretch means. -/
  content : PieceContent
deriving DecidableEq, Repr, Inhabited

/-- How far an expression goes on after an identifier or a bracket: a full stop before an identifier
selects a member, a parenthesis or a square bracket that is closed applies or indexes. -/
def selectorsLength : Bytes → Nat
  | [] => 0
  | b :: rest =>
    if b = Byte.fullStop ∧ rest.head?.any Byte.isIdentifierStart then
      let n := (rest.takeWhile Byte.isIdentifierPart).length
      n + 1 + selectorsLength (rest.drop n)
    else
      let bracket? : Option Bracket :=
        if b = Byte.openParen then some .paren
        else if b = Byte.openBracket then some .square
        else none
      match bracket?.bind fun bracket => bracket.closing? (b :: rest) with
      | none => 0
      | some n => n + selectorsLength (rest.drop (n - 1))
termination_by s => s.length
decreasing_by all_goals simp only [List.length_drop, List.length_cons]; omega

/-- The extent of the implicit expression at the head of a text: an identifier and its selectors. -/
def implicitLength (s : Bytes) : Nat :=
  let n := (s.takeWhile Byte.isIdentifierPart).length
  n + selectorsLength (s.drop n)

/-- The code in the brackets at the head of a text, which follow `@`; or the rest of the template if
they are not closed. -/
def bracketed (form : Form) (bracket : Bracket) (s : Bytes) : Piece :=
  match bracket.closing? s with
  | some n => ⟨n + 1, .embedded form ((s.take (n - 1)).drop 1)⟩
  | none => ⟨s.length + 1, .unterminated (.code form) (Byte.atSign :: s)⟩

/-- What `@` stands for before the given text, and after the given byte. -/
def transition (previous : Option UInt8) (s : Bytes) : Piece :=
  match s with
  | [] => ⟨1, .text [Byte.atSign]⟩
  | next :: rest =>
    if next = Byte.atSign then ⟨2, .text [Byte.atSign]⟩
    else if next = Byte.asterisk then
      match Bytes.splitAtFirst? (utf8 "*@") rest with
      | some (inner, _) => ⟨inner.length + 4, .comment⟩
      | none => ⟨rest.length + 2, .unterminated .comment []⟩
    else if next = Byte.openBrace then bracketed .codeBlock .brace s
    else if next = Byte.openParen then bracketed .expression .paren s
    else if Byte.isIdentifierStart next && !previous.any Byte.isIdentifierPart then
      let n := implicitLength s
      ⟨n + 1, .embedded .expression (s.take n)⟩
    else ⟨1, .text [Byte.atSign]⟩

/-- The first piece of a text that is not empty, given the byte before it. -/
def firstPiece (previous : Option UInt8) (b : UInt8) (rest : Bytes) : Piece :=
  if b = Byte.atSign then transition previous rest else ⟨1, .text [b]⟩

/-- All pieces of a text in order, given the byte before it. -/
def pieces (previous : Option UInt8) : Bytes → List Piece
  | [] => []
  | b :: rest =>
    let piece := firstPiece previous b rest
    -- The last byte of the piece decides whether an identifier goes before the next one.
    let read := rest.take (piece.length - 1)
    piece :: pieces (some (read.getLastD b)) (rest.drop (piece.length - 1))
termination_by s => s.length
decreasing_by simp only [List.length_drop, List.length_cons]; omega

end MarkupTemplate
