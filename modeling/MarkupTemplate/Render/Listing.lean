import MarkupTemplate.Render.Literal

/-!
# Listings

A listing is a program text that is written from its start to its end. Every line starts with
spaces according to the level at which its first byte is written; a line without bytes has no
spaces either.

## Main definitions

* `Listing`: what is written so far, and how the next line is to start
* `Listing.write`, `Listing.writeLine`, `Listing.writeLiteral`: further text
* `Listing.indent`, `Listing.dedent`: the level of the lines to come

## Main results

* `Listing.text_write`, `Listing.text_writeLine`, `Listing.text_writeLiteral`: what is added to the
  text
-/

namespace MarkupTemplate

/-- A program text on its way. -/
structure Listing where
  /-- The bytes written so far, the last one first. -/
  reversed : Bytes := []
  /-- The number of spaces of a level. -/
  indentSize : Nat := 4
  /-- The level of the lines to come. -/
  level : Nat := 0
  /-- Nothing is written on the current line. -/
  atLineStart : Bool := true
deriving DecidableEq, Repr, Inhabited

namespace Listing

variable (l : Listing)

/-- What is written so far. -/
def text : Bytes := l.reversed.reverse

/-- The spaces that the next byte needs before it. -/
def indentation : Bytes :=
  if l.atLineStart then List.replicate (l.level * l.indentSize) Byte.space else []

/-- Writes on the current line, with its indentation first if the line is new. -/
def put (s : Bytes) : Listing :=
  { l with reversed := s.reverse ++ (l.indentation ++ l.reversed), atLineStart := false }

/-- Writes a text. The empty text leaves a new line new. -/
def write (s : Bytes) : Listing := if s.isEmpty then l else l.put s

/-- Writes a text and ends the line. -/
def writeLine (s : Bytes) : Listing :=
  let l := l.write s
  { l with reversed := Byte.lineFeed :: l.reversed, atLineStart := true }

/-- Writes the literal of a text. -/
def writeLiteral (s : Bytes) : Listing := l.put (Literal.encode s)

/-- The lines to come are one level deeper. -/
def indent : Listing := { l with level := l.level + 1 }

/-- The lines to come are one level less deep, unless they are on the outermost level. -/
def dedent : Listing := { l with level := l.level - 1 }

theorem reverse_indentation : l.indentation.reverse = l.indentation := by
  unfold indentation
  split <;> simp

theorem text_put (s : Bytes) : (l.put s).text = l.text ++ (l.indentation ++ s) := by
  simp [put, text, reverse_indentation]

/-- What is written is added to the text, after the indentation of a new line. -/
theorem text_write (s : Bytes) :
    (l.write s).text = l.text ++ (if s.isEmpty then [] else l.indentation ++ s) := by
  unfold write
  split
  · simp
  · exact text_put l s

/-- A line is added to the text with its line feed. -/
theorem text_writeLine (s : Bytes) :
    (l.writeLine s).text = (l.write s).text ++ [Byte.lineFeed] := by
  simp [writeLine, text]

/-- A literal is added to the text, after the indentation of a new line. -/
theorem text_writeLiteral (s : Bytes) :
    (l.writeLiteral s).text = l.text ++ (l.indentation ++ Literal.encode s) :=
  text_put l _

@[simp] theorem text_indent : l.indent.text = l.text := rfl

@[simp] theorem text_dedent : l.dedent.text = l.text := rfl

end Listing

end MarkupTemplate
