import MarkupTemplate.Text.Bytes

/-!
# Places in a text

A place is an offset together with the line and the column that a reader of the text would name.
Lines and columns count from one, and a column counts the bytes of its line. The line of an offset
is looked up in the table of the offsets at which the lines start.

## Main definitions

* `Location`, `Span`: a place, and the stretch between two places
* `lineStarts`: the offsets at which the lines of a text start
* `upperBound`: the binary search in such a table
* `Location.ofOffset text offset`: the place at an offset of a text
* `Span.between text start stop`: the stretch between two offsets of a text
-/

namespace MarkupTemplate

/-- A place in a text. Its numbers have 32 bits. -/
structure Location where
  /-- The number of bytes before the place. -/
  offset : Nat := 0
  /-- The line of the place, counted from one. -/
  line : Nat := 1
  /-- The column of the place in its line, counted from one. -/
  column : Nat := 1
deriving DecidableEq, Repr, Inhabited

/-- The stretch of a text from one place to another. -/
structure Span where
  /-- Where the stretch starts. -/
  start : Location := {}
  /-- The place just after the stretch. -/
  stop : Location := {}
deriving DecidableEq, Repr, Inhabited

/-- The offsets at which the lines of a text start: the first line at the start of the text, every
other one just behind a line feed. -/
def lineStarts (text : Bytes) : Array Nat :=
  (0 :: (text.zipIdx.filter fun (b, _) => b == Byte.lineFeed).map fun (_, i) => i + 1).toArray

/-- The position of the first of the numbers that is greater than the given bound. The numbers are
in order, those before the position `first` are known to be no greater, and those from the position
`first + count` on are known to be greater. -/
def upperBound (numbers : Array Nat) (bound first count : Nat) : Nat :=
  if count = 0 then first
  else
    let half := count / 2
    if bound < numbers.getD (first + half) 0 then upperBound numbers bound first half
    else upperBound numbers bound (first + half + 1) (count - half - 1)
termination_by count

/-- What is left of a number in 32 bits. -/
def narrow (n : Nat) : Nat := (UInt32.ofNat n).toNat

/-- The place at an offset of a text with the given line starts: the line is the last one that
starts at the offset or before it. -/
def Location.inLines (starts : Array Nat) (offset : Nat) : Location :=
  let line := upperBound starts offset 0 starts.size - 1
  { offset := narrow offset
    line := narrow (narrow line + 1)
    column := narrow (narrow (offset - starts.getD line 0) + 1) }

/-- The place at an offset. -/
def Location.ofOffset (text : Bytes) (offset : Nat) : Location := .inLines (lineStarts text) offset

/-- The stretch between two offsets of a text. -/
def Span.between (text : Bytes) (start stop : Nat) : Span :=
  ⟨.ofOffset text start, .ofOffset text stop⟩

end MarkupTemplate
