import MarkupTemplate.Text.Bytes

/-!
# String literals

A text is written into a program as a string literal on one line.

## Main definitions

* `Literal.escape`: a byte inside a literal
* `Literal.encode`: the literal of a text, with its quotes
-/

namespace MarkupTemplate.Literal

/-- The digit of the given weight in the octal numeral of a byte. -/
def octalDigit (weight : UInt8) (b : UInt8) : UInt8 := Byte.zero + b / weight % 8

/-- A byte inside a literal. Backslashes, double quotes and line ends are escaped, and other control
characters are written as three octal digits, so that a digit after them is read as itself. -/
def escape (b : UInt8) : Bytes :=
  if b = Byte.backslash then utf8 "\\\\"
  else if b = Byte.doubleQuote then utf8 "\\\""
  else if b = Byte.lineFeed then utf8 "\\n"
  else if b = Byte.carriageReturn then utf8 "\\r"
  else if b = Byte.tab then utf8 "\\t"
  else if b < Byte.space then [Byte.backslash, octalDigit 64 b, octalDigit 8 b, octalDigit 1 b]
  else [b]

/-- The literal of a text. -/
def encode (text : Bytes) : Bytes :=
  Byte.doubleQuote :: (text.flatMap escape ++ [Byte.doubleQuote])

end MarkupTemplate.Literal
