/-!
# Bytes and their classes

A text is read byte by byte. The classes of a byte are those of ASCII: a byte of 128 or more is
neither a letter nor a digit nor a space, whatever character it is a part of.

## Main definitions

* `Byte.lineFeed`, `Byte.lessThan`, …: the bytes that have a meaning in markup or in templates
* `Byte.isLetter`, `Byte.isIdentifierStart`, `Byte.isIdentifierPart`: what names are made of
* `Byte.isBlank`: what separates the parts of a tag
* `Byte.isSpace`: what a text may hold and still be without content
* `Byte.toLower`: ASCII case folding
-/

namespace MarkupTemplate.Byte

/-! ## Bytes with a meaning -/

/-- The tab, `\t`. -/
abbrev tab : UInt8 := 9

/-- The line feed, `\n`, which ends a line. -/
abbrev lineFeed : UInt8 := 10

/-- The form feed, `\f`. -/
abbrev formFeed : UInt8 := 12

/-- The carriage return, `\r`. -/
abbrev carriageReturn : UInt8 := 13

/-- The space. -/
abbrev space : UInt8 := 32

/-- The mark `!`, which follows `<` in comments and declarations. -/
abbrev exclamation : UInt8 := 33

/-- The double quote. -/
abbrev doubleQuote : UInt8 := 34

/-- The single quote. -/
abbrev singleQuote : UInt8 := 39

/-- The opening parenthesis. -/
abbrev openParen : UInt8 := 40

/-- The closing parenthesis. -/
abbrev closeParen : UInt8 := 41

/-- The asterisk, which follows `@` in template comments. -/
abbrev asterisk : UInt8 := 42

/-- The hyphen, with which every option of the command line starts. -/
abbrev hyphen : UInt8 := 45

/-- The full stop, which selects a member in an implicit expression. -/
abbrev fullStop : UInt8 := 46

/-- The slash, which marks end tags and self-closing tags. -/
abbrev slash : UInt8 := 47

/-- The digit `0`. -/
abbrev zero : UInt8 := 48

/-- The sign `<`, which opens a tag. -/
abbrev lessThan : UInt8 := 60

/-- The sign `=`, between the name of an attribute and its value. -/
abbrev equals : UInt8 := 61

/-- The sign `>`, which ends a tag. -/
abbrev greaterThan : UInt8 := 62

/-- The sign `@`, which leaves the markup of a template. -/
abbrev atSign : UInt8 := 64

/-- The opening square bracket. -/
abbrev openBracket : UInt8 := 91

/-- The backslash, which escapes the byte after it. -/
abbrev backslash : UInt8 := 92

/-- The closing square bracket. -/
abbrev closeBracket : UInt8 := 93

/-- The low line, a part of identifiers. -/
abbrev lowLine : UInt8 := 95

/-- The opening brace. -/
abbrev openBrace : UInt8 := 123

/-- The closing brace. -/
abbrev closeBrace : UInt8 := 125

/-! ## Classes -/

/-- An upper-case ASCII letter. -/
def isUpper (b : UInt8) : Bool := 65 ≤ b && b ≤ 90

/-- A lower-case ASCII letter. -/
def isLower (b : UInt8) : Bool := 97 ≤ b && b ≤ 122

/-- An ASCII letter of either case. -/
def isLetter (b : UInt8) : Bool := isUpper b || isLower b

/-- An ASCII digit. -/
def isDigit (b : UInt8) : Bool := 48 ≤ b && b ≤ 57

/-- An identifier starts with a letter or a low line. -/
def isIdentifierStart (b : UInt8) : Bool := isLetter b || b == lowLine

/-- An identifier goes on with letters, digits and low lines. -/
def isIdentifierPart (b : UInt8) : Bool := isLetter b || isDigit b || b == lowLine

/-- The parts of a tag are separated by spaces, tabs, line feeds, carriage returns and form feeds.
-/
def isBlank (b : UInt8) : Bool :=
  b == space || b == tab || b == lineFeed || b == carriageReturn || b == formFeed

/-- White space: what is blank, and the vertical tab. -/
def isSpace (b : UInt8) : Bool := isBlank b || b == 11

/-- The same letter in lower case; every other byte stays as it is. -/
def toLower (b : UInt8) : UInt8 := if isUpper b then b + 32 else b

/-- What is blank is white space. -/
theorem isSpace_of_isBlank {b : UInt8} (h : isBlank b = true) : isSpace b = true := by
  simp [isSpace, h]

/-- An identifier start may also go on an identifier. -/
theorem isIdentifierPart_of_isIdentifierStart {b : UInt8} (h : isIdentifierStart b = true) :
    isIdentifierPart b = true := by
  simp only [isIdentifierStart, isIdentifierPart, Bool.or_eq_true] at h ⊢
  exact h.elim (fun h => .inl (.inl h)) .inr

end MarkupTemplate.Byte
