import MarkupTemplate.Text.Location

/-!
# Diagnostics

A diagnostic tells the author of a template about the template. Each constructor below is one thing
that can be wrong with a template, and fixes its code and its wording.

## Main definitions

* `Diagnostic`: a code, a message, and the stretch of the template that it is about
* `Diagnostic.unterminated`, `Diagnostic.mismatchedClosingTag`, `Diagnostic.codeBlockInValue`,
  `Diagnostic.unexpectedClosingTag`: what is reported
-/

namespace MarkupTemplate

/-- A message to the author of a template. -/
structure Diagnostic where
  /-- The code under which the message is documented. -/
  code : Bytes
  /-- The wording. -/
  message : Bytes
  /-- The stretch of the template that the message is about, where one is known. -/
  span : Option Span := none
  /-- A warning leaves the template acceptable. -/
  isWarning : Bool := false
deriving DecidableEq, Repr, Inhabited

namespace Diagnostic

/-- A construct of the template named by `construct` starts with `@` and never ends. The template
is named where its name is known. -/
def unterminated (construct documentName : Bytes) (span : Span) : Diagnostic where
  code := utf8 "STENCIL-E0001"
  message :=
    utf8 "Unterminated " ++ construct ++ utf8 " starting with '@'" ++
      (if documentName.isEmpty then [] else utf8 " in '" ++ documentName ++ utf8 "'") ++ utf8 "."
  span := some span

/-- An element was closed by a tag of another name. -/
def mismatchedClosingTag (found expected : Bytes) (span : Option Span) : Diagnostic where
  code := utf8 "STENCIL-E2001"
  message :=
    utf8 "Mismatched closing tag: found '</" ++ found ++ utf8 ">' but expected '</" ++ expected ++
      utf8 ">'."
  span := span

/-- A value is made of a code block, which has none. -/
def codeBlockInValue (code : Bytes) (span : Option Span) : Diagnostic where
  code := utf8 "STENCIL-E2002"
  message :=
    utf8 "Code blocks are not supported in attribute values: '" ++ code ++
      utf8 "'. Use an expression instead."
  span := span

/-- A closing tag stands where no element is open. -/
def unexpectedClosingTag (name : Bytes) (span : Option Span) : Diagnostic where
  code := utf8 "STENCIL-E2003"
  message := utf8 "Unexpected closing tag '</" ++ name ++ utf8 ">' with no open element."
  span := span

end Diagnostic

end MarkupTemplate
