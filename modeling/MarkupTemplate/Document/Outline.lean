import MarkupTemplate.Document.Forest

/-!
# Outlines

The outline of a document has a line for every node and for every diagnostic, indented by its depth.

## Main definitions

* `Outline.escape`: how a text is written inside a line
* `Label.headline`: what the outline says of a node
* `Forest.outline`, `Document.outline`: the lines of a forest, and the outline of a document
-/

namespace MarkupTemplate

namespace Outline

/-- A byte inside a line: line feeds, carriage returns, tabs and double quotes are escaped. -/
def escapeByte (b : UInt8) : Bytes :=
  if b = Byte.lineFeed then utf8 "\\n"
  else if b = Byte.carriageReturn then utf8 "\\r"
  else if b = Byte.tab then utf8 "\\t"
  else if b = Byte.doubleQuote then utf8 "\\\""
  else [b]

/-- A text inside a line. -/
def escape (s : Bytes) : Bytes := s.flatMap escapeByte

/-- Two spaces for every level. -/
def indent (level : Nat) (line : Bytes) : Bytes :=
  List.replicate (2 * level) Byte.space ++ line

/-- What the outline says of a diagnostic. -/
def diagnosticLine (diagnostic : Diagnostic) : Bytes :=
  utf8 "! " ++ diagnostic.code ++ utf8 " " ++ diagnostic.message

end Outline

open Outline

/-- The word for a form of embedded code. -/
def Form.word : Form → Bytes
  | .expression => utf8 "expression"
  | .codeBlock => utf8 "code"
  | .directive => utf8 "directive"

/-- What the outline says of a node. -/
def Label.headline (l : Label) : Bytes :=
  match l.kind with
  | .markup => utf8 "markup \"" ++ escape l.text ++ utf8 "\""
  | .element => utf8 "element <" ++ l.name ++ utf8 ">"
  | .attribute | .constructAttribute => l.kind.title ++ utf8 " " ++ l.name
  | .construct =>
    utf8 "construct <" ++ l.name ++ utf8 ">" ++
      (if l.descriptors.isEmpty then []
        else utf8 " [" ++ (utf8 ", ").intercalate l.descriptors ++ utf8 "]")
  | .embedded form code => form.word ++ utf8 " \x7b" ++ escape code ++ utf8 "\x7d"
  | kind => kind.title

/-- The lines for one node. -/
def Label.outline (level : Nat) (l : Label) : List Bytes :=
  indent level l.headline :: l.diagnostics.map fun g => indent (level + 1) (diagnosticLine g)

/-- The lines for the nodes of a forest in document order, one level deeper with each generation. -/
def Forest.outline (level : Nat) : Forest → List Bytes
  | .nil => []
  | .cons _ label children siblings =>
    label.outline level ++ (children.outline (level + 1) ++ siblings.outline level)

/-- The outline of a document. Every line ends with a line feed. -/
def Document.outline (d : Document) : Bytes :=
  (d.tree.outline 0).flatMap (· ++ [Byte.lineFeed])

end MarkupTemplate
