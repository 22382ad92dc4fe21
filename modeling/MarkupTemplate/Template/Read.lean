import MarkupTemplate.Document.Build
import MarkupTemplate.Template.Segment

/-!
# Reading templates

## Main definitions

* `Reading`: the document of a template and what is wrong with the template
* `readTemplate`: reads a template; the segments become the children of the root
-/

namespace MarkupTemplate

/-- What is read from a template. -/
structure Reading where
  /-- The document, with the markup as text. -/
  document : Document
  /-- What is wrong with the template. -/
  diagnostics : List Diagnostic
deriving DecidableEq, Repr, Inhabited

/-- The node for a segment of a template. -/
def Segment.node (source : Bytes) (s : Segment) : Node :=
  let span := some (Span.between source s.start s.stop)
  match s.content with
  | .markup text => { kind := .markup, fragments := [text], span := span }
  | .embedded form code => { kind := .embedded form code, span := span }

/-- Reads a template of the given name, which may be empty. A construct without its end is
diagnosed, from its `@` to the end of the template. -/
def readTemplate (source name : Bytes) : Reading :=
  let pieces := pieces none source
  let document := (segments source.length 0 pieces).foldl
    (fun d s => (Document.under Document.root (d.addNode (s.node source))).1) .empty
  let diagnostics := (unterminated? 0 pieces).toList.map fun (construct, start) =>
    .unterminated construct.title name (.between source start source.length)
  ⟨document, diagnostics⟩

end MarkupTemplate
