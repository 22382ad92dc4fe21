import MarkupTemplate.Document.Lowered
import MarkupTemplate.Document.WellFormed
import MarkupTemplate.Structuring.Document
import MarkupTemplate.Template.Read

/-!
# Compiling templates

A template is read, its markup is structured, its orphans are lowered, and the document that comes
out is verified. What is wrong with the template is told in diagnostics, and the document can still
be used; after a fault it cannot.

## Main definitions

* `Compilation`: the outcome for one template
* `Compilation.usable`, `Compilation.hasErrors`: whether there is a document, and whether the
  template is in order
* `compileTemplate`: the outcome for a template, given the descriptors of components
-/

namespace MarkupTemplate

/-- The outcome of compiling a template. -/
structure Compilation where
  /-- The document. -/
  document : Document
  /-- What is wrong with the template. -/
  diagnostics : List Diagnostic
  /-- Why the document has to be given up. -/
  faults : List Fault
deriving DecidableEq, Repr, Inhabited

namespace Compilation

/-- The document can be used. -/
def usable (c : Compilation) : Bool := c.faults.isEmpty

/-- The template is not in order: there is no usable document, or a diagnostic that is no warning.
-/
def hasErrors (c : Compilation) : Bool := !c.usable || c.diagnostics.any fun g => !g.isWarning

end Compilation

/-- The test for well-formedness as a rewrite that changes nothing. -/
def Document.verified (name : Bytes) (d : Document) : Rewrite :=
  ⟨d, if d.verify then [] else [.malformedDocument name]⟩

/-- Compiles a template of the given name, which may be empty. The diagnostics of the nodes follow
those of the template, once the document is known to be usable. -/
def compileTemplate (source name : Bytes) (components : Components) (verify : Bool) : Compilation :=
  let reading := readTemplate source name
  let lowered := reading.document.structured.andThen fun d => d.lowered components
  let final := if verify then lowered.andThen fun d => d.verified name else lowered
  { document := final.document
    diagnostics := reading.diagnostics ++ (if final.ok then final.document.diagnostics else [])
    faults := final.faults }

end MarkupTemplate
