import MarkupTemplate.Document.Forest
import MarkupTemplate.Render.Emission

/-!
# Render programs

A structured document is written as a program that builds it: calls that open and close elements and
components, add attributes and add content. Expressions are written where their value is needed, and
code blocks as statements between the calls.

## Main definitions

* `Renderer`: a render program on its way
* `Render`: steps of writing, which stop at the first fault
* `Render.forest`: the calls for the content of a node
* `Renderer.write`: the program for a document
-/

namespace MarkupTemplate

/-- A render program on its way. -/
structure Renderer where
  /-- What is written. -/
  emission : Emission := {}
  /-- The open scopes. -/
  scopes : Scopes
  /-- What is wrong with the template. -/
  diagnostics : List Diagnostic := []
deriving DecidableEq, Repr, Inhabited

/-- A renderer that has written nothing yet. -/
def Renderer.start (target : Bytes) : Renderer := { scopes := { base := target } }

/-- What is written so far. -/
def Renderer.output (r : Renderer) : Bytes := r.emission.listing.text

/-- The faults so far. -/
def Renderer.faults (r : Renderer) : List Fault := r.emission.faults

/-- Steps of writing. After a fault nothing more is written; what was written stays. -/
abbrev Render := OptionT (StateM Renderer)

/-- White space at the ends of statements. -/
def isCodeMargin (b : UInt8) : Bool :=
  b == Byte.space || b == Byte.tab || b == Byte.carriageReturn || b == Byte.lineFeed

namespace Render

/-! ## Single steps -/

/-- Writes on the listing. -/
def put (f : Listing → Listing) : Render Unit :=
  modify fun r => { r with emission := { r.emission with listing := f r.emission.listing } }

/-- Writes a text. -/
def text (s : Bytes) : Render Unit := put (·.write s)

/-- Writes a text and ends the line. -/
def line (s : Bytes) : Render Unit := put (·.writeLine s)

/-- Writes the literal of a text. -/
def literal (s : Bytes) : Render Unit := put (·.writeLiteral s)

/-- Starts a call on the current target. -/
def call (method : Bytes) : Render Unit := do
  let r ← get
  text r.scopes.target
  text (utf8 ".")
  text method

/-- Notes a fault and stops. -/
def fail {α : Type} (fault : Fault) : Render α := do
  modify fun r => { r with emission := { r.emission with faults := r.emission.faults ++ [fault] } }
  failure

/-- Notes something that is wrong with the template, and goes on. -/
def diagnose (diagnostic : Diagnostic) : Render Unit :=
  modify fun r => { r with diagnostics := r.diagnostics ++ [diagnostic] }

/-- Asks something of the scopes, and stops unless it is granted. -/
def request (what : ScopeRequest) : Render Unit := do
  let r ← get
  let (granted, scopes, emission) := r.scopes.step what r.emission
  set { r with scopes := scopes, emission := emission }
  if granted then pure () else failure

/-! ## Calls -/

/-- A call with a literal as its only argument. -/
def callLiteral (method argument : Bytes) : Render Unit := do
  call method
  literal argument
  line (utf8 ");")

/-- A call without arguments. -/
def callPlain (method : Bytes) : Render Unit := do
  call method
  line []

/-- Text as content. -/
def markup (s : Bytes) : Render Unit := do
  request .countChild
  callLiteral (utf8 "addContent(") s

/-- Embedded code as content: an expression adds its value, a code block stands as it is, and a
directive is left out. -/
def embedded (form : Form) (code : Bytes) : Render Unit :=
  match form with
  | .directive => pure ()
  | .codeBlock => do
    request .countChild
    line (code.trim isCodeMargin)
  | .expression => do
    request .countChild
    call (utf8 "addContent(")
    text code
    line (utf8 ");")

/-- The sign between two parts of a value. -/
def separator (wrote : Bool) : Render Unit :=
  if wrote then text (utf8 " + ") else pure ()

/-- The parts of a value after those already written: literals and expressions, joined. A code block
has no value and is left out with a diagnostic. A value without parts is a flag that is set. -/
def value (owner : Label) (wrote : Bool) : List Label → Render Unit
  | [] => if wrote then pure () else text (utf8 "true")
  | part :: parts =>
    match part.kind with
    | .embedded .codeBlock code => do
      diagnose (.codeBlockInValue (code.trim isCodeMargin) (part.span.or owner.span))
      value owner wrote parts
    | .embedded _ code => do
      separator wrote
      text (utf8 "(")
      text code
      text (utf8 ")")
      value owner true parts
    | .markup => do
      separator wrote
      literal part.text
      value owner true parts
    | kind => do
      separator wrote
      fail (.notValuePart owner.name kind)

/-- An attribute with the parts of its value. -/
def attributeCall (owner : Label) (parts : List Label) : Render Unit := do
  call (utf8 "addAttribute(")
  literal owner.name
  text (utf8 ", ")
  value owner false parts
  line (utf8 ");")

end Render

/-! ## Content -/

/-- The labels of the roots of a forest. -/
def Forest.labels : Forest → List Label
  | .nil => []
  | .cons _ label _ siblings => label :: siblings.labels

/-- The labels of the children of the roots of a forest. -/
def Forest.childLabels : Forest → List Label
  | .nil => []
  | .cons _ _ children siblings => children.labels ++ siblings.childLabels

namespace Render

/-- The attributes among the children of a component. -/
def parameters : Forest → Render Unit
  | .nil => pure ()
  | .cons _ label children siblings => do
    if label.kind = .constructAttribute then attributeCall label children.labels
    parameters siblings

mutual

/-- The calls for the nodes of a forest in order. Attributes are content only inside an element. -/
def forest (inElement : Bool) : Forest → Render Unit
  | .nil => pure ()
  | .cons id label children siblings => do
    match label.kind with
    | .markup => markup label.text
    | .embedded form code => embedded form code
    | .element =>
      request .countChild
      callLiteral (utf8 "openElement(") label.name
      request (.openScope label.name false)
      forest true children
      request .closeScope
      callPlain (utf8 "closeElement();")
    | .construct =>
      request .countChild
      callLiteral (utf8 "openComponent(") label.name
      request (.openScope label.name true)
      -- The closure for the content is itself an attribute, the last one.
      parameters children
      body id label.name children
      request .closeScope
      callPlain (utf8 "closeComponent();")
    | .attribute =>
      if inElement then attributeCall label children.childLabels
      else fail (.notContent id label.kind)
    | kind => fail (.notContent id kind)
    forest inElement siblings

/-- The calls for the content of a component: that of the first body among its children. -/
def body (component : NodeId) (name : Bytes) : Forest → Render Unit
  | .nil => fail (.componentWithoutBody component name)
  | .cons _ label children siblings =>
    if label.kind = .constructBody then forest false children
    else body component name siblings

end

end Render

/-- Writes the program for a document, and whether all of it could be written. A renderer ends with
its first document; what the scopes refused counts again with every further one. -/
def Renderer.write (d : Document) (r : Renderer) : Bool × Renderer :=
  let steps : Render Unit := do
    Render.forest false (d.forestBelow Document.root)
    Render.request .finish
  let (written, r) := steps.run r
  let faults := r.faults ++ r.scopes.faults
  (written.isSome && faults.isEmpty, { r with emission := { r.emission with faults := faults } })

end MarkupTemplate
