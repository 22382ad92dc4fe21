import MarkupTemplate.Render.Writer

/-!
# Render programs as lists of lines

What is written for a document depends on its tree alone: the tree is gone through in document
order, and each node gives its lines. Every line knows the target that it is for and the level at
which it stands, and which of the embedded code it writes or has to leave out.

## Main definitions

* `Statement`, `Line`: a line of a render program, and what it says
* `Line.text`: the text of a line
* `Statement.writes`, `Statement.reports`: the embedded code that a line writes, and the code that
  it leaves out with a diagnostic
* `Forest.program`: the lines for a forest
* `Forest.Writable`: all nodes of a forest stand where they can be written
-/

namespace MarkupTemplate

/-- What a line of a render program says. -/
inductive Statement where
  /-- An element is opened. -/
  | openElement (name : Bytes)
  /-- An element is closed. -/
  | closeElement
  /-- A component is opened. -/
  | openComponent (name : Bytes)
  /-- A component is closed. -/
  | closeComponent
  /-- The content of a component begins. -/
  | beginContent
  /-- The content of a component ends. -/
  | endContent
  /-- An attribute is added, with the parts of its value. -/
  | addAttribute (owner : Label) (parts : List (NodeId × Label))
  /-- A text is added. -/
  | addText (text : Bytes)
  /-- The value of an expression is added, or a code block stands as it is. -/
  | embedded (id : NodeId) (form : Form) (code : Bytes)
deriving DecidableEq, Repr

/-- A line of a render program. -/
structure Line where
  /-- The level at which the line stands. -/
  level : Nat
  /-- The number of the target that the line is for. -/
  target : Nat
  /-- What the line says. -/
  statement : Statement
deriving DecidableEq, Repr

/-- A code block that is left out of a value. -/
structure Report where
  /-- The code block. -/
  node : NodeId
  /-- Its code. -/
  code : Bytes
  /-- The stretch of the template that the code block, or else the attribute, was written in. -/
  span : Option Span
deriving DecidableEq, Repr

/-- What is said of a code block that is left out. -/
def Report.diagnostic (g : Report) : Diagnostic :=
  .codeBlockInValue (g.code.trim isCodeMargin) g.span

/-- All that is reported has the code for code blocks in values. -/
theorem Report.code_diagnostic (g : Report) : g.diagnostic.code = utf8 "STENCIL-E2002" := rfl

/-! ## Embedded code -/

/-- The code in a label, if it is embedded in the given form. -/
def Label.code? (form : Form) (label : Label) : Option Bytes :=
  match label.kind with
  | .embedded form' code => if form' = form then some code else none
  | _ => none

/-- A node with its code, if that is embedded in the given form. -/
def codeOf? (form : Form) (item : NodeId × Label) : Option (NodeId × Bytes) :=
  (item.2.code? form).map (item.1, ·)

/-! ## The text of a line -/

/-- The text of a part of a value; a code block has none. -/
def Label.valueText? (part : Label) : Option Bytes :=
  match part.kind with
  | .embedded .codeBlock _ => none
  | .embedded _ code => some (utf8 "(" ++ (code ++ utf8 ")"))
  | .markup => some (Literal.encode part.text)
  | _ => none

/-- The text of a value. A value without text is a flag that is set. -/
def valueText (parts : List Label) : Bytes :=
  match parts.filterMap Label.valueText? with
  | [] => utf8 "true"
  | text :: texts => text ++ texts.flatMap (utf8 " + " ++ ·)

/-- The start of a call on a target. -/
def callText (target method : Bytes) : Bytes := target ++ (utf8 "." ++ method)

/-- The text of a call with a literal as its only argument. -/
def callLiteralText (target method argument : Bytes) : Bytes :=
  callText target method ++ (Literal.encode argument ++ utf8 ");")

namespace Statement

/-- The text of a statement for a target. The content of a component is for a target of its own, the
inner one. -/
def text (outer inner : Bytes) : Statement → Bytes
  | openElement name => callLiteralText outer (utf8 "openElement(") name
  | closeElement => callText outer (utf8 "closeElement();")
  | openComponent name => callLiteralText outer (utf8 "openComponent(") name
  | closeComponent => callText outer (utf8 "closeComponent();")
  | beginContent =>
    outer ++ (utf8 ".addAttribute(" ++ (Literal.encode (utf8 "ChildContent") ++
      (utf8 ", [&](RenderTreeBuilder& " ++ (inner ++ utf8 ") \x7b"))))
  | endContent => utf8 "\x7d);"
  | addAttribute owner parts =>
    callText outer (utf8 "addAttribute(") ++ (Literal.encode owner.name ++
      (utf8 ", " ++ (valueText (parts.map Prod.snd) ++ utf8 ");")))
  | addText text => callLiteralText outer (utf8 "addContent(") text
  | embedded _ .codeBlock code => code.trim isCodeMargin
  | embedded _ _ code => callText outer (utf8 "addContent(") ++ (code ++ utf8 ");")

/-- The embedded code of a form that a statement writes: as content, or as a part of a value, where
code blocks are left out. -/
def writes (form : Form) : Statement → List (NodeId × Bytes)
  | embedded id form' code => if form' = form then [(id, code)] else []
  | addAttribute _ parts => if form = .codeBlock then [] else parts.filterMap (codeOf? form)
  | _ => []

/-- The code blocks that a statement leaves out. -/
def reports : Statement → List Report
  | addAttribute owner parts => parts.filterMap fun part =>
    (part.2.code? .codeBlock).map fun code => ⟨part.1, code, part.2.span.or owner.span⟩
  | _ => []

end Statement

namespace Line

/-- The text of a line, with its spaces and its end. A line without bytes has no spaces either. -/
def text (base : Bytes) (l : Line) : Bytes :=
  let s := l.statement.text (Scopes.targetOf base l.target) (Scopes.targetOf base (l.target + 1))
  (if s.isEmpty then [] else List.replicate (4 * l.level) Byte.space ++ s) ++ [Byte.lineFeed]

/-- The embedded code of a form that a line writes. -/
def writes (form : Form) (l : Line) : List (NodeId × Bytes) := l.statement.writes form

/-- The code blocks that a line leaves out. -/
def reports (l : Line) : List Report := l.statement.reports

end Line

/-! ## The lines for a forest -/

namespace Forest

/-- The roots of a forest with their labels. -/
def items : Forest → List (NodeId × Label)
  | nil => []
  | cons id label _ siblings => (id, label) :: siblings.items

/-- The children of the roots of a forest with their labels. -/
def childItems : Forest → List (NodeId × Label)
  | nil => []
  | cons _ _ children siblings => children.items ++ siblings.childItems

theorem map_snd_items (f : Forest) : f.items.map Prod.snd = f.labels := by
  induction f with
  | nil => rfl
  | cons id label children siblings _ ih => rw [items, List.map_cons, ih, labels]

theorem map_snd_childItems (f : Forest) : f.childItems.map Prod.snd = f.childLabels := by
  induction f with
  | nil => rfl
  | cons id label children siblings _ ih =>
    rw [childItems, List.map_append, ih, map_snd_items, childLabels]

/-- There is nothing but directives at the roots of the forest. -/
def isSilent : Forest → Bool
  | nil => true
  | cons _ label _ siblings => (label.kind matches .embedded .directive _) && siblings.isSilent

/-- The lines for the attributes of a component. -/
def parameterLines (target level : Nat) : Forest → List Line
  | nil => []
  | cons _ label children siblings =>
    (if label.kind = .constructAttribute then [⟨level, target, .addAttribute label children.items⟩]
      else []) ++ siblings.parameterLines target level

mutual

/-- The lines for the nodes of a forest in order, for the target of the given number. -/
def program (target level : Nat) : Forest → List Line
  | nil => []
  | cons id label children siblings =>
    (match label.kind with
      | .markup => [⟨level, target, .addText label.text⟩]
      | .embedded .directive _ => []
      | .embedded form code => [⟨level, target, .embedded id form code⟩]
      | .element =>
        ⟨level, target, .openElement label.name⟩ ::
          (children.program target level ++ [⟨level, target, .closeElement⟩])
      | .construct =>
        ⟨level, target, .openComponent label.name⟩ ::
          (children.parameterLines target level ++ (children.contentLines target level ++
            [⟨level, target, .closeComponent⟩]))
      | .attribute => [⟨level, target, .addAttribute label children.childItems⟩]
      | _ => []) ++ siblings.program target level

/-- The lines for the content of a component: that of the first body among its children. It is for
the next target and stands one level deeper. -/
def contentLines (target level : Nat) : Forest → List Line
  | nil => []
  | cons _ label children siblings =>
    if label.kind = .constructBody then
      if children.isSilent then []
      else
        ⟨level, target, .beginContent⟩ ::
          (children.program (target + 1) (level + 1) ++ [⟨level, target, .endContent⟩])
    else siblings.contentLines target level

end

end Forest

theorem Forest.program_cons (target level : Nat) (id : NodeId) (label : Label)
    (children siblings : Forest) :
    (cons id label children siblings).program target level =
      (cons id label children nil).program target level ++ siblings.program target level := by
  simp [program]

/-! ## Forests that can be written -/

/-- The node can be a part of a value. -/
def Label.isValuePart (part : Label) : Bool := part.kind matches .markup | .embedded ..

namespace Forest

/-- The values of the attributes of a component can be written. -/
def WritableParameters : Forest → Prop
  | nil => True
  | cons _ label children siblings =>
    (label.kind = .constructAttribute → ∀ part ∈ children.labels, part.isValuePart) ∧
      siblings.WritableParameters

mutual

/-- Every node of the forest stands where it can be written. Attributes stand in elements only. -/
def Writable (inElement : Bool) : Forest → Prop
  | nil => True
  | cons _ label children siblings =>
    (match label.kind with
      | .markup | .embedded .. => True
      | .element => children.Writable true
      | .construct => children.WritableParameters ∧ children.WritableBody
      | .attribute => inElement ∧ ∀ part ∈ children.childLabels, part.isValuePart
      | _ => False) ∧ siblings.Writable inElement

/-- There is a body, and the content of the first one can be written. -/
def WritableBody : Forest → Prop
  | nil => False
  | cons _ label children siblings =>
    if label.kind = .constructBody then children.Writable false else siblings.WritableBody

end

end Forest

end MarkupTemplate
