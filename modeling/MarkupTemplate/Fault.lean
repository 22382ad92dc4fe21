import MarkupTemplate.Document.Basic
import MarkupTemplate.Text.Decimal

/-!
# Faults

A fault is not about the template but about the document made from it: some stage met a document
that it cannot work on, and the document has to be given up. Each constructor is one cause; its
code, the stage that reports it and the wording follow from it.

## Main definitions

* `Mention`: how a message names a node
* `ScopeOperation`: what can be asked of the scopes of an emission
* `Fault`: the causes
* `Fault.code`, `Fault.stage`, `Fault.detail`: what is told of a fault
-/

namespace MarkupTemplate

/-- How a message names a node: by its kind and number, and by its name if it has one. -/
structure Mention where
  /-- The number of the node. -/
  id : NodeId
  /-- The kind of the node. -/
  kind : NodeKind
  /-- The name of the node, empty if it has none. -/
  name : Bytes
deriving DecidableEq, Repr, Inhabited

/-- The mention of a node of a document. -/
def Document.mention (d : Document) (id : NodeId) : Mention := ⟨id, d.kind id, (d.label id).name⟩

/-- The wording of a mention. -/
def Mention.text (m : Mention) : Bytes :=
  m.kind.title ++ utf8 " #" ++ decimal m.id ++
    (if m.name.isEmpty then [] else utf8 " '" ++ m.name ++ utf8 "'")

/-- What can be asked of the scopes of an emission. -/
inductive ScopeOperation where
  /-- To open a scope. -/
  | openScope
  /-- To count a child of the innermost scope. -/
  | countChild
  /-- To close the innermost scope. -/
  | closeScope
  /-- To end the emission. -/
  | finish
deriving DecidableEq, Repr, Inhabited

/-- The name of an operation, as messages use it. -/
def ScopeOperation.title : ScopeOperation → Bytes
  | .openScope => utf8 "openScope"
  | .countChild => utf8 "incrementChildCount"
  | .closeScope => utf8 "closeScope"
  | .finish => utf8 "finish"

/-- Why a document has to be given up. -/
inductive Fault where
  /-- The markup of a container ended before all its elements were closed. -/
  | unclosedElements (container : Mention) (count : Nat) (innermost : Bytes)
  /-- The markup of a container ended inside a tag or comment. -/
  | unterminatedMarkup (container : Mention) (remainder : Bytes)
  /-- Children of a container waited for a start tag that never came. -/
  | unattachedHoles (container : Mention) (count : Nat)
  /-- A construct to be lowered has no body. -/
  | constructWithoutBody (construct : NodeId) (name : Bytes)
  /-- A construct to be lowered was reached more than once. -/
  | sharedConstruct (construct : NodeId)
  /-- A construct to be lowered was no longer where it had been found. -/
  | detachedConstruct (construct : NodeId) (name : Bytes) (parent : NodeId)
  /-- A scope was to be closed where none was open. -/
  | noOpenScope
  /-- An emission ended with open scopes. -/
  | unclosedScopes (count : Nat) (innermost : Bytes)
  /-- Something was asked after the end of an emission. -/
  | emissionFinished (operation : ScopeOperation)
  /-- A node stands where only content can be written. -/
  | notContent (node : NodeId) (kind : NodeKind)
  /-- A component to be written has no body. -/
  | componentWithoutBody (component : NodeId) (name : Bytes)
  /-- A node stands where only a part of a value can be written. -/
  | notValuePart (owner : Bytes) (kind : NodeKind)
  /-- A closure was to be ended that is not the innermost open one. -/
  | closureNotInnermost (closure : Nat) (target : Bytes)
  /-- A document is not well-formed. -/
  | malformedDocument (name : Bytes)
deriving DecidableEq, Repr, Inhabited

namespace Fault

/-- The code under which a fault is documented. -/
def code : Fault → Bytes
  | unclosedElements .. => utf8 "STENCIL-I5001"
  | unterminatedMarkup .. => utf8 "STENCIL-I5002"
  | unattachedHoles .. => utf8 "STENCIL-I5003"
  | constructWithoutBody .. => utf8 "STENCIL-I5101"
  | sharedConstruct .. => utf8 "STENCIL-I5102"
  | detachedConstruct .. => utf8 "STENCIL-I5102"
  | noOpenScope => utf8 "STENCIL-I5201"
  | unclosedScopes .. => utf8 "STENCIL-I5202"
  | emissionFinished .. => utf8 "STENCIL-I5203"
  | notContent .. => utf8 "STENCIL-I5301"
  | componentWithoutBody .. => utf8 "STENCIL-I5302"
  | notValuePart .. => utf8 "STENCIL-I5303"
  | closureNotInnermost .. => utf8 "STENCIL-I5304"
  | malformedDocument .. => utf8 "STENCIL-I5401"

/-- The stage that reports a fault. -/
def stage : Fault → Bytes
  | unclosedElements .. | unterminatedMarkup .. | unattachedHoles .. => utf8 "tree-structuring"
  | constructWithoutBody .. | sharedConstruct .. | detachedConstruct .. => utf8 "orphan-lowering"
  | noOpenScope | unclosedScopes .. | emissionFinished .. => utf8 "scope-stack"
  | notContent .. | componentWithoutBody .. | notValuePart .. | closureNotInnermost .. =>
    utf8 "render-writer"
  | malformedDocument .. => utf8 "verifier"

/-- What happened, in words. -/
def detail : Fault → Bytes
  | unclosedElements container count innermost =>
    container.text ++ utf8 " ended with " ++ decimal count ++
      utf8 " unclosed element(s), innermost '<" ++ innermost ++ utf8 ">'."
  | unterminatedMarkup container remainder =>
    container.text ++ utf8 " ended inside unterminated markup '" ++ remainder ++ utf8 "'."
  | unattachedHoles container count =>
    container.text ++ utf8 " holds " ++ decimal count ++
      utf8 " attribute node(s) with no start tag to attach to."
  | constructWithoutBody construct name =>
    utf8 "structured construct #" ++ decimal construct ++ utf8 " '<" ++ name ++
      utf8 ">' has no body."
  | sharedConstruct construct =>
    utf8 "structured construct #" ++ decimal construct ++
      utf8 " is reachable from more than one parent."
  | detachedConstruct construct name parent =>
    utf8 "structured construct #" ++ decimal construct ++ utf8 " '<" ++ name ++
      utf8 ">' is no longer a child of node #" ++ decimal parent ++ utf8 "."
  | noOpenScope => utf8 "closeScope called with no open scope."
  | unclosedScopes count innermost =>
    utf8 "emission finished with " ++ decimal count ++ utf8 " open scope(s), innermost '" ++
      innermost ++ utf8 "'."
  | emissionFinished operation => operation.title ++ utf8 " called after emission finished."
  | notContent node kind =>
    utf8 "node #" ++ decimal node ++ utf8 " of kind " ++ kind.title ++
      utf8 " cannot be written as content."
  | componentWithoutBody component name =>
    utf8 "component #" ++ decimal component ++ utf8 " '<" ++ name ++ utf8 ">' has no body."
  | notValuePart owner kind =>
    utf8 "attribute '" ++ owner ++ utf8 "' holds a value part of kind " ++ kind.title ++
      utf8 "."
  | closureNotInnermost closure target =>
    utf8 "child-content closure #" ++ decimal closure ++ utf8 " for '" ++ target ++
      utf8 "' is not the innermost open closure."
  | malformedDocument name => utf8 "structured tree of '" ++ name ++ utf8 "' failed verification."

end Fault

end MarkupTemplate
