import MarkupTemplate.Document.Components
import MarkupTemplate.Document.Rewrite

/-!
# Lowered documents

An orphan is lowered to an element of the same name. Its attributes become attributes of the
element, and the content of its body becomes the content of the element, after all other children.

## Main definitions

* `Document.lowerAttribute`: the attribute of an element for the attribute of a construct
* `Document.lowerOrphan`: the element for one orphan
* `Document.lowered`: the document with all orphans lowered

The orphans are listed before the first of them is lowered. Inner ones come first, so an orphan is
lowered with its content already lowered, and its parent still has it as a child unless it has been
found twice.
-/

namespace MarkupTemplate.Document

/-- The attribute of an element for an attribute of a construct: the parts of the value go under the
node of the value. -/
def lowerAttribute (d : Document) (id : NodeId) : Document × NodeId :=
  let n := d.node id
  ((d.add { n with kind := .attribute, fragments := [], descriptors := [],
                   children := [d.size + 1] }).add
    { kind := .attributeValue, children := n.children }, d.size)

/-- What becomes of a child of an orphan under the element: attributes are lowered, bodies are left
out, and other children stay as they are. -/
def lowerChild (element : NodeId) (d : Document) (child : NodeId) : Document :=
  match d.kind child with
  | .constructBody => d
  | .constructAttribute =>
    let (d, lowered) := d.lowerAttribute child
    d.appendChild element lowered
  | _ => d.appendChild element child

/-- The element for an orphan takes its place under the parent. -/
def lowerOrphan (d : Document) (orphan : Orphan) : Rewrite :=
  let construct := d.node orphan.node
  match d.bodyOf? orphan.node with
  | none => ⟨d, [.constructWithoutBody orphan.node construct.name]⟩
  | some body =>
    match (d.children orphan.parent).idxOf? orphan.node with
    | none => ⟨d, [.detachedConstruct orphan.node construct.name orphan.parent]⟩
    | some index =>
      -- Inner orphans are lowered already, so the body has its final content.
      let content := d.children body
      let element := d.size
      let d := d.add { kind := .element, name := construct.name, span := construct.span,
                       diagnostics := construct.diagnostics }
      let d := construct.children.foldl (lowerChild element) d
      let d := content.foldl (fun d child => d.appendChild element child) d
      ⟨d.replaceChild orphan.parent index element, []⟩

/-- The first node of a list that comes a second time. -/
def firstRepeated (met : List NodeId) : List NodeId → Option NodeId
  | [] => none
  | id :: ids => if met.contains id then some id else firstRepeated (id :: met) ids

/-- The document with all orphans lowered. An orphan that is found twice cannot be: the document
stays as it is. -/
def lowered (components : Components) (d : Document) : Rewrite :=
  let orphans := d.orphans components
  match firstRepeated [] (orphans.map Orphan.node) with
  | some construct => ⟨d, [.sharedConstruct construct]⟩
  | none => d.rewriteEach lowerOrphan orphans

end MarkupTemplate.Document
