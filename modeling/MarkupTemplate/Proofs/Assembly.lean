import MarkupTemplate.Document.Forest
import MarkupTemplate.Proofs.Changes
import MarkupTemplate.Structuring.State

/-!
# Structuring without a document

Structuring works on a document that it changes step by step. What it makes can be said without the
document: it is a forest, of which the part under construction is open along one path. An assembly
is such a forest with its path, and takes the children of a container as structuring does. Numbers
are given to new nodes in order; places in the template are left out.

## Main definitions

* `Item`, `Document.items`: what a child of a container is to structuring, and all of them
* `OpenBranch`, `Assembly`: an open element with what is before it, and a forest with an open path
* `Assembly.take`, `Assembly.run`: the next child, and all children
* `Assembly.Complete`: nothing is left open

## Main results

* `Forest.created_append`, `Forest.holes_append`: the two sorts of nodes in a forest
-/

namespace MarkupTemplate

open Markup

/-- What a child of a container is to structuring. -/
inductive Item where
  /-- Markup. -/
  | markup (text : Bytes)
  /-- An attribute, which waits for a start tag. -/
  | attribute (node : NodeId)
  /-- Any other node, which goes where it stands. -/
  | hole (node : NodeId)
deriving DecidableEq, Repr, Inhabited

/-- The node that arrives with a child; markup is no node of what is made of it. -/
def Item.node? : Item → Option NodeId
  | .markup _ => none
  | .attribute node | .hole node => some node

namespace Document

/-- What a node is to structuring. -/
def item (d : Document) (id : NodeId) : Item :=
  match d.kind id with
  | .markup => .markup (d.label id).text
  | .attribute => .attribute id
  | _ => .hole id

/-- What the children of a container are to structuring. -/
def items (d : Document) (container : NodeId) : List Item := (d.children container).map d.item

variable {d : Document}

theorem node?_item_eq {id id' : NodeId} (h : id' ∈ (d.item id).node?) : id' = id := by
  unfold item at h
  split at h <;> simp_all [Item.node?]

end Document

namespace Structuring

@[simp] theorem node_comp_rebase (stop : Nat) : Hole.node ∘ rebase stop = Hole.node := rfl

@[simp] theorem isPositional_comp_rebase (stop : Nat) :
    Hole.isPositional ∘ rebase stop = Hole.isPositional := by
  funext hole
  simp [Hole.isPositional, rebase]

end Structuring

namespace Forest

/-- Nodes of which the children are not looked at. -/
def leaves : List NodeId → Forest
  | [] => .nil
  | id :: ids => .cons id default .nil (leaves ids)

/-- The nodes from the number `n` on, which were made after the others. -/
def created (n : Nat) (f : Forest) : List NodeId := f.preorder.filter fun id => n ≤ id

/-- The nodes below the number `n`, which were there before. -/
def holes (n : Nat) (f : Forest) : List NodeId := f.preorder.filter fun id => id < n

@[simp] theorem append_nil (f : Forest) : f ++ nil = f := by
  induction f with
  | nil => rfl
  | cons id label children siblings _ ih => rw [cons_append, ih]

@[simp] theorem append_assoc (f g h : Forest) : f ++ g ++ h = f ++ (g ++ h) := by
  induction f with
  | nil => rfl
  | cons id label children siblings _ ih => simp only [cons_append, ih]

@[simp] theorem roots_append (f g : Forest) : (f ++ g).roots = f.roots ++ g.roots := by
  induction f with
  | nil => rfl
  | cons id label children siblings _ ih => simp [roots, ih]

@[simp] theorem roots_leaves (ids : List NodeId) : (leaves ids).roots = ids := by
  induction ids with
  | nil => rfl
  | cons id ids ih => rw [leaves, roots, ih]

theorem mem_preorder_of_mem_roots {f : Forest} {id : NodeId} (h : id ∈ f.roots) :
    id ∈ f.preorder := by
  induction f with
  | nil => exact absurd h List.not_mem_nil
  | cons id' label children siblings _ ih =>
    simp only [roots, preorder, List.mem_cons, List.mem_append] at h ⊢
    exact h.imp_right fun h => .inr (ih h)

@[simp] theorem preorder_leaves (ids : List NodeId) : (leaves ids).preorder = ids := by
  induction ids with
  | nil => rfl
  | cons id ids ih => simp [leaves, preorder, ih]

@[simp] theorem created_nil (n : Nat) : created n nil = [] := rfl

@[simp] theorem holes_nil (n : Nat) : holes n nil = [] := rfl

@[simp] theorem created_append (n : Nat) (f g : Forest) :
    created n (f ++ g) = created n f ++ created n g := by
  simp [created]

@[simp] theorem holes_append (n : Nat) (f g : Forest) :
    holes n (f ++ g) = holes n f ++ holes n g := by
  simp [holes]

/-- Every node is of one of the two sorts. -/
theorem perm_created_holes (n : Nat) (f : Forest) :
    (f.created n ++ f.holes n).Perm f.preorder := by
  have hsplit := List.filter_append_perm (fun id => decide (n ≤ id)) f.preorder
  rwa [show (fun id => !decide (n ≤ id)) = fun id => decide (id < n) by
    funext id
    rw [← decide_not, decide_eq_decide]
    exact Nat.not_le] at hsplit

theorem created_cons_of_le {n : Nat} {id : NodeId} (h : n ≤ id) (label : Label)
    (children siblings : Forest) :
    created n (cons id label children siblings) =
      id :: (created n children ++ created n siblings) := by
  simp [created, preorder, h]

theorem holes_cons_of_le {n : Nat} {id : NodeId} (h : n ≤ id) (label : Label)
    (children siblings : Forest) :
    holes n (cons id label children siblings) = holes n children ++ holes n siblings := by
  simp [holes, preorder, Nat.not_lt.2 h]

theorem created_cons_of_lt {n : Nat} {id : NodeId} (h : id < n) (label : Label)
    (children siblings : Forest) :
    created n (cons id label children siblings) = created n children ++ created n siblings := by
  simp [created, preorder, Nat.not_le.2 h]

theorem holes_cons_of_lt {n : Nat} {id : NodeId} (h : id < n) (label : Label)
    (children siblings : Forest) :
    holes n (cons id label children siblings) =
      id :: (holes n children ++ holes n siblings) := by
  simp [holes, preorder, h]

theorem created_leaves {n : Nat} {ids : List NodeId} (h : ∀ id ∈ ids, id < n) :
    created n (leaves ids) = [] := by
  simpa [created] using h

theorem holes_leaves {n : Nat} {ids : List NodeId} (h : ∀ id ∈ ids, id < n) :
    holes n (leaves ids) = ids := by
  simpa [holes] using h

end Forest

/-! ## Values and attributes -/

/-- The nodes of a value: its literal parts are numbered from `next` on. -/
def valueForest (next : Nat) : List ValuePart → Forest
  | [] => .nil
  | .literal text :: parts =>
    .cons next { kind := .markup, fragments := [text] } .nil (valueForest (next + 1) parts)
  | .hole node :: parts => .cons node default .nil (valueForest next parts)

/-- The number of literal parts of a value. -/
def literalCount : List ValuePart → Nat
  | [] => 0
  | .literal _ :: parts => literalCount parts + 1
  | .hole _ :: parts => literalCount parts

/-- The text of the literal parts. -/
def literalText : List ValuePart → Bytes
  | [] => []
  | .literal text :: parts => text ++ literalText parts
  | .hole _ :: parts => literalText parts

theorem literalText_append (ps qs : List ValuePart) :
    literalText (ps ++ qs) = literalText ps ++ literalText qs := by
  induction ps with
  | nil => rfl
  | cons p ps ih => cases p <;> simp [literalText, ih]

/-- The nodes of an attribute: the node of its value follows it, then the literal parts. -/
def attributeForest (next : Nat) (name : Bytes) (parts : List ValuePart) : Forest :=
  .cons next { kind := .attribute, name := name }
    (.cons (next + 1) { kind := .attributeValue } (valueForest (next + 2) parts) .nil) .nil

/-! ## Assemblies -/

/-- An open element, and what stands before it under its parent. -/
structure OpenBranch where
  /-- The number of the element. -/
  node : NodeId
  /-- What the element is and says. -/
  label : Label
  /-- What stands before the element. -/
  before : Forest
deriving DecidableEq, Repr, Inhabited

/-- A forest with an open path. -/
structure Assembly where
  /-- The number that the next node will get. -/
  next : Nat
  /-- The open elements, the innermost first. -/
  path : List OpenBranch := []
  /-- What is under the innermost open element, or under the container if no element is open. -/
  content : Forest := .nil
  /-- What is wrong with the container. -/
  diagnostics : List Diagnostic := []
  /-- The holes that wait for the rest of a tag, in order. -/
  waiting : List Hole := []
  /-- The beginning of a tag or comment of which the rest has not arrived. -/
  carried : Bytes := []
deriving DecidableEq, Repr, Inhabited

namespace Assembly

/-- The waiting holes in `p` go under the innermost open element, in order. -/
def release (p : Hole → Bool) (a : Assembly) : Assembly :=
  { a with
    content := a.content ++ Forest.leaves ((a.waiting.filter p).map Hole.node)
    waiting := a.waiting.filter fun hole => !p hole }

/-- The parts of the value of an attribute, with the waiting holes in it. -/
def parts (a : Assembly) (entry : Attribute) : List ValuePart :=
  entry.parts (a.waiting.filter (·.isIn entry))

/-- An attribute goes under the innermost open element, with the waiting holes in its value. -/
def attach (a : Assembly) (entry : Attribute) : Assembly :=
  { a with
    next := a.next + 2 + literalCount (a.parts entry)
    content := a.content ++ attributeForest a.next entry.name.text (a.parts entry)
    waiting := a.waiting.filter fun hole => !hole.isIn entry }

/-- An element is opened as a branch of its own. -/
def enter (name : Bytes) (a : Assembly) : Assembly :=
  { a with
    next := a.next + 1
    path := ⟨a.next, { kind := .element, name := name }, a.content⟩ :: a.path
    content := .nil }

/-- A start tag opens an element. -/
def openElement (name : Bytes) (attributes : List Attribute) (a : Assembly) : Assembly :=
  let a := a.release fun hole => hole.isPositional && !attributes.any hole.isIn
  (attributes.foldl attach (a.enter name)).release fun _ => true

/-- The label of an element after the closing tag of the given name. -/
def closedLabel (name : Bytes) (l : Label) : Label :=
  if Bytes.equalsIgnoringCase l.name name then l
  else { l with diagnostics := l.diagnostics ++ [.mismatchedClosingTag name l.name none] }

/-- A closing tag closes the innermost open element. -/
def closeElement (name : Bytes) (a : Assembly) : Assembly :=
  match a.path with
  | [] => { a with diagnostics := a.diagnostics ++ [.unexpectedClosingTag name none] }
  | branch :: path =>
    { a with
      path := path
      content := branch.before ++
        .cons branch.node (closedLabel name branch.label) a.content .nil }

/-- A text goes under the innermost open element, white space between elements apart. -/
def addText (data : Bytes) (a : Assembly) : Assembly :=
  if a.path.isEmpty && data.isWhite then a
  else
    { a with
      next := a.next + 1
      content := a.content ++ .cons a.next { kind := .markup, fragments := [data] } .nil .nil }

/-- What a token does. -/
def apply (a : Assembly) (t : Token) : Assembly :=
  match t.content with
  | .startTag name attributes selfClosing =>
    let a := a.openElement name.text attributes
    if selfClosing || isVoid name.text then a.closeElement name.text else a
  | .endTag name => (a.release Hole.isPositional).closeElement name.text
  | .text data => (a.release Hole.isPositional).addText data
  | .comment _ => a.release Hole.isPositional

/-- A piece of markup goes on what was carried, and what it cuts off is carried on. -/
def takeMarkup (text : Bytes) (a : Assembly) : Assembly :=
  let scan := scan (a.carried ++ text)
  let a := scan.tokens.foldl apply a
  if scan.remainder.isEmpty then { a with carried := [] }
  else
    { a with
      carried := scan.remainder
      waiting := a.waiting.map (Structuring.rebase scan.stop.offset) }

/-- The next child of the container. -/
def take (a : Assembly) : Item → Assembly
  | .markup text => a.takeMarkup text
  | .attribute node => { a with waiting := a.waiting ++ [⟨node, none⟩] }
  | .hole node =>
    if a.carried.isEmpty then { a with content := a.content ++ Forest.leaves [node] }
    else { a with waiting := a.waiting ++ [⟨node, some a.carried.length⟩] }

/-- All children of a container, in a document of `n` nodes. -/
def run (n : Nat) (items : List Item) : Assembly := items.foldl take { next := n }

/-- Nothing is left open: no element, no tag or comment, and no hole. -/
def Complete (a : Assembly) : Prop := a.path = [] ∧ a.carried = [] ∧ a.waiting = []

/-! ## What waits -/

variable {a : Assembly}

theorem waiting_openElement (name : Bytes) (attributes : List Attribute) :
    (a.openElement name attributes).waiting = [] := by
  simp [openElement, release]

theorem waiting_closeElement (name : Bytes) : (a.closeElement name).waiting = a.waiting := by
  unfold closeElement
  split <;> rfl

theorem waiting_addText (data : Bytes) : (a.addText data).waiting = a.waiting := by
  unfold addText
  split <;> rfl

/-- A token lets no further hole wait. -/
theorem waiting_apply (t : Token) : (a.apply t).waiting.Sublist a.waiting := by
  obtain ⟨offset, length, content⟩ := t
  cases content with
  | startTag name attributes selfClosing =>
    simp only [apply]
    split
    · rw [waiting_closeElement, waiting_openElement]
      exact List.nil_sublist _
    · rw [waiting_openElement]
      exact List.nil_sublist _
  | endTag name =>
    simp only [apply]
    rw [waiting_closeElement]
    exact List.filter_sublist
  | text data =>
    simp only [apply]
    rw [waiting_addText]
    exact List.filter_sublist
  | comment data => exact List.filter_sublist

theorem waiting_foldl_apply (ts : List Token) : (ts.foldl apply a).waiting.Sublist a.waiting := by
  induction ts generalizing a with
  | nil => exact .refl _
  | cons t ts ih => exact ih.trans (waiting_apply t)

end Assembly

end MarkupTemplate
