import MarkupTemplate.Document.Build
import MarkupTemplate.Document.Rewrite

/-!
# What a change of a document keeps

A node is looked at in two halves: its label and its children. Each change of a document is about
one half of one node, or adds a node.

## Main definitions

* `Diagnostic.plain`, `Label.plain`: what is said, apart from the place in the template

## Main results

* `Document.children_appendChild`, `Document.label_addDiagnostic`: the half that changes
* `Document.label_appendChild`, `Document.children_addDiagnostic`: the half that does not
* `Document.label_add_of_lt`, `Document.children_add_of_lt`: a further node changes no other
* `Document.rewriteEach_append`: rewrites in a row are the later ones after the earlier ones
-/

namespace MarkupTemplate

/-- A diagnostic without the place it is about. -/
def Diagnostic.plain (g : Diagnostic) : Diagnostic := { g with span := none }

/-- A label without the places in the template. -/
def Label.plain (l : Label) : Label :=
  { l with span := none, diagnostics := l.diagnostics.map Diagnostic.plain }

@[simp] theorem Diagnostic.plain_mismatchedClosingTag (found expected : Bytes)
    (span : Option Span) :
    (mismatchedClosingTag found expected span).plain = mismatchedClosingTag found expected none :=
  rfl

@[simp] theorem Diagnostic.plain_unexpectedClosingTag (name : Bytes) (span : Option Span) :
    (unexpectedClosingTag name span).plain = unexpectedClosingTag name none := rfl

@[simp] theorem Label.plain_kind (l : Label) : l.plain.kind = l.kind := rfl

@[simp] theorem Label.plain_name (l : Label) : l.plain.name = l.name := rfl

@[simp] theorem Label.plain_text (l : Label) : l.plain.text = l.text := rfl

namespace Document

variable {d : Document} {id parent child : NodeId}

/-- A number that no node has stands for no children. -/
theorem children_of_size_le (h : d.size ≤ id) : d.children id = [] := by
  rw [children, node_of_size_le d h]
  rfl

/-! ## A further node -/

theorem label_add_of_lt (n : Node) (h : id < d.size) : (d.add n).label id = d.label id := by
  rw [label, node_add_of_lt d n h, label]

theorem children_add_of_lt (n : Node) (h : id < d.size) :
    (d.add n).children id = d.children id := by
  rw [children, node_add_of_lt d n h, children]

@[simp] theorem label_add_size (n : Node) : (d.add n).label d.size = n.toLabel := by
  rw [label, node_add_size]

@[simp] theorem children_add_size (n : Node) : (d.add n).children d.size = n.children := by
  rw [children, node_add_size]

/-! ## A changed node -/

theorem node_modify_of_size_le {f : Node → Node} (h : d.size ≤ parent) (id : NodeId) :
    (d.modify parent f).node id = d.node id := by
  rcases Decidable.em (id = parent) with rfl | hne
  · rw [node_of_size_le _ (by simpa using h), node_of_size_le _ h]
  · simp [modify, node, Array.getElem?_modify, Ne.symm hne]

theorem node_modify_of_ne {f : Node → Node} (hne : id ≠ parent) :
    (d.modify parent f).node id = d.node id := by
  rcases Nat.lt_or_ge parent d.size with h | h
  · rw [node_modify d f h, if_neg hne]
  · exact node_modify_of_size_le h id

/-- A change that keeps the labels of all nodes keeps them in the document. -/
theorem label_modify {f : Node → Node} (hf : ∀ n, (f n).toLabel = n.toLabel) :
    (d.modify parent f).label id = d.label id := by
  rcases Nat.lt_or_ge parent d.size with h | h
  · rw [label, node_modify d f h, label]
    split
    · next he => rw [hf, he]
    · rfl
  · rw [label, node_modify_of_size_le h, label]

/-- A change that keeps the children of all nodes keeps them in the document. -/
theorem children_modify {f : Node → Node} (hf : ∀ n, (f n).children = n.children) :
    (d.modify parent f).children id = d.children id := by
  rcases Nat.lt_or_ge parent d.size with h | h
  · rw [children, node_modify d f h, children]
    split
    · next he => rw [hf, he]
    · rfl
  · rw [children, node_modify_of_size_le h, children]

@[simp] theorem size_appendChild : (d.appendChild parent child).size = d.size := size_modify ..

@[simp] theorem label_appendChild : (d.appendChild parent child).label id = d.label id :=
  label_modify fun _ => rfl

theorem children_appendChild (h : parent < d.size) :
    (d.appendChild parent child).children id =
      if id = parent then d.children parent ++ [child] else d.children id := by
  rw [children, appendChild, node_modify d _ h]
  split <;> rfl

theorem children_appendChild_of_ne (h : id ≠ parent) :
    (d.appendChild parent child).children id = d.children id := by
  rw [children, appendChild, node_modify_of_ne h, children]

@[simp] theorem size_addDiagnostic (g : Diagnostic) : (d.addDiagnostic id g).size = d.size :=
  size_modify ..

@[simp] theorem children_addDiagnostic (g : Diagnostic) (id' : NodeId) :
    (d.addDiagnostic id g).children id' = d.children id' :=
  children_modify fun _ => rfl

theorem label_addDiagnostic (g : Diagnostic) (h : id < d.size) (id' : NodeId) :
    (d.addDiagnostic id g).label id' =
      if id' = id then { d.label id with diagnostics := (d.label id).diagnostics ++ [g] }
      else d.label id' := by
  rw [label, addDiagnostic, node_modify d _ h]
  split <;> rfl

@[simp] theorem size_setChildren (ids : List NodeId) : (d.setChildren parent ids).size = d.size :=
  size_modify ..

@[simp] theorem label_setChildren (ids : List NodeId) :
    (d.setChildren parent ids).label id = d.label id :=
  label_modify fun _ => rfl

theorem children_setChildren (ids : List NodeId) (h : parent < d.size) :
    (d.setChildren parent ids).children id = if id = parent then ids else d.children id := by
  rw [children, setChildren, node_modify d _ h]
  split <;> rfl

end Document

/-! ## Rewrites in a row -/

namespace Rewrite

variable {r : Rewrite} {next : Document → Rewrite}

theorem andThen_of_ok (h : r.ok) : r.andThen next = next r.document := if_pos h

/-- A complete rewrite is complete in its first part. -/
theorem ok_of_ok_andThen (h : (r.andThen next).ok) : r.ok := by
  by_cases hok : r.ok
  · exact hok
  · rwa [andThen, if_neg hok] at h

/-- A rewrite after which nothing is left to do. -/
theorem andThen_of_unchanged (h : r.ok → next r.document = ⟨r.document, []⟩) :
    r.andThen next = r := by
  by_cases hok : r.ok
  · obtain ⟨document, faults⟩ := r
    obtain rfl : faults = [] := List.isEmpty_iff.1 hok
    exact (andThen_of_ok hok).trans (h hok)
  · exact if_neg hok

end Rewrite

namespace Document

variable {d : Document} {α : Type} {f : Document → α → Rewrite}

@[simp] theorem rewriteEach_nil : d.rewriteEach f [] = ⟨d, []⟩ := rfl

theorem foldl_andThen (items : List α) (r : Rewrite) :
    items.foldl (fun r item => r.andThen fun d => f d item) r =
      r.andThen fun d => d.rewriteEach f items := by
  by_cases hok : r.ok
  · obtain ⟨d, faults⟩ := r
    obtain rfl : faults = [] := List.isEmpty_iff.1 hok
    rfl
  · -- Nothing is begun after a fault.
    have hstop : ∀ next : Document → Rewrite, r.andThen next = r := fun _ => if_neg hok
    rw [hstop]
    induction items with
    | nil => rfl
    | cons item items ih => rw [List.foldl_cons, hstop, ih]

@[simp] theorem rewriteEach_cons (item : α) (items : List α) :
    d.rewriteEach f (item :: items) = (f d item).andThen fun d => d.rewriteEach f items :=
  foldl_andThen items (f d item)

theorem rewriteEach_append (items items' : List α) :
    d.rewriteEach f (items ++ items') =
      (d.rewriteEach f items).andThen fun d => d.rewriteEach f items' := by
  rw [rewriteEach, List.foldl_append, foldl_andThen]
  rfl

end Document

end MarkupTemplate
