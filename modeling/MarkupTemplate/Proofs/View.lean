import MarkupTemplate.Proofs.Shape

/-!
# What is seen without the holes

The skeleton of a forest is what is left of it without the holes: texts byte by byte, and every
other node with what it says. What a token does to the skeleton of an assembly depends on the
skeleton alone. The holes in a value split its text into parts, but the parts together are the text,
because the holes wait in the order of their places.

## Main definitions

* `Skeleton`: forests without holes and without numbers
* `Forest.skeleton`: the skeleton of a forest
* `View`, `Assembly.view`: the skeleton of an assembly, with its open path
* `Assembly.Sorted`: the holes wait in the order of their places

## Main results

* `literalText_parts`: the parts of a value make up its text
* `Assembly.view_apply`: a token does to the view what it does to the assembly
-/

namespace MarkupTemplate

open Markup

/-! ## Skeletons -/

/-- A forest without holes. Texts are taken byte by byte, so it makes no difference how they are
divided among nodes. -/
inductive Skeleton where
  /-- Nothing. -/
  | nil
  /-- A byte of a text, and what follows it. -/
  | byte (b : UInt8) (siblings : Skeleton)
  /-- A node other than a text, what is under it, and what follows it. -/
  | node (label : Label) (children siblings : Skeleton)
deriving DecidableEq, Repr, Inhabited

namespace Skeleton

/-- One skeleton before another. -/
def append : Skeleton → Skeleton → Skeleton
  | nil, t => t
  | byte b siblings, t => byte b (siblings.append t)
  | node label children siblings, t => node label children (siblings.append t)

instance : Append Skeleton := ⟨append⟩

/-- A text. -/
def text : Bytes → Skeleton
  | [] => nil
  | b :: rest => byte b (text rest)

/-- The skeleton without the white space that is not under a node. -/
def trimmed : Skeleton → Skeleton
  | nil => nil
  | byte b siblings => if Byte.isSpace b then siblings.trimmed else byte b siblings.trimmed
  | node label children siblings => node label children siblings.trimmed

variable (s t u : Skeleton)

@[simp] theorem nil_append : nil ++ t = t := rfl

@[simp] theorem byte_append (b : UInt8) : byte b s ++ t = byte b (s ++ t) := rfl

@[simp] theorem node_append (label : Label) (children : Skeleton) :
    node label children s ++ t = node label children (s ++ t) := rfl

@[simp] theorem append_nil : s ++ nil = s := by
  induction s with
  | nil => rfl
  | byte b s ih => rw [byte_append, ih]
  | node label children s _ ih => rw [node_append, ih]

@[simp] theorem append_assoc : s ++ t ++ u = s ++ (t ++ u) := by
  induction s with
  | nil => rfl
  | byte b s ih => simp only [byte_append, ih]
  | node label children s _ ih => simp only [node_append, ih]

@[simp] theorem text_nil : text [] = nil := rfl

@[simp] theorem text_append (x y : Bytes) : text (x ++ y) = text x ++ text y := by
  induction x with
  | nil => rfl
  | cons b x ih => rw [List.cons_append, text, text, ih, byte_append]

@[simp] theorem trimmed_append : (s ++ t).trimmed = s.trimmed ++ t.trimmed := by
  induction s with
  | nil => rfl
  | byte b s ih =>
    simp only [byte_append, trimmed, ih]
    split <;> rfl
  | node label children s _ ih => simp only [node_append, trimmed, ih]

theorem trimmed_text_of_isWhite {x : Bytes} (h : Bytes.isWhite x) : (text x).trimmed = nil := by
  induction x with
  | nil => rfl
  | cons b x ih =>
    obtain ⟨hb, hx⟩ : Byte.isSpace b ∧ Bytes.isWhite x := by simpa [Bytes.isWhite] using h
    rw [text, trimmed, if_pos hb, ih hx]

end Skeleton

namespace Forest

variable {n : Nat}

/-- The skeleton of a forest, in which the nodes below the number `n` are holes. -/
def skeleton (n : Nat) : Forest → Skeleton
  | nil => .nil
  | cons id label children siblings =>
    if id < n then siblings.skeleton n
    else if label.kind = .markup then .text label.text ++ siblings.skeleton n
    else .node label.plain (children.skeleton n) (siblings.skeleton n)

@[simp] theorem skeleton_append (f g : Forest) :
    (f ++ g).skeleton n = f.skeleton n ++ g.skeleton n := by
  induction f with
  | nil => rfl
  | cons id label children siblings _ ih =>
    simp only [cons_append, skeleton, ih]
    split
    · rfl
    · split <;> simp

theorem skeleton_cons_of_lt {id : NodeId} (h : id < n) (label : Label)
    (children siblings : Forest) :
    (cons id label children siblings).skeleton n = siblings.skeleton n := by
  rw [skeleton, if_pos h]

theorem skeleton_cons_of_le {id : NodeId} (h : n ≤ id) {label : Label}
    (hkind : label.kind ≠ .markup) (children siblings : Forest) :
    (cons id label children siblings).skeleton n =
      .node label.plain (children.skeleton n) (siblings.skeleton n) := by
  rw [skeleton, if_neg (Nat.not_lt.2 h), if_neg hkind]

theorem skeleton_leaves {ids : List NodeId} (h : ∀ id ∈ ids, id < n) :
    (leaves ids).skeleton n = .nil := by
  induction ids with
  | nil => rfl
  | cons id ids ih =>
    rw [leaves, skeleton_cons_of_lt (h id (by simp))]
    exact ih fun i hi => h i (List.mem_cons_of_mem _ hi)

end Forest

/-! ## The text of a value -/

/-- One hole stands before another, or not after it. -/
def Hole.NotAfter (hole hole' : Hole) : Prop :=
  ∀ i ∈ hole.offset, ∀ j ∈ hole'.offset, i ≤ j

theorem literalText_spliceFrom {value : Slice} {offset : Nat} {holes : List Hole}
    (hoffset : value.offset ≤ offset) (hsorted : holes.Pairwise Hole.NotAfter)
    (hholes : ∀ hole ∈ holes, ∀ i ∈ hole.offset, offset ≤ i) :
    literalText (spliceFrom value offset holes) = value.text.drop (offset - value.offset) := by
  induction holes generalizing offset with
  | nil =>
    rw [spliceFrom]
    split
    · simp [literalText]
    · next h =>
      rw [Slice.stop] at h
      rw [List.drop_eq_nil_of_le (by omega)]
      rfl
  | cons hole holes ih =>
    obtain ⟨hfirst, hrest⟩ := List.pairwise_cons.1 hsorted
    have hle : offset ≤ hole.offset.getD offset := by
      cases ho : hole.offset with
      | none => exact Nat.le_refl _
      | some i => exact hholes hole (by simp) i (by simp [ho])
    have hplaces : ∀ hole' ∈ holes, ∀ j ∈ hole'.offset, hole.offset.getD offset ≤ j := by
      intro hole' hmem j hj
      cases ho : hole.offset with
      | none => exact hholes hole' (by simp [hmem]) j hj
      | some i => exact hfirst hole' hmem i (by simp [ho]) j hj
    -- The text before the hole, which is no part if it is empty.
    have hbefore : literalText (if offset < hole.offset.getD offset then
        [.literal
          ((value.text.drop (offset - value.offset)).take (hole.offset.getD offset - offset))]
        else []) =
        (value.text.drop (offset - value.offset)).take (hole.offset.getD offset - offset) := by
      split
      · simp [literalText]
      · rw [Nat.sub_eq_zero_of_le (by omega), List.take_zero]
        rfl
    simp only [spliceFrom, literalText_append, hbefore, literalText]
    rw [ih (by omega) hrest hplaces,
      show hole.offset.getD offset - value.offset =
        (offset - value.offset) + (hole.offset.getD offset - offset) by omega,
      ← List.drop_drop, List.take_append_drop]

/-- The parts of a value make up its text, wherever the holes split it. -/
theorem literalText_parts {entry : Attribute} {waiting : List Hole}
    (hsorted : waiting.Pairwise Hole.NotAfter) :
    literalText (entry.parts (waiting.filter (·.isIn entry))) =
      entry.value.elim [] Slice.text := by
  obtain ⟨name, value⟩ := entry
  cases value with
  | none => rfl
  | some value =>
    simp only [Attribute.parts, Option.elim_some, splice]
    split
    · simp [literalText]
    · rw [literalText_spliceFrom (Nat.le_refl _) (hsorted.filter _), Nat.sub_self, List.drop_zero]
      rintro hole hmem i hi
      obtain ⟨-, hin⟩ := List.mem_filter.1 hmem
      rw [Option.mem_def] at hi
      simp only [Hole.isIn, hi, Option.any_some, Attribute.valueHolds, Bool.and_eq_true,
        decide_eq_true_eq] at hin
      exact hin.1

theorem skeleton_valueForest {n next : Nat} {parts : List ValuePart} (hnext : n ≤ next)
    (hparts : ∀ id ∈ partHoles parts, id < n) :
    (valueForest next parts).skeleton n = .text (literalText parts) := by
  induction parts generalizing next with
  | nil => rfl
  | cons part parts ih =>
    cases part with
    | literal text =>
      rw [valueForest, Forest.skeleton, if_neg (Nat.not_lt.2 hnext), if_pos rfl,
        ih (by omega) hparts, literalText, Skeleton.text_append]
      simp [Label.text]
    | hole node =>
      rw [valueForest, Forest.skeleton_cons_of_lt (hparts node (by simp [partHoles])),
        ih hnext fun id hid => hparts id (by simp [partHoles, hid])]
      rfl

/-- The skeleton of an attribute: its name and the text of its value. -/
def entrySkeleton (entry : Attribute) : Skeleton :=
  .node { kind := .attribute, name := entry.name.text }
    (.node { kind := .attributeValue } (.text (entry.value.elim [] Slice.text)) .nil) .nil

/-! ## Views -/

/-- The skeleton of a forest with an open path, from the innermost open element outwards. White
space under the container is left out. -/
inductive View where
  /-- No element is open: the skeleton under the container, and what is wrong with the container. -/
  | container (body : Skeleton) (diagnostics : List Diagnostic)
  /-- An open element, the skeleton under it, and what is around it. -/
  | element (label : Label) (body : Skeleton) (outer : View)
deriving DecidableEq, Repr, Inhabited

namespace View

/-- More comes under the innermost open element. -/
def add (s : Skeleton) : View → View
  | container body diagnostics => container (body ++ s.trimmed) diagnostics
  | element label body outer => element label (body ++ s) outer

/-- An element is opened with its attributes. -/
def openElement (name : Bytes) (attributes : List Attribute) (v : View) : View :=
  attributes.foldl (fun v entry => v.add (entrySkeleton entry))
    (element { kind := .element, name := name } .nil v)

/-- A closing tag closes the innermost open element. -/
def closeElement (name : Bytes) : View → View
  | container body diagnostics =>
    container body (diagnostics ++ [.unexpectedClosingTag name none])
  | element label body outer => outer.add (.node (Assembly.closedLabel name label) body .nil)

/-- What a token does to what is seen. -/
def apply (v : View) (t : Token) : View :=
  match t.content with
  | .startTag name attributes selfClosing =>
    let v := v.openElement name.text attributes
    if selfClosing || isVoid name.text then v.closeElement name.text else v
  | .endTag name => v.closeElement name.text
  | .text data => v.add (.text data)
  | .comment _ => v

@[simp] theorem add_nil (v : View) : v.add .nil = v := by
  cases v <;> simp [add, Skeleton.trimmed]

theorem add_append (s t : Skeleton) (v : View) : v.add (s ++ t) = (v.add s).add t := by
  cases v <;> simp [add]

end View

namespace Assembly

variable {n : Nat} {arrived : List NodeId} {a : Assembly}

/-- What is seen of a forest with a path around it. -/
def viewPath (n : Nat) (diagnostics : List Diagnostic) : Forest → List OpenBranch → View
  | f, [] => .container (f.skeleton n).trimmed diagnostics
  | f, branch :: path =>
    .element branch.label.plain (f.skeleton n) (viewPath n diagnostics branch.before path)

/-- What is seen of an assembly: what waits is not seen. -/
def view (n : Nat) (a : Assembly) : View := viewPath n a.diagnostics a.content a.path

/-- The holes wait in the order of their places. -/
def Sorted (a : Assembly) : Prop := a.waiting.Pairwise Hole.NotAfter

theorem viewPath_append (diagnostics : List Diagnostic) (f g : Forest) (path : List OpenBranch) :
    viewPath n diagnostics (f ++ g) path =
      (viewPath n diagnostics f path).add (g.skeleton n) := by
  cases path with
  | nil => simp [viewPath, View.add]
  | cons branch path => simp [viewPath, View.add]

/-- More content is seen as its skeleton. -/
theorem view_add (a : Assembly) (f : Forest) (next : Nat) (waiting : List Hole) (carried : Bytes) :
    view n { a with
        next := next, content := a.content ++ f, waiting := waiting, carried := carried } =
      (a.view n).add (f.skeleton n) :=
  viewPath_append a.diagnostics a.content f a.path

/-- Holes are not seen. -/
theorem view_release (haccount : Accounted n arrived a) (p : Hole → Bool) :
    (a.release p).view n = a.view n := by
  rw [release, view_add, Forest.skeleton_leaves (haccount.released_lt p), View.add_nil]

theorem skeleton_attributeForest (haccount : Accounted n arrived a) (hsorted : a.Sorted)
    (entry : Attribute) :
    (attributeForest a.next entry.name.text (a.parts entry)).skeleton n = entrySkeleton entry := by
  have hparts := haccount.parts_lt entry
  have hle := haccount.le
  rw [attributeForest, Forest.skeleton_cons_of_le hle (by simp),
    Forest.skeleton_cons_of_le (by omega) (by decide), skeleton_valueForest (by omega) hparts,
    parts, literalText_parts hsorted]
  rfl

theorem view_attach (haccount : Accounted n arrived a) (hsorted : a.Sorted) (entry : Attribute) :
    (a.attach entry).view n = (a.view n).add (entrySkeleton entry) := by
  rw [attach, view_add, skeleton_attributeForest haccount hsorted]

theorem view_foldl_attach (haccount : Accounted n arrived a) (hsorted : a.Sorted)
    (entries : List Attribute) :
    (entries.foldl attach a).view n =
      entries.foldl (fun v entry => v.add (entrySkeleton entry)) (a.view n) := by
  induction entries generalizing a with
  | nil => rfl
  | cons entry entries ih =>
    rw [List.foldl_cons, List.foldl_cons, ih (haccount.attach entry) (hsorted.filter _),
      view_attach haccount hsorted]

theorem view_openElement (haccount : Accounted n arrived a) (hsorted : a.Sorted) (name : Bytes)
    (attributes : List Attribute) :
    (a.openElement name attributes).view n = (a.view n).openElement name attributes := by
  have haccount' := haccount.release fun hole => hole.isPositional && !attributes.any hole.isIn
  have hview := view_release haccount fun hole => hole.isPositional && !attributes.any hole.isIn
  rw [openElement, view_release ((haccount'.enter name).foldl_attach attributes),
    view_foldl_attach (haccount'.enter name) (hsorted.filter _), View.openElement, ← hview]
  rfl

theorem plain_closedLabel (name : Bytes) (l : Label) :
    (closedLabel name l).plain = closedLabel name l.plain := by
  unfold closedLabel
  rw [Label.plain_name]
  split
  · rfl
  · simp [Label.plain]

theorem view_closeElement (haccount : Accounted n arrived a) (hshaped : a.Shaped n)
    (name : Bytes) :
    (a.closeElement name).view n = (a.view n).closeElement name := by
  unfold closeElement
  split
  · next hpath => simp [view, viewPath, hpath, View.closeElement]
  · next branch path hpath =>
    have hnode : n ≤ branch.node :=
      (haccount.mem_created.1 (by simp [created, hpath])).1
    -- An element is no text, so it is one node of the skeleton.
    have hkind : (closedLabel name branch.label).kind ≠ .markup := by
      have hbranch := (hshaped.path branch (by simp [hpath])).1
      unfold closedLabel
      split <;> simp [hbranch]
    rw [view, viewPath_append, Forest.skeleton_cons_of_le hnode hkind, view, hpath,
      plain_closedLabel]
    rfl

theorem view_addText (haccount : Accounted n arrived a) (data : Bytes) :
    (a.addText data).view n = (a.view n).add (.text data) := by
  unfold addText
  split
  · next h =>
    obtain ⟨hpath, hwhite⟩ : a.path = [] ∧ Bytes.isWhite data := by simpa using h
    rw [view, hpath, viewPath, View.add, Skeleton.trimmed_text_of_isWhite hwhite,
      Skeleton.append_nil]
  · rw [view_add]
    simp [Forest.skeleton, Nat.not_lt.2 haccount.le, Label.text]

/-- A token does to the view what it does to the assembly. -/
theorem view_apply (haccount : Accounted n arrived a) (hshaped : a.Shaped n) (hsorted : a.Sorted)
    {t : Token} (ht : t.Named) : (a.apply t).view n = (a.view n).apply t := by
  obtain ⟨offset, length, content⟩ := t
  cases content with
  | startTag name attributes selfClosing =>
    have hview := view_openElement haccount hsorted name.text attributes
    have haccount' := haccount.openElement name.text attributes
    have hshaped' := hshaped.openElement haccount (ht name attributes selfClosing rfl) attributes
    simp only [apply, View.apply]
    split
    · rw [view_closeElement haccount' hshaped', hview]
    · exact hview
  | endTag name =>
    simp only [apply, View.apply]
    rw [view_closeElement (haccount.release _) (hshaped.release haccount _), view_release haccount]
  | text data =>
    simp only [apply, View.apply]
    rw [view_addText (haccount.release _), view_release haccount]
  | comment data => exact view_release haccount _

theorem Sorted.apply (h : a.Sorted) (t : Token) : (a.apply t).Sorted :=
  h.sublist (waiting_apply t)

theorem view_foldl_apply (haccount : Accounted n arrived a) (hshaped : a.Shaped n)
    (hsorted : a.Sorted) {ts : List Token} (hts : ∀ t ∈ ts, t.Named) :
    (ts.foldl apply a).view n = ts.foldl View.apply (a.view n) := by
  induction ts generalizing a with
  | nil => rfl
  | cons t ts ih =>
    have ht := hts t (by simp)
    rw [List.foldl_cons, List.foldl_cons, ih (haccount.apply t) (hshaped.apply haccount ht)
      (hsorted.apply t) fun u hu => hts u (by simp [hu]), view_apply haccount hshaped hsorted ht]

end Assembly

end MarkupTemplate
