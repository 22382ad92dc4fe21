import MarkupTemplate.Proofs.Invisibility
import MarkupTemplate.Proofs.Reading

/-!
# A structured tree is the token stream

Read from front to back, the tree under a container of mere markup says what the tokens say: a text
is a text, a start tag is the start of an element with the attributes of the tag, and an end tag is
the end of the innermost open element, whatever name it has. Only what has no place in a tree is
left out: comments, white space between the elements of the container, and end tags that end
nothing.

## Main definitions

* `Mark`: a step through a tree, or through tokens, from front to back
* `Forest.marks`: the steps through a forest
* `Markup.marks`: what tokens say, while some elements are open
* `Markup.tokensOf`: the tokens of texts in a row, where what a text cuts off is carried on
* `Assembly.marks`: the steps through an assembly as far as it goes

## Main results

* `Assembly.marks_apply`: a token adds to an assembly what it says
* `Assembly.marks_foldl_take`: so do pieces of markup
* `Document.marks_structureChildren`: the tree under a structured container is the token stream
-/

namespace MarkupTemplate

open Markup

/-- A step through a tree, or through tokens, from front to back. -/
inductive Mark where
  /-- A text. -/
  | text (data : Bytes)
  /-- The start of an element, with the names of its attributes and the parts of their values; a
  bare attribute has no part. -/
  | start (name : Bytes) (attributes : List (Bytes × List ValuePart))
  /-- The end of the innermost element that was started. -/
  | stop
  /-- A node of another sort. -/
  | other (node : NodeId)
deriving DecidableEq, Repr

/-- The text of a step. -/
def Mark.body : Mark → Bytes
  | .text data => data
  | _ => []

/-! ## Steps through a forest -/

namespace Forest

/-- The parts of a value: texts, and nodes of other sorts. -/
def valueParts : Forest → List ValuePart
  | nil => []
  | cons id label _ siblings =>
    (match label.kind with
    | .markup => .literal label.text
    | _ => .hole id) :: siblings.valueParts

/-- The parts of what is under an attribute. -/
def attributeParts : Forest → List ValuePart
  | nil => []
  | cons id label children siblings =>
    (match label.kind with
    | .attributeValue => children.valueParts
    | _ => [.hole id]) ++ siblings.attributeParts

/-- The attributes among the roots, in order. -/
def attributes : Forest → List (Bytes × List ValuePart)
  | nil => []
  | cons _ label children siblings =>
    (match label.kind with
    | .attribute => [(label.name, children.attributeParts)]
    | _ => []) ++ siblings.attributes

/-- The steps through a forest. The attributes of an element belong to its start. -/
def marks (inElement : Bool) : Forest → List Mark
  | nil => []
  | cons id label children siblings =>
    (match label.kind with
    | .markup => [.text label.text]
    | .element => .start label.name children.attributes :: (children.marks true ++ [.stop])
    | .attribute => if inElement then [] else [.other id]
    | _ => [.other id]) ++ siblings.marks inElement

/-- The texts outside of the attributes, one after another. -/
def bodyText : Forest → Bytes
  | nil => []
  | cons _ label children siblings =>
    (match label.kind with
    | .markup => label.text
    | .element => children.bodyText
    | _ => []) ++ siblings.bodyText

/-- The forest with labels that name no places in the template. -/
def plain : Forest → Forest
  | nil => nil
  | cons id label children siblings => cons id label.plain children.plain siblings.plain

variable {n : Nat} {f g : Forest}

theorem valueParts_plain (f : Forest) : f.plain.valueParts = f.valueParts := by
  induction f with
  | nil => rfl
  | cons id label children siblings _ ih =>
    simp only [plain, valueParts, ih, Label.plain_kind, Label.plain_text]

theorem attributeParts_plain (f : Forest) : f.plain.attributeParts = f.attributeParts := by
  induction f with
  | nil => rfl
  | cons id label children siblings _ ih =>
    simp only [plain, attributeParts, ih, Label.plain_kind, valueParts_plain]

theorem attributes_plain (f : Forest) : f.plain.attributes = f.attributes := by
  induction f with
  | nil => rfl
  | cons id label children siblings _ ih =>
    simp only [plain, attributes, ih, Label.plain_kind, Label.plain_name, attributeParts_plain]

/-- The steps through a forest do not depend on places in the template. -/
theorem marks_plain (inElement : Bool) (f : Forest) :
    f.plain.marks inElement = f.marks inElement := by
  induction f generalizing inElement with
  | nil => rfl
  | cons id label children siblings ihc ihs =>
    simp only [plain, marks, ihc, ihs, Label.plain_kind, Label.plain_name, Label.plain_text,
      attributes_plain]

@[simp] theorem attributes_append (f g : Forest) :
    (f ++ g).attributes = f.attributes ++ g.attributes := by
  induction f with
  | nil => rfl
  | cons id label children siblings _ ih =>
    rw [cons_append, attributes, attributes, ih, List.append_assoc]

@[simp] theorem marks_append (inElement : Bool) (f g : Forest) :
    (f ++ g).marks inElement = f.marks inElement ++ g.marks inElement := by
  induction f with
  | nil => rfl
  | cons id label children siblings _ ih =>
    rw [cons_append, marks, marks, ih, List.append_assoc]

theorem valueParts_valueForest (next : Nat) (parts : List ValuePart) :
    (valueForest next parts).valueParts = parts := by
  induction parts generalizing next with
  | nil => rfl
  | cons part parts ih =>
    cases part with
    | literal text => simp [valueForest, valueParts, ih, Label.text]
    | hole node => rw [valueForest, valueParts, ih]; rfl

theorem attributes_attributeForest (next : Nat) (name : Bytes) (parts : List ValuePart) :
    (attributeForest next name parts).attributes = [(name, parts)] := by
  simp [attributeForest, attributes, attributeParts, valueParts_valueForest]

/-- The text of the steps through a forest is the text outside of the attributes. -/
theorem flatMap_body_marks (inElement : Bool) (f : Forest) :
    (f.marks inElement).flatMap Mark.body = f.bodyText := by
  induction f generalizing inElement with
  | nil => rfl
  | cons id label children siblings ihc ihs =>
    rw [marks, bodyText, List.flatMap_append, ihs]
    congr 1
    cases hk : label.kind with
    | markup => simp [Mark.body]
    | element => simp [Mark.body, ihc]
    | «attribute» => cases inElement <;> rfl
    | _ => rfl

end Forest

/-! ## What tokens say -/

namespace Markup

/-- What an attribute of a start tag says: its name, and its value as one text. -/
def Attribute.mark (a : Attribute) : Bytes × List ValuePart :=
  (a.name.text, a.value.elim [] fun value => [.literal value.text])

/-- What tokens say while the given number of elements are open. Comments say nothing, and neither
do white space and end tags outside of all elements. -/
def marks (depth : Nat) : List Token → List Mark
  | [] => []
  | t :: ts =>
    match t.content with
    | .comment _ => marks depth ts
    | .text data =>
      if depth = 0 ∧ data.isWhite then marks depth ts else .text data :: marks depth ts
    | .endTag _ => if depth = 0 then marks depth ts else .stop :: marks (depth - 1) ts
    | .startTag name attributes selfClosing =>
      .start name.text (attributes.map Attribute.mark) ::
        if selfClosing || isVoid name.text then .stop :: marks depth ts else marks (depth + 1) ts

/-- The tokens of texts in a row: what a text cuts off is read again with the next text. -/
def tokensOf (carried : Bytes) : List Bytes → List Token
  | [] => []
  | text :: texts =>
    let scan := scan (carried ++ text)
    scan.tokens ++ tokensOf scan.remainder texts

end Markup

/-! ## Steps through an assembly -/

namespace Assembly

variable {a : Assembly}

/-- The steps through open elements with the given content in the innermost of them. None of the
elements has come to its end. -/
def openMarks : List OpenBranch → Forest → List Mark
  | [], content => content.marks false
  | branch :: path, content =>
    openMarks path branch.before ++
      .start branch.label.name content.attributes :: content.marks true

/-- The steps through an assembly. -/
def marks (a : Assembly) : List Mark := openMarks a.path a.content

/-- No holes wait, and what is open are elements. -/
structure Clear (a : Assembly) : Prop where
  waiting : a.waiting = []
  path : ∀ branch ∈ a.path, branch.label.kind = .element

/-- What is no attribute adds its steps to those of the content. -/
theorem openMarks_append (path : List OpenBranch) (f : Forest) {g : Forest}
    (hg : g.attributes = []) :
    openMarks path (f ++ g) = openMarks path f ++ g.marks !path.isEmpty := by
  cases path with
  | nil => exact f.marks_append false g
  | cons branch path =>
    simp [openMarks, hg]

namespace Clear

theorem closeElement (h : a.Clear) (name : Bytes) : (a.closeElement name).Clear := by
  refine ⟨(waiting_closeElement name).trans h.waiting, ?_⟩
  unfold Assembly.closeElement
  cases hpath : a.path with
  | nil => simp
  | cons branch path =>
    intro b hb
    exact h.path b (hpath ▸ List.mem_cons_of_mem _ hb)

theorem addText (h : a.Clear) (data : Bytes) : (a.addText data).Clear := by
  refine ⟨(waiting_addText data).trans h.waiting, ?_⟩
  unfold Assembly.addText
  split <;> exact h.path

end Clear

/-- The attributes of a start tag become those of the element. -/
theorem foldl_attach (hwaiting : a.waiting = []) (entries : List Attribute) :
    let a' := entries.foldl attach a
    a'.waiting = [] ∧ a'.path = a.path ∧
      a'.content.attributes = a.content.attributes ++ entries.map Attribute.mark ∧
        a'.content.marks true = a.content.marks true := by
  induction entries generalizing a with
  | nil => simp [hwaiting]
  | cons entry entries ih =>
    have hparts : a.parts entry = entry.mark.2 := by
      rw [parts, hwaiting]
      rfl
    have hattach : (a.attach entry).waiting = [] := by simp [attach, hwaiting]
    obtain ⟨hw, hpath, hattributes, hmarks⟩ := ih hattach
    refine ⟨hw, hpath, ?_, ?_⟩
    · rw [List.foldl_cons, hattributes, attach, hparts, Forest.attributes_append,
        Forest.attributes_attributeForest, List.map_cons, List.append_assoc]
      rfl
    · rw [List.foldl_cons, hmarks, attach, Forest.marks_append]
      exact List.append_nil _

theorem openElement_of_clear (h : a.Clear) (name : Bytes) (entries : List Attribute) :
    (a.openElement name entries).Clear ∧
      (a.openElement name entries).path.length = a.path.length + 1 ∧
      (a.openElement name entries).marks =
        a.marks ++ [.start name (entries.map Attribute.mark)] := by
  obtain ⟨hwaiting, hpath, hattributes, hmarks⟩ :=
    foldl_attach (a := a.enter name) h.waiting entries
  have hopen : a.openElement name entries = entries.foldl attach (a.enter name) := by
    rw [openElement, release_of_waiting_eq_nil h.waiting, release_of_waiting_eq_nil hwaiting]
  rw [hopen, Assembly.marks, hpath]
  refine ⟨⟨hwaiting, ?_⟩, rfl, ?_⟩
  · rw [hpath]
    intro branch hbranch
    rcases List.mem_cons.1 hbranch with rfl | hbranch
    · rfl
    · exact h.path branch hbranch
  · show openMarks a.path a.content ++ .start name _ :: _ = _
    rw [hattributes, hmarks]
    rfl

/-- Closing an element adds its end, unless no element is open. -/
theorem closeElement_of_clear (h : a.Clear) (name : Bytes) :
    (a.closeElement name).path.length = a.path.length - 1 ∧
      (a.closeElement name).marks = a.marks ++ if a.path.length = 0 then [] else [.stop] := by
  unfold closeElement Assembly.marks
  cases hpath : a.path with
  | nil => exact ⟨rfl, (List.append_nil _).symm⟩
  | cons branch path =>
    have hkind : (closedLabel name branch.label).kind = .element ∧
        (closedLabel name branch.label).name = branch.label.name := by
      unfold closedLabel
      split <;> exact ⟨h.path branch (by simp [hpath]), rfl⟩
    refine ⟨rfl, ?_⟩
    -- The element says the same at its end as it said while it was open.
    have hclosed : ∀ inElement,
        (Forest.cons branch.node (closedLabel name branch.label) a.content .nil).marks inElement =
          .start branch.label.name a.content.attributes :: (a.content.marks true ++ [.stop]) := by
      intro inElement
      rw [Forest.marks, hkind.1, hkind.2]
      exact List.append_nil _
    rw [openMarks_append _ _ (by rw [Forest.attributes, hkind.1]; rfl), hclosed, openMarks]
    simp

theorem addText_of_clear (data : Bytes) :
    (a.addText data).path.length = a.path.length ∧
      (a.addText data).marks =
        a.marks ++ if a.path.length = 0 ∧ data.isWhite then [] else [.text data] := by
  have hdropped : (a.path.isEmpty && data.isWhite) = true ↔ a.path.length = 0 ∧ data.isWhite := by
    simp
  unfold addText Assembly.marks
  by_cases h : a.path.length = 0 ∧ data.isWhite
  · rw [if_pos (hdropped.2 h), if_pos h, List.append_nil]
    exact ⟨rfl, rfl⟩
  · rw [if_neg (mt hdropped.1 h), if_neg h]
    refine ⟨rfl, ?_⟩
    rw [openMarks_append _ _ rfl]
    simp [Forest.marks, Label.text]

/-- A token adds what it says to the steps through an assembly. -/
theorem marks_apply (h : a.Clear) (t : Token) (ts : List Token) :
    (a.apply t).Clear ∧
      (a.apply t).marks ++ Markup.marks (a.apply t).path.length ts =
        a.marks ++ Markup.marks a.path.length (t :: ts) := by
  obtain ⟨offset, length, content⟩ := t
  cases content with
  | startTag name attributes selfClosing =>
    obtain ⟨hclear, hlength, hmarks⟩ := openElement_of_clear h name.text attributes
    obtain ⟨hlength', hmarks'⟩ := closeElement_of_clear hclear name.text
    simp only [apply, Markup.marks]
    split
    · refine ⟨hclear.closeElement name.text, ?_⟩
      rw [hmarks', hlength', hlength, hmarks]
      simp
    · refine ⟨hclear, ?_⟩
      rw [hmarks, hlength]
      simp
  | endTag name =>
    obtain ⟨hlength, hmarks⟩ := closeElement_of_clear h name.text
    simp only [apply, Markup.marks, release_of_waiting_eq_nil h.waiting]
    refine ⟨h.closeElement name.text, ?_⟩
    rw [hmarks, hlength]
    split
    · next hzero => rw [List.append_nil, hzero]
    · simp
  | text data =>
    obtain ⟨hlength, hmarks⟩ := addText_of_clear (a := a) data
    simp only [apply, Markup.marks, release_of_waiting_eq_nil h.waiting]
    refine ⟨h.addText data, ?_⟩
    rw [hmarks, hlength]
    split
    · rw [List.append_nil]
    · simp
  | comment data =>
    simp only [apply, Markup.marks, release_of_waiting_eq_nil h.waiting]
    exact ⟨h, trivial⟩

theorem marks_foldl_apply (h : a.Clear) (ts us : List Token) :
    (ts.foldl apply a).Clear ∧
      (ts.foldl apply a).marks ++ Markup.marks (ts.foldl apply a).path.length us =
        a.marks ++ Markup.marks a.path.length (ts ++ us) := by
  induction ts generalizing a with
  | nil => exact ⟨h, rfl⟩
  | cons t ts ih =>
    obtain ⟨hclear, hmarks⟩ := marks_apply h t (ts ++ us)
    obtain ⟨hclear', hmarks'⟩ := ih hclear
    exact ⟨hclear', hmarks'.trans hmarks⟩

theorem takeMarkup_of_clear (h : a.Clear) (text : Bytes) :
    a.takeMarkup text =
      { (scan (a.carried ++ text)).tokens.foldl apply a with
        carried := (scan (a.carried ++ text)).remainder } := by
  have hwaiting := (marks_foldl_apply h (scan (a.carried ++ text)).tokens []).1.waiting
  unfold takeMarkup
  cases hremainder : (scan (a.carried ++ text)).remainder with
  | nil => simp [hremainder]
  | cons b rest => simp [hremainder, hwaiting]

/-- Pieces of markup add what their tokens say. -/
theorem marks_foldl_take (h : a.Clear) (texts : List Bytes) :
    ((texts.map Item.markup).foldl take a).marks =
      a.marks ++ Markup.marks a.path.length (tokensOf a.carried texts) := by
  induction texts generalizing a with
  | nil => exact (List.append_nil _).symm
  | cons text texts ih =>
    have htake := takeMarkup_of_clear h text
    obtain ⟨hclear, hmarks⟩ := marks_foldl_apply h (scan (a.carried ++ text)).tokens
      (tokensOf (scan (a.carried ++ text)).remainder texts)
    have hrest := ih (a := a.takeMarkup text) (by rw [htake]; exact ⟨hclear.waiting, hclear.path⟩)
    rw [List.map_cons, List.foldl_cons, take, hrest, htake]
    exact hmarks

end Assembly

/-! ## Structured documents -/

namespace Document

variable {d : Document} {n : Nat} {f : Forest} {container : NodeId}

/-- A document that holds nothing but new nodes has them as they are. -/
theorem plain_unfold (hholds : d.Holds n f) (hnew : ∀ id ∈ f.preorder, n ≤ id) {depth : Nat}
    (hheight : f.height ≤ depth) : (d.unfold depth f.roots).plain = f := by
  induction f generalizing depth with
  | nil => rw [Forest.roots, unfold_nil]; rfl
  | cons id label children siblings ihc ihs =>
    obtain ⟨hid, hchildren, hsiblings⟩ := hholds
    simp only [Forest.preorder, List.mem_cons, List.mem_append] at hnew
    simp only [Forest.height, Nat.max_le] at hheight
    obtain ⟨depth, rfl⟩ := Nat.exists_eq_add_one_of_ne_zero (n := depth) (by omega)
    obtain ⟨hlabel, hroots⟩ := hid (hnew id (.inl rfl))
    rw [Forest.roots, unfold_cons, Forest.plain, hlabel, hroots,
      ihc hchildren (fun i hi => hnew i (.inr (.inl hi))) (Nat.le_of_succ_le_succ hheight.1),
      ihs hsiblings (fun i hi => hnew i (.inr (.inr hi))) hheight.2]

/-- The texts of markup under a container. -/
def textsBelow (d : Document) (container : NodeId) : List Bytes :=
  (d.children container).map fun child => (d.label child).text

section

variable (hcontainer : container < d.size)
  (hmarkup : ∀ child ∈ d.children container, d.kind child = .markup)
include hmarkup

/-- Markup is a node of the document. -/
theorem lt_size_of_markup : ∀ child ∈ d.children container, child < d.size := by
  intro child hchild
  have hkind := hmarkup child hchild
  rcases Nat.lt_or_ge child d.size with hlt | hle
  · exact hlt
  · rw [kind, node_of_size_le d hle] at hkind
    exact absurd hkind (by decide)

theorem items_of_markup :
    d.items container = (d.textsBelow container).map Item.markup := by
  rw [items, textsBelow, List.map_map]
  refine List.map_congr_left fun child hchild => ?_
  rw [item, hmarkup child hchild]
  rfl

/-- Of mere markup only new nodes are made. -/
theorem le_of_mem_content {id : NodeId}
    (hid : id ∈ (d.assembly container).content.preorder) : d.size ≤ id := by
  have hnone : (d.items container).filterMap Item.node? = [] := by
    rw [items_of_markup hmarkup]
    simp [Item.node?]
  have haccount := accounted_children (lt_size_of_markup hmarkup)
  rcases Nat.lt_or_ge id d.size with hlt | hle
  · have hhole : id ∈ (d.assembly container).content.holes d.size :=
      List.mem_filter.2 ⟨hid, by simpa using hlt⟩
    have harrived := haccount.holes.mem_iff.1
      (List.mem_append_left _ (List.mem_append_left _ hhole))
    rw [hnone] at harrived
    exact absurd harrived List.not_mem_nil
  · exact hle

include hcontainer

/-- Mere markup is structured into the tree that its tokens spell. -/
theorem marks_structureChildren (hok : (d.structureChildren container).ok) :
    let f := (d.structureChildren container).document.forestBelow container
    f.marks false = Markup.marks 0 (tokensOf [] (d.textsBelow container)) ∧
      f.bodyText =
        (Markup.marks 0 (tokensOf [] (d.textsBelow container))).flatMap Mark.body := by
  intro f
  have hchildren := lt_size_of_markup hmarkup
  obtain ⟨hpath, -, -⟩ := (ok_structureChildren_iff hcontainer hchildren).1 hok
  obtain ⟨hroots, hheight⟩ := roots_structureChildren hcontainer hchildren hpath
  have hplain : ((d.structureChildren container).document.forestBelow container).plain =
      (d.assembly container).content := by
    rw [forestBelow, hroots]
    exact plain_unfold (stored_structureChildren hcontainer hchildren).content
      (fun id hid => le_of_mem_content hmarkup hid) hheight
  have hassembly : (d.assembly container).marks =
      Markup.marks 0 (tokensOf [] (d.textsBelow container)) := by
    rw [assembly, items_of_markup hmarkup]
    exact Assembly.marks_foldl_take ⟨rfl, by simp⟩ (d.textsBelow container)
  have hmarks : f.marks false = Markup.marks 0 (tokensOf [] (d.textsBelow container)) := by
    rw [← hassembly, Assembly.marks, hpath, ← hplain]
    exact (Forest.marks_plain false f).symm
  exact ⟨hmarks, by rw [← hmarks, f.flatMap_body_marks]⟩

end

/-- Markup with end tags of other names, one without an element, and one for an element that never
has content. A value, two end tags and a comment are cut off between the pieces. -/
def crossedMarkup : Document :=
  ⟨#[{ kind := .document, children := [1] },
    { kind := .element, name := utf8 "ul", children := [2, 3, 4, 5, 6] },
    { kind := .markup, fragments := [utf8 "</i> <LI Id=\"a"] },
    { kind := .markup, fragments := [utf8 "b\" x> 1 < 2</b"] },
    { kind := .markup, fragments := [utf8 ">\n <Br/></br><p><br>t<!-- "] },
    { kind := .markup, fragments := [utf8 "--></q "] },
    { kind := .markup, fragments := [utf8 ">"] }], by decide⟩

theorem crossedMarkup_marks :
    (crossedMarkup.structureChildren 1).ok ∧
      ((crossedMarkup.structureChildren 1).document.forestBelow 1).marks false =
        [.start (utf8 "LI") [(utf8 "Id", [.literal (utf8 "ab")]), (utf8 "x", [])],
          .text (utf8 " 1 < 2"), .stop,
          .start (utf8 "Br") [], .stop,
          .start (utf8 "p") [], .start (utf8 "br") [], .stop, .text (utf8 "t"), .stop] ∧
      ((crossedMarkup.structureChildren 1).document.forestBelow 1).bodyText =
        utf8 " 1 < 2t" := by
  have hok : (crossedMarkup.structureChildren 1).ok := by decide +kernel
  obtain ⟨hmarks, hbody⟩ :=
    marks_structureChildren (show 1 < crossedMarkup.size by decide) (by decide) hok
  exact ⟨hok, hmarks.trans (by decide +kernel), hbody.trans (by decide +kernel)⟩

end Document

end MarkupTemplate
