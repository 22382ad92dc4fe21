import Mathlib.Data.List.Sort
import MarkupTemplate.Proofs.Annotation
import MarkupTemplate.Proofs.Balance
import MarkupTemplate.Proofs.Building
import MarkupTemplate.Proofs.CompiledProgram
import MarkupTemplate.Proofs.LoweredShape

/-!
# Which tag closes which element

An element is closed by the first end tag that comes when all elements opened after it are closed.
This can be read off the tokens, without a tree: one counts the elements that are open since. What
structuring reports of closing tags is said here in these terms, element by element.

The law behind it is one of conservation. The elements of an assembly are listed in document order
with all that will be reported of them, the open ones by looking ahead at the tokens to come. A token
then adds to the list what it says, and changes nothing of what is listed.

## Main definitions

* `Markup.closer`: the name in the end tag that closes an element
* `Markup.elements`: the elements that tokens make, each with its closing tag
* `Markup.strayTags`: the names in the end tags that come outside of all elements
* `closingDiagnostics`: what is reported of an element with its closing tag
* `Assembly.elements`: the elements of an assembly, with what will be reported of them
* `Document.ClosingsTold`: what structuring a container reports

## Main results

* `Assembly.elements_apply`: a token adds the element that it makes
* `Document.closingsTold_of_path_eq_nil`: what a structured container reports
* `closing_tags_reported`: the same, and what is reported of a template
-/

namespace MarkupTemplate

open Markup

/-! ## Closing tags among tokens -/

namespace Markup

/-- The name in the end tag that closes an element, if the given number of elements were opened
after it: end tags close the innermost element, so the others come first. -/
def closer (depth : Nat) : List Token → Option Bytes
  | [] => none
  | t :: ts =>
    match t.content, depth with
    | .endTag name, 0 => some name.text
    | _, _ => closer (t.depthAfter depth) ts

/-- The element that a token makes, given the tokens that follow: its name, and the name in the end
tag that closes it. An element of which the start tag is all there is has no end tag. -/
def elementOf (t : Token) (ts : List Token) : List (Bytes × Option Bytes) :=
  match t.content with
  | .startTag name _ selfClosing =>
    [(name.text, if selfClosing || isVoid name.text then none else closer 0 ts)]
  | _ => []

/-- The elements that tokens make, in order. -/
def elements : List Token → List (Bytes × Option Bytes)
  | [] => []
  | t :: ts => elementOf t ts ++ elements ts

/-- The name in an end tag that comes while the given number of elements are open, if it is none. -/
def strayTag (depth : Nat) (t : Token) : List Bytes :=
  match t.content with
  | .endTag name => if depth = 0 then [name.text] else []
  | _ => []

/-- The names in the end tags that come outside of all elements. -/
def strayTags (depth : Nat) : List Token → List Bytes
  | [] => []
  | t :: ts => strayTag depth t ++ strayTags (t.depthAfter depth) ts

/-- An end tag closes the innermost element, and counts for the others. -/
theorem closer_endTag (offset length : Nat) (name : Slice) (depth : Nat) (ts : List Token) :
    closer 0 (⟨offset, length, .endTag name⟩ :: ts) = some name.text ∧
      closer (depth + 1) (⟨offset, length, .endTag name⟩ :: ts) = closer depth ts :=
  ⟨rfl, rfl⟩

/-- Any other token only counts. -/
theorem closer_cons {t : Token} (ht : ∀ name, t.content ≠ .endTag name) (depth : Nat)
    (ts : List Token) : closer depth (t :: ts) = closer (t.depthAfter depth) ts := by
  obtain ⟨offset, length, content⟩ := t
  cases content with
  | endTag name => exact absurd rfl (ht name)
  | _ => rfl

end Markup

/-- What is reported of an element of a name that was closed by an end tag of another, or by none. A
tag of the same name, apart from the case of its letters, is in order. -/
def closingDiagnostics (name : Bytes) (closer : Option Bytes) (span : Option Span) :
    List Diagnostic :=
  match closer with
  | none => []
  | some found =>
    if Bytes.equalsIgnoringCase name found then [] else [.mismatchedClosingTag found name span]

/-! ## The elements of a forest -/

namespace Forest

/-- A node with what it says, if it is an element. -/
def asElement (id : NodeId) (label : Label) : List (NodeId × Label) :=
  if label.kind = .element then [(id, label)] else []

/-- The elements in a forest, with what they say, in document order. -/
def elements : Forest → List (NodeId × Label)
  | nil => []
  | cons id label children siblings =>
    asElement id label ++ (children.elements ++ siblings.elements)

@[simp] theorem elements_append (f g : Forest) :
    (f ++ g).elements = f.elements ++ g.elements := by
  induction f with
  | nil => rfl
  | cons id label children siblings _ ih => simp [elements, ih]

@[simp] theorem elements_leaves (ids : List NodeId) : (leaves ids).elements = [] := by
  induction ids with
  | nil => rfl
  | cons id ids ih => rw [leaves, elements, ih]; rfl

theorem elements_valueForest (next : Nat) (parts : List ValuePart) :
    (valueForest next parts).elements = [] := by
  induction parts generalizing next with
  | nil => rfl
  | cons part parts ih =>
    cases part with
    | literal text => rw [valueForest, elements, ih]; rfl
    | hole node => rw [valueForest, elements, ih]; rfl

@[simp] theorem elements_attributeForest (next : Nat) (name : Bytes) (parts : List ValuePart) :
    (attributeForest next name parts).elements = [] := by
  simp [attributeForest, elements, asElement, elements_valueForest]

end Forest

/-! ## The elements of an assembly -/

namespace Assembly

variable {a : Assembly}

/-- The label of an element at its end, given its closing tag. -/
def settle (label : Label) (closer : Option Bytes) : Label :=
  { label with
    diagnostics := label.diagnostics ++ closingDiagnostics label.name closer none }

/-- The elements under open elements with the given content in the innermost of them, where the given
number of elements are open in there. What will be reported of the open ones is known from the tokens
to come. -/
def openElements (ts : List Token) : Nat → List OpenBranch → Forest → List (NodeId × Label)
  | _, [], content => content.elements
  | depth, branch :: path, content =>
    openElements ts (depth + 1) path branch.before ++
      (Forest.asElement branch.node (settle branch.label (closer depth ts)) ++ content.elements)

/-- The elements of an assembly in document order, as they will be after the tokens. -/
def elements (a : Assembly) (ts : List Token) : List (NodeId × Label) :=
  openElements ts 0 a.path a.content

theorem closedLabel_eq_settle (name : Bytes) (label : Label) :
    closedLabel name label = settle label (some name) := by
  simp only [closedLabel, settle, closingDiagnostics]
  split
  · rw [List.append_nil]
  · rfl

theorem openElements_append (ts : List Token) (depth : Nat) (path : List OpenBranch)
    (f g : Forest) :
    openElements ts depth path (f ++ g) = openElements ts depth path f ++ g.elements := by
  cases path with
  | nil => exact f.elements_append g
  | cons branch path => simp [openElements]

/-- Only the closing tags of the open elements matter. -/
theorem openElements_congr {ts us : List Token} {depth depth' : Nat} (path : List OpenBranch)
    (content : Forest) (h : ∀ k, closer (depth + k) ts = closer (depth' + k) us) :
    openElements ts depth path content = openElements us depth' path content := by
  induction path generalizing depth depth' content with
  | nil => rfl
  | cons branch path ih =>
    have hbranch := h 0
    rw [Nat.add_zero, Nat.add_zero] at hbranch
    rw [openElements, openElements, hbranch, ih branch.before fun k => ?_]
    have hk := h (k + 1)
    rwa [Nat.add_right_comm, Nat.add_right_comm depth']

/-- A token that opens no element and closes none adds none. -/
theorem openElements_cons {t : Token} (ht : ∀ name, t.content ≠ .endTag name)
    (hdepth : ∀ depth, t.depthAfter depth = depth) (ts : List Token) (depth : Nat)
    (path : List OpenBranch) (content : Forest) :
    openElements (t :: ts) depth path content = openElements ts depth path content :=
  openElements_congr path content fun k => by rw [closer_cons ht, hdepth]

theorem elements_release (p : Hole → Bool) (a : Assembly) (ts : List Token) :
    (a.release p).elements ts = a.elements ts := by
  rw [elements, elements, release, openElements_append, Forest.elements_leaves, List.append_nil]

theorem elements_addText (data : Bytes) (a : Assembly) (ts : List Token) :
    (a.addText data).elements ts = a.elements ts := by
  unfold addText
  split
  · rfl
  · exact (openElements_append ts 0 a.path a.content _).trans (List.append_nil _)

/-- Attributes are no elements. -/
theorem elements_foldl_attach (entries : List Attribute) (a : Assembly) :
    (entries.foldl attach a).content.elements = a.content.elements := by
  induction entries generalizing a with
  | nil => rfl
  | cons entry entries ih =>
    rw [List.foldl_cons, ih, attach, Forest.elements_append, Forest.elements_attributeForest,
      List.append_nil]

/-- The element that a start tag opens comes behind all others, and there is none in it yet. -/
theorem openElement_eq (name : Bytes) (attributes : List Attribute) (a : Assembly) :
    ∃ ids, (a.openElement name attributes).path =
        ⟨a.next, { kind := .element, name := name }, a.content ++ Forest.leaves ids⟩ :: a.path ∧
      (a.openElement name attributes).content.elements = [] := by
  refine ⟨(a.waiting.filter (isBetween attributes)).map Hole.node, ?_, ?_⟩
  · simp only [openElement, release, path_foldl_attach]
    rfl
  · simp only [openElement, release]
    rw [Forest.elements_append, elements_foldl_attach, Forest.elements_leaves]
    rfl

/-- An element that is closed is listed as it was foreseen, given its closing tag. -/
theorem elements_closeElement {branch : OpenBranch} {path : List OpenBranch}
    (hpath : a.path = branch :: path) (name : Bytes) (ts : List Token) :
    (a.closeElement name).elements ts =
      openElements ts 0 path branch.before ++
        (Forest.asElement branch.node (settle branch.label (some name)) ++ a.content.elements) := by
  simp only [elements, closeElement, hpath, openElements_append, closedLabel_eq_settle]
  simp [Forest.elements]

/-- The label of an element with its closing tag, once all is reported. -/
def closedElement (e : Bytes × Option Bytes) : Label :=
  { kind := .element, name := e.1, diagnostics := closingDiagnostics e.1 e.2 none }

/-- A tag of the name of the element itself is in order. -/
theorem closingDiagnostics_self (name : Bytes) (span : Option Span) :
    closingDiagnostics name (some name) span = [] :=
  if_pos (Bytes.equalsIgnoringCase_iff.2 rfl)

/-- A token adds the element that it makes, and leaves the others as they will be. -/
theorem elements_apply (a : Assembly) (t : Token) (ts : List Token) :
    (a.apply t).elements ts =
      a.elements (t :: ts) ++ (elementOf t ts).map fun e => (a.next, closedElement e) := by
  obtain ⟨offset, length, content⟩ := t
  cases content with
  | startTag name attributes selfClosing =>
    obtain ⟨ids, hpath, hcontent⟩ := openElement_eq name.text attributes a
    have hbefore : ∀ depth, openElements ts depth a.path (a.content ++ Forest.leaves ids) =
        openElements ts depth a.path a.content := by
      intro depth
      rw [openElements_append, Forest.elements_leaves, List.append_nil]
    have hdepth : ∀ depth : Nat,
        Token.depthAfter depth ⟨offset, length, .startTag name attributes selfClosing⟩ =
          if selfClosing || isVoid name.text then depth else depth + 1 := fun _ => rfl
    simp only [apply, elementOf, List.map_singleton]
    split
    · next hvoid =>
      -- The element is closed at once, by its own name.
      have hopen : a.elements (⟨offset, length, .startTag name attributes selfClosing⟩ :: ts) =
          openElements ts 0 a.path a.content :=
        openElements_congr a.path a.content fun k => by
          rw [closer_cons (by simp), hdepth, if_pos hvoid]
      rw [elements_closeElement hpath, hcontent, hbefore, hopen]
      simp only [settle, closingDiagnostics_self]
      rfl
    · next hvoid =>
      have hopen : a.elements (⟨offset, length, .startTag name attributes selfClosing⟩ :: ts) =
          openElements ts 1 a.path a.content :=
        openElements_congr a.path a.content fun k => by
          rw [closer_cons (by simp), hdepth, if_neg hvoid, Nat.zero_add, Nat.add_comm]
      rw [elements, hpath, openElements, hcontent, hbefore, hopen]
      rfl
  | endTag name =>
    simp only [apply, elementOf, List.map_nil, List.append_nil]
    rw [← elements_release Hole.isPositional a]
    generalize a.release Hole.isPositional = b
    cases hpath : b.path with
    | nil =>
      simp only [elements, closeElement, hpath]
      rfl
    | cons branch path =>
      have hopen : openElements (⟨offset, length, .endTag name⟩ :: ts) 1 path branch.before =
          openElements ts 0 path branch.before :=
        openElements_congr path branch.before fun k => by
          rw [Nat.add_comm 1, (closer_endTag _ _ _ _ _).2, Nat.zero_add]
      rw [elements_closeElement hpath, elements, hpath, openElements, hopen]
      rfl
  | text data =>
    rw [apply, elements_addText, elements_release]
    exact (openElements_cons (by simp) (fun _ => rfl) ts 0 a.path a.content).symm.trans
      (List.append_nil _).symm
  | comment data =>
    rw [apply, elements_release]
    exact (openElements_cons (by simp) (fun _ => rfl) ts 0 a.path a.content).symm.trans
      (List.append_nil _).symm

/-- What is listed of the elements, those of the tokens to come included, is conserved. -/
theorem conserved_elements : Conserved fun a ts =>
    (a.elements ts).map Prod.snd ++ (Markup.elements ts).map closedElement where
  apply a t ts := by
    rw [elements_apply, List.map_append, List.map_map, List.append_assoc, Markup.elements,
      List.map_append]
    rfl
  hole a node ts := by
    rw [elements, openElements_append, Forest.elements_leaves, List.append_nil]
    rfl
  wait _ _ _ _ := rfl

/-! ## End tags outside of all elements -/

theorem diagnostics_openElement (name : Bytes) (attributes : List Attribute) (a : Assembly) :
    (a.openElement name attributes).diagnostics = a.diagnostics := by
  have hfold : ∀ (entries : List Attribute) (b : Assembly),
      (entries.foldl attach b).diagnostics = b.diagnostics := by
    intro entries
    induction entries with
    | nil => exact fun _ => rfl
    | cons entry entries ih => exact fun b => ih (b.attach entry)
  exact hfold attributes _

theorem diagnostics_closeElement (name : Bytes) (a : Assembly) :
    (a.closeElement name).diagnostics =
      a.diagnostics ++ if a.path.length = 0 then [.unexpectedClosingTag name none] else [] := by
  unfold closeElement
  cases hpath : a.path with
  | nil => rfl
  | cons branch path => exact (List.append_nil _).symm

/-- A token reports that it is an end tag outside of all elements, or nothing. -/
theorem diagnostics_apply (a : Assembly) (t : Token) :
    (a.apply t).diagnostics =
      a.diagnostics ++ (strayTag a.path.length t).map (.unexpectedClosingTag · none) := by
  obtain ⟨offset, length, content⟩ := t
  cases content with
  | startTag name attributes selfClosing =>
    simp only [apply, strayTag, List.map_nil, List.append_nil]
    split
    · rw [diagnostics_closeElement, path_openElement, if_neg (Nat.succ_ne_zero _),
        List.append_nil, diagnostics_openElement]
    · exact diagnostics_openElement name.text attributes a
  | endTag name =>
    simp only [apply, strayTag]
    rw [diagnostics_closeElement]
    show a.diagnostics ++ (if a.path.length = 0 then _ else _) = _
    split <;> rfl
  | text data =>
    have hsame : ((a.release Hole.isPositional).addText data).diagnostics = a.diagnostics := by
      unfold addText
      split <;> rfl
    exact hsame.trans (List.append_nil _).symm
  | comment data => exact (List.append_nil _).symm

theorem conserved_strayTags : Conserved fun a ts =>
    a.diagnostics ++ (strayTags a.path.length ts).map (.unexpectedClosingTag · none) where
  apply a t ts := by
    rw [diagnostics_apply, path_apply, List.append_assoc, strayTags, List.map_append]
  hole _ _ _ := rfl
  wait _ _ _ _ := rfl

/-! ## The numbers of the elements -/

/-- The numbers of the elements of an assembly, in document order. -/
def elementIds (a : Assembly) : List NodeId := (a.elements []).map Prod.fst

/-- What is to come makes no difference to the numbers. -/
theorem map_fst_openElements (ts us : List Token) (depth depth' : Nat) (path : List OpenBranch)
    (content : Forest) :
    (openElements ts depth path content).map Prod.fst =
      (openElements us depth' path content).map Prod.fst := by
  induction path generalizing depth depth' content with
  | nil => rfl
  | cons branch path ih =>
    have hbranch : ∀ closer closer', (Forest.asElement branch.node
        (settle branch.label closer)).map Prod.fst =
          (Forest.asElement branch.node (settle branch.label closer')).map Prod.fst := by
      intro closer closer'
      by_cases hkind : branch.label.kind = .element <;> simp [Forest.asElement, settle, hkind]
    simp only [openElements, List.map_append]
    rw [ih (depth + 1) (depth' + 1), hbranch]

theorem elementIds_apply (a : Assembly) (t : Token) :
    (a.apply t).elementIds = a.elementIds ++ (elementOf t []).map fun _ => a.next := by
  rw [elementIds, elements_apply, List.map_append, List.map_map, elements,
    map_fst_openElements [t] [] 0 0]
  rfl

theorem elementIds_hole (a : Assembly) (node : NodeId) :
    elementIds { a with content := a.content ++ Forest.leaves [node] } = a.elementIds := by
  rw [elementIds, elements, openElements_append, Forest.elements_leaves, List.append_nil]
  rfl

theorem next_closeElement (name : Bytes) (a : Assembly) : (a.closeElement name).next = a.next := by
  unfold closeElement
  split <;> rfl

theorem next_openElement (name : Bytes) (attributes : List Attribute) (a : Assembly) :
    a.next + 1 ≤ (a.openElement name attributes).next := by
  have hfold : ∀ (entries : List Attribute) (b : Assembly),
      b.next ≤ (entries.foldl attach b).next := by
    intro entries
    induction entries with
    | nil => exact fun b => Nat.le_refl _
    | cons entry entries ih =>
      intro b
      refine Nat.le_trans ?_ (ih (b.attach entry))
      simp only [attach]
      omega
  exact hfold attributes (enter name (a.release _))

/-- An element takes a number of its own. -/
theorem next_apply (a : Assembly) (t : Token) :
    a.next + (elementOf t []).length ≤ (a.apply t).next := by
  obtain ⟨offset, length, content⟩ := t
  cases content with
  | startTag name attributes selfClosing =>
    have hopen := next_openElement name.text attributes a
    simp only [apply]
    split
    · rw [next_closeElement]
      exact hopen
    · exact hopen
  | endTag name =>
    rw [apply, next_closeElement]
    exact Nat.le_refl a.next
  | text data =>
    simp only [apply, addText]
    split
    · exact Nat.le_refl a.next
    · exact Nat.le_succ a.next
  | comment data => exact Nat.le_refl a.next

/-- The elements of an assembly have numbers that were given out from `n` on, in document order. -/
structure Ascending (n : Nat) (a : Assembly) : Prop where
  le : n ≤ a.next
  sorted : a.elementIds.Pairwise (· < ·)
  bounds : ∀ id ∈ a.elementIds, n ≤ id ∧ id < a.next

namespace Ascending

variable {n : Nat}

theorem start (n : Nat) : Ascending n { next := n } := ⟨Nat.le_refl n, .nil, nofun⟩

theorem apply (h : Ascending n a) (t : Token) : Ascending n (a.apply t) := by
  have hle := h.le
  have hnext := next_apply a t
  have hids := elementIds_apply a t
  have hnew : ∀ id ∈ (elementOf t []).map fun _ => a.next,
      id = a.next ∧ a.next < (a.apply t).next := by
    intro id hid
    obtain ⟨e, he, rfl⟩ := List.mem_map.1 hid
    have hpos := List.length_pos_of_mem he
    exact ⟨rfl, by omega⟩
  refine ⟨by omega, ?_, fun id hid => ?_⟩
  · rw [hids, List.pairwise_append]
    refine ⟨h.sorted, ?_, fun id hid id' hid' => ?_⟩
    · obtain ⟨offset, length, content⟩ := t
      cases content <;> simp [elementOf]
    · rw [(hnew id' hid').1]
      exact (h.bounds id hid).2
  · rw [hids] at hid
    rcases List.mem_append.1 hid with hid | hid
    · obtain ⟨hlow, hhigh⟩ := h.bounds id hid
      exact ⟨hlow, Nat.lt_of_lt_of_le hhigh (by omega)⟩
    · obtain ⟨rfl, hlt⟩ := hnew id hid
      exact ⟨hle, hlt⟩

theorem foldl_apply (h : Ascending n a) (ts : List Token) :
    Ascending n (ts.foldl Assembly.apply a) :=
  List.foldlRecOn (motive := Ascending n) ts _ h fun _ h t _ => h.apply t

theorem take (h : Ascending n a) (item : Item) : Ascending n (a.take item) := by
  cases item with
  | markup text =>
    have hfold := h.foldl_apply (scan (a.carried ++ text)).tokens
    simp only [Assembly.take, takeMarkup]
    split <;> exact ⟨hfold.le, hfold.sorted, hfold.bounds⟩
  | «attribute» node => exact ⟨h.le, h.sorted, h.bounds⟩
  | hole node =>
    simp only [Assembly.take]
    split
    · have hsame := elementIds_hole a node
      exact ⟨h.le, hsame ▸ h.sorted, hsame ▸ h.bounds⟩
    · exact ⟨h.le, h.sorted, h.bounds⟩

end Ascending

theorem ascending_run (n : Nat) (items : List Item) : Ascending n (run n items) :=
  List.foldlRecOn (motive := Ascending n) items _ (.start n) fun _ h item _ => h.take item

end Assembly

/-! ## What reports nothing -/

namespace Forest

/-- What is no element reports nothing. -/
def Quiet (_ : NodeId) (l : Label) (_ : List NodeKind) : Prop :=
  l.kind ≠ .element → l.diagnostics = []

theorem all_quiet_valueForest (next : Nat) (parts : List ValuePart) :
    (valueForest next parts).All Quiet := by
  induction parts generalizing next with
  | nil => trivial
  | cons part parts ih =>
    cases part with
    | literal text => exact ⟨fun _ => rfl, trivial, ih (next + 1)⟩
    | hole node => exact ⟨fun _ => rfl, trivial, ih next⟩

/-- Nothing but elements is assembled that reports anything. -/
theorem buildable_quiet : Buildable fun _ f => f.All Quiet where
  nil _ := trivial
  append hf hg := all_append.2 ⟨hf, hg⟩
  hole _ _ := ⟨fun _ => rfl, trivial, trivial⟩
  text _ _ _ _ _ := ⟨fun _ => rfl, trivial, trivial⟩
  attributes _ _ _ := ⟨fun _ => rfl, ⟨fun _ => rfl, all_quiet_valueForest _ _, trivial⟩, trivial⟩
  element _ hkind hchildren := ⟨fun h => absurd hkind h, hchildren, trivial⟩

variable {d : Document} {n : Nat} {f : Forest}

/-- So it is in the document that holds what is assembled. -/
theorem diagnostics_of_mem_created (hholds : d.Holds n f) (hquiet : f.All Quiet) {id : NodeId}
    (hid : id ∈ f.created n) (hkind : d.kind id ≠ .element) : (d.label id).diagnostics = [] := by
  induction f with
  | nil => exact absurd hid List.not_mem_nil
  | cons id' label children siblings ihc ihs =>
    obtain ⟨hid', hchildren, hsiblings⟩ := hholds
    obtain ⟨hlabel, hquietc, hquiets⟩ := hquiet
    simp only [created, preorder, List.mem_filter, List.mem_cons, List.mem_append] at hid ihc ihs
    obtain ⟨rfl | hmem | hmem, hle⟩ := hid
    · obtain ⟨hplain, -⟩ := hid' (by simpa using hle)
      have hnone : (d.label id).plain.diagnostics = [] := by
        rw [hplain]
        refine hlabel fun h => hkind ?_
        rw [← h, ← hplain]
        rfl
      exact List.map_eq_nil_iff.1 hnone
    · exact ihc hchildren hquietc ⟨hmem, hle⟩
    · exact ihs hsiblings hquiets ⟨hmem, hle⟩

/-- The elements of a forest are those of the nodes that were made, with what the document says of
them. -/
theorem elements_eq (hholds : d.Holds n f) (hids : ∀ id ∈ f.elements.map Prod.fst, n ≤ id) :
    f.elements = ((f.created n).filter fun id => d.kind id == .element).map fun id =>
      (id, (d.label id).plain) := by
  induction f with
  | nil => rfl
  | cons id label children siblings ihc ihs =>
    obtain ⟨hid, hchildren, hsiblings⟩ := hholds
    simp only [elements, List.map_append, List.mem_append] at hids
    have hc := ihc hchildren fun i hi => hids i (.inr (.inl hi))
    have hs := ihs hsiblings fun i hi => hids i (.inr (.inr hi))
    by_cases hkind : label.kind = .element
    · have hle : n ≤ id := hids id (.inl (by simp [asElement, hkind]))
      obtain ⟨hlabel, -⟩ := hid hle
      have hkind' : d.kind id = .element := by rw [← hkind, ← hlabel]; rfl
      rw [elements, hc, hs, created_cons_of_le hle]
      simp [asElement, hkind, hkind', hlabel]
    · -- A node that is no element is left out, whether it was made or not.
      rw [elements, hc, hs, asElement, if_neg hkind, List.nil_append]
      rcases Nat.lt_or_ge id n with hlt | hle
      · rw [created_cons_of_lt hlt, List.filter_append, List.map_append]
      · obtain ⟨hlabel, -⟩ := hid hle
        have hkind' : d.kind id ≠ .element := fun h => hkind (by rw [← hlabel]; exact h)
        rw [created_cons_of_le hle]
        simp [hkind']

/-- The elements of a forest are the same in a document that has nodes of the same kinds. -/
theorem SameKinds.filter_preorder (h : f.SameKinds d.label) :
    (f.preorder.filter fun id => d.kind id == .element) = f.elements.map Prod.fst := by
  induction f with
  | nil => rfl
  | cons id label children siblings ihc ihs =>
    obtain ⟨hkind, hchildren, hsiblings⟩ := h
    have hkind : d.kind id = .element ↔ label.kind = .element := by
      constructor
      · intro h
        have h : (d.label id).kind = .element := h
        rw [h] at hkind
        exact NodeKind.eq_of_bare_eq hkind.symm (by decide)
      · intro h
        rw [h] at hkind
        exact NodeKind.eq_of_bare_eq hkind (by decide)
    have hfirst : [id].filter (fun id => d.kind id == .element) =
        (asElement id label).map Prod.fst := by
      by_cases h : label.kind = .element <;> simp [asElement, h, hkind]
    rw [elements, List.map_append, List.map_append, ← ihc hchildren, ← ihs hsiblings, ← hfirst,
      preorder, ← List.filter_append, ← List.filter_append]
    rfl

end Forest

/-! ## Structured containers -/

namespace Document

variable {d : Document} {container : NodeId}

/-- The elements among the nodes that the document `d'` has beyond `d`, in the order in which they
were made. -/
def addedElements (d d' : Document) : List NodeId :=
  (d.added d').filter fun id => d'.kind id == .element

/-- The tokens of the markup under a container, one piece after another. -/
def tokensBelow (d : Document) (container : NodeId) : List Token :=
  tokensOf [] (d.markupTexts (d.children container))

/-- The document `d'` reports of closing tags what the markup under a container of `d` says. The
container reports the end tags outside of all elements, in order. The elements that were made come in
the order of their start tags, and each reports its end tag if this has another name, and nothing
else. No other node reports anything new. -/
structure ClosingsTold (d : Document) (container : NodeId) (d' : Document) : Prop where
  stray : (d'.label container).diagnostics = (d.label container).diagnostics ++
    (strayTags 0 (d.tokensBelow container)).map (.unexpectedClosingTag · (d.label container).span)
  elements : List.Forall₂ (fun id (e : Bytes × Option Bytes) =>
      (d'.label id).name = e.1 ∧
        (d'.label id).diagnostics = closingDiagnostics e.1 e.2 (d'.label id).span)
    (d.addedElements d') (Markup.elements (d.tokensBelow container))
  others : ∀ id, id ≠ container → id ∉ d.addedElements d' →
    (d'.label id).diagnostics = (d.label id).diagnostics

section

variable (hcontainer : container < d.size)
  (hchildren : ∀ child ∈ d.children container, child < d.size)
  (hpath : (d.assembly container).path = [])
include hcontainer hchildren hpath

/-- The elements that were made stand in document order, and say what the tokens say. -/
theorem elements_structureChildren :
    let d' := (d.structureChildren container).document
    (d.assembly container).content.elements =
        (d.addedElements d').map (fun id => (id, (d'.label id).plain)) ∧
      (d.addedElements d').map (fun id => (d'.label id).plain) =
        (Markup.elements (d.tokensBelow container)).map Assembly.closedElement := by
  intro d'
  have hascending := Assembly.ascending_run d.size (d.items container)
  have hids : (d.assembly container).elementIds =
      (d.assembly container).content.elements.map Prod.fst := by
    rw [Assembly.elementIds, Assembly.elements, hpath]
    rfl
  have hcontent := (d.assembly container).content.elements_eq
    (stored_structureChildren hcontainer hchildren).content
    fun id hid => (hascending.bounds id (hids ▸ hid)).1
  have hnumbers : (d.assembly container).elementIds =
      ((d.assembly container).content.created d.size).filter fun id => d'.kind id == .element := by
    rw [hids, hcontent, List.map_map]
    exact List.map_id _
  -- Both lists have the same nodes, and both are in the order of their numbers.
  have hsame : ((d.assembly container).content.created d.size).filter
      (fun id => d'.kind id == .element) = d.addedElements d' := by
    refine List.Perm.eq_of_pairwise' (hnumbers ▸ hascending.sorted) ?_
      ((perm_created hcontainer hchildren hpath).filter _)
    exact (List.pairwise_lt_range' 1).filter _
  rw [hsame] at hcontent
  refine ⟨hcontent, ?_⟩
  have hconserved := Assembly.conserved_elements.foldl_take { next := d.size } (d.items container)
  have htexts : (d.items container).filterMap Item.markup? = d.markupTexts (d.children container) :=
    filterMap_markup?_item d (d.children container)
  have hassembly : (d.assembly container).elements [] = (d.assembly container).content.elements := by
    rw [Assembly.elements, hpath]
    rfl
  simp only [htexts, Markup.elements, List.map_nil, List.append_nil] at hconserved
  rw [← Assembly.run, ← assembly, hassembly, hcontent, List.map_map] at hconserved
  exact hconserved

/-- A structured container reports of closing tags what its markup says. -/
theorem closingsTold_of_path_eq_nil :
    d.ClosingsTold container (d.structureChildren container).document := by
  have hstored := stored_structureChildren hcontainer hchildren
  have hannotates := d.annotates_structureChildren container
  have hcreated := perm_created hcontainer hchildren hpath
  -- A number that was given out in structuring stood for no node before.
  have hnew : ∀ id, d.size ≤ id → (d.label id).diagnostics = [] := by
    intro id hid
    rw [label, node_of_size_le d hid]
    rfl
  refine ⟨?_, ?_, fun id hne hid => ?_⟩
  · have hconserved := Assembly.conserved_strayTags.foldl_take { next := d.size } (d.items container)
    have htexts : (d.items container).filterMap Item.markup? =
        d.markupTexts (d.children container) :=
      filterMap_markup?_item d (d.children container)
    simp only [htexts, strayTags, List.map_nil, List.append_nil] at hconserved
    have hdiagnostics := diagnostics_structureChildren hcontainer hchildren
    rw [assembly, Assembly.run, hconserved] at hdiagnostics
    rw [hannotates.diagnostics_eq hdiagnostics, span_structureChildren hcontainer hchildren hcontainer,
      List.nil_append, List.map_map]
    rfl
  · obtain ⟨-, hlabels⟩ := elements_structureChildren hcontainer hchildren hpath
    have hforall : List.Forall₂ Eq
        ((d.addedElements (d.structureChildren container).document).map fun id =>
          ((d.structureChildren container).document.label id).plain)
        ((Markup.elements (d.tokensBelow container)).map Assembly.closedElement) := by
      rw [hlabels]
      exact List.forall₂_refl _
    rw [List.forall₂_map_left_iff, List.forall₂_map_right_iff] at hforall
    refine ((List.forall₂_and_left (p := (d.size ≤ ·)) _ _).2 ⟨fun id hid => ?_, hforall⟩).imp ?_
    · exact (List.mem_range'_1.1 (List.mem_filter.1 hid).1).1
    · rintro id e ⟨hid, hlabel⟩
      have hreported : ((d.structureChildren container).document.label id).plain.diagnostics =
          (d.label id).plain.diagnostics ++ closingDiagnostics e.1 e.2 none := by
        rw [congrArg Label.diagnostics hlabel, Label.plain, hnew id hid]
        rfl
      refine ⟨congrArg Label.name hlabel, ?_⟩
      rw [hannotates.diagnostics_eq hreported, hnew id hid, List.nil_append]
      unfold closingDiagnostics
      split
      · rfl
      · split <;> rfl
  · -- A node was there before and stays, or it was made and is no element, or there is none.
    rcases Nat.lt_or_ge id d.size with hlt | hge
    · rw [label_eq_of_node_eq (hstored.kept id hlt hne)]
    · rw [hnew id hge]
      rcases Nat.lt_or_ge id (d.structureChildren container).document.size with hlt | hge'
      · have hadded : id ∈ d.added (d.structureChildren container).document := by
          rw [added, List.mem_range'_1]
          omega
        refine Forest.diagnostics_of_mem_created hstored.content ?_ (hcreated.mem_iff.2 hadded)
          fun hkind => hid (List.mem_filter.2 ⟨hadded, by simpa using hkind⟩)
        exact (Assembly.built_run Forest.buildable_quiet d.size (d.items container)).content
      · rw [label, node_of_size_le _ hge']
        rfl

end

/-! ## Templates -/

/-- A document that exhibits a forest reports what its nodes report, one after another. -/
theorem Exhibits.diagnostics_eq {f : Forest} (h : d.Exhibits f) :
    f.diagnostics = f.preorder.flatMap fun id => (d.label id).diagnostics := by
  induction f with
  | nil => rfl
  | cons id label children siblings ihc ihs =>
    obtain ⟨⟨rfl, -⟩, hchildren, hsiblings⟩ := h
    rw [Forest.diagnostics, Forest.preorder, List.flatMap_cons, List.flatMap_append, ihc hchildren,
      ihs hsiblings]

namespace Flat

/-- A flat document has no elements. -/
theorem kind_ne_element (h : d.Flat) (id : NodeId) : d.kind id ≠ .element := by
  intro helement
  rcases Nat.eq_zero_or_pos id with rfl | hpos
  · exact absurd (helement.symm.trans h.kind_root) (by decide)
  · rcases Nat.lt_or_ge id d.size with hlt | hge
    · have hkind := (h.leaf id hpos hlt).2
      rw [helement] at hkind
      exact absurd hkind (by decide)
    · rw [kind, node_of_size_le d hge] at helement
      exact absurd helement (by decide)

/-- Structuring a flat document leaves the root what it is. -/
theorem kind_root_structured (h : d.Flat) (hok : d.structured.ok) :
    d.structured.document.kind root = .document := by
  rw [h.structured_eq] at hok ⊢
  split at hok
  · next hmarkup =>
    rw [if_pos hmarkup]
    exact (h.becomes hok).kind_root
  · next hmarkup =>
    rw [if_neg hmarkup]
    exact h.kind_root

/-- The elements under the root of a flat document that is structured stand in document order, in
the order in which they were made. -/
theorem filter_preorder (h : d.Flat) (hok : d.structured.ok) :
    let d' := d.structured.document
    ((d'.forestBelow root).preorder.filter fun id => d'.kind id == .element) =
      d.addedElements d' := by
  intro d'
  have hroot : root < d.size := d.size_pos
  have hchildren : ∀ child ∈ d.children root, child < d.size :=
    fun child hchild => (h.mem_children_root hchild).2
  by_cases hmarkup : (d.children root).any fun child => d.kind child == .markup
  · have hd' : d.structured = d.structureChildren root := h.structured_eq.trans (if_pos hmarkup)
    rw [hd'] at hok
    have hbecomes := h.becomes hok
    obtain ⟨hpath, -, -⟩ := (ok_structureChildren_iff hroot hchildren).1 hok
    obtain ⟨helements, -⟩ := elements_structureChildren hroot hchildren hpath
    have hkinds := sameKinds_of_holds hbecomes.holds hbecomes.shaped hbecomes.bare
    show ((d.structured.document.forestBelow root).preorder.filter _) = _
    simp only [d', hd', hbecomes.forestBelow_eq, Forest.preorder_relabel, hkinds.filter_preorder,
      helements, List.map_map]
    exact List.map_id _
  · -- Without markup nothing is made, and there is no element.
    have hd' : d.structured = ⟨d, []⟩ := h.structured_eq.trans (if_neg hmarkup)
    simp only [d', hd', addedElements]
    rw [List.filter_eq_nil_iff.2 fun id _ => by simpa using h.kind_ne_element id,
      List.filter_eq_nil_iff.2 fun id _ => by simpa using h.kind_ne_element id]

/-- What a flat document reports of closing tags once it is structured. -/
theorem closingsTold (h : d.Flat) (hok : d.structured.ok) :
    d.ClosingsTold root d.structured.document := by
  have hroot : root < d.size := d.size_pos
  have hchildren : ∀ child ∈ d.children root, child < d.size :=
    fun child hchild => (h.mem_children_root hchild).2
  by_cases hmarkup : (d.children root).any fun child => d.kind child == .markup
  · have hd' : d.structured = d.structureChildren root := h.structured_eq.trans (if_pos hmarkup)
    rw [hd'] at hok ⊢
    exact closingsTold_of_path_eq_nil hroot hchildren
      ((ok_structureChildren_iff hroot hchildren).1 hok).1
  · have hd' : d.structured = ⟨d, []⟩ := h.structured_eq.trans (if_neg hmarkup)
    have htexts : d.markupTexts (d.children root) = [] := by
      rw [markupTexts, List.map_eq_nil_iff, List.filter_eq_nil_iff]
      simpa using hmarkup
    have hadded : d.addedElements d = [] := by simp [addedElements, added]
    rw [hd']
    refine ⟨?_, ?_, fun _ _ _ => rfl⟩
    · simp [tokensBelow, htexts, tokensOf, strayTags]
    · simp [tokensBelow, htexts, tokensOf, Markup.elements, hadded]

end Flat

end Document

/-- The nodes of a template report nothing before they are structured. -/
theorem diagnostics_readTemplate (source name : Bytes) (id : NodeId) :
    ((readTemplate source name).document.label id).diagnostics = [] := by
  refine List.foldlRecOn (motive := fun d : Document => ∀ id, (d.label id).diagnostics = []) _ _
    (fun id => ?_) (fun d h s _ id => ?_) id
  · cases id with
    | zero => rfl
    | succ id =>
      rw [Document.label, Document.node_of_size_le _ (Nat.succ_le_succ (Nat.zero_le id))]
      rfl
  · simp only [Document.under, Document.addNode, Document.label_appendChild]
    rcases Nat.lt_trichotomy id d.size with hlt | rfl | hlt
    · rw [Document.label_add_of_lt _ hlt, h id]
    · rw [Document.label_add_size]
      unfold Segment.node
      split <;> rfl
    · rw [Document.label, Document.node_of_size_le _ (by rw [Document.size_add]; exact hlt)]
      rfl

/-- The nodes that say nothing are left out. -/
theorem flatMap_filter_of_eq_nil {α β : Type} {f : α → List β} {p : α → Bool} {l : List α}
    (h : ∀ a ∈ l, p a = false → f a = []) : (l.filter p).flatMap f = l.flatMap f := by
  induction l with
  | nil => rfl
  | cons a l ih =>
    have hrest := ih fun b hb => h b (List.mem_cons_of_mem _ hb)
    cases hp : p a with
    | true => simp [hp, hrest]
    | false => simp [hp, hrest, h a List.mem_cons_self hp]

/-- In a tree in which nothing was reported before, the reports of closing tags are all there are:
those of the root come first, and then those of the elements. -/
theorem Document.ClosingsTold.diagnostics_eq {d d' : Document} (h : d.ClosingsTold root d')
    (htree : d'.IsTree) (hbefore : ∀ id, (d.label id).diagnostics = [])
    (helements : ((d'.forestBelow root).preorder.filter fun id => d'.kind id == .element) =
      d.addedElements d') :
    d'.diagnostics = (d'.label root).diagnostics ++
      (d.addedElements d').flatMap fun id => (d'.label id).diagnostics := by
  have hnodup := htree.nodup
  rw [htree.tree_eq, Forest.preorder, Forest.preorder, List.append_nil, List.nodup_cons] at hnodup
  -- Under the root nothing but the elements reports anything.
  have hquiet : ∀ id ∈ (d'.forestBelow root).preorder,
      (d'.kind id == .element) = false → (d'.label id).diagnostics = [] := by
    intro id hid hkind
    have hne : id ≠ root := fun he => hnodup.1 (he ▸ hid)
    rw [h.others id hne fun hmem => ?_]
    · exact hbefore id
    · have helement := (List.mem_filter.1 hmem).2
      rw [hkind] at helement
      exact absurd helement (by decide)
  rw [diagnostics, htree.tree_eq, Forest.diagnostics, Forest.diagnostics, List.append_nil,
    htree.occurs_below.exhibits.diagnostics_eq, ← helements, flatMap_filter_of_eq_nil hquiet]

/-- Structuring reports of closing tags what they say: each element that is made reports its end tag
if this has another name, and nothing else, and the container reports the end tags outside of all
elements. For a template all these reports come after those of the reader, the ones of the whole
template first, and then those of the elements in document order. -/
theorem closing_tags_reported :
    (∀ (d : Document) (container : NodeId), container < d.size →
      (∀ child ∈ d.children container, child < d.size) → (d.structureChildren container).ok →
        d.ClosingsTold container (d.structureChildren container).document) ∧
    ∀ (source name : Bytes) (components : Components) (verify : Bool),
      let reading := readTemplate source name
      let c := compileTemplate source name components verify
      c.usable →
        reading.document.ClosingsTold Document.root c.document ∧
          c.diagnostics = reading.diagnostics ++
            ((c.document.label Document.root).diagnostics ++
              (reading.document.addedElements c.document).flatMap fun id =>
                (c.document.label id).diagnostics) ∧
          c.document.tree.preorder.filter (fun id => c.document.kind id == .element) =
            reading.document.addedElements c.document := by
  refine ⟨fun d container hcontainer hchildren hok =>
    Document.closingsTold_of_path_eq_nil hcontainer hchildren
      ((Document.ok_structureChildren_iff hcontainer hchildren).1 hok).1, ?_⟩
  intro source name components verify reading c husable
  have hflat : reading.document.Flat := flat_readTemplate source name
  have hc : c = _ := compileTemplate_eq source name components verify
  have hdocument : c.document = reading.document.structured.document := by rw [hc]
  have hok : reading.document.structured.ok := by
    rw [Compilation.usable, hc] at husable
    exact husable
  have hdiagnostics : c.diagnostics =
      reading.diagnostics ++ reading.document.structured.document.diagnostics := by
    rw [hc]
    simp only [reading] at hok
    simp only [hok, if_true]
    rfl
  have hclosings := hflat.closingsTold hok
  have helements := hflat.filter_preorder hok
  have hroot := hflat.kind_root_structured hok
  obtain ⟨htree, -⟩ := Document.isTree_of_verify (hflat.structured hok).1
  rw [hdocument, hdiagnostics]
  refine ⟨hclosings, ?_, ?_⟩
  · rw [hclosings.diagnostics_eq htree (diagnostics_readTemplate source name) helements]
  · rw [htree.tree_eq, Forest.preorder, Forest.preorder, List.append_nil, List.filter_cons,
      if_neg (by simp [hroot]), helements]

/-- A template with an element in order but for the case of its name, one that is closed by another
name, and an end tag for an element that never has content. -/
def crossedTemplate : Bytes := utf8 "<UL>@a</ul><p class=\"@(b)\"></b><br></br>"

theorem crossed_tags_reported :
    (Document.crossedMarkup.structureChildren 1).ok ∧
      ((Document.crossedMarkup.structureChildren 1).document.label 1).diagnostics =
        [.unexpectedClosingTag (utf8 "i") none, .unexpectedClosingTag (utf8 "br") none] ∧
      (compileTemplate crossedTemplate [] [] true).usable ∧
      (compileTemplate crossedTemplate [] [] true).diagnostics.map Diagnostic.code =
        [utf8 "STENCIL-E2003", utf8 "STENCIL-E2001"] := by
  have hok : (Document.crossedMarkup.structureChildren 1).ok := by decide +kernel
  have husable : (compileTemplate crossedTemplate [] [] true).usable := by decide +kernel
  have htold := closing_tags_reported.1 Document.crossedMarkup 1 (by decide) (by decide) hok
  obtain ⟨-, hdiagnostics, -⟩ := closing_tags_reported.2 crossedTemplate [] [] true husable
  refine ⟨hok, htold.stray.trans (by decide +kernel), husable, ?_⟩
  rw [hdiagnostics]
  decide +kernel

end MarkupTemplate
