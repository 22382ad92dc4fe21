import MarkupTemplate.Proofs.Fragment
import MarkupTemplate.Proofs.Resumption

/-!
# What assemblies are built of

An assembly is put together of few pieces: holes, texts, attributes and elements. A property that
all pieces have, and that is kept when forests are put side by side and under an element, is one of
everything that is assembled. Texts come from tokens, so nowhere in them a tag or a comment starts.

## Main definitions

* `Forest.Buildable`: all that is built of the pieces has a property
* `Assembly.Built`: a forest with an open path has a property, in so far as it is closed

## Main results

* `Cursor.isPlain_of_mem_tokens`: the text of a token is plain
* `Assembly.built_run`: what is assembled has every property of what is built of the pieces
-/

namespace MarkupTemplate

open Markup

/-! ## Texts -/

/-- A text taken from in front of markup starts none by itself. -/
theorem isPlain_beforeMarkup (s : Bytes) : isPlain (beforeMarkup s) = true := by
  induction s with
  | nil => rfl
  | cons b rest ih =>
    rw [beforeMarkup]
    split
    · rfl
    · next hs =>
      have hsplit : b :: rest = (b :: beforeMarkup rest) ++ rest.drop (beforeMarkup rest).length :=
        congrArg (b :: ·) (beforeMarkup_append_drop rest).symm
      have hnot : startsMarkup (b :: beforeMarkup rest) ≠ true := fun hstarts =>
        hs (hsplit ▸ startsMarkup_append_of_startsMarkup hstarts _)
      simp [isPlain, ih, hnot]

namespace Cursor

variable {c c' : Cursor} {data : Bytes}

theorem isPlain_of_next? {t : Token} (h : c.next? = some (t, c')) (ht : t.content = .text data) :
    data ≠ [] ∧ isPlain data = true := by
  obtain ⟨-, content, hd, rfl⟩ | ⟨hs, hne, rfl, -⟩ := next?_cases h
  · obtain rfl : content = .text data := ht
    exact absurd hd not_text_of_markup?
  · obtain rfl : beforeMarkup c.rest = data := Content.text.inj ht
    have hpos := length_beforeMarkup_pos hne hs
    exact ⟨List.ne_nil_of_length_pos hpos, isPlain_beforeMarkup _⟩

/-- The text of a token is not empty, and nowhere in it a tag or a comment starts. -/
theorem isPlain_of_mem_tokens {t : Token} (ht : t ∈ c.tokens.1) (hdata : t.content = .text data) :
    data ≠ [] ∧ isPlain data = true :=
  forall_mem_tokens (P := fun t => t.content = .text data → data ≠ [] ∧ isPlain data = true)
    (fun _ _ _ hnext hdata => isPlain_of_next? hnext hdata) t ht hdata

end Cursor

/-! ## Pieces -/

/-- A property of forests, under an element or under the container, that all pieces of an assembly
have, and that is kept when forests are put side by side and under an element. -/
structure Forest.Buildable (P : Bool → Forest → Prop) : Prop where
  nil (inElement : Bool) : P inElement .nil
  append {inElement : Bool} {f g : Forest} (hf : P inElement f) (hg : P inElement g) :
    P inElement (f ++ g)
  hole (inElement : Bool) (node : NodeId) : P inElement (.cons node default .nil .nil)
  text (inElement : Bool) (node : NodeId) {data : Bytes} (hne : data ≠ [])
    (hplain : isPlain data = true) :
    P inElement (.cons node { kind := .markup, fragments := [data] } .nil .nil)
  attributes (next : Nat) (name : Bytes) (parts : List ValuePart) :
    P true (attributeForest next name parts)
  element {inElement : Bool} {label : Label} {children : Forest} (node : NodeId)
    (hkind : label.kind = .element) (hchildren : P true children) :
    P inElement (.cons node label children .nil)

variable {P : Bool → Forest → Prop}

theorem Forest.Buildable.leaves (hP : Forest.Buildable P) (inElement : Bool) (ids : List NodeId) :
    P inElement (Forest.leaves ids) := by
  induction ids with
  | nil => exact hP.nil inElement
  | cons id ids ih => exact hP.append (hP.hole inElement id) ih

/-! ## Assemblies -/

namespace Assembly

variable {a : Assembly}

/-- What stands in front of the open elements has the property. All of them but the last are open in
an element. -/
def BuiltPath (P : Bool → Forest → Prop) : List OpenBranch → Prop
  | [] => True
  | branch :: path =>
    (branch.label.kind = .element ∧ P (!path.isEmpty) branch.before) ∧ BuiltPath P path

/-- What is assembled has the property, in so far as it is closed. -/
structure Built (P : Bool → Forest → Prop) (a : Assembly) : Prop where
  content : P (!a.path.isEmpty) a.content
  path : BuiltPath P a.path

namespace Built

/-- Nothing becomes content. -/
theorem wait (h : a.Built P) (waiting : List Hole) (carried : Bytes) :
    Built P { a with waiting := waiting, carried := carried } := ⟨h.content, h.path⟩

variable (hP : Forest.Buildable P)
include hP

theorem start (n : Nat) : Built P { next := n } := ⟨hP.nil false, trivial⟩

/-- The content goes on with something of the property. -/
theorem add (h : a.Built P) {a' : Assembly} {f : Forest} (hf : P (!a.path.isEmpty) f)
    (hpath : a'.path = a.path) (hcontent : a'.content = a.content ++ f) : a'.Built P := by
  refine ⟨?_, hpath ▸ h.path⟩
  rw [hpath, hcontent]
  exact hP.append h.content hf

theorem release (h : a.Built P) (p : Hole → Bool) : (a.release p).Built P :=
  h.add hP (hP.leaves _ _) rfl rfl

theorem enter (h : a.Built P) (name : Bytes) : (a.enter name).Built P :=
  ⟨hP.nil true, ⟨rfl, h.content⟩, h.path⟩

/-- Attributes come under an open element. -/
theorem foldl_attach (h : a.Built P) (hpath : a.path ≠ []) (entries : List Attribute) :
    (entries.foldl Assembly.attach a).Built P := by
  induction entries generalizing a with
  | nil => exact h
  | cons entry entries ih =>
    have hopen : (!a.path.isEmpty) = true := by simpa using hpath
    have hentry := hP.attributes a.next entry.name.text (a.parts entry)
    exact ih (h.add hP (hopen ▸ hentry) rfl rfl) hpath

theorem openElement (h : a.Built P) (name : Bytes) (attributes : List Attribute) :
    (a.openElement name attributes).Built P :=
  (((h.release hP _).enter hP name).foldl_attach hP (List.cons_ne_nil _ _) attributes).release hP _

theorem closeElement (h : a.Built P) (name : Bytes) : (a.closeElement name).Built P := by
  unfold Assembly.closeElement
  split
  · exact ⟨h.content, h.path⟩
  · next branch path hpath =>
    -- The content was under an open element, so all of it could stand in one.
    have hcontent := h.content
    have hbranches := h.path
    rw [hpath] at hcontent hbranches
    obtain ⟨⟨hkind, hbefore⟩, hrest⟩ := hbranches
    have hclosed : (closedLabel name branch.label).kind = .element := by
      unfold closedLabel
      split <;> exact hkind
    exact ⟨hP.append hbefore (hP.element branch.node hclosed hcontent), hrest⟩

theorem addText (h : a.Built P) {data : Bytes} (hne : data ≠ []) (hplain : isPlain data = true) :
    (a.addText data).Built P := by
  unfold Assembly.addText
  split
  · exact h
  · exact h.add hP (hP.text _ a.next hne hplain) rfl rfl

/-- A token leads from what is built to what is built. -/
theorem apply (h : a.Built P) {t : Token}
    (ht : ∀ data, t.content = .text data → data ≠ [] ∧ isPlain data = true) :
    (a.apply t).Built P := by
  obtain ⟨offset, length, content⟩ := t
  cases content with
  | startTag name attributes selfClosing =>
    have hopen := h.openElement hP name.text attributes
    simp only [Assembly.apply]
    split
    · exact hopen.closeElement hP name.text
    · exact hopen
  | endTag name => exact (h.release hP _).closeElement hP name.text
  | text data =>
    obtain ⟨hne, hplain⟩ := ht data rfl
    exact (h.release hP _).addText hP hne hplain
  | comment data => exact h.release hP _

theorem foldl_apply (h : a.Built P) {ts : List Token}
    (hts : ∀ t ∈ ts, ∀ data, t.content = .text data → data ≠ [] ∧ isPlain data = true) :
    (ts.foldl Assembly.apply a).Built P := by
  induction ts generalizing a with
  | nil => exact h
  | cons t ts ih =>
    exact ih (h.apply hP (hts t List.mem_cons_self)) fun u hu => hts u (List.mem_cons_of_mem _ hu)

/-- So does the next child, whatever it is. -/
theorem take (h : a.Built P) (item : Item) : (a.take item).Built P := by
  cases item with
  | markup text =>
    have hfold : ((scan (a.carried ++ text)).tokens.foldl Assembly.apply a).Built P :=
      h.foldl_apply hP fun t ht data hdata => Cursor.isPlain_of_mem_tokens ht hdata
    simp only [Assembly.take, Assembly.takeMarkup]
    split
    · exact hfold.wait _ _
    · exact hfold.wait _ _
  | «attribute» node => exact h.wait _ _
  | hole node =>
    simp only [Assembly.take]
    split
    · exact h.add hP (hP.leaves _ [node]) rfl rfl
    · exact h.wait _ _

theorem foldl_take (h : a.Built P) (items : List Item) :
    (items.foldl Assembly.take a).Built P := by
  induction items generalizing a with
  | nil => exact h
  | cons item items ih => exact ih (h.take hP item)

end Built

/-- What is assembled has every property of what is built of the pieces. -/
theorem built_run (hP : Forest.Buildable P) (n : Nat) (items : List Item) :
    (run n items).Built P := (Built.start hP n).foldl_take hP items

end Assembly

end MarkupTemplate
