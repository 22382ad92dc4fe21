import MarkupTemplate.Proofs.LoweredShape
import MarkupTemplate.Proofs.Transcription

/-!
# Where content is written

A program that is written carries content: texts and embedded code, each on a line of its own or as
a part of a value, where code blocks are only reported. Every text and every piece of embedded code
is carried once, but for what a component has among its children besides its attributes and its
body. Verification lets that pass, and nothing is written of it and nothing said.

## Main definitions

* `Label.isContent`: texts, expressions and code blocks
* `Document.Carries`: the nodes that a line is about
* `Forest.carried`: the nodes that the lines of a program are about, line by line
* `Forest.strays`, `Document.Unplaced`: what stands under a component outside of its attributes and
  its body

## Main results

* `Document.carries_lines`: each line is about its nodes
* `Forest.count_carried`: content is carried once or strays
* `Document.mem_strays_iff`: what strays is unplaced
* `Renderer.carried_of_written`: what is written of a document carries all content that is placed
* `Document.strayExpression_written`: an expression is left out, and nothing is reported
-/

namespace MarkupTemplate

/-- The node is content: a text, an expression or a code block. -/
def Label.isContent (label : Label) : Bool :=
  match label.kind with
  | .markup | .embedded .expression _ | .embedded .codeBlock _ => true
  | _ => false

/-- What is written for content: the literal of a text, the code of an expression, and a code block
without the white space at its ends. -/
def Label.contentText (label : Label) : Bytes :=
  match label.kind with
  | .embedded .codeBlock code => code.trim isCodeMargin
  | .embedded _ code => code
  | _ => Literal.encode label.text

/-! ## What lines carry -/

/-- The line is about the nodes: it adds the text of one, or the code of one stands on it, or they
are the parts of a value. -/
def Document.Carries (d : Document) : Statement → List NodeId → Prop
  | .addText text, ids => ∃ id, ids = [id] ∧ d.kind id = .markup ∧ (d.label id).text = text
  | .embedded id form code, ids => ids = [id] ∧ d.kind id = .embedded form code
  | .addAttribute _ parts, ids => parts = ids.map fun id => (id, d.label id)
  | _, ids => ids = []

namespace Forest

/-- The nodes that the lines for the attributes of a component are about. -/
def carriedParameters : Forest → List (List NodeId)
  | nil => []
  | cons _ label children siblings =>
    (if label.kind = .constructAttribute then [children.roots] else []) ++
      siblings.carriedParameters

mutual

/-- The nodes that the lines of the program are about, line by line. -/
def carried : Forest → List (List NodeId)
  | nil => []
  | cons id label children siblings =>
    (match label.kind with
      | .markup => [[id]]
      | .embedded .directive _ => []
      | .embedded .. => [[id]]
      | .element => [] :: (children.carried ++ [[]])
      | .construct => [] :: (children.carriedParameters ++ (children.carriedContent ++ [[]]))
      | .attribute => [children.childItems.map Prod.fst]
      | _ => []) ++ siblings.carried

/-- The nodes that the lines for the content of a component are about. -/
def carriedContent : Forest → List (List NodeId)
  | nil => []
  | cons _ label children siblings =>
    if label.kind = .constructBody then
      if children.isSilent then [] else [] :: (children.carried ++ [[]])
    else siblings.carriedContent

end

/-- What stands under a construct outside of its attributes and its body. The flag says whether the
roots stand under a construct. -/
def strays (inConstruct : Bool) : Forest → List NodeId
  | nil => []
  | cons id label children siblings =>
    (if inConstruct ∧ label.kind ≠ .constructBody ∧ label.kind ≠ .constructAttribute then
        id :: children.preorder
      else children.strays (label.kind = .construct)) ++
      siblings.strays inConstruct

variable (id : NodeId) (label : Label) (children siblings : Forest)

theorem carried_cons :
    (cons id label children siblings).carried =
      (cons id label children nil).carried ++ siblings.carried := by
  simp [carried]

theorem carriedParameters_cons :
    (cons id label children siblings).carriedParameters =
      (cons id label children nil).carriedParameters ++ siblings.carriedParameters := by
  simp [carriedParameters]

theorem strays_cons (inConstruct : Bool) :
    (cons id label children siblings).strays inConstruct =
      (cons id label children nil).strays inConstruct ++ siblings.strays inConstruct := by
  simp [strays]

theorem carried_of_isSilent {f : Forest} (h : f.isSilent = true) : f.carried = [] := by
  induction f with
  | nil => rfl
  | cons id label children siblings _ ih =>
    rw [isSilent, Bool.and_eq_true] at h
    rw [carried, ih h.2]
    cases hk : label.kind with
    | embedded form code => cases form <;> simp [hk] at h ⊢
    | _ => simp [hk] at h

end Forest

namespace Document

variable {d : Document} {f : Forest} {id : NodeId}

theorem items_of_exhibits (hf : d.Exhibits f) :
    f.items = f.roots.map fun id => (id, d.label id) := by
  induction f with
  | nil => rfl
  | cons i label children siblings _ ih =>
    rw [Forest.items, Forest.roots, List.map_cons, ← ih hf.2.2, hf.1.1]

theorem childItems_of_exhibits (hf : d.Exhibits f) :
    f.childItems = (f.childItems.map Prod.fst).map fun id => (id, d.label id) := by
  induction f with
  | nil => rfl
  | cons i label children siblings _ ih =>
    rw [Forest.childItems, List.map_append, List.map_append, ← ih hf.2.2,
      items_of_exhibits hf.2.1]
    simp

/-- Each line for an attribute of a component is about the parts of its value. -/
theorem carries_parameterLines (hf : d.Exhibits f) (target level : Nat) :
    List.Forall₂ (fun line ids => d.Carries line.statement ids) (f.parameterLines target level)
      f.carriedParameters := by
  induction f with
  | nil => exact .nil
  | cons i label children siblings _ ih =>
    rw [Forest.parameterLines, Forest.carriedParameters]
    refine List.rel_append ?_ (ih hf.2.2)
    split
    · exact .cons (items_of_exhibits hf.2.1) .nil
    · exact .nil

/-- Each line of a program is about its nodes. -/
theorem carries_lines (hf : d.Exhibits f) :
    (∀ target level, List.Forall₂ (fun line ids => d.Carries line.statement ids)
      (f.program target level) f.carried) ∧
    ∀ target level, List.Forall₂ (fun line ids => d.Carries line.statement ids)
      (f.contentLines target level) f.carriedContent := by
  induction f with
  | nil => exact ⟨fun _ _ => .nil, fun _ _ => .nil⟩
  | cons i label children siblings ihc ihs =>
    obtain ⟨⟨hlabel, -⟩, hbelow, hsiblings⟩ := hf
    obtain ⟨hprogram, hcontent⟩ := ihc hbelow
    obtain ⟨hprogram', hcontent'⟩ := ihs hsiblings
    have hkind : d.kind i = label.kind := congrArg Label.kind hlabel
    constructor
    · intro target level
      rw [Forest.program, Forest.carried]
      refine List.rel_append ?_ (hprogram' target level)
      cases hk : label.kind with
      | markup => exact .cons ⟨i, rfl, hkind.trans hk, by rw [hlabel]⟩ .nil
      | embedded form code =>
        cases form with
        | directive => exact .nil
        | _ => exact .cons ⟨rfl, hkind.trans hk⟩ .nil
      | element => exact .cons rfl (List.rel_append (hprogram target level) (.cons rfl .nil))
      | construct =>
        exact .cons rfl (List.rel_append (carries_parameterLines hbelow target level)
          (List.rel_append (hcontent target level) (.cons rfl .nil)))
      | «attribute» => exact .cons (childItems_of_exhibits hbelow) .nil
      | _ => exact .nil
    · intro target level
      rw [Forest.contentLines, Forest.carriedContent]
      split
      · split
        · exact .nil
        · exact .cons rfl (List.rel_append (hprogram (target + 1) (level + 1)) (.cons rfl .nil))
      · exact hcontent' target level

/-! ## What is written of content -/

/-- Each text of a value stands in it. -/
theorem infix_valueText {parts : List Label} {part : Label} (hpart : part ∈ parts) {text : Bytes}
    (htext : part.valueText? = some text) : text <:+: valueText parts := by
  have hmem : text ∈ parts.filterMap Label.valueText? := List.mem_filterMap.2 ⟨part, hpart, htext⟩
  unfold valueText
  split
  · next hnone =>
    rw [hnone] at hmem
    exact absurd hmem List.not_mem_nil
  · next first rest hsome =>
    rw [hsome] at hmem
    rcases List.mem_cons.1 hmem with rfl | hmem
    · exact (List.prefix_append _ _).isInfix
    · obtain ⟨before, after, rfl⟩ := List.append_of_mem hmem
      refine ⟨first ++ before.flatMap (utf8 " + " ++ ·) ++ utf8 " + ",
        after.flatMap (utf8 " + " ++ ·), ?_⟩
      simp

/-- Content that a line is about is written on it, or it is a code block of which it is reported
that it is left out. -/
theorem written_or_reported {statement : Statement} {ids : List NodeId}
    (h : d.Carries statement ids) (hid : id ∈ ids) (hcontent : (d.label id).isContent = true)
    (outer inner : Bytes) :
    (d.label id).contentText <:+: statement.text outer inner ∨
      ∃ g ∈ statement.reports, g.node = id ∧ d.kind id = .embedded .codeBlock g.code := by
  cases statement with
  | addText text =>
    obtain ⟨i, rfl, hkind, rfl⟩ := h
    obtain rfl := List.mem_singleton.1 hid
    have hkind : (d.label id).kind = .markup := hkind
    rw [Label.contentText, hkind]
    exact .inl ⟨callText outer (utf8 "addContent("), utf8 ");",
      by simp [Statement.text, callLiteralText]⟩
  | embedded i form code =>
    obtain ⟨rfl, hkind⟩ := h
    obtain rfl := List.mem_singleton.1 hid
    have hkind : (d.label id).kind = .embedded form code := hkind
    rw [Label.contentText, hkind]
    cases form with
    | codeBlock => exact .inl (List.infix_refl _)
    | _ => exact .inl ⟨callText outer (utf8 "addContent("), utf8 ");", by simp [Statement.text]⟩
  | addAttribute owner parts =>
    obtain rfl : parts = _ := h
    have hpart : (id, d.label id) ∈ ids.map fun i => (i, d.label i) := List.mem_map_of_mem hid
    have hvalue : valueText ((ids.map fun i => (i, d.label i)).map Prod.snd) <:+:
        (Statement.addAttribute owner (ids.map fun i => (i, d.label i))).text outer inner :=
      ⟨callText outer (utf8 "addAttribute(") ++ (Literal.encode owner.name ++ utf8 ", "),
        utf8 ");", by simp [Statement.text]⟩
    have htext := fun text (htext : (d.label id).valueText? = some text) =>
      (infix_valueText (List.mem_map_of_mem hpart) htext).trans hvalue
    unfold Label.isContent at hcontent
    unfold Label.contentText
    split at hcontent
    · next hk =>
      rw [hk]
      exact .inl (htext _ (by simp only [Label.valueText?, hk]))
    · next code hk =>
      rw [hk]
      have hcode : code <:+: utf8 "(" ++ (code ++ utf8 ")") := ⟨utf8 "(", utf8 ")", by simp⟩
      exact .inl (hcode.trans (htext _ (by simp only [Label.valueText?, hk])))
    · next code hk =>
      refine .inr ⟨⟨id, code, (d.label id).span.or owner.span⟩, ?_, rfl, hk⟩
      exact List.mem_filterMap.2 ⟨_, hpart, by simp [Label.code?, hk]⟩
    · cases hcontent
  | _ =>
    obtain rfl : ids = [] := h
    exact absurd hid List.not_mem_nil

theorem infix_text {text : Bytes} {base : Bytes} {l : Line}
    (h : text <:+: l.statement.text (Scopes.targetOf base l.target)
      (Scopes.targetOf base (l.target + 1))) : text <:+: l.text base := by
  rw [Line.text]
  split
  · next hempty =>
    obtain rfl : text = [] := by simpa [List.isEmpty_iff.1 hempty] using h
    exact ⟨[], [Byte.lineFeed], rfl⟩
  · exact h.trans ⟨List.replicate (4 * l.level) Byte.space, [Byte.lineFeed], rfl⟩

/-- The content is written on the line, or it is a code block that the line leaves out. -/
def Tells (d : Document) (base : Bytes) (l : Line) (id : NodeId) : Prop :=
  (d.label id).contentText <:+: l.text base ∨
    ∃ g ∈ l.reports, g.node = id ∧ d.kind id = .embedded .codeBlock g.code

/-! ## Content is carried or strays -/

/-- What is demanded of a node with children of the given kinds: what its kind demands, and that
embedded code is a leaf as markup is. -/
def Firm (_ : NodeId) (label : Label) (kinds : List NodeKind) : Prop :=
  label.Fits kinds ∧ (label.isValuePart = true → kinds = [])

theorem eq_nil_of_rootKinds (h : f.rootKinds = []) : f = .nil := by
  cases f with
  | nil => rfl
  | cons => exact absurd h (by simp [Forest.rootKinds])

/-- The parts of a value are leaves. -/
theorem preorder_of_parts (hfirm : f.All Firm) (hparts : ∀ part ∈ f.labels, part.isValuePart) :
    f.preorder = f.roots ∧ f.strays false = [] := by
  induction f with
  | nil => exact ⟨rfl, rfl⟩
  | cons i label children siblings _ ih =>
    rw [Forest.labels, List.forall_mem_cons] at hparts
    obtain ⟨hpreorder, hstrays⟩ := ih hfirm.2.2 hparts.2
    obtain rfl := eq_nil_of_rootKinds (hfirm.1.2 hparts.1)
    simp [Forest.preorder, Forest.roots, Forest.strays, hpreorder, hstrays]

/-- A node that is no content is another one. -/
theorem ne_of_isContent {i : NodeId} {label : Label} (hlabel : d.label i = label)
    (hid : (d.label id).isContent = true) (hnot : label.isContent = false) : (i == id) = false := by
  rw [beq_eq_false_iff_ne]
  rintro rfl
  rw [hlabel, hnot] at hid
  cases hid

section

variable {children : Forest} {i : NodeId} {label : Label}
variable (hid : (d.label id).isContent = true)
include hid

/-- A child of a component that is no body is carried in a value or strays. -/
theorem count_carried_child (hf : d.Exhibits (.cons i label children .nil))
    (hfirm : (Forest.cons i label children .nil).All Firm)
    (hparts : label.kind = .constructAttribute → ∀ part ∈ children.labels, part.isValuePart)
    (hbody : label.kind ≠ .constructBody) :
    (Forest.cons i label children .nil).carriedParameters.flatten.count id +
        ((Forest.cons i label children .nil).strays true).count id =
      (i :: children.preorder).count id := by
  rw [Forest.carriedParameters, Forest.strays]
  by_cases hk : label.kind = .constructAttribute
  · have hne := ne_of_isContent hf.1.1 hid (by rw [Label.isContent, hk])
    obtain ⟨hpreorder, hstrays⟩ := preorder_of_parts hfirm.2.1 (hparts hk)
    simp [Forest.carriedParameters, Forest.strays, hk, hstrays, hpreorder, List.count_cons, hne]
  · simp [Forest.carriedParameters, Forest.strays, hk, hbody]

/-- The content under a component without a body is carried or strays. -/
theorem count_carriedParameters (hf : d.Exhibits f) (hfirm : f.All Firm)
    (hwritable : f.WritableParameters) (hbody : .constructBody ∉ f.rootKinds) :
    f.carriedParameters.flatten.count id + (f.strays true).count id = f.preorder.count id := by
  induction f with
  | nil => rfl
  | cons i label children siblings _ ih =>
    rw [Forest.rootKinds, List.mem_cons, not_or] at hbody
    have hrest := ih hf.2.2 hfirm.2.2 hwritable.2 hbody.2
    have hchild := count_carried_child hid ⟨hf.1, hf.2.1, trivial⟩ ⟨hfirm.1, hfirm.2.1, trivial⟩
      hwritable.1 (Ne.symm hbody.1)
    rw [Forest.carriedParameters_cons, Forest.strays_cons, Forest.preorder, List.flatten_append]
    simp only [List.count_cons, List.count_append] at hchild ⊢
    omega

/-- So is the content under an attribute of an element. -/
theorem count_childItems (hbelow : d.Exhibits children)
    (hfirm : children.All Firm) (hvalue : children.rootKinds = [.attributeValue])
    (hparts : ∀ part ∈ children.childLabels, part.isValuePart) :
    (children.childItems.map Prod.fst).count id = children.preorder.count id ∧
      children.strays false = [] := by
  cases children with
  | nil => exact absurd hvalue (by simp [Forest.rootKinds])
  | cons i label parts siblings =>
    simp only [Forest.rootKinds, List.cons.injEq] at hvalue
    obtain ⟨hkind, hsiblings⟩ := hvalue
    obtain rfl := eq_nil_of_rootKinds hsiblings
    simp only [Forest.childLabels, List.append_nil] at hparts
    obtain ⟨hpreorder, hstrays⟩ := preorder_of_parts hfirm.2.1 hparts
    have hne := ne_of_isContent hbelow.1.1 hid (by rw [Label.isContent, hkind])
    have hroots : parts.items.map Prod.fst = parts.roots := by
      rw [items_of_exhibits hbelow.2.1]
      simp [Function.comp_def]
    simp [Forest.childItems, Forest.preorder, Forest.strays, hroots, hpreorder, hstrays, hkind,
      List.count_cons, hne]

/-- One node with what is under it, as content. -/
theorem count_carried_node {inElement : Bool}
    (hf : d.Exhibits (.cons i label children .nil))
    (hfirm : (Forest.cons i label children .nil).All Firm)
    (hwritable : (Forest.cons i label children .nil).Writable inElement)
    (hcontent : ∀ inElement, children.Writable inElement →
      children.carried.flatten.count id + (children.strays false).count id =
        children.preorder.count id)
    (hconstruct : children.WritableParameters → children.WritableBody →
      children.rootKinds.count .constructBody = 1 →
        children.carriedParameters.flatten.count id + children.carriedContent.flatten.count id +
          (children.strays true).count id = children.preorder.count id) :
    (Forest.cons i label children .nil).carried.flatten.count id +
        ((Forest.cons i label children .nil).strays false).count id =
      (i :: children.preorder).count id := by
  obtain ⟨⟨hlabel, -⟩, hbelow, -⟩ := hf
  obtain ⟨⟨hfits, hleaf⟩, hfirm, -⟩ := hfirm
  obtain ⟨hnode, -⟩ := hwritable
  rw [Forest.carried, Forest.strays]
  cases hk : label.kind with
  | markup =>
    obtain rfl := eq_nil_of_rootKinds (hleaf (by rw [Label.isValuePart, hk]))
    simp [Forest.carried, Forest.strays, Forest.preorder]
  | embedded form code =>
    obtain rfl := eq_nil_of_rootKinds (hleaf (by rw [Label.isValuePart, hk]))
    cases form with
    | directive =>
      have hne := ne_of_isContent hlabel hid (by rw [Label.isContent, hk])
      simp [Forest.carried, Forest.strays, Forest.preorder, List.count_cons, hne]
    | _ => simp [Forest.carried, Forest.strays, Forest.preorder]
  | element =>
    have hne := ne_of_isContent hlabel hid (by rw [Label.isContent, hk])
    simp only [hk] at hnode
    have hcount := hcontent true hnode
    simpa [Forest.carried, Forest.strays, List.count_cons, hne] using hcount
  | construct =>
    have hne := ne_of_isContent hlabel hid (by rw [Label.isContent, hk])
    simp only [hk] at hnode
    simp only [Label.Fits, hk] at hfits
    have hcount := hconstruct hnode.1 hnode.2 hfits
    simpa [Forest.carried, Forest.strays, List.count_cons, hne] using hcount
  | «attribute» =>
    have hne := ne_of_isContent hlabel hid (by rw [Label.isContent, hk])
    simp only [hk] at hnode
    simp only [Label.Fits, hk] at hfits
    obtain ⟨hcount, hstrays⟩ := count_childItems hid hbelow hfirm hfits hnode.2
    simp [Forest.carried, Forest.strays, List.count_cons, hne, hcount, hstrays]
  | _ => simp [hk] at hnode

/-- The content of a forest that can be written is carried or strays, and so it is under a
component, where the attributes are and one body. -/
theorem count_carried (hf : d.Exhibits f) (hfirm : f.All Firm) :
    (∀ inElement, f.Writable inElement →
      f.carried.flatten.count id + (f.strays false).count id = f.preorder.count id) ∧
    (f.WritableParameters → f.WritableBody → f.rootKinds.count .constructBody = 1 →
      f.carriedParameters.flatten.count id + f.carriedContent.flatten.count id +
        (f.strays true).count id = f.preorder.count id) := by
  induction f with
  | nil => exact ⟨fun _ _ => rfl, fun _ hbody => hbody.elim⟩
  | cons i label children siblings ihc ihs =>
    obtain ⟨hcontent, hconstruct⟩ := ihc hf.2.1 hfirm.2.1
    obtain ⟨hcontent', hconstruct'⟩ := ihs hf.2.2 hfirm.2.2
    have htree : d.Exhibits (.cons i label children .nil) := ⟨hf.1, hf.2.1, trivial⟩
    have htreefirm : (Forest.cons i label children .nil).All Firm := ⟨hfirm.1, hfirm.2.1, trivial⟩
    constructor
    · intro inElement hwritable
      have hrest := hcontent' inElement hwritable.2
      have hnode := count_carried_node hid htree htreefirm ⟨hwritable.1, trivial⟩ hcontent
        hconstruct
      rw [Forest.carried_cons, Forest.strays_cons, Forest.preorder, List.flatten_append]
      simp only [List.count_cons, List.count_append] at hnode ⊢
      omega
    · intro hparameters hbody hone
      rw [Forest.rootKinds, List.count_cons] at hone
      rw [Forest.WritableBody] at hbody
      rw [Forest.carriedParameters_cons, Forest.carriedContent, Forest.strays_cons,
        Forest.preorder, List.flatten_append]
      by_cases hk : label.kind = .constructBody
      · -- This is the body, and there is no other one.
        rw [if_pos hk] at hbody
        have hnone : NodeKind.constructBody ∉ siblings.rootKinds :=
          List.count_eq_zero.1 (by simpa [hk] using hone)
        have hrest := count_carriedParameters hid hf.2.2 hfirm.2.2 hparameters.2 hnone
        have hnode := hcontent false hbody
        have hne := ne_of_isContent hf.1.1 hid (by rw [Label.isContent, hk])
        have hlines : (if children.isSilent then [] else [] :: (children.carried ++ [[]])).flatten =
            children.carried.flatten := by
          split
          · next hsilent => rw [Forest.carried_of_isSilent hsilent]
          · simp
        rw [if_pos hk, hlines]
        simp only [Forest.carriedParameters, Forest.strays, hk, reduceCtorEq, if_false,
          List.nil_append, List.append_nil, List.flatten_nil, ne_eq, not_true_eq_false, false_and,
          and_false, decide_false, List.count_append, List.count_cons, hne, Bool.false_eq_true]
        omega
      · rw [if_neg hk] at hbody
        have hrest := hconstruct' hparameters.2 hbody (by simpa [hk] using hone)
        have hchild := count_carried_child hid htree htreefirm hparameters.1 hk
        rw [if_neg hk]
        simp only [List.count_cons, List.count_append] at hchild ⊢
        omega

end

/-! ## What is unplaced -/

/-- The child of a construct is neither its attribute nor its body, and the node is the child or
under it. -/
def StraysWith (d : Document) (child id : NodeId) : Prop :=
  d.kind child ≠ .constructBody ∧ d.kind child ≠ .constructAttribute ∧
    (id = child ∨ id ∈ (d.forestBelow child).preorder)

/-- The node stands under a component outside of its attributes and its body. -/
def Unplaced (d : Document) (id : NodeId) : Prop :=
  ∃ construct ∈ (d.forestBelow root).preorder, d.kind construct = .construct ∧
    ∃ child ∈ d.children construct, d.StraysWith child id

instance (d : Document) (child id : NodeId) : Decidable (d.StraysWith child id) :=
  inferInstanceAs (Decidable (_ ∧ _ ∧ _))

instance (d : Document) (id : NodeId) : Decidable (d.Unplaced id) :=
  inferInstanceAs (Decidable (∃ construct ∈ _, _ ∧ ∃ child ∈ _, _))

theorem mem_preorder_of_mem_strays {inConstruct : Bool} (h : id ∈ f.strays inConstruct) :
    id ∈ f.preorder := by
  induction f generalizing inConstruct with
  | nil => exact absurd h List.not_mem_nil
  | cons i label children siblings ihc ihs =>
    rw [Forest.strays, List.mem_append] at h
    rw [Forest.preorder, List.mem_cons, List.mem_append]
    rcases h with h | h
    · split at h
      · exact (List.mem_cons.1 h).imp_right .inl
      · exact .inr (.inl (ihc h))
    · exact .inr (.inr (ihs h))

/-- What strays is what stands with a child of a construct that is neither its attribute nor its
body. -/
theorem mem_strays_iff (hf : d.Occurs f) (inConstruct : Bool) :
    id ∈ f.strays inConstruct ↔
      (inConstruct = true ∧ ∃ child ∈ f.roots, d.StraysWith child id) ∨
        ∃ construct ∈ f.preorder, d.kind construct = .construct ∧
          ∃ child ∈ d.children construct, d.StraysWith child id := by
  induction f generalizing inConstruct with
  | nil => simp [Forest.strays, Forest.roots, Forest.preorder]
  | cons i label children siblings ihc ihs =>
    obtain ⟨hlabel, hchildren⟩ := hf.exhibits.1
    have hkind : d.kind i = label.kind := congrArg Label.kind hlabel
    have ihc := ihc hf.down (label.kind = .construct)
    have ihs := ihs hf.next inConstruct
    have hsubset : id ∈ children.strays (label.kind = .construct) → id ∈ children.preorder :=
      mem_preorder_of_mem_strays
    have hwith : d.StraysWith i id ↔ label.kind ≠ .constructBody ∧
        label.kind ≠ .constructAttribute ∧ (id = i ∨ id ∈ children.preorder) := by
      rw [StraysWith, hkind, hf.down.forestBelow_eq hchildren]
    simp only [Forest.strays, Forest.roots, Forest.preorder, List.mem_cons, List.mem_append,
      or_and_right, exists_or, exists_eq_left, hwith, hkind, hchildren, ihs]
    rw [decide_eq_true_eq] at ihc
    split
    · next hstray =>
      -- All that is under this root strays with it, so what strays there adds nothing.
      rw [ihc] at hsubset
      simp only [hstray, List.mem_cons]
      grind
    · next hstays =>
      rw [ihc]
      grind

/-- The nodes of a well-formed document are firm if embedded code has no children. -/
theorem firm_of_verify (h : d.verify) (hleaf : ∀ id ∈ d.tree.preorder,
    (d.kind id matches .embedded ..) → d.children id = []) : (d.forestBelow root).All Firm := by
  obtain ⟨htree, hfits⟩ := verify_iff_fits.1 h
  have hfirm : d.tree.All Firm := by
    rw [Forest.all_iff_of_exhibits htree.exhibits] at hfits ⊢
    intro id hid
    refine ⟨(hfits id hid).2, fun hpart => ?_⟩
    have hnode := (hfits id hid).2
    rw [Label.isValuePart] at hpart
    cases hk : (d.label id).kind with
    | markup => simpa [Label.Fits, hk] using hnode
    | embedded form code =>
      have hkind : d.kind id = .embedded form code := hk
      simp [hleaf id hid (by rw [hkind])]
    | _ => simp [hk] at hpart
  rw [htree.tree_eq] at hfirm
  exact hfirm.2.1

end Document

/-- What is written of a well-formed document in which embedded code has no children. Each line of
its program is about some nodes of the document, in order: it writes their content, or reports that
it leaves out a code block. All content that is placed comes once on all lines together. What is
unplaced comes on no line, and nothing is said of it. -/
theorem Renderer.carried_of_written (target : Bytes) {d : Document} (h : d.verify)
    (hleaf : ∀ id ∈ d.tree.preorder, (d.kind id matches .embedded ..) → d.children id = [])
    (hwritten : ((start target).write d).1 = true) :
    let f := d.forestBelow Document.root
    let lines := f.program 1 0
    let r := ((start target).write d).2
    r.output = lines.flatMap (Line.text target) ∧
      r.diagnostics = (lines.flatMap Line.reports).map Report.diagnostic ∧
      (∀ diagnostic ∈ r.diagnostics, diagnostic.code = utf8 "STENCIL-E2002") ∧
      List.Forall₂ (fun line ids => d.Carries line.statement ids ∧
        ∀ id ∈ ids, (d.label id).isContent → d.Tells target line id) lines f.carried ∧
      ∀ id ∈ f.preorder, (d.label id).isContent →
        f.carried.flatten.count id = if d.Unplaced id then 0 else 1 := by
  have hwritable := writable_of_written hwritten
  have htree := (Document.isTree_of_verify h).1
  obtain ⟨-, -, houtput, hdiagnostics⟩ := write_of_writable target hwritable
  have hoccurs := htree.occurs_below
  refine ⟨houtput, hdiagnostics, fun diagnostic hmem => ?_, ?_, fun id hid hcontent => ?_⟩
  · rw [hdiagnostics] at hmem
    obtain ⟨g, -, rfl⟩ := List.mem_map.1 hmem
    exact g.code_diagnostic
  · refine ((Document.carries_lines hoccurs.exhibits).1 1 0).imp fun line ids hcarries => ?_
    exact ⟨hcarries, fun id hid hcontent =>
      (Document.written_or_reported hcarries hid hcontent _ _).imp_left Document.infix_text⟩
  · have hcount := (Document.count_carried hcontent hoccurs.exhibits
      (Document.firm_of_verify h hleaf)).1 false hwritable
    refine hoccurs.count_eq hid hcount ?_
    rw [Document.mem_strays_iff hoccurs false, Document.Unplaced]
    simp

namespace Document

/-- A component with an attribute, a body and an expression next to them. The value of the attribute
has a text and a code block; the body has a text. -/
def strayExpression : Document :=
  ⟨#[{ kind := .document, children := [1] },
    { kind := .construct, name := utf8 "p", children := [2, 3, 4] },
    { kind := .constructBody, children := [5] },
    { kind := .embedded .expression (utf8 "x") },
    { kind := .constructAttribute, name := utf8 "id", children := [6, 7] },
    { kind := .markup, fragments := [utf8 "y"] },
    { kind := .markup, fragments := [utf8 "a"] },
    { kind := .embedded .codeBlock (utf8 "b") }], by decide⟩

theorem strayExpression_carried :
    strayExpression.verify ∧
      ((Renderer.start (utf8 "builder")).write strayExpression).1 = true ∧
      (strayExpression.forestBelow root).preorder = [1, 2, 5, 3, 4, 6, 7] ∧
      [5, 3, 6, 7].map (strayExpression.forestBelow root).carried.flatten.count = [1, 0, 1, 1] := by
  have hverify : strayExpression.verify := by decide +kernel
  have hleaf : ∀ id ∈ strayExpression.tree.preorder,
      (strayExpression.kind id matches .embedded ..) → strayExpression.children id = [] := by
    decide +kernel
  have hwritten : ((Renderer.start (utf8 "builder")).write strayExpression).1 = true := by
    decide +kernel
  have hcontent : ∀ id ∈ [5, 3, 6, 7], id ∈ (strayExpression.forestBelow root).preorder ∧
      (strayExpression.label id).isContent := by
    decide +kernel
  obtain ⟨-, -, -, -, hcount⟩ :=
    Renderer.carried_of_written (utf8 "builder") hverify hleaf hwritten
  refine ⟨hverify, hwritten, by decide +kernel, ?_⟩
  rw [List.map_congr_left fun id hid => hcount id (hcontent id hid).1 (hcontent id hid).2]
  decide +kernel

/-- The expression is not written, and nothing is reported. -/
theorem strayExpression_written :
    strayExpression.verify ∧ 3 ∈ strayExpression.tree.preorder ∧
      strayExpression.kind 3 = .embedded .expression (utf8 "x") ∧
      let outcome := (Renderer.start (utf8 "builder")).write strayExpression
      outcome.1 = true ∧ outcome.2.faults = [] ∧ outcome.2.output =
        [utf8 "builder.openComponent(\"p\");",
          utf8 "builder.addAttribute(\"id\", \"a\");",
          utf8 "builder.addAttribute(\"ChildContent\", [&](RenderTreeBuilder& builder2) \x7b",
          utf8 "    builder2.addContent(\"y\");",
          utf8 "\x7d);",
          utf8 "builder.closeComponent();"].flatMap (· ++ [Byte.lineFeed]) := by
  decide +kernel

end Document

end MarkupTemplate
