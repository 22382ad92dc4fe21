import MarkupTemplate.Proofs.Lowering
import MarkupTemplate.Proofs.Reachability

/-!
# Lowered documents and their well-formedness

The element for an orphan has the children of the orphan in the order in which they stood there, and
after them the content of the body. So it has its attributes first only if the orphan had: where an
attribute of an orphan comes after embedded code, an element or a construct, the document is not
well-formed any more. Everything else that well-formedness demands survives.

## Main definitions

* `Forest.All`: a property of every node with its label and the kinds of its children
* `Label.Fits`: what its kind demands of a node with children of the given kinds
* `Document.AttributesAhead`: no attribute of a construct comes after a child of another kind

## Main results

* `Forest.all_iff_of_exhibits`: a property of the nodes of a forest in a document
* `Document.verify_iff_fits`: a document is well-formed if it is a tree in which all nodes fit
* `Forest.fits_lowered_iff`: which lowered forests fit
* `Document.verify_lowered_iff`: which lowered documents are well-formed
-/

namespace MarkupTemplate

variable {components : Components} {n : Nat} {f g : Forest}

/-! ## Properties of all nodes -/

namespace Forest

/-- Every node of the forest has the property, which may depend on its number, its label and the
kinds of its children. -/
def All (p : NodeId → Label → List NodeKind → Prop) : Forest → Prop
  | nil => True
  | cons id label children siblings =>
    p id label children.rootKinds ∧ children.All p ∧ siblings.All p

variable {p : NodeId → Label → List NodeKind → Prop}

theorem all_append : (f ++ g).All p ↔ f.All p ∧ g.All p := by
  induction f with
  | nil => simp [All]
  | cons id label children siblings _ ih => simp only [cons_append, All, ih, and_assoc]

/-- In a document that exhibits the forest, the labels and the children are those of its nodes. -/
theorem all_iff_of_exhibits {d : Document} (h : d.Exhibits f) :
    f.All p ↔ ∀ id ∈ f.preorder, p id (d.label id) ((d.children id).map d.kind) := by
  induction f with
  | nil => simp [All, preorder]
  | cons id label children siblings ihc ihs =>
    obtain ⟨⟨rfl, hid⟩, hchildren, hsiblings⟩ := h
    simp only [All, preorder, List.forall_mem_cons, List.forall_mem_append, ihc hchildren,
      ihs hsiblings, hid, Document.map_kind_roots_of_exhibits hchildren]

end Forest

/-! ## What fits -/

/-- What its kind demands of a node that is labelled so, and has children of the given kinds. -/
def Label.Fits (l : Label) (kinds : List NodeKind) : Prop :=
  match l.kind with
  | .markup => kinds = []
  | .element => l.name ≠ [] ∧ Document.attributesFirst kinds
  | .attribute => kinds = [.attributeValue]
  | .construct => kinds.count .constructBody = 1
  | _ => True

/-- A node of a forest fits: it has the children that its kind demands, and it stands for a whole
document only if it is the root. -/
def Forest.Fitting (id : NodeId) (l : Label) (kinds : List NodeKind) : Prop :=
  (l.kind = .document → id = Document.root) ∧ l.Fits kinds

namespace Document

variable {d : Document}

theorem wellShaped_iff_fitting {id : NodeId} :
    d.wellShaped id = true ↔ Forest.Fitting id (d.label id) ((d.children id).map d.kind) := by
  have hkind : d.kind id = (d.label id).kind := rfl
  unfold wellShaped Forest.Fitting Label.Fits
  rw [hkind]
  split <;> simp_all

/-- A document is well-formed if it is a tree in which all nodes fit. -/
theorem verify_iff_fits : d.verify ↔ d.IsTree ∧ d.tree.All Forest.Fitting := by
  constructor
  · intro h
    obtain ⟨htree, hshaped⟩ := isTree_of_verify h
    exact ⟨htree, (Forest.all_iff_of_exhibits htree.exhibits).2 fun id hid =>
      wellShaped_iff_fitting.1 (hshaped id hid)⟩
  · rintro ⟨htree, hfits⟩
    have hshaped : ∀ id ∈ d.tree.preorder, d.wellShaped id := fun id hid =>
      wellShaped_iff_fitting.2 ((Forest.all_iff_of_exhibits htree.exhibits).1 hfits id hid)
    have hformed : d.Formed d.tree := ⟨htree.stands, hshaped⟩
    rw [htree.tree_eq] at hformed
    exact verify_of_formed hformed

end Document

/-! ## The kinds of what is lowered -/

/-- A construct may be lowered to an element; apart from that, kinds stay. -/
def NodeKind.lowered : NodeKind → NodeKind
  | .construct => .element
  | kind => kind

/-- The attributes of a construct become attributes of an element. -/
def NodeKind.underElement : NodeKind → NodeKind
  | .constructAttribute => .attribute
  | kind => kind

/-- The kinds of the children of an orphan that are no bodies, as they come under the element. -/
def elementKinds (kinds : List NodeKind) : List NodeKind :=
  (kinds.filter (· != .constructBody)).map NodeKind.underElement

namespace NodeKind

variable {kind kind' : NodeKind}

theorem lowered_eq_iff (h : kind' ≠ .construct) (h' : kind' ≠ .element) :
    kind.lowered = kind' ↔ kind = kind' := by
  cases kind <;> simp_all [lowered, eq_comm]

theorem underElement_lowered : kind.lowered.underElement = kind.underElement.lowered := by
  cases kind <;> rfl

end NodeKind

namespace Document

variable {kinds kinds' : List NodeKind}

theorem attributesFirst_map_lowered :
    attributesFirst (kinds.map NodeKind.lowered) = true ↔ attributesFirst kinds = true := by
  have hkind : ∀ kind : NodeKind, kind.lowered = .attribute ↔ kind = .attribute := fun kind =>
    NodeKind.lowered_eq_iff (by decide) (by decide)
  simp only [attributesFirst_iff, List.pairwise_map, hkind]

/-- What comes after and holds no attribute does not matter. -/
theorem attributesFirst_append_iff (h : .attribute ∉ kinds') :
    attributesFirst (kinds ++ kinds') = true ↔ attributesFirst kinds = true := by
  rw [attributesFirst_iff, attributesFirst_iff, List.pairwise_append]
  have hlate : ∀ kind ∈ kinds', kind ≠ .attribute := fun kind hkind he => h (he ▸ hkind)
  constructor
  · exact And.left
  · intro hfirst
    refine ⟨hfirst, List.pairwise_of_forall_mem_list fun _ _ b hb he => ?_, fun _ _ b hb he => ?_⟩
    · exact absurd he (hlate b hb)
    · exact absurd he (hlate b hb)

theorem elementKinds_map_lowered :
    elementKinds (kinds.map NodeKind.lowered) = (elementKinds kinds).map NodeKind.lowered := by
  have hbody : ((· != NodeKind.constructBody) ∘ NodeKind.lowered) = (· != .constructBody) := by
    funext kind
    cases kind <;> rfl
  simp only [elementKinds, List.filter_map, hbody, List.map_map, Function.comp_def,
    NodeKind.underElement_lowered]

end Document

/-- No demand depends on whether children have been lowered. -/
theorem Label.fits_map_lowered {l : Label} {kinds : List NodeKind} :
    l.Fits (kinds.map NodeKind.lowered) ↔ l.Fits kinds := by
  have hbody : ∀ kind : NodeKind, kind.lowered = .constructBody ↔ kind = .constructBody :=
    fun kind => NodeKind.lowered_eq_iff (by decide) (by decide)
  have hvalue : ∀ kind : NodeKind, kind.lowered = .attributeValue ↔ kind = .attributeValue :=
    fun kind => NodeKind.lowered_eq_iff (by decide) (by decide)
  have hcount : (kinds.map NodeKind.lowered).count .constructBody = kinds.count .constructBody := by
    rw [List.count_eq_countP, List.countP_map, List.count_eq_countP]
    refine List.countP_congr fun kind _ => ?_
    simp [hbody]
  unfold Fits
  split
  · exact List.map_eq_nil_iff
  · rw [Document.attributesFirst_map_lowered]
  · rw [List.map_eq_singleton_iff]
    simp only [hvalue, exists_eq_right]
  · rw [hcount]
  · rfl

namespace Forest

theorem rootKinds_lowered (f : Forest) :
    (f.lowered components n).rootKinds.map NodeKind.lowered = f.rootKinds.map NodeKind.lowered := by
  induction f with
  | nil => rfl
  | cons id label children siblings _ ih =>
    by_cases horphan : label.isOrphan components = true
    · have hkind := Label.kind_of_isOrphan horphan
      simp [lowered, horphan, rootKinds, ih, hkind, Label.asElement, NodeKind.lowered]
    · simp [lowered, horphan, rootKinds, ih]

/-- A node still fits after what is below it has been lowered. -/
theorem fits_rootKinds_lowered {l : Label} :
    l.Fits (f.lowered components n).rootKinds ↔ l.Fits f.rootKinds := by
  rw [← Label.fits_map_lowered, rootKinds_lowered, Label.fits_map_lowered]

theorem rootKinds_withAttributes (f : Forest) :
    (f.withAttributes n).rootKinds = f.rootKinds.map NodeKind.underElement := by
  induction f with
  | nil => rfl
  | cons id label children siblings _ ih =>
    rw [withAttributes, rootKinds, List.map_cons]
    split
    · next hkind => rw [rootKinds, ih, hkind]; rfl
    · next hkind =>
      rw [rootKinds, ih]
      congr 1
      unfold NodeKind.underElement
      split <;> simp_all

theorem rootKinds_withoutBodies (f : Forest) :
    f.withoutBodies.rootKinds = f.rootKinds.filter (· != .constructBody) := by
  induction f with
  | nil => rfl
  | cons id label children siblings _ ih =>
    rw [withoutBodies, rootKinds, List.filter_cons]
    split
    · next hkind => simp [ih, hkind]
    · next hkind => simp [rootKinds, ih, hkind]

/-- The content of a body is lowered within the body. -/
theorem bodyContent_lowered (f : Forest) :
    (f.lowered components n).bodyContent = f.bodyContent.lowered components n := by
  induction f with
  | nil => rfl
  | cons id label children siblings _ ih =>
    by_cases horphan : label.isOrphan components = true
    · have hkind := Label.kind_of_isOrphan horphan
      simp [lowered, horphan, bodyContent, hkind, Label.asElement, ih]
    · simp only [lowered, horphan, Bool.false_eq_true, if_false, bodyContent, ih]
      split <;> rfl

/-- The kinds under the element for an orphan. -/
theorem rootKinds_element (below : Forest) :
    (below.withoutBodies.withAttributes n ++ below.bodyContent).rootKinds =
      elementKinds below.rootKinds ++ below.bodyContent.rootKinds := by
  rw [rootKinds_append, rootKinds_withAttributes, rootKinds_withoutBodies, elementKinds]

/-! ## Parts that fit -/

/-- Nodes that are not told apart are none of them the root. -/
theorem fitting_capped (hn : 0 < n) (f : Forest) : (f.capped n).All Fitting ↔ f.All Fitting := by
  induction f with
  | nil => rfl
  | cons id label children siblings ihc ihs =>
    have hroot : ∀ i : Nat, min i n = 0 ↔ i = 0 := by
      intro i
      omega
    have hroot : min id n = Document.root ↔ id = Document.root := hroot id
    simp only [capped, All, Fitting, rootKinds_capped, ihc, ihs, hroot]

/-- An attribute fits with its value, and nothing is demanded of the attribute of a construct. -/
theorem fitting_withAttributes (f : Forest) :
    (f.withAttributes n).All Fitting ↔ f.All Fitting := by
  induction f with
  | nil => rfl
  | cons id label children siblings _ ih =>
    rw [withAttributes]
    split
    · next hkind =>
      simp [All, Fitting, Label.Fits, Label.asAttribute, rootKinds, hkind, ih]
    · next hkind => simp only [All, ih]

theorem withoutBodies_of_notMem (h : .constructBody ∉ f.rootKinds) : f.withoutBodies = f := by
  induction f with
  | nil => rfl
  | cons id label children siblings _ ih =>
    simp only [rootKinds, List.mem_cons, not_or] at h
    rw [withoutBodies, if_neg (Ne.symm h.1), ih h.2]

/-- If there is one body, a forest falls into its content and the other children. -/
theorem fitting_withoutBodies_bodyContent (h : f.rootKinds.count .constructBody = 1) :
    f.withoutBodies.All Fitting ∧ f.bodyContent.All Fitting ↔ f.All Fitting := by
  induction f with
  | nil => simp [rootKinds] at h
  | cons id label children siblings _ ih =>
    rw [withoutBodies, bodyContent]
    by_cases hkind : label.kind = .constructBody
    · have hnone : .constructBody ∉ siblings.rootKinds := by
        rw [← List.count_eq_zero]
        simpa [rootKinds, hkind] using h
      rw [if_pos hkind, if_pos hkind, withoutBodies_of_notMem hnone]
      simp [All, Fitting, Label.Fits, hkind, and_comm]
    · have hone : siblings.rootKinds.count .constructBody = 1 := by
        simpa [rootKinds, hkind] using h
      rw [if_neg hkind, if_neg hkind, All, All, ← ih hone]
      simp only [and_assoc]

/-! ## Lowered forests -/

/-- Constructs are named. -/
def Named (_ : NodeId) (l : Label) (_ : List NodeKind) : Prop := l.kind = .construct → l.name ≠ []

/-- Bodies of constructs hold no attributes themselves. -/
def PlainBody (_ : NodeId) (l : Label) (kinds : List NodeKind) : Prop :=
  l.kind = .constructBody → .attribute ∉ kinds

/-- Orphans have their attributes before their other children, bodies apart. -/
def Ahead (components : Components) (_ : NodeId) (l : Label) (kinds : List NodeKind) : Prop :=
  l.isOrphan components → Document.attributesFirst (elementKinds kinds)

theorem notMem_bodyContent (h : f.All PlainBody) : .attribute ∉ f.bodyContent.rootKinds := by
  induction f with
  | nil => simp [bodyContent, rootKinds]
  | cons id label children siblings _ ih =>
    rw [bodyContent]
    split
    · next hkind => exact h.1 hkind
    · exact ih h.2.2

/-- The element for an orphan has its attributes first just if the orphan has them before its other
children. -/
theorem attributesFirst_element (components : Components) (n : Nat) (below : Forest)
    (h : .attribute ∉ below.bodyContent.rootKinds) :
    Document.attributesFirst ((below.lowered components n).withoutBodies.withAttributes n ++
        (below.lowered components n).bodyContent).rootKinds ↔
      Document.attributesFirst (elementKinds below.rootKinds) := by
  have hcontent : .attribute ∉ (below.lowered components n).bodyContent.rootKinds := by
    -- Lowering makes constructs into elements, and neither are attributes.
    have hmap : ∀ kinds : List NodeKind, .attribute ∈ kinds.map NodeKind.lowered ↔
        .attribute ∈ kinds := by
      intro kinds
      have hkind : ∀ kind : NodeKind, kind.lowered = .attribute ↔ kind = .attribute := fun kind =>
        NodeKind.lowered_eq_iff (by decide) (by decide)
      simp only [List.mem_map, hkind, exists_eq_right]
    rwa [bodyContent_lowered, ← hmap, rootKinds_lowered, hmap]
  rw [rootKinds_element, Document.attributesFirst_append_iff hcontent,
    ← Document.attributesFirst_map_lowered, ← Document.elementKinds_map_lowered, rootKinds_lowered,
    Document.elementKinds_map_lowered, Document.attributesFirst_map_lowered]

/-- A forest in which all nodes fit is lowered to one in which all nodes fit, just if its orphans
have their attributes before their other children. -/
theorem fits_lowered_iff (hfits : f.All Fitting) (hnamed : f.All Named) (hplain : f.All PlainBody) :
    (f.lowered components n).All Fitting ↔ f.All (Ahead components) := by
  induction f with
  | nil => rfl
  | cons id label children siblings ihc ihs =>
    obtain ⟨⟨hroot, hlabel⟩, hfitsc, hfitss⟩ := hfits
    obtain ⟨hname, hnamedc, hnameds⟩ := hnamed
    obtain ⟨-, hplainc, hplains⟩ := hplain
    have hc := ihc hfitsc hnamedc hplainc
    have hs := ihs hfitss hnameds hplains
    by_cases horphan : label.isOrphan components = true
    · have hkind := Label.kind_of_isOrphan horphan
      have hhead : Fitting n label.asElement
          ((children.lowered components n).withoutBodies.withAttributes n ++
            (children.lowered components n).bodyContent).rootKinds ↔
          Ahead components id label children.rootKinds := by
        have hfirst :=
          attributesFirst_element components n children (notMem_bodyContent hplainc)
        rw [Ahead, ← hfirst]
        simp [Fitting, Label.Fits, Label.asElement, horphan, hname hkind]
      -- What is under the element is what the orphan and its one body had under them.
      have hone : (children.lowered components n).rootKinds.count .constructBody = 1 := by
        simpa [Label.Fits, hkind] using fits_rootKinds_lowered.2 hlabel
      have hparts := fitting_withoutBodies_bodyContent hone
      simp only [lowered, horphan, if_true, All, hhead, all_append, fitting_withAttributes, hparts,
        hc, hs]
    · have hhead : Fitting id label (children.lowered components n).rootKinds ↔
          Ahead components id label children.rootKinds := by
        have hfits : Fitting id label (children.lowered components n).rootKinds :=
          ⟨hroot, fits_rootKinds_lowered.2 hlabel⟩
        simp [hfits, Ahead, horphan]
      simp only [lowered, horphan, Bool.false_eq_true, if_false, All, hhead, hc, hs]

end Forest

/-! ## Lowered documents -/

namespace Document

variable {d : Document}

/-- An attribute of an element, or of a construct. -/
def IsAttribute (d : Document) (id : NodeId) : Prop :=
  d.kind id = .attribute ∨ d.kind id = .constructAttribute

/-- Bodies apart, no child of a node that is an attribute comes after one that is not. -/
def AttributesAhead (d : Document) (id : NodeId) : Prop :=
  ((d.children id).filter fun child => d.kind child ≠ .constructBody).Pairwise
    fun before after => d.IsAttribute after → d.IsAttribute before

/-- Orphans are the nodes of a forest with the label of an orphan. -/
theorem forall_orphans_iff {p : NodeId → Prop} (h : d.Exhibits f) (parent : NodeId) :
    (∀ orphan ∈ f.orphans components parent, p orphan.node) ↔
      ∀ id ∈ f.preorder, (d.label id).isOrphan components → p id := by
  induction f generalizing parent with
  | nil => simp [Forest.orphans, Forest.preorder]
  | cons id label children siblings ihc ihs =>
    obtain ⟨⟨rfl, -⟩, hchildren, hsiblings⟩ := h
    simp only [Forest.orphans, Forest.preorder, List.forall_mem_cons, List.forall_mem_append,
      ihc hchildren, ihs hsiblings, ← and_assoc]
    rw [and_comm (a := _ → p id)]
    split
    · next horphan => simp [horphan]
    · next horphan => simp [horphan]

theorem attributesAhead_iff {id : NodeId} :
    d.AttributesAhead id ↔ attributesFirst (elementKinds ((d.children id).map d.kind)) := by
  have hkind : ∀ id, (d.kind id).underElement = .attribute ↔ d.IsAttribute id := by
    intro id
    unfold NodeKind.underElement IsAttribute
    split <;> simp_all
  have hfilter : ((· != NodeKind.constructBody) ∘ d.kind) =
      fun child => decide (d.kind child ≠ .constructBody) := by
    funext child
    rw [Bool.eq_iff_iff]
    simp
  rw [attributesFirst_iff, elementKinds, List.pairwise_map, List.filter_map, List.pairwise_map,
    hfilter]
  simp only [hkind]
  rfl

/-- A well-formed document with named constructs, and without attributes that stand in a body
themselves, is lowered without a fault. What comes out is well-formed just if in each orphan all
attributes come before the other children, the body apart. -/
theorem verify_lowered_iff (components : Components) (h : d.verify)
    (hnamed : ∀ id ∈ d.tree.preorder, d.kind id = .construct → (d.label id).name ≠ [])
    (hplain : ∀ id ∈ d.tree.preorder, d.kind id = .constructBody →
      ∀ child ∈ d.children id, d.kind child ≠ .attribute) :
    (d.lowered components).ok ∧
      ((d.lowered components).document.verify ↔
        ∀ orphan ∈ d.orphans components, d.AttributesAhead orphan.node) := by
  obtain ⟨htree, hfits⟩ := verify_iff_fits.1 h
  obtain ⟨hfaults, htree', hcapped⟩ := htree.lowered (bodied_of_verify h components)
  have hok : (d.lowered components).ok := by
    rw [Rewrite.ok, hfaults]
    rfl
  have hnamed : d.tree.All Forest.Named := (Forest.all_iff_of_exhibits htree.exhibits).2 hnamed
  have hplain : d.tree.All Forest.PlainBody := by
    refine (Forest.all_iff_of_exhibits htree.exhibits).2 fun id hid hkind hmem => ?_
    obtain ⟨child, hchild, hattribute⟩ := List.mem_map.1 hmem
    exact hplain id hid hkind child hchild hattribute
  rw [htree.tree_eq] at hfits hnamed hplain
  have hexhibits := htree.placed.exhibits
  have hahead : (∀ orphan ∈ d.orphans components, d.AttributesAhead orphan.node) ↔
      (d.forestBelow root).All (Forest.Ahead components) := by
    rw [orphans, forall_orphans_iff hexhibits, Forest.all_iff_of_exhibits hexhibits]
    simp only [attributesAhead_iff]
    rfl
  -- The root is a child of no node, so it is not lowered itself.
  have hroot : Forest.Fitting root (d.label root)
      ((d.forestBelow root).lowered components d.size).rootKinds :=
    ⟨fun _ => rfl, Forest.fits_rootKinds_lowered.2 hfits.1.2⟩
  refine ⟨hok, ?_⟩
  rw [hahead, verify_iff_fits, and_iff_right htree',
    ← Forest.fitting_capped (n := d.size) d.size_pos, hcapped,
    ← Forest.fits_lowered_iff (n := d.size) hfits.2.1 hnamed.2.1 hplain.2.1]
  exact ⟨fun h => h.2.1, fun h => ⟨hroot, h, trivial⟩⟩

/-- In the body of a component a construct that stands for none, with its body before its attributes
and embedded code after them; one of the attributes is that of an element already. In its body is
another such construct. -/
def decoratedCard : Document :=
  ⟨#[{ kind := .document, children := [1] },
    { kind := .construct, name := utf8 "Card", descriptors := [utf8 "card"], children := [2, 3] },
    { kind := .embedded .expression (utf8 "x") },
    { kind := .constructBody, children := [4] },
    { kind := .construct, name := utf8 "p", children := [5, 6, 8, 10] },
    { kind := .constructBody, children := [11, 13] },
    { kind := .constructAttribute, name := utf8 "bind", children := [7] },
    { kind := .embedded .expression (utf8 "y") },
    { kind := .attribute, name := utf8 "id", children := [9] },
    { kind := .attributeValue },
    { kind := .embedded .codeBlock (utf8 "z") },
    { kind := .construct, name := utf8 "b", children := [12] },
    { kind := .constructBody },
    { kind := .markup, fragments := [utf8 "t"] }], by decide⟩

theorem decoratedCard_lowered :
    decoratedCard.verify ∧ decoratedCard.orphans [utf8 "card"] = [⟨5, 11⟩, ⟨3, 4⟩] ∧
      (decoratedCard.lowered [utf8 "card"]).document.verify := by
  have hverify : decoratedCard.verify := by decide +kernel
  have horphans : decoratedCard.orphans [utf8 "card"] = [⟨5, 11⟩, ⟨3, 4⟩] := by decide +kernel
  have hlowered := verify_lowered_iff [utf8 "card"] hverify (by decide +kernel) (by decide +kernel)
  refine ⟨hverify, horphans, hlowered.2.2 ?_⟩
  rw [horphans]
  unfold AttributesAhead IsAttribute
  decide +kernel

/-- A construct with embedded code before its attribute. -/
def lateAttribute : Document :=
  ⟨#[{ kind := .document, children := [1] },
    { kind := .construct, name := utf8 "p", children := [2, 3, 4] },
    { kind := .constructBody },
    { kind := .embedded .expression (utf8 "x") },
    { kind := .constructAttribute, name := utf8 "id" }], by decide⟩

/-- The element takes over the order, so its attribute is not the first of its children. -/
theorem lateAttribute_lowered :
    lateAttribute.verify ∧
      (∀ id ∈ lateAttribute.tree.preorder, lateAttribute.kind id = .construct →
        (lateAttribute.label id).name ≠ []) ∧
      (∀ id ∈ lateAttribute.tree.preorder, lateAttribute.kind id = .constructBody →
        ∀ child ∈ lateAttribute.children id, lateAttribute.kind child ≠ .attribute) ∧
      (lateAttribute.lowered []).ok ∧ ¬ (lateAttribute.lowered []).document.verify := by
  decide +kernel

end Document

end MarkupTemplate
