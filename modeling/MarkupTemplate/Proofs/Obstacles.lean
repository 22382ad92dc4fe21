import MarkupTemplate.Proofs.Program
import MarkupTemplate.Proofs.Reachability

/-!
# What cannot be written

A forest can be written unless there is an obstacle in it: a node that stands where no content can
be written, a component without a body, or a part of a value that has no value. The walk of writing
meets the obstacles in a certain order, in which the first one is the fault: nodes come in document
order, and the attributes of a component before its body. The obstacle is found from the tree alone,
and what it says of a node is so in the document.

## Main definitions

* `valueObstacle`, `Forest.parameterObstacle`, `Forest.obstacle`, `Forest.bodyObstacle`: the first
  obstacle in a value, in the attributes of a component, in content and in a component's content
* `Document.Bears`: a fault of the writing is one of the document

## Main results

* `Forest.obstacle_eq_none_iff`: what has no obstacle can be written
* `Document.bears_of_obstacle`: an obstacle is a fault of the document
-/

namespace MarkupTemplate

/-! ## Obstacles -/

/-- The first part of a value that cannot be one. -/
def valueObstacle (owner : Label) (parts : List Label) : Option Fault :=
  (parts.find? (!·.isValuePart)).map fun part => .notValuePart owner.name part.kind

namespace Forest

/-- The first obstacle in the attributes of a component. -/
def parameterObstacle : Forest → Option Fault
  | nil => none
  | cons _ label children siblings =>
    (if label.kind = .constructAttribute then valueObstacle label children.labels else none).or
      siblings.parameterObstacle

mutual

/-- The first obstacle in content. Attributes are content only inside an element. -/
def obstacle (inElement : Bool) : Forest → Option Fault
  | nil => none
  | cons id label children siblings =>
    (match label.kind with
      | .markup | .embedded .. => none
      | .element => children.obstacle true
      | .construct => children.parameterObstacle.or (children.bodyObstacle id label.name)
      | .attribute =>
        if inElement then valueObstacle label children.childLabels
        else some (.notContent id label.kind)
      | kind => some (.notContent id kind)).or (siblings.obstacle inElement)

/-- The first obstacle in the content of a component, which is that of its first body. -/
def bodyObstacle (component : NodeId) (name : Bytes) : Forest → Option Fault
  | nil => some (.componentWithoutBody component name)
  | cons _ label children siblings =>
    if label.kind = .constructBody then children.obstacle false
    else siblings.bodyObstacle component name

end

variable {id : NodeId} {label : Label} {children siblings : Forest}

/-- A node comes before its siblings. -/
theorem obstacle_cons (inElement : Bool) (id : NodeId) (label : Label)
    (children siblings : Forest) :
    (cons id label children siblings).obstacle inElement =
      ((cons id label children nil).obstacle inElement).or (siblings.obstacle inElement) := by
  simp [obstacle]

end Forest

theorem valueObstacle_eq_none_iff {owner : Label} {parts : List Label} :
    valueObstacle owner parts = none ↔ ∀ part ∈ parts, part.isValuePart := by
  simp [valueObstacle]

namespace Forest

theorem parameterObstacle_eq_none_iff {f : Forest} :
    f.parameterObstacle = none ↔ f.WritableParameters := by
  induction f with
  | nil => exact ⟨fun _ => trivial, fun _ => rfl⟩
  | cons id label children siblings _ ih =>
    rw [parameterObstacle, WritableParameters, Option.or_eq_none_iff, ih]
    split
    · next hk => simp [hk, valueObstacle_eq_none_iff]
    · next hk => simp [hk]

/-- What has no obstacle can be written, as content or under a component. -/
theorem obstacle_eq_none_iff (f : Forest) :
    (∀ inElement, f.obstacle inElement = none ↔ f.Writable inElement) ∧
      ∀ component name, f.bodyObstacle component name = none ↔ f.WritableBody := by
  induction f with
  | nil => simp [obstacle, Writable, bodyObstacle, WritableBody]
  | cons id label children siblings ihc ihs =>
    constructor
    · intro inElement
      rw [obstacle, Writable, Option.or_eq_none_iff, ihs.1]
      refine and_congr_left fun _ => ?_
      cases label.kind with
      | element => exact ihc.1 true
      | construct =>
        dsimp only
        rw [Option.or_eq_none_iff, parameterObstacle_eq_none_iff, ihc.2]
      | «attribute» => cases inElement <;> simp [valueObstacle_eq_none_iff]
      | _ => simp
    · intro component name
      rw [bodyObstacle, WritableBody]
      split
      · exact ihc.1 false
      · exact ihs.2 component name

end Forest

/-! ## Faults of a document -/

namespace Document

/-- The parts of the value of an attribute. An attribute of an element holds them in a node of its
own. -/
def valueParts (d : Document) (id : NodeId) : List NodeId :=
  if d.kind id = .attribute then (d.children id).flatMap d.children else d.children id

/-- The fault is one of the document: among the content that is reached there is a node that is no
content there, a component without a body, or an attribute with a part that is no part of a value.
The scopes and the closures have no part in it. -/
def Bears (d : Document) : Fault → Prop
  | .notContent id kind => d.kind id = kind ∧
      kind ∈ [.document, .attribute, .attributeValue, .constructAttribute, .constructBody] ∧
      ∃ parent, d.Reached parent ∧ id ∈ d.children parent ∧
        (kind = .attribute → parent = root ∨ d.kind parent ≠ .element)
  | .componentWithoutBody id name =>
    d.Reached id ∧ d.kind id = .construct ∧ (d.label id).name = name ∧ d.bodyOf? id = none
  | .notValuePart name kind => ∃ id part, d.Reached id ∧
      d.kind id ∈ [.attribute, .constructAttribute] ∧ (d.label id).name = name ∧
      part ∈ d.valueParts id ∧ d.kind part = kind ∧ (d.label part).isValuePart = false
  | _ => False

variable {d : Document} {f : Forest} {fault : Fault} {id parent : NodeId} {label : Label}

theorem code_of_bears (h : d.Bears fault) :
    fault.code ∈ [utf8 "STENCIL-I5301", utf8 "STENCIL-I5302", utf8 "STENCIL-I5303"] := by
  cases fault with
  | notContent => exact List.mem_cons_self
  | componentWithoutBody => exact List.mem_cons_of_mem _ List.mem_cons_self
  | notValuePart => exact List.mem_cons_of_mem _ (List.mem_cons_of_mem _ List.mem_cons_self)
  | _ => exact h.elim

namespace Exhibits

theorem labels_eq (hf : d.Exhibits f) : f.labels = f.roots.map d.label := by
  induction f with
  | nil => rfl
  | cons id label children siblings _ ih =>
    rw [Forest.labels, Forest.roots, List.map_cons, hf.1.1, ih hf.2.2]

theorem childLabels_eq (hf : d.Exhibits f) :
    f.childLabels = (f.roots.flatMap d.children).map d.label := by
  induction f with
  | nil => rfl
  | cons id label children siblings _ ih =>
    rw [Forest.childLabels, Forest.roots, List.flatMap_cons, List.map_append, hf.1.2,
      hf.2.1.labels_eq, ih hf.2.2]

end Exhibits

/-- A value with an obstacle has a part that is no part of a value. -/
theorem bears_of_valueObstacle (hreached : d.Reached id)
    (hkind : d.kind id ∈ [NodeKind.attribute, .constructAttribute])
    (h : valueObstacle (d.label id) ((d.valueParts id).map d.label) = some fault) :
    d.Bears fault := by
  obtain ⟨found, hfind, rfl⟩ := Option.map_eq_some_iff.1 h
  obtain ⟨part, hpart, rfl⟩ := List.mem_map.1 (List.mem_of_find?_eq_some hfind)
  have hnot := List.find?_some hfind
  exact ⟨id, part, hreached, hkind, rfl, hpart, rfl, by simpa using hnot⟩

theorem bears_of_parameterObstacle (hf : d.Exhibits f) (hroots : ∀ id ∈ f.roots, d.Reached id)
    (h : f.parameterObstacle = some fault) : d.Bears fault := by
  induction f with
  | nil => cases h
  | cons id label children siblings _ ih =>
    obtain ⟨⟨rfl, hid⟩, hchildren, hsiblings⟩ := hf
    obtain ⟨hreached, hroots⟩ := List.forall_mem_cons.1 hroots
    rw [Forest.parameterObstacle, Option.or_eq_some_iff] at h
    rcases h with h | ⟨-, h⟩
    · split at h
      · next hk =>
        have hk : d.kind id = .constructAttribute := hk
        refine bears_of_valueObstacle hreached (by simp [hk]) ?_
        rwa [valueParts, if_neg (by simp [hk]), hid, ← hchildren.labels_eq]
      · cases h
    · exact ih hsiblings hroots h

section

variable {inElement : Bool} {children : Forest}
variable (hparent : d.Reached parent) (hchild : id ∈ d.children parent)
  (hcontext : inElement = false → parent = root ∨ d.kind parent ≠ .element)
include hparent hchild hcontext

/-- What is never content, and an attribute that is not directly in an element, is a fault. -/
theorem bears_of_misplaced {kind : NodeKind} (hk : d.kind id = kind)
    (hmem : kind ∈ [.document, .attribute, .attributeValue, .constructAttribute, .constructBody])
    (hplace : kind = .attribute → inElement = false) : d.Bears (.notContent id kind) :=
  ⟨hk, hmem, parent, hparent, hchild, fun ha => hcontext (hplace ha)⟩

/-- An obstacle in a node is a fault of the document, if those in what is under it are. -/
theorem bears_of_obstacle_singleton (hid : d.children id = children.roots)
    (hchildren : d.Exhibits children)
    (hcontent : children.obstacle true = some fault → d.Bears fault)
    (hbody : ∀ name, children.bodyObstacle id name = some fault → d.Bears fault ∨
      fault = .componentWithoutBody id name ∧ ∀ c ∈ children.roots, d.kind c ≠ .constructBody)
    (h : (Forest.cons id (d.label id) children .nil).obstacle inElement = some fault) :
    d.Bears fault := by
  rw [Forest.obstacle, Forest.obstacle, Option.or_none] at h
  have hkind : d.kind id = (d.label id).kind := rfl
  have hreached : d.Reached id := hparent.child hchild
  cases hk : (d.label id).kind with
  | markup | embedded form code => simp [hk] at h
  | element =>
    simp only [hk] at h
    exact hcontent h
  | construct =>
    simp only [hk, Option.or_eq_some_iff] at h
    rcases h with h | ⟨-, h⟩
    · exact bears_of_parameterObstacle hchildren (fun c hc => hreached.child (hid ▸ hc)) h
    · rcases hbody _ h with h | ⟨rfl, hnone⟩
      · exact h
      · refine ⟨hreached, hkind.trans hk, rfl, ?_⟩
        rw [bodyOf?, List.find?_eq_none, hid]
        simpa using hnone
  | «attribute» =>
    have hk' : d.kind id = .attribute := hkind.trans hk
    cases inElement with
    | true =>
      simp only [hk, if_true] at h
      refine bears_of_valueObstacle hreached (by simp [hk']) ?_
      rwa [valueParts, if_pos hk', hid, ← hchildren.childLabels_eq]
    | false =>
      simp only [hk] at h
      obtain rfl := Option.some.inj h
      exact bears_of_misplaced hparent hchild hcontext hk' (by simp) fun _ => rfl
  | _ =>
    simp only [hk] at h
    obtain rfl := Option.some.inj h
    exact bears_of_misplaced hparent hchild hcontext (hkind.trans hk) (by simp) (by simp)

end

/-- An obstacle is a fault of the document. Under a component, the lack of a body is one once all
children have been looked at. -/
theorem bears_of_obstacle (hf : d.Exhibits f) (hparent : d.Reached parent)
    (hroots : ∀ id ∈ f.roots, id ∈ d.children parent) :
    (∀ inElement, (inElement = false → parent = root ∨ d.kind parent ≠ .element) →
      f.obstacle inElement = some fault → d.Bears fault) ∧
      ∀ name, f.bodyObstacle parent name = some fault → d.Bears fault ∨
        fault = .componentWithoutBody parent name ∧ ∀ id ∈ f.roots, d.kind id ≠ .constructBody := by
  induction f generalizing parent with
  | nil =>
    refine ⟨fun inElement _ h => ?_, fun name h => .inr ⟨(Option.some.inj h).symm, ?_⟩⟩
    · cases h
    · exact fun id hid => absurd hid List.not_mem_nil
  | cons id label children siblings ihc ihs =>
    obtain ⟨⟨rfl, hid⟩, hchildren, hsiblings⟩ := hf
    obtain ⟨hchild, hroots⟩ := List.forall_mem_cons.1 hroots
    have ihc := ihc hchildren (hparent.child hchild) fun c hc => hid ▸ hc
    have ihs := ihs hsiblings hparent hroots
    constructor
    · intro inElement hcontext h
      rw [Forest.obstacle_cons, Option.or_eq_some_iff] at h
      rcases h with h | ⟨-, h⟩
      · exact bears_of_obstacle_singleton hparent hchild hcontext hid hchildren
          (ihc.1 true (by simp)) ihc.2 h
      · exact ihs.1 inElement hcontext h
    · intro name h
      rw [Forest.bodyObstacle] at h
      split at h
      · next hk =>
        have hk : d.kind id = .constructBody := hk
        exact .inl (ihc.1 false (fun _ => .inr (by simp [hk])) h)
      · next hk =>
        rcases ihs.2 name h with h | ⟨rfl, hnone⟩
        · exact .inl h
        · exact .inr ⟨rfl, List.forall_mem_cons.2 ⟨hk, hnone⟩⟩

end Document

end MarkupTemplate
