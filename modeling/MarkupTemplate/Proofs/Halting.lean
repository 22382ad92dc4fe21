import MarkupTemplate.Proofs.Obstacles
import MarkupTemplate.Proofs.Transcription

/-!
# Where writing stops

Writing stops at the first obstacle, and the fault that it leaves is that obstacle. What comes
before can be written, so on the way to the obstacle nothing is refused: scopes are opened and
closed in step, closures end in the order that their nesting demands, and the emission is not ended
before its end. After the fault nothing more is asked for, so there is no second fault.

## Main definitions

* `Renderer.found`: all faults so far, those of the scopes apart
* `Render.Halts`: steps stop with one fault

## Main results

* `Render.halts_forest`: a forest with an obstacle is written up to the first one
* `Renderer.faults_of_fresh`: the faults of a document that is written by a fresh renderer
-/

namespace MarkupTemplate

/-- All faults so far: those of the writing, and those of the scopes. -/
def Renderer.found (r : Renderer) : List Fault × List Fault := (r.emission.faults, r.scopes.faults)

namespace Render

variable {x y : Render Unit} {r r₁ : Renderer} {fault : Fault} {f : Forest}

/-- The steps stop, with one fault more of the writing and none of the scopes. -/
def Halts (x : Render Unit) (r : Renderer) (fault : Fault) : Prop :=
  ∃ r', x.run r = (none, r') ∧ r'.found = (r.emission.faults ++ [fault], r.scopes.faults)

theorem halts_fail (fault : Fault) (r : Renderer) : Halts (fail fault) r fault := ⟨_, rfl, rfl⟩

/-- After the first part stops, the second is not begun. -/
theorem Halts.bind (hx : Halts x r fault) (y : Render Unit) : Halts (do x; y) r fault := by
  obtain ⟨r', hrun, hfound⟩ := hx
  refine ⟨r', ?_, hfound⟩
  rw [run_bind, hrun]
  rfl

/-- After the first part finds nothing, the second stops. -/
theorem Does.halts (hx : Does x r r₁) (hfound : r₁.found = r.found) (hy : Halts y r₁ fault) :
    Halts (do x; y) r fault := by
  obtain ⟨r', hrun, hfound'⟩ := hy
  obtain ⟨hfaults, hscopes⟩ := Prod.mk.inj hfound
  refine ⟨r', ?_, by rw [hfound', hfaults, hscopes]⟩
  rw [run_bind, show x.run r = _ from hx]
  exact hrun

/-! ## Attributes -/

/-- A value is written up to its first obstacle. -/
theorem halts_value {owner : Label} {parts : List Label}
    (h : valueObstacle owner parts = some fault) (wrote : Bool) (r : Renderer) :
    Halts (value owner wrote parts) r fault := by
  induction parts generalizing wrote r with
  | nil => cases h
  | cons part parts ih =>
    rw [value]
    cases hk : part.kind with
    | markup =>
      have hrest : valueObstacle owner parts = some fault := by
        simpa [valueObstacle, Label.isValuePart, hk] using h
      exact (does_separator wrote r).halts rfl ((does_literal _ _).halts rfl (ih hrest true _))
    | embedded form code =>
      have hrest : valueObstacle owner parts = some fault := by
        simpa [valueObstacle, Label.isValuePart, hk] using h
      cases form with
      | codeBlock => exact (does_diagnose _ r).halts rfl (ih hrest wrote _)
      | _ =>
        exact (does_separator wrote r).halts rfl ((does_text _ _).halts rfl
          ((does_text _ _).halts rfl ((does_text _ _).halts rfl (ih hrest true _))))
    | _ =>
      obtain rfl : Fault.notValuePart owner.name part.kind = fault := by
        simpa [valueObstacle, Label.isValuePart, hk] using h
      rw [hk]
      exact (does_separator wrote r).halts rfl (halts_fail _ _)

theorem halts_attributeCall {owner : Label} {parts : List Label}
    (h : valueObstacle owner parts = some fault) (r : Renderer) :
    Halts (attributeCall owner parts) r fault :=
  (does_call _ r).halts rfl ((does_literal _ _).halts rfl ((does_text _ _).halts rfl
    ((halts_value h false _).bind _)))

theorem halts_parameters (h : f.parameterObstacle = some fault) (hr : r.Ready) :
    Halts (parameters f) r fault := by
  induction f generalizing r with
  | nil => cases h
  | cons id label children siblings _ ih =>
    rw [Forest.parameterObstacle] at h
    rw [parameters]
    by_cases hk : label.kind = .constructAttribute
    · rw [if_pos hk] at h ⊢
      rcases Option.or_eq_some_iff.1 h with h | ⟨hnone, h⟩
      · exact (halts_attributeCall h r).bind _
      · rw [valueObstacle_eq_none_iff, ← Forest.map_snd_items] at hnone
        rw [← Forest.map_snd_items]
        exact (does_attributeCall hr label hnone).halts rfl (ih h (hr.emit _))
    · rw [if_neg hk] at h ⊢
      simpa using ih (by simpa using h) hr

/-! ## Forests -/

/-- A closure begins with a line of its own. -/
theorem listing_beginClosure (e : Emission) (outer inner : Bytes) :
    (e.beginClosure outer inner).1.listing.atLineStart = true ∧
      (e.beginClosure outer inner).1.listing.indentSize = e.listing.indentSize := by
  rw [Emission.beginClosure_eq]
  refine ⟨rfl, ?_⟩
  cases Statement.beginContent.text outer inner <;> rfl

/-- A child can always be counted while the emission has not ended. -/
theorem exists_does_countChild (h : r.Ready) :
    ∃ r₁, Does (request .countChild) r r₁ ∧ r₁.Ready ∧ r₁.found = r.found := by
  -- Only the first child of a component is more than counted: a closure begins before it.
  by_cases hquiet : r.Quiet
  · exact ⟨_, does_countChild h hquiet, h.count 0 1, rfl⟩
  · obtain ⟨emission, ⟨base, frames, targetNumber, isFinished, faults⟩, diagnostics⟩ := r
    obtain rfl : isFinished = false := h.notFinished
    cases frames with
    | nil => exact absurd (by simp [Renderer.Quiet]) hquiet
    | cons frame frames =>
      have hfirst : (frame.isComponent && frame.childCount == 0) = true := by
        simpa [Renderer.Quiet] using hquiet
      have hcount : Does (request .countChild) ⟨emission, ⟨base, frame :: frames, targetNumber,
          false, faults⟩, diagnostics⟩ _ := does_request _ _ (by
        simp only [Scopes.step, Scopes.countChild, hfirst]
        rfl)
      obtain ⟨hstart, hsize⟩ := listing_beginClosure emission
        (Scopes.targetOf base targetNumber) (Scopes.targetOf base (targetNumber + 1))
      exact ⟨_, hcount, ⟨hstart, hsize.trans h.indentSize, rfl⟩, rfl⟩

section

variable {inElement : Bool} {id : NodeId} {label : Label} {children siblings : Forest}
variable
  (hcontent : ∀ inElement fault r, children.obstacle inElement = some fault → r.Ready →
    Halts (forest inElement children) r fault)
  (hbody : ∀ component name fault r, children.bodyObstacle component name = some fault →
    r.Ready → Halts (body component name children) r fault)
include hcontent hbody

/-- An obstacle in a node that is counted is one in what is under it. -/
theorem halts_contentCalls (hcounted : isCounted label = true)
    (h : (Forest.cons id label children .nil).obstacle inElement = some fault) (hr : r.Ready) :
    Halts (contentCalls id label children) r fault := by
  rw [Forest.obstacle, Forest.obstacle, Option.or_none] at h
  unfold isCounted at hcounted
  unfold contentCalls
  cases hk : label.kind with
  | markup | embedded form code => simp [hk] at h
  | element =>
    simp only [hk] at h
    have hopen := does_statement hr (.openElement label.name) rfl (does_callLiteral _ _ r)
    have h₁ := hr.emit [r.line (.openElement label.name)]
    exact hopen.halts rfl ((does_openScope h₁ label.name false).halts rfl
      ((hcontent true fault _ h (h₁.push label.name false)).bind _))
  | construct =>
    simp only [hk] at h
    have hopen := does_statement hr (.openComponent label.name) rfl (does_callLiteral _ _ r)
    have h₁ := hr.emit [r.line (.openComponent label.name)]
    have h₂ := h₁.push label.name true
    refine hopen.halts rfl ((does_openScope h₁ label.name true).halts rfl ?_)
    -- The attributes are written inside the scope, before the body is looked for.
    rcases Option.or_eq_some_iff.1 h with h | ⟨hnone, h⟩
    · exact (halts_parameters h h₂).bind _
    · have hparameters := does_parameters h₂ (Forest.parameterObstacle_eq_none_iff.1 hnone)
      exact hparameters.halts rfl ((hbody id label.name fault _ h (h₂.emit _)).bind _)
  | _ => simp [hk] at hcounted

/-- A node with an obstacle is the last one of which anything is written. -/
theorem halts_node (h : (Forest.cons id label children .nil).obstacle inElement = some fault)
    (hr : r.Ready) : Halts (forest inElement (.cons id label children siblings)) r fault := by
  by_cases hcounted : isCounted label = true
  · -- The obstacle is in what is under the node; the count of the node itself is granted.
    rw [forest_cons_counted hcounted]
    obtain ⟨r₁, hcount, h₁, hfound⟩ := exists_does_countChild hr
    exact hcount.halts hfound ((halts_contentCalls hcontent hbody hcounted h h₁).bind _)
  · rw [Forest.obstacle, Forest.obstacle, Option.or_none] at h
    unfold isCounted at hcounted
    rw [forest]
    cases hk : label.kind with
    | embedded form code => cases form <;> simp [hk] at h
    | markup | element | construct => simp [hk] at hcounted
    | «attribute» =>
      cases inElement with
      | true =>
        simp only [hk, if_true] at h
        exact (halts_attributeCall h r).bind _
      | false =>
        obtain rfl : Fault.notContent id .attribute = fault := by simpa [hk] using h
        exact (halts_fail _ r).bind _
    | _ =>
      obtain rfl : Fault.notContent id _ = fault := by simpa only [hk, Option.some.injEq] using h
      exact (halts_fail _ r).bind _

end

/-- A node without an obstacle is written before its siblings. -/
theorem halts_siblings {inElement : Bool} {id : NodeId} {label : Label}
    {children siblings : Forest}
    (hsiblings : ∀ r, r.Ready → Halts (forest inElement siblings) r fault)
    (hf : (Forest.cons id label children .nil).Writable inElement) (hr : r.Ready) :
    Halts (forest inElement (.cons id label children siblings)) r fault := by
  by_cases hcounted : isCounted label = true
  · rw [forest_cons_counted hcounted]
    obtain ⟨r₁, hcount, h₁, hfound⟩ := exists_does_countChild hr
    obtain ⟨m, hnode⟩ := does_contentCalls (renders children) hcounted hf h₁
    exact hcount.halts hfound (hnode.halts rfl (hsiblings _ ((h₁.emit _).count m 0)))
  · rcases directive_or_attribute hcounted hf with ⟨code, hk⟩ | ⟨hk, rfl, hparts⟩
    · rw [forest_cons_directive hk]
      exact hsiblings r hr
    · rw [forest_cons_attribute hk, ← Forest.map_snd_childItems]
      rw [← Forest.map_snd_childItems] at hparts
      exact (does_attributeCall hr label hparts).halts rfl (hsiblings _ (hr.emit _))

/-- A forest with an obstacle, as content or under a component, is written up to the first one. -/
theorem halts_forest (f : Forest) :
    (∀ inElement fault r, f.obstacle inElement = some fault → r.Ready →
      Halts (forest inElement f) r fault) ∧
      ∀ component name fault r, f.bodyObstacle component name = some fault → r.Ready →
        Halts (body component name f) r fault := by
  induction f with
  | nil =>
    refine ⟨fun inElement fault r h _ => ?_, fun component name fault r h _ => ?_⟩
    · cases h
    · obtain rfl := Option.some.inj h
      rw [body]
      exact halts_fail _ r
  | cons id label children siblings ihc ihs =>
    constructor
    · intro inElement fault r h hr
      rw [Forest.obstacle_cons, Option.or_eq_some_iff] at h
      rcases h with h | ⟨hnone, h⟩
      · exact halts_node ihc.1 ihc.2 h hr
      · exact halts_siblings (fun r hr => ihs.1 inElement fault r h hr)
          (((Forest.obstacle_eq_none_iff _).1 inElement).1 hnone) hr
    · intro component name fault r h hr
      rw [Forest.bodyObstacle] at h
      rw [body]
      split at h
      · next hk =>
        rw [if_pos hk]
        exact ihc.1 false fault r h hr
      · next hk =>
        rw [if_neg hk]
        exact ihs.2 component name fault r h hr

end Render

/-! ## Documents -/

namespace Renderer

/-- Of a document with an obstacle nothing is written behind it. -/
theorem write_of_obstacle (target : Bytes) {d : Document} {fault : Fault}
    (h : (d.forestBelow Document.root).obstacle false = some fault) :
    let outcome := (start target).write d
    outcome.1 = false ∧ outcome.2.faults = [fault] ∧ outcome.2.scopes.faults = [] := by
  have hforest := (Render.halts_forest (d.forestBelow Document.root)).1 false fault
    (start target) h ⟨rfl, rfl, rfl⟩
  obtain ⟨r', hrun, hfound⟩ := hforest.bind (Render.request .finish)
  obtain ⟨hfaults, hscopes⟩ := Prod.mk.inj hfound
  simp only [write]
  rw [hrun]
  refine ⟨rfl, ?_, hscopes⟩
  simp [faults, hfaults, hscopes, start]

/-- A fresh renderer writes the whole of an acyclic document without a fault, or it stops with
exactly one, at the first obstacle in the tree of the document. This fault is one of the document:
neither a closure nor the scopes have any part in it, and the scopes refuse nothing. -/
theorem faults_of_fresh (target : Bytes) {d : Document} (hacyclic : d.Acyclic) :
    let f := d.forestBelow Document.root
    let outcome := (start target).write d
    (d.Exhibits f ∧ f.roots = d.children Document.root) ∧ outcome.2.scopes.faults = [] ∧
      (f.obstacle false = none ∧ outcome.1 = true ∧ outcome.2.faults = [] ∨
        ∃ fault, f.obstacle false = some fault ∧ outcome.1 = false ∧ outcome.2.faults = [fault] ∧
          d.Bears fault ∧
          fault.code ∈ [utf8 "STENCIL-I5301", utf8 "STENCIL-I5302", utf8 "STENCIL-I5303"]) := by
  intro f outcome
  have hexhibits := hacyclic.exhibits_forestBelow d.size_pos
  refine ⟨hexhibits, ?_⟩
  cases h : f.obstacle false with
  | none =>
    have hf : f.Writable false := ((Forest.obstacle_eq_none_iff f).1 false).1 h
    obtain ⟨closures, children, hwrite⟩ := write_eq_emit target hf
    obtain ⟨hwritten, hfaults, -⟩ := write_of_writable target hf
    refine ⟨?_, .inl ⟨rfl, hwritten, hfaults⟩⟩
    change ((start target).write d).2.scopes.faults = []
    rw [hwrite]
    rfl
  | some fault =>
    obtain ⟨hwritten, hfaults, hscopes⟩ := write_of_obstacle target h
    have hbears : d.Bears fault :=
      (Document.bears_of_obstacle hexhibits.1 d.reached_root fun id hid => hexhibits.2 ▸ hid).1
        false (fun _ => .inl rfl) h
    exact ⟨hscopes, .inr ⟨fault, rfl, hwritten, hfaults, hbears, Document.code_of_bears hbears⟩⟩

/-- A component with text, and in the same content a second component with an element for a part of
the value of its attribute. Behind it, nothing that stands under the root can stand there. -/
def obstructedContent : Document :=
  ⟨#[{ kind := .document, children := [1, 9] },
    { kind := .construct, name := utf8 "Card", children := [2] },
    { kind := .constructBody, children := [3, 4] },
    { kind := .markup, fragments := [utf8 "a"] },
    { kind := .construct, name := utf8 "Item", children := [5, 8] },
    { kind := .constructAttribute, name := utf8 "title", children := [6, 7] },
    { kind := .markup, fragments := [utf8 "c"] },
    { kind := .element, name := utf8 "p" },
    { kind := .constructBody },
    { kind := .attributeValue }], by decide⟩

theorem obstructedContent_faults :
    obstructedContent.Acyclic ∧ ((start (utf8 "b")).write obstructedContent).1 = false ∧
      ((start (utf8 "b")).write obstructedContent).2.faults =
        [.notValuePart (utf8 "title") .element] ∧
      obstructedContent.Bears (.notValuePart (utf8 "title") .element) := by
  have hacyclic : obstructedContent.Acyclic := ⟨fun id => obstructedContent.size - id, by decide⟩
  have hobstacle : (obstructedContent.forestBelow Document.root).obstacle false =
      some (.notValuePart (utf8 "title") .element) := by decide +kernel
  obtain ⟨-, -, ⟨hnone, -⟩ | ⟨fault, hsome, hwritten, hfaults, hbears, -⟩⟩ :=
    faults_of_fresh (utf8 "b") hacyclic
  · exact absurd (hnone.symm.trans hobstacle) (by simp)
  · obtain rfl := Option.some.inj (hsome.symm.trans hobstacle)
    exact ⟨hacyclic, hwritten, hfaults, hbears⟩

end Renderer

end MarkupTemplate
