import MarkupTemplate.Proofs.Program

/-!
# Writing a program line by line

Steps of writing change a renderer piece by piece: calls are put together on the listing, scopes are
opened and closed, and closures begin with the first child of a component. In all, a forest that can
be written adds its lines to the listing and its reports to the diagnostics, and it counts as some
children of the innermost scope and as some closures. So nothing refuses it, and the program is the
text of the lines.

## Main definitions

* `Renderer.emit`: a renderer after some lines
* `Renderer.count`, `Renderer.push`, `Renderer.begun`: a renderer after what the scopes are asked
* `Render.Does`: steps succeed and lead from one renderer to another
* `Render.Renders`: writing a forest, as content or under a component, adds its lines

## Main results

* `Render.does_value`: a value is written part by part
* `Render.does_closeScope_begun`: the content of a component ends with its scope
* `Render.renders`: a forest that can be written is written line by line
* `Renderer.write_eq_emit`, `Renderer.write_of_writable`: the program for a document
-/

namespace MarkupTemplate

/-! ## Listings -/

namespace Listing

variable {l : Listing}

theorem put_put (l : Listing) (s t : Bytes) : (l.put s).put t = l.put (s ++ t) := by
  simp [put, indentation]

theorem put_of_ne_nil (l : Listing) {s : Bytes} (h : s ≠ []) : l.put s = l.write s := by
  rw [write, if_neg (by simpa using h)]

theorem write_write (l : Listing) (s t : Bytes) : (l.write s).write t = l.write (s ++ t) := by
  cases s with
  | nil => rfl
  | cons b s =>
    cases t with
    | nil => simp [write]
    | cons c t => exact put_put l (b :: s) (c :: t)

theorem writeLiteral_eq (l : Listing) (s : Bytes) : l.writeLiteral s = l.write (Literal.encode s) :=
  put_of_ne_nil l (List.cons_ne_nil _ _)

theorem write_writeLine (l : Listing) (s t : Bytes) :
    (l.write s).writeLine t = l.writeLine (s ++ t) := by
  rw [writeLine, write_write, writeLine]

@[simp] theorem level_writeLine (l : Listing) (s : Bytes) : (l.writeLine s).level = l.level := by
  cases s <;> rfl

/-- A line is written from its start. -/
theorem writeLine_eq (hstart : l.atLineStart = true) (hsize : l.indentSize = 4) (s : Bytes) :
    l.writeLine s =
      { l with
        reversed := ((if s.isEmpty then [] else List.replicate (4 * l.level) Byte.space ++ s) ++
          [Byte.lineFeed]).reverse ++ l.reversed } := by
  obtain ⟨reversed, indentSize, level, atLineStart⟩ := l
  obtain rfl : atLineStart = true := hstart
  obtain rfl : indentSize = 4 := hsize
  cases s with
  | nil => rfl
  | cons b s => simp [writeLine, write, put, indentation, Nat.mul_comm]

end Listing

theorem Emission.beginClosure_eq (e : Emission) (outer inner : Bytes) :
    e.beginClosure outer inner =
      ({ e with
          listing := (e.listing.writeLine (Statement.beginContent.text outer inner)).indent
          nextClosure := e.nextClosure + 1
          openClosures := e.nextClosure :: e.openClosures },
        ⟨e.nextClosure, inner⟩) := by
  simp only [Emission.beginClosure, Listing.writeLiteral_eq, Listing.write_write,
    Listing.write_writeLine, Statement.text, List.append_assoc]

/-! ## Renderers -/

namespace Renderer

/-- The renderer with another listing. -/
def mapListing (f : Listing → Listing) (r : Renderer) : Renderer :=
  { r with emission := { r.emission with listing := f r.emission.listing } }

/-- A line of the program that is written now. -/
def line (r : Renderer) (statement : Statement) : Line :=
  ⟨r.emission.listing.level, r.scopes.targetNumber, statement⟩

/-- The renderer after some lines. -/
def emit (lines : List Line) (r : Renderer) : Renderer :=
  { r.mapListing fun l =>
      { l with reversed := (lines.flatMap (Line.text r.scopes.base)).reverse ++ l.reversed } with
    diagnostics := r.diagnostics ++ (lines.flatMap Line.reports).map Report.diagnostic }

/-- The renderer after some closures and some children of the innermost scope. -/
def count (closures children : Nat) (r : Renderer) : Renderer :=
  { r with
    emission := { r.emission with nextClosure := r.emission.nextClosure + closures }
    scopes := { r.scopes with
      frames := r.scopes.frames.modifyHead fun frame =>
        { frame with childCount := frame.childCount + children } } }

/-- The renderer after a scope is opened. -/
def push (tag : Bytes) (isComponent : Bool) (r : Renderer) : Renderer :=
  { r with scopes := { r.scopes with frames := { tag, isComponent } :: r.scopes.frames } }

/-- The renderer after a component is opened and its content has begun with a first child. -/
def begun (tag : Bytes) (r : Renderer) : Renderer :=
  let began := r.emission.beginClosure r.scopes.target
    (Scopes.targetOf r.scopes.base (r.scopes.targetNumber + 1))
  { r with
    emission := began.1
    scopes := { r.scopes with
      frames := { tag, isComponent := true, childCount := 1, closure := some began.2 } ::
        r.scopes.frames
      targetNumber := r.scopes.targetNumber + 1 } }

/-- The renderer is at the start of a line, and its emission has not ended. -/
structure Ready (r : Renderer) : Prop where
  atLineStart : r.emission.listing.atLineStart = true
  indentSize : r.emission.listing.indentSize = 4
  notFinished : r.scopes.isFinished = false

/-- The next child begins no closure. -/
def Quiet (r : Renderer) : Prop :=
  ∀ frame ∈ r.scopes.frames.head?, frame.isComponent = true → frame.childCount ≠ 0

variable {r : Renderer}

@[simp] theorem emit_nil (r : Renderer) : r.emit [] = r := by
  simp [emit, mapListing]

@[simp] theorem emit_emit (lines lines' : List Line) (r : Renderer) :
    (r.emit lines).emit lines' = r.emit (lines ++ lines') := by
  simp [emit, mapListing]

@[simp] theorem count_zero (r : Renderer) : r.count 0 0 = r := by
  obtain ⟨emission, ⟨base, frames, targetNumber, isFinished, faults⟩, diagnostics⟩ := r
  cases frames <;> rfl

@[simp] theorem count_count (m c m' c' : Nat) (r : Renderer) :
    (r.count m c).count m' c' = r.count (m + m') (c + c') := by
  obtain ⟨emission, ⟨base, frames, targetNumber, isFinished, faults⟩, diagnostics⟩ := r
  cases frames <;> simp [count, Nat.add_assoc]

@[simp] theorem emit_count (m c : Nat) (lines : List Line) (r : Renderer) :
    (r.count m c).emit lines = (r.emit lines).count m c := rfl

@[simp] theorem scopes_emit (lines : List Line) (r : Renderer) :
    (r.emit lines).scopes = r.scopes := rfl

@[simp] theorem level_emit (lines : List Line) (r : Renderer) :
    (r.emit lines).emission.listing.level = r.emission.listing.level := rfl

@[simp] theorem targetNumber_count (m c : Nat) (r : Renderer) :
    (r.count m c).scopes.targetNumber = r.scopes.targetNumber := rfl

@[simp] theorem listing_count (m c : Nat) (r : Renderer) :
    (r.count m c).emission.listing = r.emission.listing := rfl

@[simp] theorem targetNumber_push (tag : Bytes) (isComponent : Bool) (r : Renderer) :
    (r.push tag isComponent).scopes.targetNumber = r.scopes.targetNumber := rfl

@[simp] theorem emission_push (tag : Bytes) (isComponent : Bool) (r : Renderer) :
    (r.push tag isComponent).emission = r.emission := rfl

@[simp] theorem targetNumber_begun (tag : Bytes) (r : Renderer) :
    (r.begun tag).scopes.targetNumber = r.scopes.targetNumber + 1 := rfl

theorem Ready.emit (h : r.Ready) (lines : List Line) : (r.emit lines).Ready :=
  ⟨h.atLineStart, h.indentSize, h.notFinished⟩

theorem Ready.count (h : r.Ready) (m c : Nat) : (r.count m c).Ready :=
  ⟨h.atLineStart, h.indentSize, h.notFinished⟩

theorem Ready.push (h : r.Ready) (tag : Bytes) (isComponent : Bool) :
    (r.push tag isComponent).Ready :=
  ⟨h.atLineStart, h.indentSize, h.notFinished⟩

theorem quiet_push (tag : Bytes) (r : Renderer) : (r.push tag false).Quiet := by
  intro frame hframe hcomponent
  obtain rfl : _ = frame := by simpa [Renderer.push] using hframe
  simp at hcomponent

@[simp] theorem level_begun (tag : Bytes) (r : Renderer) :
    (r.begun tag).emission.listing.level = r.emission.listing.level + 1 := by
  rw [begun, Emission.beginClosure_eq]
  exact congrArg (· + 1) (Listing.level_writeLine _ _)

theorem Ready.begun (h : r.Ready) (tag : Bytes) : (r.begun tag).Ready := by
  rw [Renderer.begun, Emission.beginClosure_eq, Listing.writeLine_eq h.atLineStart h.indentSize]
  exact ⟨h.atLineStart, h.indentSize, h.notFinished⟩

theorem quiet_begun (tag : Bytes) (r : Renderer) : (r.begun tag).Quiet := by
  intro frame hframe _
  obtain rfl : _ = frame := by simpa [Renderer.begun] using hframe
  exact Nat.one_ne_zero

theorem Quiet.emit (h : r.Quiet) (lines : List Line) : (r.emit lines).Quiet := h

theorem Quiet.count (h : r.Quiet) (m c : Nat) : (r.count m c).Quiet := by
  obtain ⟨emission, ⟨base, frames, targetNumber, isFinished, faults⟩, diagnostics⟩ := r
  cases frames with
  | nil => exact h
  | cons frame frames =>
    intro frame' hframe' hcomponent
    obtain rfl : _ = frame' := by simpa [Renderer.count] using hframe'
    have := h frame rfl hcomponent
    exact fun he => this (Nat.eq_zero_of_add_eq_zero_right he)

/-- One line is written as a whole. -/
theorem emit_line (h : r.Ready) (statement : Statement) :
    r.emit [r.line statement] =
      { r.mapListing (·.writeLine
          (statement.text (Scopes.targetOf r.scopes.base r.scopes.targetNumber)
            (Scopes.targetOf r.scopes.base (r.scopes.targetNumber + 1)))) with
        diagnostics := r.diagnostics ++ statement.reports.map Report.diagnostic } := by
  simp only [emit, mapListing, List.flatMap_cons, List.flatMap_nil, List.append_nil]
  rw [Listing.writeLine_eq h.atLineStart h.indentSize]
  rfl

end Renderer

/-! ## Steps -/

namespace Render

/-- The steps succeed and lead from one renderer to the other. -/
def Does (x : Render Unit) (r r' : Renderer) : Prop := x.run r = (some (), r')

variable {x y : Render Unit} {r r₁ r' : Renderer}

theorem does_pure (r : Renderer) : Does (pure ()) r r := rfl

/-- Steps are taken one after another, until one of them stops. -/
theorem run_bind (x y : Render Unit) (r : Renderer) :
    (do x; y : Render Unit).run r =
      ((x.run r).1.elim (pure none) fun _ => y.run) (x.run r).2 := by
  rw [OptionT.run_bind]
  rfl

theorem Does.bind (hx : Does x r r₁) (hy : Does y r₁ r') : Does (do x; y) r r' := by
  rw [Does, run_bind, show x.run r = _ from hx]
  exact hy

theorem Does.of_eq (hx : Does x r r₁) (h : r₁ = r') : Does x r r' := h ▸ hx

theorem does_get {f : Renderer → Render Unit} (h : Does (f r) r r') : Does (get >>= f) r r' := h

/-! ### Texts -/

theorem does_text (s : Bytes) (r : Renderer) : Does (text s) r (r.mapListing (·.write s)) := rfl

theorem does_line (s : Bytes) (r : Renderer) : Does (line s) r (r.mapListing (·.writeLine s)) := rfl

theorem does_literal (s : Bytes) (r : Renderer) :
    Does (literal s) r (r.mapListing (·.writeLiteral s)) := rfl

theorem does_call (method : Bytes) (r : Renderer) :
    Does (call method) r (r.mapListing (·.write (callText r.scopes.target method))) := by
  refine does_get ?_
  have h := (does_text r.scopes.target r).bind ((does_text (utf8 ".") _).bind (does_text method _))
  simpa only [Renderer.mapListing, Listing.write_write, callText, List.append_assoc] using h

theorem does_callLiteral (method argument : Bytes) (r : Renderer) :
    Does (callLiteral method argument) r
      (r.mapListing (·.writeLine (callLiteralText r.scopes.target method argument))) := by
  have h := (does_call method r).bind ((does_literal argument _).bind (does_line (utf8 ");") _))
  simpa only [Renderer.mapListing, Listing.writeLiteral_eq, Listing.write_write,
    Listing.write_writeLine, callLiteral, callLiteralText, List.append_assoc] using h

theorem does_callPlain (method : Bytes) (r : Renderer) :
    Does (callPlain method) r
      (r.mapListing (·.writeLine (callText r.scopes.target method))) := by
  have h := (does_call method r).bind (does_line [] _)
  simpa only [Renderer.mapListing, Listing.write_writeLine, callPlain, List.append_nil] using h

/-- A line that leaves nothing out. -/
theorem does_statement (h : r.Ready) (statement : Statement) (hreports : statement.reports = [])
    (hx : Does x r (r.mapListing (·.writeLine (statement.text r.scopes.target
      (Scopes.targetOf r.scopes.base (r.scopes.targetNumber + 1)))))) :
    Does x r (r.emit [r.line statement]) := by
  rw [Renderer.emit_line h, hreports, List.map_nil, List.append_nil]
  exact hx

/-! ### Values -/

theorem does_diagnose (g : Diagnostic) (r : Renderer) :
    Does (diagnose g) r { r with diagnostics := r.diagnostics ++ [g] } := rfl

theorem does_separator (wrote : Bool) (r : Renderer) :
    Does (separator wrote) r (r.mapListing (·.write (if wrote then utf8 " + " else []))) := by
  cases wrote <;> rfl

/-- The text of the parts of a value after those already written. -/
def restText (wrote : Bool) (parts : List Label) : Bytes :=
  if wrote then (parts.filterMap Label.valueText?).flatMap (utf8 " + " ++ ·) else valueText parts

/-- A part with a text stands after a separator, unless it is the first. -/
theorem restText_cons {part : Label} {text : Bytes} (h : part.valueText? = some text) (wrote : Bool)
    (parts : List Label) :
    restText wrote (part :: parts) =
      (if wrote then utf8 " + " else []) ++ (text ++ restText true parts) := by
  cases wrote <;> simp [restText, valueText, h]

theorem restText_cons_of_none {part : Label} (h : part.valueText? = none) (wrote : Bool)
    (parts : List Label) : restText wrote (part :: parts) = restText wrote parts := by
  cases wrote <;> simp [restText, valueText, h]

/-- A value is written part by part, and a code block is reported instead. -/
theorem does_value (owner : Label) (wrote : Bool) {parts : List (NodeId × Label)}
    (hparts : ∀ part ∈ parts.map Prod.snd, part.isValuePart) (r : Renderer) :
    Does (value owner wrote (parts.map Prod.snd)) r
      { r.mapListing (·.write (restText wrote (parts.map Prod.snd))) with
        diagnostics := r.diagnostics ++
          (Statement.addAttribute owner parts).reports.map Report.diagnostic } := by
  induction parts generalizing wrote r with
  | nil =>
    cases wrote
    · simpa [value, restText, valueText, Renderer.mapListing, Statement.reports]
        using does_text (utf8 "true") r
    · simpa [value, restText, Renderer.mapListing, Listing.write, Statement.reports]
        using does_pure r
  | cons item parts ih =>
    obtain ⟨id, part⟩ := item
    rw [List.map_cons, List.forall_mem_cons] at hparts
    rw [List.map_cons, value]
    have hpart := hparts.1
    -- What has a text is written after a separator, and the parts after it are no longer the first.
    cases hk : part.kind with
    | markup =>
      have htext : part.valueText? = some (Literal.encode part.text) := by
        rw [Label.valueText?, hk]
      have h := (does_separator wrote r).bind ((does_literal part.text _).bind
        (ih true hparts.2 _))
      simpa [Renderer.mapListing, Listing.writeLiteral_eq, Listing.write_write,
        restText_cons htext, Statement.reports, Label.code?, hk] using h
    | embedded form code =>
      cases form with
      | codeBlock =>
        -- A code block has no text, so the next part may still be the first.
        have htext : part.valueText? = none := by rw [Label.valueText?, hk]
        have h := (does_diagnose (.codeBlockInValue (code.trim isCodeMargin)
          (part.span.or owner.span)) r).bind (ih wrote hparts.2 _)
        simpa [Renderer.mapListing, restText_cons_of_none htext, Statement.reports, Label.code?, hk,
          Report.diagnostic] using h
      | _ =>
        have htext : part.valueText? = some (utf8 "(" ++ (code ++ utf8 ")")) := by
          rw [Label.valueText?, hk]
        have h := (does_separator wrote r).bind ((does_text (utf8 "(") _).bind
          ((does_text code _).bind ((does_text (utf8 ")") _).bind (ih true hparts.2 _))))
        simpa [Renderer.mapListing, Listing.write_write, restText_cons htext, Statement.reports,
          Label.code?, hk] using h
    | _ => simp [Label.isValuePart, hk] at hpart

theorem does_attributeCall (h : r.Ready) (owner : Label) {parts : List (NodeId × Label)}
    (hparts : ∀ part ∈ parts.map Prod.snd, part.isValuePart) :
    Does (attributeCall owner (parts.map Prod.snd)) r
      (r.emit [r.line (.addAttribute owner parts)]) := by
  have hx := (does_call (utf8 "addAttribute(") r).bind ((does_literal owner.name _).bind
    ((does_text (utf8 ", ") _).bind
      ((does_value owner false hparts _).bind (does_line (utf8 ");") _))))
  rw [Renderer.emit_line h]
  simpa [Renderer.mapListing, Listing.writeLiteral_eq, Listing.write_write,
    Listing.write_writeLine, attributeCall, Statement.text, restText, Scopes.target] using hx

/-! ### Requests -/

theorem does_request {what : ScopeRequest} (scopes : Scopes) (emission : Emission)
    (h : r.scopes.step what r.emission = (true, scopes, emission)) :
    Does (request what) r { r with scopes := scopes, emission := emission } := by
  refine does_get ?_
  simp only [h]
  rfl

/-- A further child is counted. -/
theorem does_countChild (h : r.Ready) (hquiet : r.Quiet) :
    Does (request .countChild) r (r.count 0 1) := by
  obtain ⟨emission, ⟨base, frames, targetNumber, isFinished, faults⟩, diagnostics⟩ := r
  obtain rfl : isFinished = false := h.notFinished
  cases frames with
  | nil => rfl
  | cons frame frames =>
    have hframe : (frame.isComponent && frame.childCount == 0) = false := by
      simpa using hquiet frame rfl
    refine does_request _ emission ?_
    simp only [Scopes.step, Scopes.countChild, hframe]
    rfl

/-- The first child of a component begins its content. -/
theorem does_countChild_push (h : r.Ready) (tag : Bytes) :
    Does (request .countChild) (r.push tag true) (r.begun tag) := by
  obtain ⟨emission, ⟨base, frames, targetNumber, isFinished, faults⟩, diagnostics⟩ := r
  obtain rfl : isFinished = false := h.notFinished
  rfl

theorem does_openScope (h : r.Ready) (tag : Bytes) (isComponent : Bool) :
    Does (request (.openScope tag isComponent)) r (r.push tag isComponent) := by
  obtain ⟨emission, ⟨base, frames, targetNumber, isFinished, faults⟩, diagnostics⟩ := r
  obtain rfl : isFinished = false := h.notFinished
  rfl

/-- A scope without a closure is closed. -/
theorem does_closeScope (h : r.Ready) (tag : Bytes) (isComponent : Bool) (lines : List Line)
    (m c : Nat) :
    Does (request .closeScope) (((r.push tag isComponent).emit lines).count m c)
      ((r.emit lines).count m 0) := by
  obtain ⟨emission, ⟨base, frames, targetNumber, isFinished, faults⟩, diagnostics⟩ := r
  obtain rfl : isFinished = false := h.notFinished
  cases frames <;> rfl

/-- With the scope of a component its content ends. -/
theorem does_closeScope_begun (h : r.Ready) (tag : Bytes) (lines : List Line) (m c : Nat) :
    Does (request .closeScope) (((r.begun tag).emit lines).count m c)
      ((r.emit (r.line .beginContent :: (lines ++ [r.line .endContent]))).count (m + 1) 0) := by
  obtain ⟨⟨⟨reversed, indentSize, level, atLineStart⟩, nextClosure, openClosures, faults⟩,
    ⟨base, frames, targetNumber, isFinished, faults'⟩, diagnostics⟩ := r
  obtain rfl : atLineStart = true := h.atLineStart
  obtain rfl : indentSize = 4 := h.indentSize
  obtain rfl : isFinished = false := h.notFinished
  -- The closure of the scope is the innermost one, so it is this one that ends.
  have hend : ∀ e : Emission, ∀ closure : Closure, e.openClosures = closure.id :: openClosures →
      e.endClosure closure = { e with
        listing := e.listing.dedent.writeLine (utf8 "\x7d);"), openClosures := openClosures } := by
    intro e closure he
    simp [Emission.endClosure, he]
  rw [Renderer.begun, Emission.beginClosure_eq, Listing.writeLine_eq rfl rfl]
  have hframes : frames.modifyHead (fun frame => { frame with childCount := frame.childCount }) =
      frames := by
    cases frames <;> rfl
  refine (does_request _ _ rfl).of_eq ?_
  rw [show (ClosureWriter.endClosure : Emission → Closure → Emission) = Emission.endClosure
    from rfl, hend _ _ rfl, Listing.writeLine_eq rfl rfl]
  simp [Renderer.emit, Renderer.count, Renderer.mapListing, Renderer.line, Line.text, Line.reports,
    Listing.dedent, Listing.indent, Scopes.target, Statement.reports, Statement.text, hframes,
    Nat.add_assoc, Nat.add_comm 1 m]

/-! ## Forests -/

/-- The calls for a node once it is counted as a child. -/
def contentCalls (id : NodeId) (label : Label) (children : Forest) : Render Unit :=
  match label.kind with
  | .markup => callLiteral (utf8 "addContent(") label.text
  | .embedded .directive _ => pure ()
  | .embedded .codeBlock code => line (code.trim isCodeMargin)
  | .embedded .expression code => do
    call (utf8 "addContent(")
    text code
    line (utf8 ");")
  | .element => do
    callLiteral (utf8 "openElement(") label.name
    request (.openScope label.name false)
    forest true children
    request .closeScope
    callPlain (utf8 "closeElement();")
  | .construct => do
    callLiteral (utf8 "openComponent(") label.name
    request (.openScope label.name true)
    parameters children
    body id label.name children
    request .closeScope
    callPlain (utf8 "closeComponent();")
  | _ => pure ()

/-- The node is counted as a child when it is written. -/
def isCounted (label : Label) : Bool :=
  match label.kind with
  | .embedded .directive _ => false
  | .markup | .embedded .. | .element | .construct => true
  | _ => false

variable {inElement : Bool} {id : NodeId} {label : Label} {children siblings : Forest}

theorem forest_cons_counted (h : isCounted label = true) :
    forest inElement (.cons id label children siblings) = (do
      request .countChild
      contentCalls id label children
      forest inElement siblings) := by
  rw [forest]
  unfold contentCalls
  unfold isCounted at h
  cases hk : label.kind with
  | markup => simp [markup]
  | embedded form code => cases form <;> simp_all [embedded]
  | element => simp
  | construct => simp
  | _ => simp [hk] at h

theorem forest_cons_directive {code : Bytes} (h : label.kind = .embedded .directive code) :
    forest inElement (.cons id label children siblings) = forest inElement siblings := by
  rw [forest, h]
  simp [embedded]

/-- A node that can be written and is not counted is a directive or an attribute. -/
theorem directive_or_attribute (hcounted : isCounted label ≠ true)
    (hf : (Forest.cons id label children siblings).Writable inElement) :
    (∃ code, label.kind = .embedded .directive code) ∨
      label.kind = .attribute ∧ inElement = true ∧
        ∀ part ∈ children.childLabels, part.isValuePart := by
  have hnode := hf.1
  unfold isCounted at hcounted
  cases hk : label.kind with
  | embedded form code =>
    cases form with
    | directive => exact .inl ⟨code, rfl⟩
    | _ => simp [hk] at hcounted
  | «attribute» =>
    simp only [hk] at hnode
    exact .inr ⟨rfl, hnode⟩
  | markup => simp [hk] at hcounted
  | element => simp [hk] at hcounted
  | construct => simp [hk] at hcounted
  | _ => simp [hk] at hnode

theorem forest_cons_attribute (h : label.kind = .attribute) :
    forest true (.cons id label children siblings) = (do
      attributeCall label children.childLabels
      forest true siblings) := by
  rw [forest, h]
  simp

/-- Directives write nothing. -/
theorem does_silent {f : Forest} (h : f.isSilent = true) (r : Renderer) :
    Does (forest inElement f) r r := by
  induction f with
  | nil => exact does_pure r
  | cons id label children siblings _ ih =>
    simp only [Forest.isSilent, Bool.and_eq_true] at h
    obtain ⟨hlabel, hsiblings⟩ := h
    split at hlabel
    · next hk =>
      rw [forest_cons_directive hk]
      exact ih hsiblings
    · exact absurd hlabel (by decide)

/-- The attributes of a component are written. -/
theorem does_parameters (h : r.Ready) {f : Forest} (hf : f.WritableParameters) :
    Does (parameters f) r
      (r.emit (f.parameterLines r.scopes.targetNumber r.emission.listing.level)) := by
  induction f generalizing r with
  | nil => simpa [parameters, Forest.parameterLines] using does_pure r
  | cons id label children siblings _ ih =>
    rw [parameters, Forest.parameterLines]
    split
    · next hk =>
      have hparts := hf.1 hk
      rw [← Forest.map_snd_items] at hparts ⊢
      have hx := (does_attributeCall h label hparts).bind (ih (h.emit _) hf.2)
      simpa [Renderer.line] using hx
    · simpa using ih h hf.2

/-- All that is said of writing a forest: when it is written as content, when it is the content of a
component with its first child still to come, and when it stands under a component and its first
body is looked for. -/
structure Renders (f : Forest) : Prop where
  content : ∀ (inElement : Bool) (r : Renderer), f.Writable inElement → r.Ready → r.Quiet →
    ∃ m c, Does (forest inElement f) r
      ((r.emit (f.program r.scopes.targetNumber r.emission.listing.level)).count m c)
  first : ∀ (r : Renderer) (tag : Bytes), f.Writable false → r.Ready → f.isSilent = false →
    ∃ m c, Does (forest false f) (r.push tag true)
      (((r.begun tag).emit
        (f.program (r.scopes.targetNumber + 1) (r.emission.listing.level + 1))).count m c)
  body : ∀ (r : Renderer) (tag name : Bytes) (id : NodeId), f.WritableBody → r.Ready →
    ∃ m, Does (do body id name f; request .closeScope) (r.push tag true)
      ((r.emit (f.contentLines r.scopes.targetNumber r.emission.listing.level)).count m 0)

theorem does_expression (h : r.Ready) (id : NodeId) (code : Bytes) :
    Does (do call (utf8 "addContent("); text code; line (utf8 ");")) r
      (r.emit [r.line (.embedded id .expression code)]) := by
  refine does_statement h _ rfl ?_
  have hx := (does_call (utf8 "addContent(") r).bind ((does_text code _).bind
    (does_line (utf8 ");") _))
  simpa only [Renderer.mapListing, Listing.write_write, Listing.write_writeLine, Statement.text,
    List.append_assoc] using hx

/-- An element with its content. -/
theorem does_element (hchildren : Renders children) (hf : children.Writable true) (h : r.Ready)
    (name : Bytes) :
    ∃ m, Does (do
        callLiteral (utf8 "openElement(") name
        request (.openScope name false)
        forest true children
        request .closeScope
        callPlain (utf8 "closeElement();")) r
      ((r.emit (r.line (.openElement name) ::
        (children.program r.scopes.targetNumber r.emission.listing.level ++
          [r.line .closeElement]))).count m 0) := by
  have hopen := does_statement h (.openElement name) rfl (does_callLiteral _ _ r)
  have h₁ := h.emit [r.line (.openElement name)]
  -- In the scope of an element no child begins a closure.
  obtain ⟨m, c, hcontent⟩ := hchildren.content true _ hf (h₁.push name false)
    (Renderer.quiet_push name _)
  have hclose := does_closeScope h₁ name false
    (children.program r.scopes.targetNumber r.emission.listing.level) m c
  have h₂ := (h₁.emit (children.program r.scopes.targetNumber r.emission.listing.level)).count m 0
  have hlast := does_statement h₂ .closeElement rfl (does_callPlain (utf8 "closeElement();") _)
  refine ⟨m, ?_⟩
  have hx := hopen.bind ((does_openScope h₁ name false).bind (hcontent.bind (hclose.bind hlast)))
  simpa [Renderer.line] using hx

/-- A component with its attributes and its content. -/
theorem does_component (hchildren : Renders children) (hparameters : children.WritableParameters)
    (hbody : children.WritableBody) (h : r.Ready) (id : NodeId) (name : Bytes) :
    ∃ m, Does (do
        callLiteral (utf8 "openComponent(") name
        request (.openScope name true)
        parameters children
        body id name children
        request .closeScope
        callPlain (utf8 "closeComponent();")) r
      ((r.emit (r.line (.openComponent name) ::
        (children.parameterLines r.scopes.targetNumber r.emission.listing.level ++
          (children.contentLines r.scopes.targetNumber r.emission.listing.level ++
            [r.line .closeComponent])))).count m 0) := by
  have hopen := does_statement h (.openComponent name) rfl (does_callLiteral _ _ r)
  have h₁ := h.emit [r.line (.openComponent name)]
  -- The attributes are no children, so the content of the component does not begin with them.
  have hattributes := does_parameters (h₁.push name true) hparameters
  have h₂ := h₁.emit (children.parameterLines r.scopes.targetNumber r.emission.listing.level)
  obtain ⟨m, hcontent⟩ := hchildren.body _ name name id hbody h₂
  have h₃ := (h₂.emit (children.contentLines r.scopes.targetNumber r.emission.listing.level)).count
    m 0
  have hlast := does_statement h₃ .closeComponent rfl (does_callPlain (utf8 "closeComponent();") _)
  refine ⟨m, ?_⟩
  have hx := hopen.bind ((does_openScope h₁ name true).bind (hattributes.bind
    (hcontent.bind hlast)))
  simpa [Renderer.line] using hx

theorem does_contentCalls (hchildren : Renders children) (hcounted : isCounted label = true)
    (hf : (Forest.cons id label children siblings).Writable inElement) (h : r.Ready) :
    ∃ m, Does (contentCalls id label children) r
      ((r.emit ((Forest.cons id label children .nil).program r.scopes.targetNumber
        r.emission.listing.level)).count m 0) := by
  have hf := hf.1
  unfold isCounted at hcounted
  rw [Forest.program, Forest.program, List.append_nil]
  unfold contentCalls
  cases hk : label.kind with
  | markup =>
    have hx := does_statement h (.addText label.text) rfl (does_callLiteral _ _ r)
    exact ⟨0, by simpa [Renderer.line] using hx⟩
  | embedded form code =>
    cases form with
    | expression => exact ⟨0, by simpa [Renderer.line] using does_expression h id code⟩
    | codeBlock =>
      have hx := does_statement h (.embedded id .codeBlock code) rfl
        (does_line (code.trim isCodeMargin) r)
      exact ⟨0, by simpa [Renderer.line] using hx⟩
    | directive => simp [hk] at hcounted
  | element =>
    simp only [hk] at hf
    exact does_element hchildren hf h label.name
  | construct =>
    simp only [hk] at hf
    exact does_component hchildren hf.1 hf.2 h id label.name
  | _ => simp [hk] at hcounted

/-- A node that was counted is written, and then what comes after it. -/
theorem does_counted (hchildren : Renders children) (hsiblings : Renders siblings)
    (hcounted : isCounted label = true)
    (hf : (Forest.cons id label children siblings).Writable inElement) (h : r.Ready)
    (hquiet : r.Quiet) :
    ∃ m c, Does (do contentCalls id label children; forest inElement siblings) r
      ((r.emit ((Forest.cons id label children siblings).program r.scopes.targetNumber
        r.emission.listing.level)).count m c) := by
  obtain ⟨m, hnode⟩ := does_contentCalls hchildren hcounted hf h
  -- Where the later nodes start, target and level are as they were before this one.
  generalize hlines : (Forest.cons id label children .nil).program _ _ = lines at hnode
  obtain ⟨m', c, hrest⟩ := hsiblings.content inElement _ hf.2 ((h.emit lines).count m 0)
    ((hquiet.emit lines).count m 0)
  refine ⟨m + m', c, ?_⟩
  rw [Forest.program_cons, hlines]
  simpa using hnode.bind hrest

/-- Content is written node by node. -/
theorem content_cons (hchildren : Renders children) (hsiblings : Renders siblings)
    (hf : (Forest.cons id label children siblings).Writable inElement) (h : r.Ready)
    (hquiet : r.Quiet) :
    ∃ m c, Does (forest inElement (.cons id label children siblings)) r
      ((r.emit ((Forest.cons id label children siblings).program r.scopes.targetNumber
        r.emission.listing.level)).count m c) := by
  by_cases hcounted : isCounted label = true
  · -- The node itself is one more child; inside it only closures are added.
    obtain ⟨m, c, hx⟩ := does_counted hchildren hsiblings hcounted hf (h.count 0 1)
      (hquiet.count 0 1)
    rw [forest_cons_counted hcounted]
    exact ⟨m, 1 + c, by simpa [Nat.add_comm] using (does_countChild h hquiet).bind hx⟩
  · rw [Forest.program_cons]
    rcases directive_or_attribute hcounted hf with ⟨code, hk⟩ | ⟨hk, rfl, hparts⟩
    · obtain ⟨m, c, hx⟩ := hsiblings.content inElement r hf.2 h hquiet
      refine ⟨m, c, ?_⟩
      rw [forest_cons_directive hk]
      simpa [Forest.program, hk] using hx
    · rw [← Forest.map_snd_childItems] at hparts
      obtain ⟨m, c, hx⟩ := hsiblings.content true _ hf.2 (h.emit _) (hquiet.emit _)
      refine ⟨m, c, ?_⟩
      rw [forest_cons_attribute hk, ← Forest.map_snd_childItems]
      simpa [Forest.program, hk, Renderer.line] using (does_attributeCall h label hparts).bind hx

/-- The first node that is counted begins the content of a component. -/
theorem first_cons (hchildren : Renders children) (hsiblings : Renders siblings)
    (hf : (Forest.cons id label children siblings).Writable false) (h : r.Ready)
    (hsilent : (Forest.cons id label children siblings).isSilent = false) (tag : Bytes) :
    ∃ m c, Does (forest false (.cons id label children siblings)) (r.push tag true)
      (((r.begun tag).emit ((Forest.cons id label children siblings).program
        (r.scopes.targetNumber + 1) (r.emission.listing.level + 1))).count m c) := by
  by_cases hcounted : isCounted label = true
  · obtain ⟨m, c, hx⟩ := does_counted hchildren hsiblings hcounted hf (h.begun tag)
      (Renderer.quiet_begun tag r)
    rw [forest_cons_counted hcounted]
    exact ⟨m, c, by simpa using (does_countChild_push h tag).bind hx⟩
  · -- In front of it there is nothing but directives: attributes stand in elements only.
    obtain ⟨code, hk⟩ := (directive_or_attribute hcounted hf).resolve_right (by simp)
    obtain ⟨m, c, hx⟩ := hsiblings.first r tag hf.2 h
      (by simpa [Forest.isSilent, hk] using hsilent)
    refine ⟨m, c, ?_⟩
    rw [forest_cons_directive hk]
    simpa [Forest.program, hk] using hx

/-- The content of a component is that of its first body. -/
theorem body_cons (hchildren : Renders children) (hsiblings : Renders siblings)
    (hbody : (Forest.cons id label children siblings).WritableBody) (h : r.Ready)
    (tag name : Bytes) (component : NodeId) :
    ∃ m, Does (do
        body component name (.cons id label children siblings)
        request .closeScope) (r.push tag true)
      ((r.emit ((Forest.cons id label children siblings).contentLines r.scopes.targetNumber
        r.emission.listing.level)).count m 0) := by
  rw [Forest.WritableBody] at hbody
  rw [body, Forest.contentLines]
  split at hbody
  · next hk =>
    rw [if_pos hk, if_pos hk]
    -- Without a child the content does not begin, and the scope is closed without a closure.
    split
    · next hsilent =>
      have hclose := does_closeScope h tag true [] 0 0
      rw [Renderer.emit_nil, Renderer.count_zero] at hclose
      exact ⟨0, by simpa using (does_silent hsilent (r.push tag true)).bind hclose⟩
    · next hsilent =>
      obtain ⟨m, c, hx⟩ := hchildren.first r tag hbody h (by simpa using hsilent)
      exact ⟨m + 1, hx.bind (does_closeScope_begun h tag _ m c)⟩
  · next hk =>
    rw [if_neg hk, if_neg hk]
    exact hsiblings.body r tag name component hbody h

/-- A forest that can be written is written line by line. -/
theorem renders (f : Forest) : Renders f := by
  induction f with
  | nil =>
    refine ⟨fun inElement r _ _ _ => ⟨0, 0, ?_⟩, fun r tag _ _ hsilent => ?_,
      fun r tag name id hbody _ => ?_⟩
    · simpa [forest, Forest.program] using does_pure r
    · exact absurd hsilent (by decide)
    · exact hbody.elim
  | cons id label children siblings ihc ihs =>
    constructor
    case content =>
      intro inElement r hf h hquiet
      exact content_cons ihc ihs hf h hquiet
    case first =>
      intro r tag hf h hsilent
      exact first_cons ihc ihs hf h hsilent tag
    case body =>
      intro r tag name component hbody h
      exact body_cons ihc ihs hbody h tag name component

end Render

/-! ## Documents -/

/-- A document of which all nodes stand where they can be written is written line by line, and only
counts of closures and children are left of the scopes on the way. -/
theorem Renderer.write_eq_emit (target : Bytes) {d : Document}
    (hf : (d.forestBelow Document.root).Writable false) :
    ∃ closures children : Nat,
      let r := ((start target).emit ((d.forestBelow Document.root).program 1 0)).count closures
        children
      (start target).write d =
        (true, { r with scopes := { r.scopes with isFinished := true } }) := by
  obtain ⟨m, c, hforest⟩ := (Render.renders (d.forestBelow Document.root)).content false
    (start target) hf ⟨rfl, rfl, rfl⟩ (by simp [Quiet, start])
  refine ⟨m, c, ?_⟩
  intro r
  -- No scope is left open, so the emission ends.
  have hfinish : Render.Does (Render.request .finish) r
      { r with scopes := { r.scopes with isFinished := true } } := Render.does_request _ _ rfl
  have hsteps := hforest.bind hfinish
  simp only [write]
  rw [hsteps]
  simp [r, faults, start, emit, count, mapListing]

/-- A document of which all nodes stand where they can be written is written line by line, and what
is left out is reported. -/
theorem Renderer.write_of_writable (target : Bytes) {d : Document}
    (hf : (d.forestBelow Document.root).Writable false) :
    let lines := (d.forestBelow Document.root).program 1 0
    let outcome := (start target).write d
    outcome.1 = true ∧ outcome.2.faults = [] ∧
      outcome.2.output = lines.flatMap (Line.text target) ∧
      outcome.2.diagnostics = (lines.flatMap Line.reports).map Report.diagnostic := by
  obtain ⟨m, c, hwrite⟩ := write_eq_emit target hf
  simp only [hwrite]
  simp [faults, output, start, emit, count, mapListing, Listing.text]

end MarkupTemplate
