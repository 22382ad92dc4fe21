import MarkupTemplate.Proofs.Refusal
import MarkupTemplate.Proofs.Rendering

/-!
# A renderer serves one document

Whatever is written, no fault is lost, an emission that has ended stays so, and steps stop only with
a fault more. So after the first document a renderer is spent: if that was written, the emission has
ended, and nothing more is granted, not even a further end; and if it was not, there is a fault, and
it counts again with every document that comes later.

## Main definitions

* `Renderer.Precedes`: what one renderer knows of faults and of its end, another one knows as well
* `Render.Accounts`: steps lose nothing of this, and they stop only with a fault more
* `Renderer.after`: a renderer after some documents

## Main results

* `Render.accounts_forest`: writing accounts for all that goes wrong
* `Renderer.write_of_finished`: nothing is written after the end
* `Renderer.write_after_first`: after a first document no other is written
-/

namespace MarkupTemplate

/-! ## What a request makes of the writer -/

/-- A request asks nothing of the closure writer, or one beginning, or one end. -/
theorem Scopes.step_writer_cases {W : Type} [ClosureWriter W] (request : ScopeRequest) (s : Scopes)
    (w : W) :
    (step request s w).2.2 = w ∨
      (∃ outer inner, (step request s w).2.2 = (ClosureWriter.beginClosure w outer inner).1) ∨
        ∃ closure, (step request s w).2.2 = ClosureWriter.endClosure w closure := by
  cases hfinished : s.isFinished with
  | true => simp [step, hfinished]
  | false =>
    cases request with
    | openScope => simp [step, hfinished]
    | countChild =>
      cases hframes : s.frames with
      | nil => simp [step, countChild, hfinished, hframes]
      | cons frame rest =>
        by_cases hfirst : (frame.isComponent && frame.childCount == 0) = true
        · refine .inr (.inl ⟨s.target, targetOf s.base (s.targetNumber + 1), ?_⟩)
          simp only [step, countChild, hfinished, hframes, hfirst]
          rfl
        · simp [step, countChild, hfinished, hframes, hfirst]
    | closeScope =>
      cases hframes : s.frames with
      | nil => simp [step, hfinished, hframes]
      | cons frame rest =>
        cases hclosure : frame.closure with
        | none => simp [step, closeFrame, hfinished, hframes, hclosure]
        | some closure =>
          exact .inr (.inr ⟨closure, by simp [step, closeFrame, hfinished, hframes, hclosure]⟩)
    | finish => cases hframes : s.frames <;> simp [step, hfinished, hframes]

/-- No request makes an emission lose a fault. -/
theorem Emission.faults_prefix_step (request : ScopeRequest) (s : Scopes) (e : Emission) :
    e.faults <+: (s.step request e).2.2.faults := by
  rcases s.step_writer_cases request e with h | ⟨outer, inner, h⟩ | ⟨closure, h⟩
  · simp only [h, List.prefix_rfl]
  · rw [h]
    exact List.prefix_rfl
  · rw [h]
    change e.faults <+: (e.endClosure closure).faults
    unfold endClosure
    split
    · split
      · exact List.prefix_rfl
      · exact List.prefix_append _ _
    · exact List.prefix_append _ _

/-! ## What is known of a renderer -/

namespace Renderer

/-- The number of faults so far, those of the scopes included. -/
def faultCount (r : Renderer) : Nat := r.emission.faults.length + r.scopes.faults.length

/-- What the first renderer knows of faults and of its end, the second one knows as well. -/
structure Precedes (r r' : Renderer) : Prop where
  faults : r.emission.faults <+: r'.emission.faults
  scopeFaults : r.scopes.faults <+: r'.scopes.faults
  isFinished : r.scopes.isFinished = true → r'.scopes.isFinished = true

namespace Precedes

variable {r r₁ r' : Renderer}

theorem refl (r : Renderer) : r.Precedes r := ⟨List.prefix_rfl, List.prefix_rfl, id⟩

theorem trans (h : r.Precedes r₁) (h' : r₁.Precedes r') : r.Precedes r' :=
  ⟨h.faults.trans h'.faults, h.scopeFaults.trans h'.scopeFaults, h'.isFinished ∘ h.isFinished⟩

theorem faultCount_le (h : r.Precedes r') : r.faultCount ≤ r'.faultCount :=
  Nat.add_le_add h.faults.length_le h.scopeFaults.length_le

end Precedes

end Renderer

/-! ## Steps -/

namespace Render

variable {x y : Render Unit}

/-- The steps lose nothing that is known of faults and of the end, and they stop only with a fault
more. -/
def Accounts (x : Render Unit) : Prop :=
  ∀ r, r.Precedes (x.run r).2 ∧ ((x.run r).1 = none → r.faultCount < (x.run r).2.faultCount)

theorem accounts_pure : Accounts (pure ()) := fun r => ⟨.refl r, fun h => by cases h⟩

theorem Accounts.bind (hx : Accounts x) (hy : Accounts y) : Accounts (do x; y) := by
  intro r
  obtain ⟨hprecedes, hstop⟩ := hx r
  obtain ⟨hprecedes', hstop'⟩ := hy (x.run r).2
  rw [run_bind]
  cases hdone : (x.run r).1 with
  | none => exact ⟨hprecedes, fun _ => hstop hdone⟩
  | some _ =>
    exact ⟨hprecedes.trans hprecedes', fun h =>
      Nat.lt_of_le_of_lt hprecedes.faultCount_le (hstop' h)⟩

theorem accounts_put (f : Listing → Listing) : Accounts (put f) := fun r =>
  ⟨⟨List.prefix_rfl, List.prefix_rfl, id⟩, fun h => by cases h⟩

theorem accounts_diagnose (g : Diagnostic) : Accounts (diagnose g) := fun r =>
  ⟨⟨List.prefix_rfl, List.prefix_rfl, id⟩, fun h => by cases h⟩

theorem accounts_fail (fault : Fault) : Accounts (fail fault) := by
  intro r
  have hfaults : ((fail fault : Render Unit).run r).2.emission.faults =
      r.emission.faults ++ [fault] := rfl
  refine ⟨⟨hfaults ▸ List.prefix_append _ _, List.prefix_rfl, id⟩, fun _ => ?_⟩
  have hscopes : ((fail fault : Render Unit).run r).2.scopes = r.scopes := rfl
  simp [Renderer.faultCount, hfaults, hscopes]

/-- A request is answered by the scopes. -/
theorem run_request (what : ScopeRequest) (r : Renderer) :
    (request what).run r =
      (if (r.scopes.step what r.emission).1 then some () else none,
        { r with
          scopes := (r.scopes.step what r.emission).2.1
          emission := (r.scopes.step what r.emission).2.2 }) := by
  have hrun : (request what).run r =
      ((if (r.scopes.step what r.emission).1 then pure () else failure : Render Unit).run
        { r with
          scopes := (r.scopes.step what r.emission).2.1
          emission := (r.scopes.step what r.emission).2.2 }) := rfl
  rw [hrun]
  split <;> rfl

theorem granted_of_run_request {what : ScopeRequest} {r : Renderer}
    (h : ((request what).run r).1 = some ()) : (r.scopes.step what r.emission).1 = true := by
  rw [run_request] at h
  dsimp only at h
  split at h
  · assumption
  · cases h

theorem accounts_request (what : ScopeRequest) : Accounts (request what) := by
  intro r
  rw [run_request]
  have hemission := Emission.faults_prefix_step what r.scopes r.emission
  have hfinished : (r.scopes.step what r.emission).2.1.isFinished =
      (r.scopes.isFinished || what = .finish) := Scopes.isFinished_step r.emission
  by_cases h : ∃ fault, r.scopes.Refuses what fault
  · -- The fault is one of the scopes; the emission is not even asked.
    obtain ⟨fault, hrefuses⟩ := h
    rw [Scopes.step_of_refuses hrefuses]
    refine ⟨⟨List.prefix_rfl, List.prefix_append _ _, ?_⟩, fun _ => ?_⟩
    · intro hfinished
      simp [hfinished]
    · simp [Renderer.faultCount]
  · -- What is granted does not stop, even if the emission has a fault more for a closure.
    obtain ⟨hgranted, hfaults, -⟩ := Scopes.step_of_not_refuses (not_exists.1 h) r.emission
    refine ⟨⟨hemission, ?_, ?_⟩, ?_⟩
    · exact hfaults ▸ List.prefix_rfl
    · intro h
      simp [hfinished, h]
    · intro hstop
      simp [hgranted] at hstop

/-! ### Calls -/

theorem accounts_text (s : Bytes) : Accounts (text s) := accounts_put _

theorem accounts_call (method : Bytes) : Accounts (call method) := by
  intro r
  have htarget := (accounts_text r.scopes.target).bind
    ((accounts_text (utf8 ".")).bind (accounts_text method))
  exact htarget r

theorem accounts_callLiteral (method argument : Bytes) : Accounts (callLiteral method argument) :=
  (accounts_call method).bind ((accounts_put _).bind (accounts_put _))

theorem accounts_callPlain (method : Bytes) : Accounts (callPlain method) :=
  (accounts_call method).bind (accounts_put _)

theorem accounts_embedded (form : Form) (code : Bytes) : Accounts (embedded form code) := by
  cases form with
  | directive => exact accounts_pure
  | codeBlock => exact (accounts_request _).bind (accounts_put _)
  | expression =>
    exact (accounts_request _).bind ((accounts_call _).bind ((accounts_put _).bind
      (accounts_put _)))

theorem accounts_separator (wrote : Bool) : Accounts (separator wrote) := by
  unfold separator
  split
  · exact accounts_text _
  · exact accounts_pure

theorem accounts_value (owner : Label) (wrote : Bool) (parts : List Label) :
    Accounts (value owner wrote parts) := by
  induction parts generalizing wrote with
  | nil =>
    rw [value]
    split
    · exact accounts_pure
    · exact accounts_text _
  | cons part parts ih =>
    rw [value]
    cases part.kind with
    | markup => exact (accounts_separator wrote).bind ((accounts_put _).bind (ih true))
    | embedded form code =>
      cases form with
      | codeBlock => exact (accounts_diagnose _).bind (ih wrote)
      | _ =>
        exact (accounts_separator wrote).bind ((accounts_put _).bind ((accounts_put _).bind
          ((accounts_put _).bind (ih true))))
    | _ => exact (accounts_separator wrote).bind (accounts_fail _)

theorem accounts_attributeCall (owner : Label) (parts : List Label) :
    Accounts (attributeCall owner parts) :=
  (accounts_call _).bind ((accounts_put _).bind ((accounts_put _).bind
    ((accounts_value owner false parts).bind (accounts_put _))))

theorem accounts_parameters (f : Forest) : Accounts (parameters f) := by
  induction f with
  | nil => exact accounts_pure
  | cons id label children siblings _ ih =>
    rw [parameters]
    split
    · exact (accounts_attributeCall _ _).bind ih
    · exact accounts_pure.bind ih

/-- Writing accounts for all that goes wrong, in content and under a component. -/
theorem accounts_forest (f : Forest) :
    (∀ inElement, Accounts (forest inElement f)) ∧
      ∀ component name, Accounts (body component name f) := by
  induction f with
  | nil => exact ⟨fun _ => accounts_pure, fun _ _ => accounts_fail _⟩
  | cons id label children siblings ihc ihs =>
    constructor
    · intro inElement
      rw [forest]
      cases label.kind with
      | markup =>
        exact ((accounts_request _).bind (accounts_callLiteral _ _)).bind (ihs.1 inElement)
      | embedded form code => exact (accounts_embedded form code).bind (ihs.1 inElement)
      | element =>
        exact (accounts_request _).bind ((accounts_callLiteral _ _).bind
          ((accounts_request _).bind ((ihc.1 true).bind ((accounts_request _).bind
            ((accounts_callPlain _).bind (ihs.1 inElement))))))
      | construct =>
        exact (accounts_request _).bind ((accounts_callLiteral _ _).bind
          ((accounts_request _).bind ((accounts_parameters children).bind
            ((ihc.2 id label.name).bind ((accounts_request _).bind
              ((accounts_callPlain _).bind (ihs.1 inElement)))))))
      | «attribute» =>
        cases inElement with
        | true => exact (accounts_attributeCall _ _).bind (ihs.1 true)
        | false => exact (accounts_fail _).bind (ihs.1 false)
      | _ => exact (accounts_fail _).bind (ihs.1 inElement)
    · intro component name
      rw [body]
      split
      · exact ihc.1 false
      · exact ihs.2 component name

/-- All that is written for a document. -/
def document (d : Document) : Render Unit := do
  forest false (d.forestBelow Document.root)
  request .finish

theorem accounts_document (d : Document) : Accounts (document d) :=
  ((accounts_forest _).1 false).bind (accounts_request .finish)

/-- The last step of a document is to end the emission, which is granted only once. -/
theorem run_document_of_some {d : Document} {r : Renderer}
    (h : ((document d).run r).1 = some ()) :
    r.scopes.isFinished = false ∧ ((document d).run r).2.scopes.isFinished = true := by
  obtain ⟨hprecedes, -⟩ := (accounts_forest (d.forestBelow Document.root)).1 false r
  rw [document, run_bind] at h ⊢
  generalize (forest false (d.forestBelow Document.root)).run r = outcome at h hprecedes ⊢
  obtain ⟨done, r₁⟩ := outcome
  cases done with
  | none => cases h
  | some u =>
    change ((request .finish).run r₁).1 = some () at h
    change _ ∧ ((request .finish).run r₁).2.scopes.isFinished = true
    have hgranted := (Scopes.step_granted_iff _).1 (granted_of_run_request h)
    constructor
    · -- An end before the document would still be known after the forest.
      rw [← Bool.not_eq_true]
      intro hfinished
      exact hgranted _ (.finished _ (hprecedes.isFinished hfinished))
    · rw [run_request]
      exact (Scopes.isFinished_step _).trans (by simp)

end Render

/-! ## Documents -/

namespace Renderer

variable (d : Document) (r : Renderer)

/-- No document makes a renderer lose a fault. -/
theorem faults_prefix_write : r.faults <+: (r.write d).2.faults :=
  (Render.accounts_document d r).1.faults.trans (List.prefix_append _ _)

/-- After a document all faults are counted, those of the scopes included. -/
theorem length_faults_write :
    (r.write d).2.faults.length = ((Render.document d).run r).2.faultCount :=
  List.length_append

variable {r}

theorem isFinished_write (h : r.scopes.isFinished = true) :
    (r.write d).2.scopes.isFinished = true :=
  (Render.accounts_document d r).1.isFinished h

/-- Steps that stop leave a fault more. -/
theorem length_faults_lt_of_stop (h : ((Render.document d).run r).1 = none) :
    (r.write d).1 = false ∧ r.faults.length < (r.write d).2.faults.length := by
  constructor
  · change (((Render.document d).run r).1.isSome && _) = false
    rw [h]
    rfl
  · calc
      r.faults.length ≤ r.faultCount := Nat.le_add_right _ _
      _ < ((Render.document d).run r).2.faultCount := (Render.accounts_document d r).2 h
      _ = (r.write d).2.faults.length := (length_faults_write d r).symm

/-- Nothing is written after the end, not even a document without content, and each time there is a
fault more. -/
theorem write_of_finished (h : r.scopes.isFinished = true) :
    (r.write d).1 = false ∧ r.faults.length < (r.write d).2.faults.length := by
  refine length_faults_lt_of_stop d ?_
  cases hdone : ((Render.document d).run r).1 with
  | none => rfl
  | some _ => exact absurd ((Render.run_document_of_some hdone).1.symm.trans h) (by decide)

/-- What a renderer has found wrong counts again with every further document. -/
theorem not_written_of_faults (h : (r.write d).2.faults ≠ []) : (r.write d).1 = false := by
  have hsome : (r.write d).2.faults.isEmpty = false := by simpa using h
  change (((Render.document d).run r).1.isSome && (r.write d).2.faults.isEmpty) = false
  rw [hsome, Bool.and_false]

/-- The emission has ended, or something was found wrong. -/
def Spent (r : Renderer) : Prop := r.scopes.isFinished = true ∨ r.faults ≠ []

/-- With any document a renderer is spent. -/
theorem spent_write (r : Renderer) : (r.write d).2.Spent := by
  cases hdone : ((Render.document d).run r).1 with
  | none =>
    have hlt := (length_faults_lt_of_stop d hdone).2
    exact .inr (List.ne_nil_of_length_pos (Nat.zero_lt_of_lt hlt))
  | some _ => exact .inl (Render.run_document_of_some hdone).2

/-- A renderer that is spent writes no document. -/
theorem write_of_spent (h : r.Spent) : (r.write d).1 = false ∧ (r.write d).2.faults ≠ [] := by
  rcases h with hfinished | hfaults
  · -- After the end the walk itself stops. With a fault it may go on, but the fault counts again.
    obtain ⟨hwritten, hlt⟩ := write_of_finished d hfinished
    exact ⟨hwritten, List.ne_nil_of_length_pos (Nat.zero_lt_of_lt hlt)⟩
  · have hfaults' : (r.write d).2.faults ≠ [] := fun hnil =>
      hfaults (List.prefix_nil.1 (hnil ▸ faults_prefix_write d r))
    exact ⟨not_written_of_faults d hfaults', hfaults'⟩

/-- A renderer after some documents. -/
def after (r : Renderer) (documents : List Document) : Renderer :=
  documents.foldl (fun r d => (r.write d).2) r

theorem spent_after (h : r.Spent) (documents : List Document) : (r.after documents).Spent := by
  induction documents generalizing r with
  | nil => exact h
  | cons d documents ih => exact ih (spent_write d r)

theorem isFinished_after (h : r.scopes.isFinished = true) (documents : List Document) :
    (r.after documents).scopes.isFinished = true := by
  induction documents generalizing r with
  | nil => exact h
  | cons d documents ih => exact ih (isFinished_write d h)

/-- A document that is written ends the emission. -/
theorem isFinished_of_written (h : (r.write d).1 = true) :
    (r.write d).2.scopes.isFinished = true := by
  obtain ⟨hdone, -⟩ := (Bool.and_eq_true _ _).mp h
  obtain ⟨_, hdone⟩ := Option.isSome_iff_exists.1 hdone
  exact (Render.run_document_of_some hdone).2

/-- After a first document no other is written, and there is at least one fault. No fault is lost,
and if the first document was written, then every further one, even one without content, leaves a
fault more. -/
theorem write_after_first (target : Bytes) (first : Document) (later : List Document) :
    let r := (start target).after (first :: later)
    (r.write d).1 = false ∧ (r.write d).2.faults ≠ [] ∧ r.faults <+: (r.write d).2.faults ∧
      (((start target).write first).1 = true →
        r.faults.length < (r.write d).2.faults.length) := by
  intro r
  have hspent : r.Spent := spent_after (spent_write first (start target)) later
  obtain ⟨hwritten, hfaults⟩ := write_of_spent d hspent
  refine ⟨hwritten, hfaults, faults_prefix_write d r, fun hfirst => ?_⟩
  have hfinished : r.scopes.isFinished = true :=
    isFinished_after (isFinished_of_written first hfirst) later
  exact (write_of_finished d hfinished).2

end Renderer

end MarkupTemplate
