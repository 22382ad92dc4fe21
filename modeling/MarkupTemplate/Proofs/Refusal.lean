import MarkupTemplate.Render.Scopes

/-!
# Refused requests

Scopes refuse a request for one of three reasons: the emission has ended, no scope is open that
could be closed, or a scope is still open when the emission is to end. What is refused leaves one
fault and no other trace: the open scopes stay as they are, and nothing is asked of the closure
writer. An end that is refused is an end all the same, so nothing is granted after it either.

## Main definitions

* `Scopes.Refuses`: the scopes refuse a request, with the fault that this is
* `Scopes.after`: the scopes and the writer after some requests

## Main results

* `Scopes.step_of_refuses`, `Scopes.step_of_not_refuses`: what a request leaves
* `Scopes.isFinished_after`: the emission has ended once its end was asked for
* `Scopes.answer_after`: the answer to a request after any others
-/

namespace MarkupTemplate

namespace Scopes

variable {W : Type} [ClosureWriter W] {s : Scopes} {request : ScopeRequest} {fault : Fault}

/-! ## One request -/

/-- The scopes refuse a request, with the fault that this is. -/
inductive Refuses (s : Scopes) : ScopeRequest → Fault → Prop
  /-- The emission has ended. -/
  | finished (request : ScopeRequest) : s.isFinished = true →
    Refuses s request (.emissionFinished request.operation)
  /-- No scope is open that could be closed. -/
  | nothingOpen : s.isFinished = false → s.frames = [] → Refuses s .closeScope .noOpenScope
  /-- A scope is still open when the emission is to end. -/
  | stillOpen {frame : Scope} {rest : List Scope} : s.isFinished = false →
    s.frames = frame :: rest → Refuses s .finish (.unclosedScopes s.frames.length frame.tag)

/-- What is refused leaves its fault, and only an end leaves more: it is an end all the same. -/
theorem step_of_refuses (h : s.Refuses request fault) (w : W) :
    step request s w =
      (false, { s with
        isFinished := s.isFinished || request = .finish
        faults := s.faults ++ [fault] }, w) := by
  cases h with
  | finished _ hfinished => simp [step, report, hfinished]
  | nothingOpen hopen hframes => simp [step, report, hopen, hframes]
  | stillOpen hopen hframes => simp [step, report, hopen, hframes]

theorem countChild_keeps (s : Scopes) (w : W) :
    (s.countChild w).1.faults = s.faults ∧ (s.countChild w).1.isFinished = s.isFinished := by
  unfold countChild
  cases s.frames with
  | nil => exact ⟨rfl, rfl⟩
  | cons frame rest =>
    dsimp only
    split <;> exact ⟨rfl, rfl⟩

theorem closeFrame_keeps (frame : Scope) (rest : List Scope) (s : Scopes) (w : W) :
    (closeFrame frame rest s w).1.faults = s.faults ∧
      (closeFrame frame rest s w).1.isFinished = s.isFinished := by
  unfold closeFrame
  cases frame.closure <;> exact ⟨rfl, rfl⟩

/-- What is not refused is granted and leaves no fault. -/
theorem step_of_not_refuses (h : ∀ fault, ¬ s.Refuses request fault) (w : W) :
    (step request s w).1 = true ∧ (step request s w).2.1.faults = s.faults ∧
      (step request s w).2.1.isFinished = (s.isFinished || request = .finish) := by
  have hopen : s.isFinished = false := by
    rw [← Bool.not_eq_true]
    exact fun hfinished => h _ (.finished request hfinished)
  unfold step
  rw [hopen]
  cases request with
  | openScope tag isComponent => simp
  | countChild =>
    obtain ⟨hfaults, hfinished⟩ := countChild_keeps s w
    simp [hfaults, hfinished, hopen]
  | closeScope =>
    cases hframes : s.frames with
    | nil => exact absurd (.nothingOpen hopen hframes) (h _)
    | cons frame rest =>
      obtain ⟨hfaults, hfinished⟩ := closeFrame_keeps frame rest s w
      simp [hfaults, hfinished, hopen]
  | finish =>
    cases hframes : s.frames with
    | nil => simp
    | cons frame rest => exact absurd (.stillOpen hopen hframes) (h _)

theorem step_granted_iff (w : W) :
    (step request s w).1 = true ↔ ∀ fault, ¬ s.Refuses request fault := by
  constructor
  · intro hgranted fault hrefuses
    rw [step_of_refuses hrefuses] at hgranted
    exact Bool.false_ne_true hgranted
  · exact fun h => (step_of_not_refuses h w).1

/-- Nothing but a request for the end ends the emission. -/
theorem isFinished_step (w : W) :
    (step request s w).2.1.isFinished = (s.isFinished || request = .finish) := by
  by_cases h : ∃ fault, s.Refuses request fault
  · obtain ⟨fault, hrefuses⟩ := h
    rw [step_of_refuses hrefuses]
  · exact (step_of_not_refuses (not_exists.1 h) w).2.2

/-! ## Whole runs -/

/-- The scopes and the writer after some requests. -/
def after (requests : List ScopeRequest) (state : Scopes × W) : Scopes × W :=
  requests.foldl (fun (s, w) request => (step request s w).2) state

/-- The emission has ended once its end was asked for, be it in vain. -/
theorem isFinished_after (requests : List ScopeRequest) (state : Scopes × W) :
    (after requests state).1.isFinished = true ↔
      state.1.isFinished = true ∨ ScopeRequest.finish ∈ requests := by
  induction requests generalizing state with
  | nil => simp [after]
  | cons request requests ih =>
    rw [after, List.foldl_cons, ← after, ih, isFinished_step, Bool.or_eq_true, decide_eq_true_eq,
      List.mem_cons, or_assoc, eq_comm (a := request)]

/-- A request is granted exactly if nothing speaks against it, and then it leaves no fault. If it is
refused, it leaves exactly one fault: no closure begins or ends, and the open scopes and the target
stay as they are. After the end of the emission was asked for, everything is refused for that. -/
theorem answer_after (base : Bytes) (writer : W) (asked : List ScopeRequest)
    (request : ScopeRequest) :
    let (s, w) := after asked ({ base }, writer)
    let (granted, s', w') := step request s w
    (granted = true ↔ ∀ fault, ¬ s.Refuses request fault) ∧
      (granted = true → s'.faults = s.faults) ∧
      (granted = false → ∃ fault, s.Refuses request fault ∧ s'.faults = s.faults ++ [fault] ∧
        w' = w ∧ s'.frames = s.frames ∧ s'.target = s.target) ∧
      (ScopeRequest.finish ∈ asked → granted = false ∧
        s'.faults = s.faults ++ [.emissionFinished request.operation]) ∧
      (Fault.emissionFinished request.operation).code = utf8 "STENCIL-I5203" := by
  generalize hstate : after asked (({ base } : Scopes), writer) = state
  obtain ⟨s, w⟩ := state
  dsimp only
  refine ⟨step_granted_iff w, ?_, ?_, ?_, rfl⟩
  · intro hgranted
    exact (step_of_not_refuses ((step_granted_iff w).1 hgranted) w).2.1
  · intro hrefused
    by_cases h : ∃ fault, s.Refuses request fault
    · obtain ⟨fault, hrefuses⟩ := h
      rw [step_of_refuses hrefuses]
      exact ⟨fault, hrefuses, rfl, rfl, rfl, rfl⟩
    · rw [(step_granted_iff w).2 (not_exists.1 h)] at hrefused
      exact absurd hrefused.symm Bool.false_ne_true
  · intro hfinish
    have hfinished : s.isFinished = true := by
      have := (isFinished_after asked (({ base } : Scopes), writer)).2 (.inr hfinish)
      rwa [hstate] at this
    rw [step_of_refuses (.finished request hfinished)]
    exact ⟨rfl, rfl⟩

end Scopes

end MarkupTemplate
