import Mathlib.Algebra.GroupWithZero.Nat
import Mathlib.Data.List.Induction
import Mathlib.Data.List.Nodup
import Mathlib.Data.List.TakeWhile
import MarkupTemplate.Render.Scopes

/-!
# Closures nest

Scopes may be opened, counted and closed in any order, and what is asked for in vain changes none of
them. Over a whole run, every closure is begun by one component, on the target in use and with its
first child, and it is ended with that component. So the calls of a closure writer nest, and as many
closures are open as the number of the current target tells.

A run is observed from outside: the calls are noted between the scopes and the writer, and the
closures that begin while a scope is the innermost one are counted for it. But for their closures,
the scopes are what the requests alone make of them, up to the end of the emission.

## Main definitions

* `ClosureCall`, `Traced`: the calls of a closure writer, and a writer whose calls are noted
* `ClosureCall.opened`: the closures that calls in a row leave open, if they nest
* `ScopeRequest.arranged`: the scopes that requests open, count children for, and close
* `ScopeRun`: scopes and a writer during a run, with the closures that each scope began

## Main results

* `Scopes.targetOf_injective`: targets with two numbers differ
* `ScopeRun.untraced_after`: that calls are noted changes no run
* `ScopeRun.Sound.step`, `ScopeRun.sound_after`: what one request and what a whole run preserve
* `ScopeRun.arrangement_after`: the scopes of a run are those that the requests make
* `ScopeRun.nested_after`: the closures of every run nest
-/

namespace MarkupTemplate

/-- The target of a number tells the number. -/
theorem Scopes.targetOf_injective (base : Bytes) : Function.Injective (targetOf base) := by
  intro m n h
  unfold targetOf at h
  split at h <;> split at h
  · omega
  · exact absurd (List.self_eq_append_right.1 h) (decimal_ne_nil n)
  · exact absurd (List.append_right_eq_self.1 h) (decimal_ne_nil m)
  · exact decimal_injective (List.append_cancel_left h)

/-! ## Calls of a closure writer -/

/-- A call of a closure writer. -/
inductive ClosureCall where
  /-- A closure was begun, and this is the one that was given. -/
  | begun (outer inner : Bytes) (closure : Closure)
  /-- A closure was ended. -/
  | ended (closure : Closure)
deriving DecidableEq, Repr

/-- A closure that was begun and not ended. -/
structure OpenClosure where
  /-- The target that it was begun for. -/
  target : Bytes
  /-- The closure that was given for it. -/
  closure : Closure
deriving DecidableEq, Repr

namespace ClosureCall

variable {base : Bytes} {calls : List ClosureCall} {closures : List OpenClosure}

/-- The target in use while some closures are open, the innermost first. -/
def target (base : Bytes) (closures : List OpenClosure) : Bytes :=
  (closures.head?.map OpenClosure.target).getD base

/-- The closures that are open after a call. A closure begins on the target in use, and only the
innermost closure can end. -/
def next (base : Bytes) (closures : List OpenClosure) : ClosureCall → Option (List OpenClosure)
  | begun outer inner closure =>
    if outer = target base closures then some (⟨inner, closure⟩ :: closures) else none
  | ended closure =>
    match closures with
    | [] => none
    | innermost :: rest => if closure = innermost.closure then some rest else none

/-- The closures that calls in a row leave open, the innermost first, if the calls nest. -/
def opened (base : Bytes) (calls : List ClosureCall) : Option (List OpenClosure) :=
  calls.foldlM (next base) []

/-- The number of closures that were begun. -/
def begins (calls : List ClosureCall) : Nat :=
  calls.countP fun call => match call with
    | begun .. => true
    | ended _ => false

theorem opened_append (h : opened base calls = some closures) (call : ClosureCall) :
    opened base (calls ++ [call]) = next base closures call := by
  rw [opened, List.foldlM_append, ← opened, h]
  exact bind_pure (next base closures call)

theorem begins_begun (calls : List ClosureCall) (outer inner : Bytes) (closure : Closure) :
    begins (calls ++ [begun outer inner closure]) = begins calls + 1 := by
  simp [begins]

theorem begins_ended (calls : List ClosureCall) (closure : Closure) :
    begins (calls ++ [ended closure]) = begins calls := by
  simp [begins]

end ClosureCall

/-! ## Scopes by requests -/

/-- The scope without its closure. -/
def Scope.bare (frame : Scope) : Scope := { frame with closure := none }

namespace ScopeRequest

/-- The open scopes, the innermost first, and the closed ones, the last first, after one more
request. A child counts for the scope that is the innermost one then. -/
def arrange (scopes : List Scope × List Scope) : ScopeRequest → List Scope × List Scope
  | openScope tag isComponent => ({ tag, isComponent } :: scopes.1, scopes.2)
  | countChild =>
    (scopes.1.modifyHead fun frame => { frame with childCount := frame.childCount + 1 }, scopes.2)
  | closeScope => (scopes.1.tail, scopes.1.take 1 ++ scopes.2)
  | finish => scopes

/-- The open scopes and the closed ones after some requests. Those after the end of the emission are
in vain. -/
def arranged (asked : List ScopeRequest) : List Scope × List Scope :=
  (asked.takeWhile (· ≠ finish)).foldl arrange ([], [])

variable {asked : List ScopeRequest}

theorem takeWhile_ne_finish (h : finish ∉ asked) : asked.takeWhile (· ≠ finish) = asked :=
  List.takeWhile_eq_self_iff.2 fun _ hrequest => decide_eq_true (ne_of_mem_of_not_mem hrequest h)

theorem arranged_append_of_mem (h : finish ∈ asked) (request : ScopeRequest) :
    arranged (asked ++ [request]) = arranged asked := by
  obtain ⟨before, others, rfl, hbefore⟩ := List.eq_append_cons_of_mem h
  -- What comes behind the first end is not looked at.
  have hend : ∀ others, (before ++ finish :: others).takeWhile (· ≠ finish) = before := by
    intro others
    rw [List.takeWhile_append, takeWhile_ne_finish hbefore, if_pos rfl,
      List.takeWhile_cons_of_neg (by simp), List.append_nil]
  rw [arranged, List.append_assoc, List.cons_append, hend, arranged, hend]

theorem arranged_append_of_not_mem (h : finish ∉ asked) (request : ScopeRequest) :
    arranged (asked ++ [request]) = request.arrange (arranged asked) := by
  rw [arranged, List.takeWhile_append, takeWhile_ne_finish h, if_pos rfl, List.foldl_append,
    arranged, takeWhile_ne_finish h]
  cases request <;> rfl

end ScopeRequest

/-- A closure writer whose calls are noted. -/
structure Traced (W : Type) where
  /-- The writer. -/
  writer : W
  /-- The calls so far, in order. -/
  calls : List ClosureCall := []

variable {W : Type}

/-! ## Scopes and their closures -/

/-- Scopes and a closure writer during a run. -/
structure ScopeRun (W : Type) where
  /-- The scopes. -/
  scopes : Scopes
  /-- The writer and its calls. -/
  traced : Traced W
  /-- How many closures were begun while each of the open scopes was the innermost one. -/
  begins : List Nat := []
  /-- The scopes that were closed as they were then, and how many closures each of them began. -/
  closed : List (Scope × Nat) := []

namespace ScopeRun

variable {base : Bytes} {run : ScopeRun W} {frame : Scope} {rest : List Scope}
variable {started requests : Nat} {begins : List Nat}

/-- All scopes that were opened, and how many closures each of them began. -/
def tallies (run : ScopeRun W) : List (Scope × Nat) :=
  run.scopes.frames.zip run.begins ++ run.closed

theorem tallies_cons (hframes : run.scopes.frames = frame :: rest)
    (hbegins : run.begins = started :: begins) :
    run.tallies = (frame, started) :: (rest.zip begins ++ run.closed) := by
  rw [tallies, hframes, hbegins]
  rfl

/-- A closure belongs to a component that has children, and it is the only one that the scope
began. -/
structure TallySound (tally : Scope × Nat) : Prop where
  closure_iff : tally.1.closure.isSome ↔ tally.1.isComponent = true ∧ 0 < tally.1.childCount
  begins_eq : tally.2 = if tally.1.closure.isSome then 1 else 0

/-- After some requests, the closures of a run are those of its scopes, and no number in use is
greater than the number of the requests. -/
structure Sound (base : Bytes) (requests : Nat) (run : ScopeRun W) : Prop where
  base_eq : run.scopes.base = base
  targetNumber_eq : run.scopes.targetNumber = 1 + run.scopes.frames.countP (·.closure.isSome)
  opened : ∃ closures, ClosureCall.opened base run.traced.calls = some closures ∧
    closures.map OpenClosure.closure = run.scopes.frames.filterMap Scope.closure ∧
    closures.map OpenClosure.target =
      (List.range closures.length).reverse.map fun outer => Scopes.targetOf base (outer + 2)
  length_begins : run.begins.length = run.scopes.frames.length
  tallySound : ∀ tally ∈ run.tallies, TallySound tally
  total : ClosureCall.begins run.traced.calls = (run.tallies.map Prod.snd).sum
  size_le : run.scopes.frames.length + run.scopes.frames.countP (·.closure.isSome) ≤ requests
  childCount_le : ∀ frame ∈ run.scopes.frames, frame.childCount ≤ requests

namespace Sound

variable {closures : List OpenClosure}

/-- As many closures are open as scopes have one. -/
theorem length_closures (h : closures.map OpenClosure.closure =
    run.scopes.frames.filterMap Scope.closure) :
    closures.length = run.scopes.frames.countP (·.closure.isSome) := by
  rw [← List.length_map (f := OpenClosure.closure), h, List.length_filterMap_eq_countP]

/-- The target in use is that of the innermost closure. -/
theorem target_eq (h : Sound base requests run)
    (hclosures : closures.map OpenClosure.closure = run.scopes.frames.filterMap Scope.closure)
    (htargets : closures.map OpenClosure.target =
      (List.range closures.length).reverse.map fun outer => Scopes.targetOf base (outer + 2)) :
    run.scopes.target = ClosureCall.target base closures := by
  rw [Scopes.target, h.base_eq, h.targetNumber_eq, ← length_closures hclosures]
  cases closures with
  | nil => rfl
  | cons innermost rest =>
    rw [List.length_cons, List.range_succ, List.reverse_append] at htargets
    obtain ⟨hinnermost, -⟩ := List.cons.inj htargets
    rw [ClosureCall.target, List.head?_cons, Option.map_some, Option.getD_some, hinnermost,
      List.length_cons, Nat.add_comm 1]

/-- What is asked for in vain changes no scope. -/
theorem idle (h : Sound base requests run) (isFinished : Bool) (faults : List Fault) :
    Sound base (requests + 1) { run with scopes := { run.scopes with isFinished, faults } } :=
  ⟨h.base_eq, h.targetNumber_eq, h.opened, h.length_begins, h.tallySound, h.total,
    Nat.le_succ_of_le h.size_le,
    fun frame hframe => Nat.le_succ_of_le (h.childCount_le frame hframe)⟩

/-- Open closures have targets of their own. -/
theorem nodup_targets (htargets : closures.map OpenClosure.target =
    (List.range closures.length).reverse.map fun outer => Scopes.targetOf base (outer + 2)) :
    (base :: closures.map OpenClosure.target).Nodup := by
  rw [htargets, List.nodup_cons]
  constructor
  · intro hbase
    obtain ⟨outer, -, houter⟩ := List.mem_map.1 hbase
    -- The base is the target of the number one.
    have hone := Scopes.targetOf_injective base (houter.trans (if_pos rfl).symm)
    omega
  · refine List.Pairwise.map _ ?_ (List.nodup_reverse.2 List.nodup_range)
    intro m n hne h
    exact hne (Nat.add_right_cancel (Scopes.targetOf_injective base h))

/-- An open scope has been credited with its closures. -/
theorem credited (h : Sound base requests run) (hframes : run.scopes.frames = frame :: rest) :
    ∃ started begins, run.begins = started :: begins :=
  List.exists_cons_of_length_eq_add_one (h.length_begins.trans (congrArg List.length hframes))

theorem closure_iff (h : Sound base requests run) :
    ∀ frame ∈ run.scopes.frames,
      frame.closure.isSome ↔ frame.isComponent = true ∧ 0 < frame.childCount := by
  intro frame hframe
  obtain ⟨i, hi, rfl⟩ := List.getElem_of_mem hframe
  have hlt : i < (run.scopes.frames.zip run.begins).length := by
    rw [List.length_zip, h.length_begins, Nat.min_self]
    exact hi
  have htally := h.tallySound _ (List.mem_append_left _ (List.getElem_mem hlt))
  simpa using htally.closure_iff

/-- A target of its own takes two requests at least: one for its scope and one for a child. -/
theorem targetNumber_le (h : Sound base requests run) :
    2 * run.scopes.targetNumber ≤ 2 + requests := by
  have hsize := h.size_le
  have hle : run.scopes.frames.countP (·.closure.isSome) ≤ run.scopes.frames.length :=
    List.countP_le_length
  rw [h.targetNumber_eq]
  omega

theorem openScope (h : Sound base requests run) (tag : Bytes) (isComponent : Bool) :
    Sound base (requests + 1) { run with
      scopes := { run.scopes with frames := { tag, isComponent } :: run.scopes.frames }
      begins := 0 :: run.begins } where
  base_eq := h.base_eq
  targetNumber_eq := by simpa using h.targetNumber_eq
  opened := by simpa using h.opened
  length_begins := by simpa using h.length_begins
  tallySound := List.forall_mem_cons.2 ⟨⟨by simp, rfl⟩, h.tallySound⟩
  total := by
    rw [tallies_cons rfl rfl, List.map_cons, List.sum_cons, Nat.zero_add]
    exact h.total
  size_le := by simpa [Nat.add_right_comm _ 1] using h.size_le
  childCount_le := List.forall_mem_cons.2
    ⟨Nat.zero_le _, fun frame hframe => Nat.le_succ_of_le (h.childCount_le frame hframe)⟩

variable (h : Sound base requests run) (hframes : run.scopes.frames = frame :: rest)
variable (hbegins : run.begins = started :: begins)
include h hframes hbegins

theorem innermost : TallySound (frame, started) ∧
    ∀ tally ∈ rest.zip begins ++ run.closed, TallySound tally :=
  List.forall_mem_cons.1 (tallies_cons hframes hbegins ▸ h.tallySound)

theorem total_eq : ClosureCall.begins run.traced.calls =
    started + ((rest.zip begins ++ run.closed).map Prod.snd).sum := by
  rw [h.total, tallies_cons hframes hbegins, List.map_cons, List.sum_cons]

omit hbegins in
theorem childCounts : frame.childCount ≤ requests ∧
    ∀ frame ∈ rest, frame.childCount ≤ requests + 1 := by
  have hcounts := h.childCount_le
  rw [hframes] at hcounts
  obtain ⟨hcount, hrest⟩ := List.forall_mem_cons.1 hcounts
  exact ⟨hcount, fun frame hframe => Nat.le_succ_of_le (hrest frame hframe)⟩

theorem countChild_counted (hcounted : ¬(frame.isComponent = true ∧ frame.childCount = 0)) :
    Sound base (requests + 1) { run with
      scopes := { run.scopes with
        frames := { frame with childCount := frame.childCount + 1 } :: rest }
      begins := started :: begins } := by
  obtain ⟨hinnermost, hothers⟩ := h.innermost hframes hbegins
  constructor
  · exact h.base_eq
  · rw [h.targetNumber_eq, hframes, List.countP_cons, List.countP_cons]
  · simpa only [hframes, List.filterMap_cons] using h.opened
  · simpa [hframes, hbegins] using h.length_begins
  · rw [tallies_cons rfl rfl]
    refine List.forall_mem_cons.2 ⟨⟨?_, hinnermost.begins_eq⟩, hothers⟩
    refine hinnermost.closure_iff.trans ⟨?_, ?_⟩
    · rintro ⟨hcomponent, -⟩
      exact ⟨hcomponent, Nat.succ_pos _⟩
    · rintro ⟨hcomponent, -⟩
      exact ⟨hcomponent, Nat.pos_of_ne_zero fun hzero => hcounted ⟨hcomponent, hzero⟩⟩
  · rw [tallies_cons rfl rfl, h.total_eq hframes hbegins, List.map_cons, List.sum_cons]
  · have hsize := h.size_le
    rw [hframes, List.length_cons, List.countP_cons] at hsize
    rw [List.length_cons, List.countP_cons]
    exact Nat.le_succ_of_le hsize
  · obtain ⟨hcount, hrest⟩ := h.childCounts hframes
    exact List.forall_mem_cons.2 ⟨Nat.succ_le_succ hcount, hrest⟩

theorem countChild_first (hfirst : frame.isComponent = true ∧ frame.childCount = 0) (writer : W)
    (closure : Closure) :
    Sound base (requests + 1) { run with
      scopes := { run.scopes with
        frames := { frame with childCount := 1, closure := some closure } :: rest
        targetNumber := run.scopes.targetNumber + 1 }
      traced := ⟨writer, run.traced.calls ++ [.begun run.scopes.target
        (Scopes.targetOf run.scopes.base (run.scopes.targetNumber + 1)) closure]⟩
      begins := (started + 1) :: begins } := by
  obtain ⟨hinnermost, hothers⟩ := h.innermost hframes hbegins
  obtain ⟨hcomponent, hzero⟩ := hfirst
  -- The first child finds no closure, so none was begun before.
  have hnone : frame.closure = none := by
    rw [← Option.not_isSome_iff_eq_none]
    intro hsome
    exact Nat.ne_of_gt (hinnermost.closure_iff.1 hsome).2 hzero
  have hstarted : started = 0 := hinnermost.begins_eq.trans (by rw [hnone]; rfl)
  obtain ⟨closures, hopened, hclosures, htargets⟩ := h.opened
  constructor
  · exact h.base_eq
  · show run.scopes.targetNumber + 1 = _
    rw [h.targetNumber_eq, hframes, List.countP_cons_of_neg (by simp [hnone]),
      List.countP_cons_of_pos (by rfl), Nat.add_assoc]
  · refine ⟨⟨Scopes.targetOf base (closures.length + 2), closure⟩ :: closures, ?_, ?_, ?_⟩
    · rw [ClosureCall.opened_append hopened, ClosureCall.next,
        if_pos (h.target_eq hclosures htargets), h.base_eq, h.targetNumber_eq,
        length_closures hclosures, Nat.add_comm 1]
    · rw [List.map_cons, hclosures, hframes, List.filterMap_cons_none hnone]
      rfl
    · rw [List.map_cons, htargets, List.length_cons, List.range_succ, List.reverse_append]
      rfl
  · simpa [hframes, hbegins] using h.length_begins
  · rw [tallies_cons rfl rfl]
    exact List.forall_mem_cons.2 ⟨⟨by simp [hcomponent], by simp [hstarted]⟩, hothers⟩
  · rw [tallies_cons rfl rfl, ClosureCall.begins_begun, h.total_eq hframes hbegins, List.map_cons,
      List.sum_cons, Nat.add_right_comm]
  · have hsize := h.size_le
    rw [hframes, List.length_cons, List.countP_cons_of_neg (by simp [hnone])] at hsize
    rw [List.length_cons, List.countP_cons_of_pos (by rfl), ← Nat.add_assoc]
    exact Nat.succ_le_succ hsize
  · exact List.forall_mem_cons.2 ⟨Nat.succ_le_succ (Nat.zero_le _), (h.childCounts hframes).2⟩

omit hbegins in
theorem size_le_rest : rest.length + rest.countP (·.closure.isSome) ≤ requests + 1 := by
  have hsize := h.size_le
  rw [hframes, List.length_cons, List.countP_cons] at hsize
  omega

omit h in
/-- A scope that is closed keeps its closures. -/
theorem perm_tallies : (rest.zip begins ++ (frame, started) :: run.closed).Perm run.tallies := by
  rw [tallies_cons hframes hbegins]
  exact List.perm_middle

theorem closeScope_none (hnone : frame.closure = none) :
    Sound base (requests + 1) { run with
      scopes := { run.scopes with frames := rest }
      begins := begins
      closed := (frame, started) :: run.closed } where
  base_eq := h.base_eq
  targetNumber_eq := by simpa [hframes, hnone] using h.targetNumber_eq
  opened := by simpa [hframes, hnone] using h.opened
  length_begins := by simpa [hframes, hbegins] using h.length_begins
  tallySound := by
    intro tally htally
    exact h.tallySound tally ((perm_tallies hframes hbegins).mem_iff.1 htally)
  total := h.total.trans ((perm_tallies hframes hbegins).map Prod.snd).sum_nat.symm
  size_le := h.size_le_rest hframes
  childCount_le := (h.childCounts hframes).2

theorem closeScope_some {closure : Closure} (hsome : frame.closure = some closure) (writer : W) :
    Sound base (requests + 1)
      { scopes := { run.scopes with
          frames := rest, targetNumber := run.scopes.targetNumber - 1 }
        traced := ⟨writer, run.traced.calls ++ [.ended closure]⟩
        begins := begins
        closed := (frame, started) :: run.closed } := by
  obtain ⟨closures, hopened, hclosures, htargets⟩ := h.opened
  rw [hframes, List.filterMap_cons_some hsome] at hclosures
  -- The closure of the innermost scope is the innermost one.
  obtain ⟨innermost, outer, rfl, rfl, houter⟩ := List.map_eq_cons_iff.1 hclosures
  rw [List.map_cons, List.length_cons, List.range_succ, List.reverse_append] at htargets
  constructor
  · exact h.base_eq
  · show run.scopes.targetNumber - 1 = _
    rw [h.targetNumber_eq, hframes, List.countP_cons_of_pos (by simp [hsome])]
    rfl
  · refine ⟨outer, ?_, houter, (List.cons.inj htargets).2⟩
    rw [ClosureCall.opened_append hopened, ClosureCall.next, if_pos rfl]
  · simpa [hframes, hbegins] using h.length_begins
  · intro tally htally
    exact h.tallySound tally ((perm_tallies hframes hbegins).mem_iff.1 htally)
  · rw [ClosureCall.begins_ended, h.total]
    exact ((perm_tallies hframes hbegins).map Prod.snd).sum_nat.symm
  · exact h.size_le_rest hframes
  · exact (h.childCounts hframes).2

end Sound

/-! ## Requests -/

variable [ClosureWriter W]

instance : ClosureWriter (Traced W) where
  beginClosure t outer inner :=
    let (writer, closure) := ClosureWriter.beginClosure t.writer outer inner
    (⟨writer, t.calls ++ [.begun outer inner closure]⟩, closure)
  endClosure t closure := ⟨ClosureWriter.endClosure t.writer closure, t.calls ++ [.ended closure]⟩

/-- A run before its first request. -/
def start (base : Bytes) (writer : W) : ScopeRun W := { scopes := { base }, traced := { writer } }

/-- Credits the innermost of the open scopes with closures. -/
def credit (started : Nat) : List Nat → List Nat
  | [] => []
  | innermost :: rest => (innermost + started) :: rest

@[simp] theorem credit_zero (begins : List Nat) : credit 0 begins = begins := by
  cases begins <;> rfl

/-- A run after one more request. -/
def step (run : ScopeRun W) (request : ScopeRequest) : ScopeRun W :=
  let (granted, scopes, traced) := Scopes.step request run.scopes run.traced
  let started := ClosureCall.begins traced.calls - ClosureCall.begins run.traced.calls
  let begins := credit started run.begins
  match granted, request with
  | true, .openScope .. => { run with scopes, traced, begins := 0 :: begins }
  | true, .closeScope =>
    { scopes, traced, begins := begins.tail,
      closed := (run.scopes.frames.zip begins).take 1 ++ run.closed }
  | _, _ => { run with scopes, traced, begins }

/-- A run after some requests. -/
def after (run : ScopeRun W) (requests : List ScopeRequest) : ScopeRun W := requests.foldl step run

theorem after_append_singleton (run : ScopeRun W) (asked : List ScopeRequest)
    (request : ScopeRequest) : run.after (asked ++ [request]) = (run.after asked).step request := by
  rw [after, List.foldl_append]
  rfl

/-- The scopes and the writer alone. -/
def untraced (run : ScopeRun W) : Scopes × W := (run.scopes, run.traced.writer)

theorem step_of_finished (hfinished : run.scopes.isFinished = true) (request : ScopeRequest) :
    run.step request =
      { run with scopes := run.scopes.report (.emissionFinished request.operation) } := by
  simp [step, Scopes.step, hfinished]

section

variable (hopen : run.scopes.isFinished = false)
include hopen

theorem step_openScope (tag : Bytes) (isComponent : Bool) :
    run.step (.openScope tag isComponent) =
      { run with
        scopes := { run.scopes with frames := { tag, isComponent } :: run.scopes.frames }
        begins := 0 :: run.begins } := by
  simp [step, Scopes.step, hopen]

theorem step_finish :
    ∃ faults, run.step .finish =
      { run with scopes := { run.scopes with isFinished := true, faults } } := by
  cases hframes : run.scopes.frames with
  | nil => exact ⟨_, by simp [step, Scopes.step, hopen, hframes]; rfl⟩
  | cons frame rest => exact ⟨_, by simp [step, Scopes.step, Scopes.report, hopen, hframes]; rfl⟩

theorem step_countChild_nil (hframes : run.scopes.frames = []) : run.step .countChild = run := by
  simp [step, Scopes.step, Scopes.countChild, hopen, hframes]

theorem step_closeScope_nil (hframes : run.scopes.frames = []) :
    run.step .closeScope = { run with scopes := run.scopes.report .noOpenScope } := by
  simp [step, Scopes.step, hopen, hframes]

variable (hframes : run.scopes.frames = frame :: rest) (hbegins : run.begins = started :: begins)
include hframes hbegins

theorem step_countChild_counted (hcounted : ¬(frame.isComponent = true ∧ frame.childCount = 0)) :
    run.step .countChild =
      { run with
        scopes := { run.scopes with
          frames := { frame with childCount := frame.childCount + 1 } :: rest }
        begins := started :: begins } := by
  simp [step, Scopes.step, Scopes.countChild, hopen, hframes, hbegins, hcounted]

theorem step_countChild_first (hfirst : frame.isComponent = true ∧ frame.childCount = 0)
    {writer : W} {closure : Closure}
    (hbegin : ClosureWriter.beginClosure run.traced.writer run.scopes.target
      (Scopes.targetOf run.scopes.base (run.scopes.targetNumber + 1)) = (writer, closure)) :
    run.step .countChild =
      { run with
        scopes := { run.scopes with
          frames := { frame with childCount := 1, closure := some closure } :: rest
          targetNumber := run.scopes.targetNumber + 1 }
        traced := ⟨writer, run.traced.calls ++ [.begun run.scopes.target
          (Scopes.targetOf run.scopes.base (run.scopes.targetNumber + 1)) closure]⟩
        begins := (started + 1) :: begins } := by
  unfold Scopes.target at hbegin
  simp [step, Scopes.step, Scopes.countChild, Scopes.target, hopen, hframes, hfirst, hbegins,
    ClosureWriter.beginClosure, hbegin, ClosureCall.begins_begun, credit]

theorem step_closeScope_none (hnone : frame.closure = none) :
    run.step .closeScope =
      { run with
        scopes := { run.scopes with frames := rest }
        begins := begins
        closed := (frame, started) :: run.closed } := by
  simp [step, Scopes.step, Scopes.closeFrame, hopen, hframes, hbegins, hnone]

theorem step_closeScope_some {closure : Closure} (hsome : frame.closure = some closure) :
    run.step .closeScope =
      { scopes := { run.scopes with
          frames := rest, targetNumber := run.scopes.targetNumber - 1 }
        traced := ⟨ClosureWriter.endClosure run.traced.writer closure,
          run.traced.calls ++ [.ended closure]⟩
        begins := begins
        closed := (frame, started) :: run.closed } := by
  simp [step, Scopes.step, Scopes.closeFrame, hopen, hframes, hbegins, hsome,
    ClosureWriter.endClosure, ClosureCall.begins_ended]

end

/-- Whatever is asked for, the closures stay those of the scopes. -/
theorem Sound.step (h : Sound base requests run) (request : ScopeRequest) :
    Sound base (requests + 1) (run.step request) := by
  cases hfinished : run.scopes.isFinished with
  | true =>
    rw [step_of_finished hfinished]
    exact h.idle _ _
  | false =>
    cases request with
    | openScope tag isComponent =>
      rw [step_openScope hfinished]
      exact h.openScope tag isComponent
    | finish =>
      obtain ⟨faults, hstep⟩ := step_finish hfinished
      rw [hstep]
      exact h.idle true faults
    | countChild =>
      cases hframes : run.scopes.frames with
      | nil =>
        rw [step_countChild_nil hfinished hframes]
        exact h.idle _ _
      | cons frame rest =>
        obtain ⟨started, begins, hbegins⟩ := h.credited hframes
        by_cases hfirst : frame.isComponent = true ∧ frame.childCount = 0
        · rw [step_countChild_first hfinished hframes hbegins hfirst rfl]
          exact h.countChild_first hframes hbegins hfirst _ _
        · rw [step_countChild_counted hfinished hframes hbegins hfirst]
          exact h.countChild_counted hframes hbegins hfirst
    | closeScope =>
      cases hframes : run.scopes.frames with
      | nil =>
        rw [step_closeScope_nil hfinished hframes]
        exact h.idle _ _
      | cons frame rest =>
        obtain ⟨started, begins, hbegins⟩ := h.credited hframes
        cases hclosure : frame.closure with
        | none =>
          rw [step_closeScope_none hfinished hframes hbegins hclosure]
          exact h.closeScope_none hframes hbegins hclosure
        | some closure =>
          rw [step_closeScope_some hfinished hframes hbegins hclosure]
          exact h.closeScope_some hframes hbegins hclosure _

/-- The open scopes of a run, and those that were closed, without their closures. -/
def arrangement (run : ScopeRun W) : List Scope × List Scope :=
  (run.scopes.frames.map Scope.bare, run.closed.map fun tally => tally.1.bare)

/-- Until the emission ends, a request does to the scopes what it asks for. -/
theorem arrangement_step (h : Sound base requests run) (hopen : run.scopes.isFinished = false)
    (request : ScopeRequest) :
    (run.step request).arrangement = request.arrange run.arrangement ∧
      ((run.step request).scopes.isFinished = true ↔ request = .finish) := by
  cases request with
  | openScope tag isComponent =>
    rw [step_openScope hopen]
    exact ⟨rfl, by simp [hopen]⟩
  | finish =>
    obtain ⟨faults, hstep⟩ := step_finish hopen
    rw [hstep]
    exact ⟨rfl, by simp⟩
  | countChild =>
    cases hframes : run.scopes.frames with
    | nil =>
      rw [step_countChild_nil hopen hframes]
      exact ⟨by simp [arrangement, ScopeRequest.arrange, hframes], by simp [hopen]⟩
    | cons frame rest =>
      obtain ⟨started, begins, hbegins⟩ := h.credited hframes
      -- A child counts alike whether it begins a closure or not.
      by_cases hfirst : frame.isComponent = true ∧ frame.childCount = 0
      · rw [step_countChild_first hopen hframes hbegins hfirst rfl]
        exact ⟨by simp [arrangement, ScopeRequest.arrange, Scope.bare, hframes, hfirst.2],
          by simp [hopen]⟩
      · rw [step_countChild_counted hopen hframes hbegins hfirst]
        exact ⟨by simp [arrangement, ScopeRequest.arrange, Scope.bare, hframes], by simp [hopen]⟩
  | closeScope =>
    cases hframes : run.scopes.frames with
    | nil =>
      rw [step_closeScope_nil hopen hframes]
      exact ⟨by simp [arrangement, ScopeRequest.arrange, Scopes.report, hframes],
        by simp [Scopes.report, hopen]⟩
    | cons frame rest =>
      obtain ⟨started, begins, hbegins⟩ := h.credited hframes
      cases hclosure : frame.closure with
      | none =>
        rw [step_closeScope_none hopen hframes hbegins hclosure]
        exact ⟨by simp [arrangement, ScopeRequest.arrange, hframes], by simp [hopen]⟩
      | some closure =>
        rw [step_closeScope_some hopen hframes hbegins hclosure]
        exact ⟨by simp [arrangement, ScopeRequest.arrange, hframes], by simp [hopen]⟩

/-! ## Whole runs -/

omit [ClosureWriter W] in
theorem sound_start (base : Bytes) (writer : W) : Sound base 0 (start base writer) where
  base_eq := rfl
  targetNumber_eq := rfl
  opened := ⟨[], rfl, rfl, rfl⟩
  length_begins := rfl
  tallySound := by simp [tallies, start]
  total := rfl
  size_le := Nat.le_refl 0
  childCount_le := by simp [start]

theorem sound_after (base : Bytes) (writer : W) (asked : List ScopeRequest) :
    Sound base asked.length ((start base writer).after asked) := by
  induction asked using List.reverseRecOn with
  | nil => exact sound_start base writer
  | append_singleton asked request ih =>
    rw [after_append_singleton, List.length_append]
    exact ih.step request

/-- The scopes of a run are those that the requests make, and the emission has ended if that was
asked for. -/
theorem arrangement_after (base : Bytes) (writer : W) (asked : List ScopeRequest) :
    let run := (start base writer).after asked
    run.arrangement = ScopeRequest.arranged asked ∧
      (run.scopes.isFinished = true ↔ .finish ∈ asked) := by
  induction asked using List.reverseRecOn with
  | nil => exact ⟨rfl, by simp [after, start]⟩
  | append_singleton asked request ih =>
    obtain ⟨harrangement, hend⟩ := ih
    rw [after_append_singleton]
    by_cases hfinished : .finish ∈ asked
    · -- After the end a request leaves a fault and nothing else.
      rw [step_of_finished (hend.2 hfinished), ScopeRequest.arranged_append_of_mem hfinished]
      exact ⟨harrangement, by simp [Scopes.report, hend.2 hfinished, hfinished]⟩
    · have hopen : ((start base writer).after asked).scopes.isFinished = false :=
        Bool.eq_false_iff.2 fun h => hfinished (hend.1 h)
      obtain ⟨hstep, hstepEnd⟩ := arrangement_step (sound_after base writer asked) hopen request
      rw [ScopeRequest.arranged_append_of_not_mem hfinished, ← harrangement]
      exact ⟨hstep, hstepEnd.trans (by simp [hfinished, eq_comm])⟩

theorem countChild_traced (s : Scopes) (t : Traced W) :
    (s.countChild t).map id Traced.writer = s.countChild t.writer := by
  unfold Scopes.countChild
  cases s.frames with
  | nil => rfl
  | cons frame rest =>
    by_cases hfirst : (frame.isComponent && frame.childCount == 0) = true
    · simp only [hfirst, if_true]
      rfl
    · simp only [hfirst]
      rfl

theorem closeFrame_traced (frame : Scope) (rest : List Scope) (s : Scopes) (t : Traced W) :
    (s.closeFrame frame rest t).map id Traced.writer = s.closeFrame frame rest t.writer := by
  unfold Scopes.closeFrame
  cases frame.closure <;> rfl

theorem step_traced (request : ScopeRequest) (s : Scopes) (t : Traced W) :
    (Scopes.step request s t).2.map id Traced.writer = (Scopes.step request s t.writer).2 := by
  unfold Scopes.step
  cases s.isFinished with
  | true => rfl
  | false =>
    cases request with
    | openScope => rfl
    | countChild => exact countChild_traced s t
    | closeScope =>
      cases s.frames with
      | nil => rfl
      | cons frame rest => exact closeFrame_traced frame rest s t
    | finish => cases s.frames <;> rfl

theorem untraced_step (run : ScopeRun W) (request : ScopeRequest) :
    (run.step request).untraced = (Scopes.step request run.scopes run.traced.writer).2 := by
  rw [← step_traced]
  unfold step
  rcases Scopes.step request run.scopes run.traced with ⟨granted, scopes, traced⟩
  cases granted <;> cases request <;> rfl

/-- A run whose calls are noted is the run of its scopes and its writer. -/
theorem untraced_after (run : ScopeRun W) (asked : List ScopeRequest) :
    (run.after asked).untraced =
      asked.foldl (fun (scopes, writer) request => (Scopes.step request scopes writer).2)
        run.untraced := by
  induction asked generalizing run with
  | nil => rfl
  | cons request asked ih => rw [after, List.foldl_cons, ← after, ih, untraced_step]; rfl

/-- After any requests, the run is that of the scopes and the writer, the calls of the writer nest,
and exactly the components that have children have begun a closure, and no more than one. The
children of a scope are those that were counted while it was the innermost one. The target is
numbered by the open closures, which have targets of their own. Fewer than `2 ^ 31` requests lead to
no number above that. -/
theorem nested_after (base : Bytes) (writer : W) (asked : List ScopeRequest) :
    let run := (start base writer).after asked
    let frames := run.scopes.frames
    run.untraced = asked.foldl
      (fun (scopes, writer) request => (Scopes.step request scopes writer).2) ({ base }, writer) ∧
    (frames.map Scope.bare, run.closed.map fun tally => tally.1.bare) =
      ScopeRequest.arranged asked ∧
    ∃ closures, ClosureCall.opened base run.traced.calls = some closures ∧
      closures.map OpenClosure.closure = frames.filterMap Scope.closure ∧
      (base :: closures.map OpenClosure.target).Nodup ∧
      run.scopes.targetNumber = 1 + frames.countP (·.closure.isSome) ∧
      (∀ frame ∈ frames, frame.closure.isSome ↔ frame.isComponent = true ∧ 0 < frame.childCount) ∧
      run.begins.length = frames.length ∧
      (∀ tally ∈ run.tallies,
        tally.2 = if tally.1.isComponent = true ∧ 0 < tally.1.childCount then 1 else 0) ∧
      ClosureCall.begins run.traced.calls = (run.tallies.map Prod.snd).sum ∧
      (frames = [] → closures = [] ∧ run.scopes.target = base) ∧
      2 * run.scopes.targetNumber ≤ 2 + asked.length ∧
        ∀ frame ∈ frames, frame.childCount ≤ asked.length := by
  intro run frames
  have h : Sound base asked.length run := sound_after base writer asked
  obtain ⟨closures, hopened, hclosures, htargets⟩ := h.opened
  refine ⟨untraced_after (start base writer) asked, (arrangement_after base writer asked).1,
    closures, hopened, hclosures, Sound.nodup_targets htargets, h.targetNumber_eq, h.closure_iff,
    h.length_begins, ?_, h.total, ?_, h.targetNumber_le, h.childCount_le⟩
  · intro tally htally
    have htallied := h.tallySound tally htally
    simpa only [htallied.closure_iff] using htallied.begins_eq
  · intro hempty
    change run.scopes.frames = [] at hempty
    rw [hempty, List.filterMap_nil, List.map_eq_nil_iff] at hclosures
    refine ⟨hclosures, ?_⟩
    rw [Scopes.target, h.base_eq, h.targetNumber_eq, hempty]
    rfl

end ScopeRun

end MarkupTemplate
