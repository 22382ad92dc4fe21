import MarkupTemplate.Fault

/-!
# Scopes

Elements and components nest, and the program that builds them has to follow. Every element and
every component is a scope while its content is written. The content of a component is captured in
a closure with a target of its own, which begins with the first child, so that a component without
content has no closure. Targets are numbered by the closures that are open.

## Main definitions

* `Closure`, `ClosureWriter`: closures, and what can write their beginning and their end
* `Scope`, `Scopes`: an open scope, and all open scopes of an emission
* `Scopes.target`: the target of what is written next
* `ScopeRequest`, `Scopes.step`: what can be asked of the scopes, and the answer
-/

namespace MarkupTemplate

/-- A closure that was begun. -/
structure Closure where
  /-- The number of the closure. -/
  id : Nat
  /-- The target of what is written inside the closure. -/
  target : Bytes
deriving DecidableEq, Repr, Inhabited

/-- What can write the beginning and the end of a closure. -/
class ClosureWriter (W : Type) where
  /-- Begins a closure: what follows is for the inner target instead of the outer one. -/
  beginClosure : W → (outer inner : Bytes) → W × Closure
  /-- Ends a closure. -/
  endClosure : W → Closure → W

/-- An open scope. -/
structure Scope where
  /-- The name of the element or component. -/
  tag : Bytes
  /-- The content of a component is captured, that of an element is not. -/
  isComponent : Bool
  /-- The number of children so far. -/
  childCount : Nat := 0
  /-- The closure that captures the content, once it is begun. -/
  closure : Option Closure := none
deriving DecidableEq, Repr, Inhabited

/-- The scopes of an emission. -/
structure Scopes where
  /-- The name of the outermost target. -/
  base : Bytes
  /-- The open scopes, the innermost first. -/
  frames : List Scope := []
  /-- The number of the current target. -/
  targetNumber : Nat := 1
  /-- The emission has ended. -/
  isFinished : Bool := false
  /-- What was asked for in vain. -/
  faults : List Fault := []
deriving DecidableEq, Repr, Inhabited

/-- Something that is asked of the scopes. -/
inductive ScopeRequest where
  /-- To open a scope. -/
  | openScope (tag : Bytes) (isComponent : Bool)
  /-- To count a child of the innermost scope. -/
  | countChild
  /-- To close the innermost scope. -/
  | closeScope
  /-- To end the emission. -/
  | finish
deriving DecidableEq, Repr, Inhabited

/-- What a request asks for, without its details. -/
def ScopeRequest.operation : ScopeRequest → ScopeOperation
  | openScope .. => .openScope
  | countChild => .countChild
  | closeScope => .closeScope
  | finish => .finish

namespace Scopes

/-- The name of a target: the base alone for the first, and the base with the number for others. -/
def targetOf (base : Bytes) (number : Nat) : Bytes :=
  if number = 1 then base else base ++ decimal number

/-- The target of what is written next. -/
def target (s : Scopes) : Bytes := targetOf s.base s.targetNumber

/-- The scopes with one more fault. -/
def report (fault : Fault) (s : Scopes) : Scopes := { s with faults := s.faults ++ [fault] }

variable {W : Type} [ClosureWriter W]

/-- Counts a child. The first child of a component begins its closure. Children outside all scopes
are not counted. -/
def countChild (s : Scopes) (w : W) : Scopes × W :=
  match s.frames with
  | [] => (s, w)
  | frame :: rest =>
    if frame.isComponent && frame.childCount == 0 then
      -- Every open closure has a target of its own.
      let inner := { s with targetNumber := s.targetNumber + 1 }
      let (w, closure) := ClosureWriter.beginClosure w s.target inner.target
      ({ inner with frames := { frame with childCount := 1, closure := some closure } :: rest }, w)
    else ({ s with frames := { frame with childCount := frame.childCount + 1 } :: rest }, w)

/-- Closes a scope, and ends its closure if it has one. -/
def closeFrame (frame : Scope) (rest : List Scope) (s : Scopes) (w : W) : Scopes × W :=
  match frame.closure with
  | none => ({ s with frames := rest }, w)
  | some closure =>
    ({ s with frames := rest, targetNumber := s.targetNumber - 1 },
      ClosureWriter.endClosure w closure)

/-- The answer to a request: whether it is granted, and the scopes and the writer after it. After
the end of the emission nothing is granted. -/
def step (request : ScopeRequest) (s : Scopes) (w : W) : Bool × Scopes × W :=
  if s.isFinished then (false, s.report (.emissionFinished request.operation), w)
  else
    match request with
    | .openScope tag isComponent =>
      (true, { s with frames := { tag, isComponent } :: s.frames }, w)
    | .countChild => (true, s.countChild w)
    | .closeScope =>
      match s.frames with
      | [] => (false, s.report .noOpenScope, w)
      | frame :: rest => (true, s.closeFrame frame rest w)
    | .finish =>
      let s := { s with isFinished := true }
      match s.frames with
      | [] => (true, s, w)
      | frame :: _ => (false, s.report (.unclosedScopes s.frames.length frame.tag), w)

end Scopes

end MarkupTemplate
