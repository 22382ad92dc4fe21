import MarkupTemplate.Render.Scopes

/-!
# Logs of closures

A log writes nothing and only notes when a closure begins or ends.

## Main definitions

* `ClosureEvent`: the beginning or the end of a closure
* `ClosureLog`: a closure writer that numbers the closures and notes the events
-/

namespace MarkupTemplate

/-- The beginning or the end of a closure. -/
inductive ClosureEvent where
  /-- A closure began. -/
  | begun (outer inner : Bytes)
  /-- A closure ended. -/
  | ended (closure : Closure)
deriving DecidableEq, Repr, Inhabited

/-- The events so far. -/
structure ClosureLog where
  /-- The number of closures begun so far, which is the number of the next one. -/
  begun : Nat := 0
  /-- The events in order. -/
  events : List ClosureEvent := []
deriving DecidableEq, Repr, Inhabited

instance : ClosureWriter ClosureLog where
  beginClosure log outer inner :=
    (⟨log.begun + 1, log.events ++ [.begun outer inner]⟩, ⟨log.begun, inner⟩)
  endClosure log closure := { log with events := log.events ++ [.ended closure] }

end MarkupTemplate
