import MarkupTemplate.Render.Listing
import MarkupTemplate.Render.Scopes

/-!
# Emissions

An emission is the listing of a render program together with the closures that are open in it.

## Main definitions

* `Emission`: a listing with its open closures
* `Emission.beginClosure`, `Emission.endClosure`: the beginning and the end of child content
-/

namespace MarkupTemplate

/-- The listing of a render program, and what is known of its closures. -/
structure Emission where
  /-- The listing. -/
  listing : Listing := {}
  /-- The number of the next closure. -/
  nextClosure : Nat := 0
  /-- The numbers of the open closures, the innermost first. -/
  openClosures : List Nat := []
  /-- What could not be written. -/
  faults : List Fault := []
deriving DecidableEq, Repr, Inhabited

namespace Emission

/-- Begins child content: the outer target gets it as an attribute, and what follows is written one
level deeper, for the inner target. -/
def beginClosure (e : Emission) (outer inner : Bytes) : Emission × Closure :=
  let listing := e.listing.write outer
  let listing := listing.write (utf8 ".addAttribute(")
  let listing := listing.writeLiteral (utf8 "ChildContent")
  let listing := listing.write (utf8 ", [&](RenderTreeBuilder& ")
  let listing := listing.write inner
  let listing := listing.writeLine (utf8 ") \x7b")
  ({ e with
      listing := listing.indent
      nextClosure := e.nextClosure + 1
      openClosures := e.nextClosure :: e.openClosures },
    ⟨e.nextClosure, inner⟩)

/-- Ends child content. Only the innermost closure can end; any other is a fault, and nothing is
written for it. -/
def endClosure (e : Emission) (closure : Closure) : Emission :=
  match e.openClosures with
  | innermost :: rest =>
    if innermost = closure.id then
      { e with listing := e.listing.dedent.writeLine (utf8 "\x7d);"), openClosures := rest }
    else { e with faults := e.faults ++ [.closureNotInnermost closure.id closure.target] }
  | [] => { e with faults := e.faults ++ [.closureNotInnermost closure.id closure.target] }

end Emission

instance : ClosureWriter Emission := ⟨Emission.beginClosure, Emission.endClosure⟩

end MarkupTemplate
