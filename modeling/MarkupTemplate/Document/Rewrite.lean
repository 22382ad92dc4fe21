import MarkupTemplate.Fault

/-!
# Rewriting documents

A rewrite works on a document in steps, and ends with the first step that meets a fault.

## Main definitions

* `Rewrite`: a document after a rewrite, with the faults met
* `Rewrite.andThen`, `Document.rewriteEach`: rewrites in a row
-/

namespace MarkupTemplate

/-- The outcome of rewriting a document. Without faults the rewrite is complete; otherwise the
document is as far as the rewrite came, and has to be given up. -/
structure Rewrite where
  /-- The rewritten document. -/
  document : Document
  /-- What went wrong, in order. -/
  faults : List Fault := []
deriving DecidableEq, Repr, Inhabited

/-- The rewrite is complete. -/
def Rewrite.ok (r : Rewrite) : Bool := r.faults.isEmpty

/-- One rewrite after another; the second is not begun if the first is not complete. -/
def Rewrite.andThen (r : Rewrite) (next : Document → Rewrite) : Rewrite :=
  if r.ok then next r.document else r

/-- A rewrite for each item in order, up to the first that is not complete. -/
def Document.rewriteEach {α : Type} (f : Document → α → Rewrite) (items : List α) (d : Document) :
    Rewrite :=
  items.foldl (fun r item => r.andThen fun d => f d item) ⟨d, []⟩

end MarkupTemplate
