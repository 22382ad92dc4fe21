import MarkupTemplate.Template.Piece

/-!
# Segments of a template

The pieces of a template are gathered to segments: maximal runs of markup, comments in between left
out, and embedded code. A segment knows the stretch of the template that it comes from.

## Main definitions

* `Segment`: a run of markup, or embedded code
* `segments`: the segments of a template
* `unterminated?`: the construct of a template that has no end
-/

namespace MarkupTemplate

/-- What a segment says. -/
inductive SegmentContent where
  /-- Markup. -/
  | markup (text : Bytes)
  /-- Embedded code. -/
  | embedded (form : Form) (code : Bytes)
deriving DecidableEq, Repr, Inhabited

/-- A run of markup or embedded code, and where it comes from. -/
structure Segment where
  /-- The offset at which the segment starts. -/
  start : Nat
  /-- The offset just after the segment. -/
  stop : Nat
  /-- What the segment says. -/
  content : SegmentContent
deriving DecidableEq, Repr, Inhabited

/-- The segments with a text at an offset before them. The text joins a run of markup; before
embedded code, and at the end of a template of the given size, it starts one. -/
def prependText (size offset : Nat) (text : Bytes) : List Segment → List Segment
  | ⟨_, stop, .markup data⟩ :: segments => ⟨offset, stop, .markup (text ++ data)⟩ :: segments
  | segments => ⟨offset, (segments.head?.map Segment.start).getD size, .markup text⟩ :: segments

/-- The segments of the pieces from an offset on, in a template of the given size. -/
def segments (size offset : Nat) : List Piece → List Segment
  | [] => []
  | ⟨length, content⟩ :: pieces =>
    let after := segments size (offset + length) pieces
    match content with
    | .text data => prependText size offset data after
    | .comment => after
    | .embedded form code => ⟨offset, offset + length, .embedded form code⟩ :: after
    | .unterminated _ data => if data.isEmpty then after else prependText size offset data after

/-- The construct without its end among the pieces from an offset on, and where it starts. -/
def unterminated? (offset : Nat) : List Piece → Option (Construct × Nat)
  | [] => none
  | ⟨length, content⟩ :: pieces =>
    match content with
    | .unterminated construct _ => some (construct, offset)
    | _ => unterminated? (offset + length) pieces

end MarkupTemplate
