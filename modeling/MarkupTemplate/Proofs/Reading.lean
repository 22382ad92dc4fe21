import MarkupTemplate.Proofs.Displacement
import MarkupTemplate.Proofs.Fragment

/-!
# Reading texts and holes

How a text is divided does not matter to an assembly: it may carry the pieces on and scan them when
a hole or the end comes. In this form each token of a text can be taken by itself, and a tag with
holes in its values as a whole.

## Main definitions

* `Assembly.read`: texts and holes, one after another
* `Assembly.Settled`: nothing of what is carried can be taken yet
* `leadingText`: the text before the first hole
* `placedFrom`: the holes in a text, with their places

## Main results

* `Assembly.foldl_take_gather`: taking the children of a container is reading their texts and holes
* `Assembly.read_of_token`: a token at the start of what is carried
* `Assembly.read_of_cut`: the holes in a tag wait for its end
-/

namespace MarkupTemplate

open Markup

/-! ## Scanning what is left over -/

namespace Cursor

variable {c c' : Cursor}

/-- Whether there is a token depends on what is left of the text, and not on its place. -/
theorem next?_start_eq_none_iff : (start c.rest).next? = none ↔ c.next? = none := by
  have hshift : c = (start c.rest).shift c.offset := by simp [shift, start]
  rw [hshift, next?_shift, Option.map_eq_none_iff]
  rfl

end Cursor

@[simp] theorem Structuring.rebase_zero (hole : Hole) : rebase 0 hole = hole := by
  simp [rebase]

/-- The text before the first hole. -/
def leadingText : List ValuePart → Bytes
  | .literal text :: parts => text ++ leadingText parts
  | _ => []

namespace Assembly

variable {a b : Assembly}

/-! ## What is carried has no effect on a token -/

theorem foldl_attach_carried (entries : List Attribute) (a : Assembly) (text : Bytes) :
    entries.foldl attach { a with carried := text } =
      { entries.foldl attach a with carried := text } := by
  induction entries generalizing a with
  | nil => rfl
  | cons entry entries ih => exact ih (a.attach entry)

theorem closeElement_carried (a : Assembly) (name text : Bytes) :
    closeElement name { a with carried := text } =
      { a.closeElement name with carried := text } := by
  obtain ⟨next, path, content, diagnostics, waiting, carried⟩ := a
  cases path <;> rfl

theorem addText_carried (a : Assembly) (data text : Bytes) :
    addText data { a with carried := text } = { a.addText data with carried := text } := by
  simp only [addText]
  split <;> rfl

theorem openElement_carried (a : Assembly) (name : Bytes) (attributes : List Attribute)
    (text : Bytes) :
    openElement name attributes { a with carried := text } =
      { a.openElement name attributes with carried := text } := by
  simp only [openElement]
  exact congrArg (release fun _ => true) (foldl_attach_carried attributes
    ((a.release fun hole => hole.isPositional && !attributes.any hole.isIn).enter name) text)

theorem apply_carried (a : Assembly) (t : Token) (text : Bytes) :
    apply { a with carried := text } t = { a.apply t with carried := text } := by
  obtain ⟨offset, length, content⟩ := t
  cases content with
  | startTag name attributes selfClosing =>
    simp only [apply, openElement_carried]
    split
    · exact closeElement_carried _ _ _
    · rfl
  | endTag name => exact closeElement_carried (a.release Hole.isPositional) name.text text
  | text data => exact addText_carried (a.release Hole.isPositional) data text
  | comment data => rfl

theorem foldl_apply_carried (ts : List Token) (a : Assembly) (text : Bytes) :
    ts.foldl apply { a with carried := text } = { ts.foldl apply a with carried := text } := by
  induction ts generalizing a with
  | nil => rfl
  | cons t ts ih => rw [List.foldl_cons, List.foldl_cons, apply_carried, ih]

/-! ## Flushing -/

/-- What is carried is scanned. -/
def flush (a : Assembly) : Assembly := a.takeMarkup []

/-- What is carried starts with no token that could be taken. -/
def Settled (a : Assembly) : Prop := (Cursor.start a.carried).next? = none

/-- Markup is carried first and scanned then. -/
theorem takeMarkup_eq_flush (text : Bytes) (a : Assembly) :
    a.takeMarkup text = flush { a with carried := a.carried ++ text } := by
  simp only [flush, takeMarkup, List.append_nil, foldl_apply_carried]

theorem flush_of_settled (h : a.Settled) : a.flush = a := by
  have hscan : scan (a.carried ++ []) = ⟨[], .start a.carried⟩ := by
    rw [List.append_nil, scan, Cursor.tokens_of_next?_eq_none h]
  -- Nothing was read, so the places of the holes stay.
  have hrebase : a.waiting.map (Structuring.rebase 0) = a.waiting := by
    simp [funext Structuring.rebase_zero]
  simp only [flush, takeMarkup, hscan, Scan.remainder, Cursor.rest_start, Cursor.offset_start,
    hrebase, List.foldl_nil]
  split
  · next hempty => rw [← List.isEmpty_iff.1 hempty]
  · rfl

theorem settled_flush (a : Assembly) : a.flush.Settled := by
  have hcarried : a.flush.carried = (Cursor.start a.carried).tokens.2.rest := by
    simp only [flush, takeMarkup, List.append_nil]
    split
    · next hempty => exact (List.isEmpty_iff.1 hempty).symm
    · rfl
  rw [Settled, hcarried]
  exact Cursor.next?_start_eq_none_iff.2 (Cursor.next?_tokens _)

/-- A hole changes nothing of what is carried. -/
theorem carried_take_hole (a : Assembly) (node : NodeId) :
    (a.take (.hole node)).carried = a.carried := by
  simp only [take]
  split <;> rfl

theorem settled_of_carried_eq_nil (h : a.carried = []) : a.Settled := by
  rw [Settled, h]
  exact Cursor.next?_of_rest_eq_nil rfl

/-! ## Reading -/

/-- Texts are carried, and scanned when a hole or the end comes. -/
def read (a : Assembly) : List ValuePart → Assembly
  | [] => a.flush
  | .literal text :: parts => read { a with carried := a.carried ++ text } parts
  | .hole node :: parts => read (a.flush.take (.hole node)) parts

theorem prependMarkup_prependMarkup (x y : Bytes) (items : List Item) :
    prependMarkup x (prependMarkup y items) = prependMarkup (x ++ y) items := by
  unfold prependMarkup
  cases x <;> cases y <;> rcases items with _ | ⟨_ | _ | _, items⟩ <;> simp

/-- Texts and holes that come after a text: the text is carried. -/
theorem foldl_take_prependMarkup (h : a.Settled) (text : Bytes) (parts : List ValuePart) :
    (prependMarkup text (gather parts)).foldl take a =
      read { a with carried := a.carried ++ text } parts := by
  induction parts generalizing a text with
  | nil =>
    rw [read, ← takeMarkup_eq_flush]
    cases text with
    | nil => exact (flush_of_settled h).symm
    | cons => rfl
  | cons part parts ih =>
    cases part with
    | literal more =>
      rw [gather, prependMarkup_prependMarkup, ih h, read, List.append_assoc]
    | hole node =>
      -- The hole comes after the text, whether there is any or not.
      have hflush : (prependMarkup text [.hole node]).foldl take a =
          (a.takeMarkup text).take (.hole node) := by
        cases text with
        | nil => rw [show a.takeMarkup [] = a from flush_of_settled h]; rfl
        | cons => rfl
      have hsettled : ((a.takeMarkup text).take (.hole node)).Settled := by
        rw [Settled, carried_take_hole, takeMarkup_eq_flush]
        exact settled_flush _
      have hgather : prependMarkup text (gather (.hole node :: parts)) =
          prependMarkup text [.hole node] ++ prependMarkup [] (gather parts) := by
        cases text <;> rfl
      rw [hgather, List.foldl_append, hflush, ih hsettled, List.append_nil, read,
        ← takeMarkup_eq_flush]

/-- Taking the children of a container is reading their texts and holes. -/
theorem foldl_take_gather (h : a.Settled) (parts : List ValuePart) :
    (gather parts).foldl take a = a.read parts := by
  have htext := foldl_take_prependMarkup h [] parts
  rwa [List.append_nil] at htext

/-! ## A token at the start of what is carried -/

/-- Where no hole waits, the place of a token has no meaning. -/
theorem foldl_attach_shift (n : Nat) {entries : List Attribute} (h : a.waiting = []) :
    (entries.map (Attribute.shift n)).foldl attach a = entries.foldl attach a := by
  induction entries generalizing a with
  | nil => rfl
  | cons entry entries ih =>
    have hattach : a.attach (entry.shift n) = a.attach entry := by
      obtain ⟨name, value⟩ := entry
      cases value <;> simp [attach, parts, h, Attribute.shift, Slice.shift, Attribute.parts, splice]
    have hwaiting : (a.attach entry).waiting = [] := by simp [attach, h]
    rw [List.map_cons, List.foldl_cons, List.foldl_cons, hattach, ih hwaiting]

theorem release_of_waiting_eq_nil (h : a.waiting = []) (p : Hole → Bool) : a.release p = a := by
  obtain ⟨next, path, content, diagnostics, waiting, carried⟩ := a
  subst h
  simp [release, Forest.leaves]

theorem apply_shift (n : Nat) (t : Token) (h : a.waiting = []) :
    a.apply (t.shift n) = a.apply t := by
  obtain ⟨offset, length, content⟩ := t
  cases content with
  | startTag name attributes selfClosing =>
    have hrelease := release_of_waiting_eq_nil h
    simp only [apply, Token.shift, Content.shift, Slice.shift, openElement, hrelease]
    rw [foldl_attach_shift n (a := a.enter name.text) h]
  | _ => rfl

theorem foldl_apply_shift (n : Nat) (ts : List Token) (h : a.waiting = []) :
    (ts.map (Token.shift n)).foldl apply a = ts.foldl apply a := by
  induction ts generalizing a with
  | nil => rfl
  | cons t ts ih =>
    have hwaiting : (a.apply t).waiting = [] :=
      List.sublist_nil.1 (h ▸ waiting_apply t)
    rw [List.map_cons, List.foldl_cons, List.foldl_cons, apply_shift n t h, ih hwaiting]

/-- A token that is taken is no longer carried. -/
theorem flush_of_token {text more : Bytes} {t : Token}
    (ht : (Cursor.start (text ++ more)).next? = some (t, ⟨text.length, more⟩))
    (hwaiting : (a.apply t).waiting = []) :
    flush { a with carried := text ++ more } = flush { a.apply t with carried := more } := by
  -- After the token the scan goes on as that of the rest, only further on.
  have hshift : (⟨text.length, more⟩ : Cursor) = (Cursor.start more).shift text.length := by
    simp [Cursor.shift, Cursor.start]
  have hscan : scan (text ++ more) =
      ⟨t :: (scan more).tokens.map (Token.shift text.length),
        (scan more).stop.shift text.length⟩ := by
    rw [scan, Cursor.tokens_of_next?_eq_some ht, hshift, Cursor.tokens_shift]
    rfl
  have hwaiting' : ((scan more).tokens.foldl apply (a.apply t)).waiting = [] :=
    List.sublist_nil.1 (hwaiting ▸ waiting_foldl_apply _)
  simp only [flush, takeMarkup, List.append_nil, hscan, List.foldl_cons, apply_carried,
    foldl_apply_carried, foldl_apply_shift _ _ hwaiting, hwaiting', List.map_nil]
  rfl

/-- What is read depends on what the first scan makes of the text before the first hole. -/
theorem read_congr {parts : List ValuePart}
    (h : flush { a with carried := a.carried ++ leadingText parts } =
      flush { b with carried := b.carried ++ leadingText parts }) :
    a.read parts = b.read parts := by
  -- Up to the first hole the texts are only carried, so both sides come to the same scan.
  induction parts generalizing a b with
  | nil => simpa [leadingText, read] using h
  | cons part parts ih =>
    cases part with
    | literal text => exact ih (by simpa [leadingText] using h)
    | hole node =>
      have hflush : a.flush = b.flush := by simpa [leadingText] using h
      rw [read, read, hflush]

/-- A token is read as soon as all of it is carried. -/
theorem read_of_token {parts : List ValuePart} {t : Token}
    (ht : (Cursor.start (a.carried ++ leadingText parts)).next? =
      some (t, ⟨a.carried.length, leadingText parts⟩))
    (hwaiting : (a.apply t).waiting = []) :
    a.read parts = read { a.apply t with carried := [] } parts :=
  read_congr (flush_of_token ht hwaiting)

/-- A token that is written in one piece. -/
theorem read_literal_of_token {text : Bytes} {parts : List ValuePart} {t : Token}
    (hcarried : a.carried = [])
    (ht : (Cursor.start (text ++ leadingText parts)).next? =
      some (t, ⟨text.length, leadingText parts⟩))
    (hwaiting : (a.apply t).waiting = []) :
    a.read (.literal text :: parts) = (a.apply t).read parts := by
  have hkept : { a.apply t with carried := [] } = a.apply t := by
    rw [← apply_carried, ← hcarried]
  have htaken := read_of_token (a := { a with carried := text }) ht
    (by rw [apply_carried]; exact hwaiting)
  rw [read, hcarried, List.nil_append, htaken, apply_carried, hkept]

/-- A hole after markup that is complete goes where it stands. -/
theorem read_hole (h : a.carried = []) (node : NodeId) (parts : List ValuePart) :
    a.read (.hole node :: parts) =
      read { a with content := a.content ++ Forest.leaves [node] } parts := by
  rw [read, flush_of_settled (settled_of_carried_eq_nil h), take, if_pos (by simp [h])]

end Assembly

/-! ## A tag that is cut off -/

/-- The holes in a text with the places where they stand, if the text starts at an offset. -/
def placedFrom (offset : Nat) : List ValuePart → List Hole
  | [] => []
  | .literal text :: parts => placedFrom (offset + text.length) parts
  | .hole node :: parts => ⟨node, some offset⟩ :: placedFrom offset parts

theorem placedFrom_append (offset : Nat) (ps qs : List ValuePart) :
    placedFrom offset (ps ++ qs) =
      placedFrom offset ps ++ placedFrom (offset + (literalText ps).length) qs := by
  induction ps generalizing offset with
  | nil => rfl
  | cons part ps ih =>
    cases part with
    | literal text => simp [placedFrom, literalText, ih, Nat.add_assoc]
    | hole node => simp [placedFrom, literalText, ih]

/-- A hole stands in the text, or at one of its two ends. -/
theorem exists_offset_of_mem_placedFrom {offset : Nat} {parts : List ValuePart} {hole : Hole}
    (h : hole ∈ placedFrom offset parts) :
    ∃ i, hole.offset = some i ∧ offset ≤ i ∧ i ≤ offset + (literalText parts).length := by
  induction parts generalizing offset with
  | nil => cases h
  | cons part parts ih =>
    cases part with
    | literal text =>
      obtain ⟨i, hi, hle, hle'⟩ := ih h
      refine ⟨i, hi, by omega, ?_⟩
      rw [literalText, List.length_append]
      omega
    | hole node =>
      rcases List.mem_cons.1 h with rfl | h
      · exact ⟨offset, rfl, Nat.le_refl _, Nat.le_add_right _ _⟩
      · exact ih h

namespace Assembly

variable {a : Assembly}

/-- A tag is not complete before its end, so its holes wait for it. -/
theorem read_of_cut {parts rest : List ValuePart} {tail : Bytes} {content : Content} {stop : Nat}
    (hstarts : startsMarkup a.carried = true) (htail : tail ≠ [])
    (hmarkup : (Cursor.start (a.carried ++ literalText parts ++ tail)).markup? =
      some (content, ⟨stop, []⟩)) :
    a.read (parts ++ .literal tail :: rest) =
      read { a with
        carried := a.carried ++ literalText parts ++ tail
        waiting := a.waiting ++ placedFrom a.carried.length parts } rest := by
  induction parts generalizing a with
  | nil => simp [read, literalText, placedFrom]
  | cons part parts ih =>
    cases part with
    | literal text =>
      have hrest := ih (a := { a with carried := a.carried ++ text })
        (startsMarkup_append_of_startsMarkup hstarts text)
        (by simpa [literalText] using hmarkup)
      simpa [read, literalText, placedFrom] using hrest
    | hole node =>
      have hsettled : a.Settled := by
        rw [Settled, Cursor.next?_of_startsMarkup hstarts, Option.map_eq_none_iff,
          Option.eq_none_iff_forall_not_mem]
        rintro ⟨content', c'⟩ hc'
        -- Markup that ends here would end here as well with the rest of the tag after it.
        have hextend := Cursor.markup?_extend (literalText parts ++ tail) hc'
        rw [literalText] at hmarkup
        rw [Cursor.extend, Cursor.rest_start, ← List.append_assoc] at hextend
        have hstop := congrArg (fun r => r.2.rest) (Option.some.inj (hextend.symm.trans hmarkup))
        simp [htail] at hstop
      have hcarried : ¬ a.carried.isEmpty := by simpa using ne_nil_of_startsMarkup hstarts
      have hrest := ih (a := { a with waiting := a.waiting ++ [⟨node, some a.carried.length⟩] })
        hstarts hmarkup
      rw [List.cons_append, read, flush_of_settled hsettled, take, if_neg hcarried, hrest]
      simp [literalText, placedFrom]

end Assembly

end MarkupTemplate
