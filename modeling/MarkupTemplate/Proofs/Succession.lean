import MarkupTemplate.Proofs.Coverage

/-!
# What follows embedded code

Directly after embedded code a template may go on with `@` and an identifier. Whether this is the
next expression is decided by the byte before the `@`, whatever that byte belongs to: behind a
bracket, the expression begins; behind an identifier it does not, and the `@` is markup, just as it
would be in running text. So of several identifiers in a row, each with its `@`, only the first is an
expression.

## Main definitions

* `Succeeds`: what comes next after a segment, where it is embedded code before `@`
* `IsIdentifier`: an identifier

## Main results

* `succeeds_of_suffix`: what comes next after any segment of a template
* `segments_identifiers`: the segments of identifiers in a row, each with its sign
* `readTemplate_succession`: both, for what is read from a template
-/

namespace MarkupTemplate

variable {source : Bytes} {offset : Nat}

/-! ## Reading on from an offset -/

/-- After a stretch of the template come the segments from its end on. -/
theorem segments_after {s after : Bytes} (hs : s ≠ []) (h : source.drop offset = s ++ after) :
    segments source.length (offset + s.length) (pieces s.getLast? after) =
      segmentsFrom source (offset + s.length) := by
  obtain ⟨-, hdrop, -⟩ := stretch_of_drop h hs
  have htake : source.take (offset + s.length) = source.take offset ++ s := by
    rw [List.take_add, h, List.take_left]
  rw [segmentsFrom, hdrop, htake, List.getLast?_append_of_ne_nil _ hs]

/-- The segments from an offset on begin with what the first piece means. -/
theorem exists_segmentsFrom {b : UInt8} {rest : Bytes} (h : source.drop offset = b :: rest) :
    ∃ s after content, source.drop offset = s ++ after ∧ s ≠ [] ∧ Means s after content ∧
      segmentsFrom source offset =
        segments source.length offset (⟨s.length, content⟩ :: pieces s.getLast? after) := by
  obtain ⟨s, after, content, heq, hmeans, hpieces⟩ :=
    exists_means_getLast? (source.take offset).getLast? b rest
  exact ⟨s, after, content, h.trans heq, hmeans.ne_nil, hmeans, by rw [segmentsFrom, h, hpieces]⟩

/-! ## A sign before an identifier -/

/-- What `@` stands for before an identifier. -/
theorem transition_identifier {b : UInt8} (hb : Byte.isIdentifierStart b) (previous : Option UInt8)
    (rest : Bytes) : transition previous (b :: rest) =
      if previous.any Byte.isIdentifierPart then ⟨1, .text [Byte.atSign]⟩
      else ⟨implicitLength (b :: rest) + 1,
        .embedded .expression ((b :: rest).take (implicitLength (b :: rest)))⟩ := by
  -- No identifier starts with one of the bytes that mean something else after the sign.
  have hne : ∀ other : UInt8, Byte.isIdentifierStart other = false → b ≠ other := by
    rintro other hother rfl
    rw [hb] at hother
    exact absurd hother (by decide)
  rw [transition, if_neg (hne _ (by decide)), if_neg (hne _ (by decide)),
    if_neg (hne _ (by decide)), if_neg (hne _ (by decide)), hb, Bool.true_and]
  cases previous.any Byte.isIdentifierPart <;> rfl

/-- Text at the head of a template is the head of a run of markup, and the other segments stay. -/
theorem exists_prependText (size offset : Nat) (text : Bytes) (parts : List Segment) :
    ∃ stop more tail, prependText size offset text parts =
      ⟨offset, stop, .markup (text ++ more)⟩ :: tail ∧ tail <:+ parts := by
  match parts with
  | [] | ⟨_, _, .embedded _ _⟩ :: _ =>
    exact ⟨_, [], _, by rw [List.append_nil]; rfl, List.suffix_refl _⟩
  | ⟨_, stop, .markup data⟩ :: tail => exact ⟨stop, data, tail, rfl, List.suffix_cons _ _⟩

/-- The segments from an offset on, where `@` stands before the identifier at the head of a text. The
byte before the sign decides what is first: markup behind a part of an identifier, and else the
expression, which goes on as far as it can. -/
def BeginsWith (source : Bytes) (offset : Nat) (s : Bytes) (parts : List Segment) : Prop :=
  ∃ next more, parts = next :: more ∧ next.start = offset ∧
    if (source.take offset).getLast?.any Byte.isIdentifierPart then
      ∃ text, next.content = .markup (Byte.atSign :: text)
    else
      next.stop = offset + (implicitLength s + 1) ∧
        next.content = .embedded .expression (s.take (implicitLength s))

theorem beginsWith_segmentsFrom {b : UInt8} {rest : Bytes}
    (h : source.drop offset = Byte.atSign :: b :: rest) (hb : Byte.isIdentifierStart b) :
    BeginsWith source offset (b :: rest) (segmentsFrom source offset) := by
  have hfirst := transition_identifier hb (source.take offset).getLast? rest
  rw [BeginsWith, segmentsFrom, h, pieces]
  simp only [firstPiece, if_true, hfirst]
  split
  · obtain ⟨stop, more, tail, hhead, -⟩ := exists_prependText source.length offset [Byte.atSign]
      (segments source.length (offset + 1) (pieces (some Byte.atSign) (b :: rest)))
    exact ⟨_, tail, hhead, rfl, more, rfl⟩
  · exact ⟨_, _, rfl, rfl, rfl, rfl⟩

/-! ## What comes next -/

/-- What comes next after a segment of a template, if this is embedded code and `@` follows before an
identifier. -/
def Succeeds (source : Bytes) (part : Segment) (after : List Segment) : Prop :=
  ∀ form code b rest, part.content = .embedded form code →
    source.drop part.stop = Byte.atSign :: b :: rest → Byte.isIdentifierStart b →
      BeginsWith source part.stop (b :: rest) after

/-- Only markup changes when text comes before the segments. -/
theorem succeeds_of_suffix_prependText {size : Nat} {text : Bytes} {part : Segment}
    {parts after : List Segment} (h : part :: after <:+ prependText size offset text parts)
    (hparts : part :: after <:+ parts → Succeeds source part after) :
    Succeeds source part after := by
  obtain ⟨stop, more, tail, hprepend, htail⟩ := exists_prependText size offset text parts
  rw [hprepend, List.suffix_cons_iff] at h
  rcases h with h | h
  · obtain ⟨rfl, rfl⟩ := List.cons.inj h
    rintro form code b rest ⟨⟩
  · exact hparts (h.trans htail)

/-- What comes next after any segment from an offset on. -/
theorem succeeds_of_suffix (offset : Nat) {part : Segment} {after : List Segment}
    (h : part :: after <:+ segmentsFrom source offset) : Succeeds source part after := by
  match hdrop : source.drop offset with
  | [] =>
    rw [segmentsFrom, hdrop, pieces] at h
    exact absurd h (by simp [segments])
  | b :: rest =>
    obtain ⟨s, rest', content, heq, hne, hmeans, hsegments⟩ := exists_segmentsFrom hdrop
    have hafter := segments_after hne heq
    -- Every piece takes a byte, and there is less text for the segments after it.
    have hshorter : (source.drop (offset + s.length)).length < (source.drop offset).length := by
      have hpos := List.length_pos_iff.2 hne
      rw [← List.drop_drop, heq, List.drop_left, List.length_append]
      omega
    have hrest : part :: after <:+ segmentsFrom source (offset + s.length) →
        Succeeds source part after := succeeds_of_suffix (offset + s.length)
    rw [hsegments] at h
    cases content with
    | text data =>
      rw [segments, hafter] at h
      exact succeeds_of_suffix_prependText h hrest
    | comment =>
      rw [segments, hafter] at h
      exact hrest h
    | embedded form code =>
      rw [segments, hafter, List.suffix_cons_iff] at h
      rcases h with h | h
      · obtain ⟨rfl, rfl⟩ := List.cons.inj h
        exact fun _ _ _ _ _ hsign hb => beginsWith_segmentsFrom hsign hb
      · exact hrest h
    | unterminated construct data =>
      rw [segments, hafter] at h
      split at h
      · exact hrest h
      · exact succeeds_of_suffix_prependText h hrest
termination_by (source.drop offset).length
decreasing_by exact hshorter

/-! ## Identifiers in a row -/

/-- An identifier. -/
def IsIdentifier (s : Bytes) : Prop :=
  s.head?.any Byte.isIdentifierStart ∧ ∀ b ∈ s, Byte.isIdentifierPart b

instance (s : Bytes) : Decidable (IsIdentifier s) :=
  decidable_of_iff (s.head?.any Byte.isIdentifierStart ∧ s.all Byte.isIdentifierPart)
    (and_congr_right fun _ => List.all_eq_true)

/-- Identifiers in a row, each with its sign. -/
def signed (ids : List Bytes) : Bytes := ids.flatMap (Byte.atSign :: ·)

/-- Bytes that stand for themselves. -/
def bytePieces (s : Bytes) : List Piece := s.map fun b => ⟨1, .text [b]⟩

/-- After a piece of one byte come the pieces of the rest of the text. -/
theorem pieces_cons {previous : Option UInt8} {b : UInt8} {rest : Bytes} {content : PieceContent}
    (h : firstPiece previous b rest = ⟨1, content⟩) :
    pieces previous (b :: rest) = ⟨1, content⟩ :: pieces (some b) rest :=
  pieces_cons_append (s := []) h

/-- Without a sign the bytes stand for themselves. -/
theorem pieces_of_notMem {s : Bytes} (hs : Byte.atSign ∉ s) (previous : Option UInt8)
    (after : Bytes) :
    pieces previous (s ++ after) = bytePieces s ++ pieces (s.getLast?.or previous) after := by
  induction s generalizing previous with
  | nil => rfl
  | cons b s ih =>
    obtain ⟨hb, hs⟩ := not_or.1 (mt List.mem_cons.2 hs)
    have hfirst : firstPiece previous b (s ++ after) = ⟨1, .text [b]⟩ := if_neg (Ne.symm hb)
    rw [List.cons_append, pieces_cons hfirst, ih hs, List.getLast?_cons, Option.or_some,
      Option.some_or]
    rfl

/-- Bytes that stand for themselves are one run of markup. -/
theorem segments_bytePieces {s : Bytes} (hs : s ≠ []) (offset : Nat) :
    segments (offset + s.length) offset (bytePieces s) =
      [⟨offset, offset + s.length, .markup s⟩] := by
  induction s generalizing offset with
  | nil => exact absurd rfl hs
  | cons b s ih =>
    have hlength : offset + (b :: s).length = offset + 1 + s.length := by
      rw [List.length_cons]
      omega
    show prependText _ offset [b] (segments _ (offset + 1) (bytePieces s)) = _
    rw [hlength]
    by_cases hnil : s = []
    · subst hnil
      rfl
    · rw [ih hnil]
      rfl

namespace IsIdentifier

variable {s : Bytes}

theorem exists_cons (h : IsIdentifier s) : ∃ b rest, s = b :: rest ∧ Byte.isIdentifierStart b := by
  cases s with
  | nil => exact absurd h.1 Bool.false_ne_true
  | cons b rest => exact ⟨b, rest, rfl, h.1⟩

theorem atSign_notMem (h : IsIdentifier s) : Byte.atSign ∉ s :=
  fun hmem => absurd (h.2 _ hmem) (by decide)

/-- The last byte of a text that ends with an identifier is a part of the identifier. -/
theorem exists_getLast? (h : IsIdentifier s) (before : Bytes) :
    ∃ q, (before ++ s).getLast? = some q ∧ Byte.isIdentifierPart q := by
  obtain ⟨b, rest, rfl, -⟩ := h.exists_cons
  have hlast : (b :: rest).getLast? = some (rest.getLast?.getD b) := List.getLast?_cons
  refine ⟨_, ?_, h.2 _ (List.mem_of_getLast? hlast)⟩
  rw [List.getLast?_append_of_ne_nil _ (List.cons_ne_nil b rest), hlast]

end IsIdentifier

theorem signed_cons (i : Bytes) (ids : List Bytes) :
    signed (i :: ids) = (Byte.atSign :: i) ++ signed ids := List.flatMap_cons

/-- Behind an identifier, signs and identifiers stand for themselves. -/
theorem pieces_signed {ids : List Bytes} (hids : ∀ i ∈ ids, IsIdentifier i) {p : UInt8}
    (hp : Byte.isIdentifierPart p) : pieces (some p) (signed ids) = bytePieces (signed ids) := by
  induction ids generalizing p with
  | nil => rw [signed, List.flatMap_nil, pieces, bytePieces, List.map_nil]
  | cons i ids ih =>
    obtain ⟨hi, hrest⟩ := List.forall_mem_cons.1 hids
    have hsign : firstPiece (some p) Byte.atSign (i ++ signed ids) = ⟨1, .text [Byte.atSign]⟩ := by
      obtain ⟨b, more, rfl, hstart⟩ := hi.exists_cons
      exact (transition_identifier hstart (some p) _).trans (if_pos hp)
    -- The last byte of this identifier is before the next sign.
    obtain ⟨q, hlast, hq⟩ := hi.exists_getLast? []
    rw [List.nil_append] at hlast
    rw [signed_cons, List.cons_append, pieces_cons hsign, pieces_of_notMem hi.atSign_notMem, hlast,
      Option.some_or, ih hrest hq]
    simp [bytePieces]

/-- An implicit expression ends where no selector follows the identifier. -/
theorem implicitLength_signed {i : Bytes} (hi : IsIdentifier i) (ids : List Bytes) :
    implicitLength (i ++ signed ids) = i.length := by
  have htake : (i ++ signed ids).takeWhile Byte.isIdentifierPart = i := by
    rw [List.takeWhile_append_of_pos hi.2]
    cases ids with
    | nil => simp [signed]
    | cons j ids =>
      rw [signed_cons, List.cons_append, List.takeWhile_cons_of_neg (by decide), List.append_nil]
  have hselectors : selectorsLength (signed ids) = 0 := by
    cases ids with
    | nil => rw [signed, List.flatMap_nil, selectorsLength]
    | cons j ids =>
      rw [signed_cons, List.cons_append, selectorsLength]
      rfl
  rw [implicitLength, htake, List.drop_left, hselectors]
  rfl

/-- Of identifiers in a row, the first is an expression and the others are markup. -/
theorem segments_identifiers {i : Bytes} {ids : List Bytes} (hi : IsIdentifier i)
    (hids : ∀ j ∈ ids, IsIdentifier j) : segmentsFrom (signed (i :: ids)) 0 =
      ⟨0, i.length + 1, .embedded .expression i⟩ ::
        if ids = [] then []
        else [⟨i.length + 1, (signed (i :: ids)).length, .markup (signed ids)⟩] := by
  have hlength : (signed (i :: ids)).length = i.length + 1 + (signed ids).length := by
    rw [signed_cons, List.length_append, List.length_cons]
  have hfirst : firstPiece none Byte.atSign (i ++ signed ids) =
      ⟨(Byte.atSign :: i).length, .embedded .expression i⟩ := by
    have himplicit := implicitLength_signed hi ids
    obtain ⟨b, more, rfl, hstart⟩ := hi.exists_cons
    rw [List.cons_append] at himplicit ⊢
    rw [firstPiece, if_pos rfl, transition_identifier hstart, himplicit, ← List.cons_append,
      List.take_left]
    rfl
  obtain ⟨q, hlast, hq⟩ := hi.exists_getLast? [Byte.atSign]
  rw [List.singleton_append] at hlast
  rw [segmentsFrom_zero, hlength, signed_cons, pieces_cons_append hfirst, hlast,
    pieces_signed hids hq, List.length_cons, segments, Nat.zero_add]
  congr 1
  cases ids with
  | nil => rfl
  | cons j ids =>
    rw [if_neg (List.cons_ne_nil j ids)]
    exact segments_bytePieces (by simp [signed_cons]) _

/-! ## Reading -/

/-- The leaves of what is read are the segments from the start of the template on. Embedded code is
followed by an implicit expression where `@` and an identifier come next, except that behind an
identifier the `@` is markup. So of identifiers in a row, each with its `@`, the first is an
expression and all others are markup. -/
theorem readTemplate_succession (name : Bytes) :
    (∀ source, (readTemplate source name).document.leaves =
        (segmentsFrom source 0).map (Segment.node source) ∧
      ∀ part after, part :: after <:+ segmentsFrom source 0 → Succeeds source part after) ∧
    ∀ i ids, IsIdentifier i → (∀ j ∈ ids, IsIdentifier j) →
      segmentsFrom (signed (i :: ids)) 0 = ⟨0, i.length + 1, .embedded .expression i⟩ ::
        if ids = [] then []
        else [⟨i.length + 1, (signed (i :: ids)).length, .markup (signed ids)⟩] := by
  constructor
  · intro source
    rw [leaves_readTemplate]
    exact ⟨rfl, fun part after h => succeeds_of_suffix 0 h⟩
  · intro i ids hi hids
    exact segments_identifiers hi hids

/-- Behind the brackets of a call the next expression begins. -/
theorem call_succeeded :
    segmentsFrom (utf8 "@f()@b") 0 = [⟨0, 4, .embedded .expression (utf8 "f()")⟩,
      ⟨4, 6, .embedded .expression (utf8 "b")⟩] ∧
    BeginsWith (utf8 "@f()@b") 4 (utf8 "b") [⟨4, 6, .embedded .expression (utf8 "b")⟩] ∧
    IsIdentifier (utf8 "a") ∧ IsIdentifier (utf8 "b") ∧
    segmentsFrom (signed [utf8 "a", utf8 "b", utf8 "a"]) 0 =
      [⟨0, 2, .embedded .expression (utf8 "a")⟩, ⟨2, 6, .markup (utf8 "@b@a")⟩] := by
  have hsegments : segmentsFrom (utf8 "@f()@b") 0 = [⟨0, 4, .embedded .expression (utf8 "f()")⟩,
      ⟨4, 6, .embedded .expression (utf8 "b")⟩] := by decide +kernel
  have ha : IsIdentifier (utf8 "a") := by decide
  have hb : IsIdentifier (utf8 "b") := by decide
  refine ⟨hsegments, ?_, ha, hb, ?_⟩
  · have hsucceeds := ((readTemplate_succession []).1 (utf8 "@f()@b")).2
      ⟨0, 4, .embedded .expression (utf8 "f()")⟩ [⟨4, 6, .embedded .expression (utf8 "b")⟩]
      (by simpa only [hsegments] using List.suffix_refl _)
    exact hsucceeds .expression (utf8 "f()") _ [] rfl (by decide) (by decide)
  · rw [(readTemplate_succession []).2 (utf8 "a") [utf8 "b", utf8 "a"] ha
      (List.forall_mem_cons.2 ⟨hb, List.forall_mem_singleton.2 ha⟩)]
    decide

/-- Directly after an expression, `@` and an identifier are not always an expression. -/
theorem adjacentIdentifiers_read :
    (readTemplate (utf8 "@a@b") (utf8 "t")).document.leaves =
      [Segment.node (utf8 "@a@b") ⟨0, 2, .embedded .expression (utf8 "a")⟩,
        Segment.node (utf8 "@a@b") ⟨2, 4, .markup (utf8 "@b")⟩] := by
  decide +kernel

end MarkupTemplate
