import MarkupTemplate.Proofs.Coverage

/-!
# Reading undoes writing

A list of segments is written as a template: markup with every `@` doubled, and code in the brackets
of its form. Read again, the template has these segments, each at the place where it was written.
Nothing at the border of two segments is misread, since every segment of code starts with an `@` of
its own and ends with its bracket, and no two runs of markup meet.

## Main definitions

* `SegmentContent.Writable`: what can be written
* `SegmentContent.written`: a segment as it stands in a template
* `placed`: the segments where they are written

## Main results

* `pieces_flatMap_written`: the pieces of what is written are those of its segments
* `prependText_prependText`: two texts join a run of markup as one does
* `segments_flatMap_pieces`: the pieces gather to the segments that were written
* `readTemplate_written`: reading undoes writing
-/

namespace MarkupTemplate

/-! ## Writing -/

/-- Markup is written if there is some; code is written if its form has brackets that enclose it. -/
def SegmentContent.Writable : SegmentContent → Prop
  | .markup text => text ≠ []
  | .embedded form code => ∃ bracket ∈ form.bracket?, bracket.Encloses code

instance : DecidablePred SegmentContent.Writable
  | .markup text => inferInstanceAs (Decidable (text ≠ []))
  | .embedded form code =>
    inferInstanceAs (Decidable (∃ bracket ∈ form.bracket?, bracket.Encloses code))

/-- The text with every `@` doubled. -/
def doubled (text : Bytes) : Bytes :=
  text.flatMap fun b => if b = Byte.atSign then [b, b] else [b]

/-- A segment as it stands in a template. -/
def SegmentContent.written : SegmentContent → Bytes
  | .markup text => doubled text
  | .embedded form code =>
    Byte.atSign :: (form.bracket?.map fun bracket => bracket.around code).getD code

/-- Segments that are written one after another from an offset on. -/
def placed (offset : Nat) : List SegmentContent → List Segment
  | [] => []
  | item :: items =>
    ⟨offset, offset + item.written.length, item⟩ :: placed (offset + item.written.length) items

/-! ## The pieces of what is written -/

/-- The piece for a byte of markup. -/
def bytePiece (b : UInt8) : Piece := ⟨if b = Byte.atSign then 2 else 1, .text [b]⟩

/-- The pieces of a segment that is written. -/
def SegmentContent.pieces : SegmentContent → List Piece
  | .markup text => text.map bytePiece
  | .embedded form code => [⟨(embedded form code).written.length, .embedded form code⟩]

/-- A doubled sign is read as one, and the other bytes as they are. -/
theorem pieces_doubled (text more : Bytes) (previous : Option UInt8) :
    ∃ previous', pieces previous (doubled text ++ more) =
      text.map bytePiece ++ pieces previous' more := by
  induction text generalizing previous with
  | nil => exact ⟨previous, rfl⟩
  | cons b text ih =>
    rw [doubled, List.flatMap_cons, ← doubled, List.append_assoc]
    by_cases hb : b = Byte.atSign
    · subst hb
      have hfirst : firstPiece previous Byte.atSign ([Byte.atSign] ++ (doubled text ++ more)) =
          ⟨2, .text [Byte.atSign]⟩ := by simp [firstPiece, transition]
      obtain ⟨middle, hpieces⟩ := pieces_append hfirst
      obtain ⟨previous', htext⟩ := ih middle
      exact ⟨previous', by rw [if_pos rfl, hpieces, htext]; rfl⟩
    · have hfirst : firstPiece previous b ([] ++ (doubled text ++ more)) = ⟨1, .text [b]⟩ := by
        simp [firstPiece, hb]
      obtain ⟨middle, hpieces⟩ := pieces_append hfirst
      obtain ⟨previous', htext⟩ := ih middle
      exact ⟨previous', by rw [if_neg hb, hpieces, htext]; simp [bytePiece, hb]⟩

/-- Neither what is before a segment nor what follows it changes its pieces. -/
theorem pieces_written {item : SegmentContent} (h : item.Writable) (more : Bytes)
    (previous : Option UInt8) :
    ∃ previous', pieces previous (item.written ++ more) = item.pieces ++ pieces previous' more := by
  cases item with
  | markup text => exact pieces_doubled text more previous
  | embedded form code =>
    obtain ⟨bracket, hform, hcode⟩ := h
    have hform : form.bracket? = some bracket := hform
    have hwritten : (SegmentContent.embedded form code).written =
        Byte.atSign :: bracket.around code := by simp [SegmentContent.written, hform]
    have hfirst : firstPiece previous Byte.atSign (bracket.around code ++ more) =
        ⟨(Byte.atSign :: bracket.around code).length, .embedded form code⟩ := by
      rw [← bracketed_around hcode form more]
      exact firstPiece_opening hform previous _
    obtain ⟨previous', hpieces⟩ := pieces_append hfirst
    exact ⟨previous', by rw [SegmentContent.pieces, hwritten, hpieces]; rfl⟩

/-- The pieces of what is written are those of its segments. -/
theorem pieces_flatMap_written {items : List SegmentContent} (h : ∀ item ∈ items, item.Writable)
    (previous : Option UInt8) : pieces previous (items.flatMap SegmentContent.written) =
      items.flatMap SegmentContent.pieces := by
  induction items generalizing previous with
  | nil => rw [List.flatMap_nil, List.flatMap_nil, pieces]
  | cons item items ih =>
    obtain ⟨hitem, hitems⟩ := List.forall_mem_cons.1 h
    obtain ⟨previous', hpieces⟩ :=
      pieces_written hitem (items.flatMap SegmentContent.written) previous
    rw [List.flatMap_cons, List.flatMap_cons, hpieces, ih hitems]

/-! ## The segments of what is written -/

/-- Two texts join the run of markup after them as one text does. -/
theorem prependText_prependText (size offset middle : Nat) (s t : Bytes) (parts : List Segment) :
    prependText size offset s (prependText size middle t parts) =
      prependText size offset (s ++ t) parts := by
  match parts with
  | [] | ⟨_, _, .embedded _ _⟩ :: _ => rfl
  | ⟨_, _, .markup data⟩ :: _ => simp only [prependText, List.append_assoc]

/-- The pieces of markup join to one text. -/
theorem segments_doubled {text : Bytes} (h : text ≠ []) (size offset : Nat) (more : List Piece) :
    segments size offset (text.map bytePiece ++ more) =
      prependText size offset text (segments size (offset + (doubled text).length) more) := by
  induction text generalizing offset with
  | nil => exact absurd rfl h
  | cons b text ih =>
    have hlength : (doubled (b :: text)).length = (bytePiece b).length + (doubled text).length := by
      simp only [doubled, bytePiece, List.flatMap_cons, List.length_append]
      split <;> rfl
    rw [hlength, ← Nat.add_assoc]
    have hstep : segments size offset ((b :: text).map bytePiece ++ more) =
        prependText size offset [b]
          (segments size (offset + (bytePiece b).length) (text.map bytePiece ++ more)) := rfl
    rw [hstep]
    -- The last byte joins what follows the text, the others join the rest of the text.
    cases text with
    | nil => rfl
    | cons b' text => rw [ih (by simp), prependText_prependText]; rfl

/-- The pieces gather to the segments that were written. -/
theorem segments_flatMap_pieces {items : List SegmentContent}
    (h : ∀ item ∈ items, item.Writable)
    (hruns : items.IsChain fun item next => ¬ (item.IsMarkup ∧ next.IsMarkup))
    {size offset : Nat} (hsize : size = offset + (items.flatMap SegmentContent.written).length) :
    segments size offset (items.flatMap SegmentContent.pieces) = placed offset items := by
  induction items generalizing offset with
  | nil => rfl
  | cons item items ih =>
    obtain ⟨hitem, hitems⟩ := List.forall_mem_cons.1 h
    obtain ⟨hnext, hruns⟩ := List.isChain_cons.1 hruns
    rw [List.flatMap_cons, List.length_append, ← Nat.add_assoc] at hsize
    have hrest := ih hitems hruns hsize
    rw [placed, List.flatMap_cons]
    cases item with
    | embedded form code =>
      rw [← hrest]
      rfl
    | markup text =>
      have htext : segments size offset
          ((SegmentContent.markup text).pieces ++ items.flatMap SegmentContent.pieces) =
            prependText size offset text
              (placed (offset + (SegmentContent.markup text).written.length) items) := by
        rw [← hrest]
        exact segments_doubled hitem size offset _
      rw [htext]
      -- The run ends with the next segment, which is no markup, or with the template.
      cases items with
      | nil => simp [prependText, placed, hsize]
      | cons next items =>
        cases next with
        | markup => exact absurd ⟨trivial, trivial⟩ (hnext _ rfl)
        | embedded => rfl

/-- Where no piece lacks its end, there is none to report. -/
theorem unterminated?_eq_none {ps : List Piece} (offset : Nat)
    (h : ∀ piece ∈ ps, ∀ construct data, piece.content ≠ .unterminated construct data) :
    unterminated? offset ps = none := by
  induction ps generalizing offset with
  | nil => rfl
  | cons piece ps ih =>
    obtain ⟨length, content⟩ := piece
    obtain ⟨hpiece, hps⟩ := List.forall_mem_cons.1 h
    cases content with
    | text | comment | embedded => exact ih _ hps
    | unterminated construct data => exact absurd rfl (hpiece construct data)

/-- What is written has no piece without its end. -/
theorem ends_of_mem_pieces {item : SegmentContent} {piece : Piece} (h : piece ∈ item.pieces)
    (construct : Construct) (data : Bytes) : piece.content ≠ .unterminated construct data := by
  cases item with
  | markup text =>
    obtain ⟨b, -, rfl⟩ := List.mem_map.1 h
    simp [bytePiece]
  | embedded form code =>
    rw [List.mem_singleton.1 h]
    simp

/-- Reading undoes writing: the template has one leaf for each segment that was written, at the
place where it was written, and nothing is wrong with it. -/
theorem readTemplate_written {items : List SegmentContent} (h : ∀ item ∈ items, item.Writable)
    (hruns : items.IsChain fun item next => ¬ (item.IsMarkup ∧ next.IsMarkup)) (name : Bytes) :
    (readTemplate (items.flatMap SegmentContent.written) name).document.leaves =
        (placed 0 items).map (Segment.node (items.flatMap SegmentContent.written)) ∧
      (readTemplate (items.flatMap SegmentContent.written) name).diagnostics = [] := by
  constructor
  · rw [leaves_readTemplate, segmentsFrom_zero, pieces_flatMap_written h,
      segments_flatMap_pieces h hruns (Nat.zero_add _).symm]
  · have hends : unterminated? 0 (items.flatMap SegmentContent.pieces) = none :=
      unterminated?_eq_none 0 fun piece hpiece => by
        obtain ⟨item, -, hpiece⟩ := List.mem_flatMap.1 hpiece
        exact ends_of_mem_pieces hpiece
    rw [readTemplate, pieces_flatMap_written h, hends]
    rfl

/-- Markup that ends with signs and asterisks, next to code with brackets in its strings. -/
def borders : List SegmentContent :=
  [.markup (utf8 "a@*"), .embedded .expression (utf8 "f(\")\", ')')"), .embedded .codeBlock [],
    .markup (utf8 "@@(\x7d"), .embedded .codeBlock (utf8 "x = \"\\\"\x7b\";"),
    .markup (utf8 "'@")]

theorem borders_written :
    (∀ item ∈ borders, item.Writable) ∧
      (borders.IsChain fun item next => ¬ (item.IsMarkup ∧ next.IsMarkup)) ∧
      (readTemplate (borders.flatMap SegmentContent.written) []).document.leaves =
        (placed 0 borders).map (Segment.node (borders.flatMap SegmentContent.written)) ∧
      (readTemplate (borders.flatMap SegmentContent.written) []).diagnostics = [] := by
  have hwritable : ∀ item ∈ borders, item.Writable := by decide +kernel
  have hruns : borders.IsChain fun item next => ¬ (item.IsMarkup ∧ next.IsMarkup) := by
    decide +kernel
  exact ⟨hwritable, hruns, readTemplate_written hwritable hruns []⟩

end MarkupTemplate
