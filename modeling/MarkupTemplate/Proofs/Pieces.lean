import MarkupTemplate.Template.Piece

/-!
# What the pieces of a template are

The first piece of a text is one of a few things: a byte of markup, a doubled `@`, an `@` that
stands for itself, a complete comment, embedded code with its brackets or without, or the rest of
the text from a construct without its end. What a piece means is stated here without the scans that
find where it ends: a mark by the places where it does not stand, a bracket by the code that it
encloses.

## Main definitions

* `Bracket.Encloses`: code whose brackets are a pair
* `IsComment`: a complete comment
* `Embeds`: embedded code as it stands in a template
* `Construct.Unclosed`: a construct without its end, and everything after it
* `Means`: what a stretch of a template means before the rest of it
* `Piece.Fits`: a piece that means what it says at the head of a text

## Main results

* `Bracket.closing?_eq_some_iff`: what is read from an opening bracket on
* `firstPiece_fits`: the first piece of a text means what it says
* `exists_means_getLast?`, `exists_means`: the pieces of a text are its first piece and the pieces of
  the rest
-/

namespace MarkupTemplate

/-! ## Brackets -/

namespace Bracket

variable {bracket : Bracket} {n : Nat}

/-- Code in brackets. -/
def around (bracket : Bracket) (code : Bytes) : Bytes :=
  bracket.opening :: (code ++ [bracket.closing])

/-- The brackets around the code are a pair: nothing in the code closes the first of them. -/
def Encloses (bracket : Bracket) (code : Bytes) : Prop :=
  bracket.closing? (bracket.around code) = some (bracket.around code).length

instance (bracket : Bracket) (code : Bytes) : Decidable (bracket.Encloses code) :=
  inferInstanceAs (Decidable (_ = _))

@[simp] theorem length_around (bracket : Bracket) (code : Bytes) :
    (bracket.around code).length = code.length + 2 := by
  simp [around]

theorem opening_ne_closing (bracket : Bracket) : bracket.opening ≠ bracket.closing := by
  cases bracket <;> decide

/-- What is read from an opening bracket on is the code that the brackets enclose. -/
theorem closing?_eq_some_iff {rest : Bytes} :
    bracket.closing? (bracket.opening :: rest) = some n ↔
      ∃ code after, bracket.opening :: rest = bracket.around code ++ after ∧
        n = code.length + 2 ∧ bracket.Encloses code := by
  constructor
  · intro h
    obtain ⟨inner, after, heq, rfl, hall⟩ := closingFrom_eq_some_iff.1 h
    cases inner with
    | nil => exact absurd (List.cons.inj heq).1 bracket.opening_ne_closing
    | cons b code =>
      obtain ⟨rfl, rfl⟩ := List.cons.inj heq
      refine ⟨code, after, by simp [around], rfl, ?_⟩
      rw [Encloses, length_around]
      exact hall []
  · rintro ⟨code, after, heq, rfl, hcode⟩
    rw [Encloses, length_around] at hcode
    obtain ⟨inner, after', heq', hlength, hall⟩ := closingFrom_eq_some_iff.1 hcode
    -- All of the text is read, so nothing follows the closing bracket.
    obtain ⟨rfl, hafter⟩ : inner = bracket.opening :: code ∧
        [bracket.closing] = bracket.closing :: after' :=
      (List.append_inj (by simpa [around] using heq'.symm)
        (by simpa using (Nat.succ.inj hlength).symm)).imp_right Eq.symm
    rw [heq]
    simpa [around, closing?] using hall after

end Bracket

/-! ## Pieces -/

/-- The brackets around embedded code. A directive is not written in a template. -/
def Form.bracket? : Form → Option Bracket
  | .expression => some .paren
  | .codeBlock => some .brace
  | .directive => none

theorem Form.bracket?_eq_some_iff {form : Form} {bracket : Bracket} :
    form.bracket? = some bracket ↔
      (form = .expression ∧ bracket = .paren) ∨ (form = .codeBlock ∧ bracket = .brace) := by
  cases form <;> simp [bracket?, eq_comm]

/-- A complete comment: it ends with the first `*@` after its start. -/
def IsComment (s : Bytes) : Prop :=
  ∃ inner, s = utf8 "@*" ++ inner ++ utf8 "*@" ∧ ¬ utf8 "*@" <:+: inner ++ [Byte.asterisk]

/-- Embedded code as it stands in a template. -/
inductive Embeds : Bytes → Form → Bytes → Prop
  /-- The code is what its brackets enclose. -/
  | bracketed {form : Form} {bracket : Bracket} {code : Bytes}
      (hform : form.bracket? = some bracket) (hcode : bracket.Encloses code) :
      Embeds (Byte.atSign :: bracket.around code) form code
  /-- An implicit expression is everything after `@`, and starts as an identifier does. -/
  | implicit {code : Bytes} (hcode : code.head?.any Byte.isIdentifierStart) :
      Embeds (Byte.atSign :: code) .expression code

/-- A construct that is not ended, and everything after it. -/
inductive Construct.Unclosed : Construct → Bytes → Prop
  /-- No `*@` follows the start of the comment. -/
  | comment {inner : Bytes} (hinner : ¬ utf8 "*@" <:+: inner) :
      Unclosed .comment (utf8 "@*" ++ inner)
  /-- Nothing closes the bracket. -/
  | code {form : Form} {bracket : Bracket} {inner : Bytes} (hform : form.bracket? = some bracket)
      (hinner : bracket.closing? (bracket.opening :: inner) = none) :
      Unclosed (.code form) (Byte.atSign :: bracket.opening :: inner)

/-- What a stretch of a template means before the rest of the template. -/
inductive Means : Bytes → Bytes → PieceContent → Prop
  /-- A byte of markup. -/
  | byte {b : UInt8} {after : Bytes} (hb : b ≠ Byte.atSign) : Means [b] after (.text [b])
  /-- A doubled sign stands for one. -/
  | escape {after : Bytes} : Means [Byte.atSign, Byte.atSign] after (.text [Byte.atSign])
  /-- A sign stands for itself where nothing starts that has an end of its own. -/
  | sign {after : Bytes} (hafter : ∀ next ∈ after.head?,
      next ∉ [Byte.atSign, Byte.asterisk, Byte.openParen, Byte.openBrace]) :
      Means [Byte.atSign] after (.text [Byte.atSign])
  /-- A comment. -/
  | comment {s after : Bytes} (hs : IsComment s) : Means s after .comment
  /-- Embedded code. -/
  | embedded {s after code : Bytes} {form : Form} (hs : Embeds s form code) :
      Means s after (.embedded form code)
  /-- The rest of the template is a comment without its end. -/
  | openComment {s : Bytes} (hs : Construct.Unclosed .comment s) :
      Means s [] (.unterminated .comment [])
  /-- The rest of the template starts as embedded code does, and is markup. -/
  | openCode {s : Bytes} {form : Form} (hs : Construct.Unclosed (.code form) s) :
      Means s [] (.unterminated (.code form) s)

/-- The bytes that start a comment. -/
theorem utf8_commentStart : utf8 "@*" = [Byte.atSign, Byte.asterisk] := by decide

/-- The bytes that end a comment. -/
theorem utf8_commentEnd : utf8 "*@" = [Byte.asterisk, Byte.atSign] := by decide

theorem IsComment.ne_nil {s : Bytes} (h : IsComment s) : s ≠ [] := by
  obtain ⟨inner, rfl, -⟩ := h
  simp [utf8_commentStart]

theorem Embeds.ne_nil {s code : Bytes} {form : Form} (h : Embeds s form code) : s ≠ [] := by
  cases h <;> simp

/-- A stretch with a meaning is not empty. -/
theorem Means.ne_nil {s after : Bytes} {content : PieceContent} (h : Means s after content) :
    s ≠ [] := by
  cases h with
  | byte | escape | sign => simp
  | comment hs => exact hs.ne_nil
  | embedded hs => exact hs.ne_nil
  | openComment hs =>
    cases hs
    simp [utf8_commentStart]
  | openCode hs =>
    cases hs
    simp

/-- The piece is the head of a text and means what it says. -/
def Piece.Fits (piece : Piece) (text : Bytes) : Prop :=
  ∃ s after, text = s ++ after ∧ piece.length = s.length ∧ Means s after piece.content

/-- Embedded code is what the brackets enclose. -/
theorem bracketed_around {bracket : Bracket} {code : Bytes} (hcode : bracket.Encloses code)
    (form : Form) (after : Bytes) : bracketed form bracket (bracket.around code ++ after) =
      ⟨(Byte.atSign :: bracket.around code).length, .embedded form code⟩ := by
  have hclosing : bracket.closing? (bracket.around code ++ after) = some (code.length + 2) :=
    Bracket.closing?_eq_some_iff.2 ⟨code, after, rfl, rfl, hcode⟩
  rw [bracketed, hclosing]
  simp [Bracket.around]

/-- From an opening bracket on a template has embedded code, or goes on to its end. -/
theorem bracketed_fits {form : Form} {bracket : Bracket} (hform : form.bracket? = some bracket)
    (inner : Bytes) : (bracketed form bracket (bracket.opening :: inner)).Fits
      (Byte.atSign :: bracket.opening :: inner) := by
  cases hclosing : bracket.closing? (bracket.opening :: inner) with
  | none =>
    rw [bracketed, hclosing]
    exact ⟨_, [], (List.append_nil _).symm, rfl, .openCode (.code hform hclosing)⟩
  | some n =>
    obtain ⟨code, after, heq, rfl, hcode⟩ := Bracket.closing?_eq_some_iff.1 hclosing
    rw [heq, bracketed_around hcode]
    exact ⟨Byte.atSign :: bracket.around code, after, rfl, rfl, .embedded (.bracketed hform hcode)⟩

/-- After `@`, brackets hold code of their form. -/
theorem firstPiece_opening {form : Form} {bracket : Bracket} (hform : form.bracket? = some bracket)
    (previous : Option UInt8) (inner : Bytes) :
    firstPiece previous Byte.atSign (bracket.opening :: inner) =
      bracketed form bracket (bracket.opening :: inner) := by
  rcases Form.bracket?_eq_some_iff.1 hform with ⟨rfl, rfl⟩ | ⟨rfl, rfl⟩ <;> rfl

/-- No more is read than there is. -/
theorem selectorsLength_le (s : Bytes) : selectorsLength s ≤ s.length := by
  -- Either a member is selected, or brackets are closed within the text.
  fun_induction selectorsLength s with
  | case1 => exact Nat.le_refl 0
  | case2 b rest _ n ih =>
    have := (List.takeWhile_prefix Byte.isIdentifierPart (l := rest)).length_le
    simp only [List.length_drop, List.length_cons] at ih ⊢
    omega
  | case3 => exact Nat.zero_le _
  | case4 b rest _ bracket? n hn ih =>
    obtain ⟨bracket, -, hclosing⟩ := Option.bind_eq_some_iff.1 hn
    obtain ⟨inner, after, heq, rfl, -⟩ := Bracket.closingFrom_eq_some_iff.1 hclosing
    have := congrArg List.length heq
    simp only [List.length_append, List.length_drop, List.length_cons] at this ih ⊢
    omega

theorem implicitLength_le (s : Bytes) : implicitLength s ≤ s.length := by
  have hidentifier := (List.takeWhile_prefix Byte.isIdentifierPart (l := s)).length_le
  have hselectors := selectorsLength_le (s.drop (s.takeWhile Byte.isIdentifierPart).length)
  rw [List.length_drop] at hselectors
  rw [implicitLength]
  omega

/-- An implicit expression has at least the byte that it starts with. -/
theorem implicitLength_pos {b : UInt8} {rest : Bytes} (h : Byte.isIdentifierStart b) :
    0 < implicitLength (b :: rest) := by
  have hpart := Byte.isIdentifierPart_of_isIdentifierStart h
  rw [implicitLength, List.takeWhile_cons_of_pos hpart, List.length_cons]
  omega

/-- What `@` stands for. -/
theorem transition_fits (previous : Option UInt8) (rest : Bytes) :
    (transition previous rest).Fits (Byte.atSign :: rest) := by
  cases rest with
  | nil => exact ⟨[Byte.atSign], [], rfl, rfl, .sign (by simp)⟩
  | cons next rest =>
    rw [transition]
    -- The byte after the sign decides, and the cases exclude each other.
    by_cases hescape : next = Byte.atSign
    · subst hescape
      exact ⟨[Byte.atSign, Byte.atSign], rest, rfl, rfl, .escape⟩
    by_cases hcomment : next = Byte.asterisk
    · subst hcomment
      rw [if_neg hescape, if_pos rfl]
      have hmark : utf8 "*@" ≠ [] := by decide
      split
      · next inner after hsplit =>
        obtain ⟨rfl, hinner⟩ := (Bytes.splitAtFirst?_eq_some_iff hmark).1 hsplit
        refine ⟨utf8 "@*" ++ inner ++ utf8 "*@", after, ?_, ?_, .comment ⟨inner, rfl, hinner⟩⟩
        · simp [utf8_commentStart, utf8_commentEnd]
        · simp [utf8_commentStart, utf8_commentEnd]
      · next hsplit =>
        refine ⟨utf8 "@*" ++ rest, [], ?_, ?_, .openComment (.comment ?_)⟩
        · simp [utf8_commentStart]
        · simp [utf8_commentStart]
        · exact (Bytes.splitAtFirst?_eq_none_iff hmark).1 hsplit
    rw [if_neg hescape, if_neg hcomment]
    by_cases hbrace : next = Byte.openBrace
    · subst hbrace
      exact bracketed_fits (rfl : Form.bracket? .codeBlock = some .brace) rest
    by_cases hparen : next = Byte.openParen
    · subst hparen
      exact bracketed_fits (rfl : Form.bracket? .expression = some .paren) rest
    rw [if_neg hbrace, if_neg hparen]
    split
    · next himplicit =>
      have hstart : Byte.isIdentifierStart next = true := (Bool.and_eq_true_iff.1 himplicit).1
      have hpos : 0 < implicitLength (next :: rest) := implicitLength_pos hstart
      have hle := implicitLength_le (next :: rest)
      refine ⟨Byte.atSign :: (next :: rest).take (implicitLength (next :: rest)),
        (next :: rest).drop (implicitLength (next :: rest)), ?_, ?_, .embedded (.implicit ?_)⟩
      · rw [List.cons_append, List.take_append_drop]
      · rw [List.length_cons, List.length_take, Nat.min_eq_left hle]
      · rw [List.head?_take, if_neg (Nat.ne_of_gt hpos)]
        exact hstart
    · refine ⟨[Byte.atSign], next :: rest, rfl, rfl, .sign fun b hb => ?_⟩
      obtain rfl : next = b := Option.some.inj hb
      simp [hescape, hcomment, hbrace, hparen]

/-- The first piece of a text means what it says. -/
theorem firstPiece_fits (previous : Option UInt8) (b : UInt8) (rest : Bytes) :
    (firstPiece previous b rest).Fits (b :: rest) := by
  rw [firstPiece]
  split
  · next h =>
    subst h
    exact transition_fits previous rest
  · next h => exact ⟨[b], rest, rfl, rfl, .byte h⟩

/-- After a piece come the pieces of the rest of the text, where the last byte of the piece is the one
before them. -/
theorem pieces_cons_append {previous : Option UInt8} {b : UInt8} {s after : Bytes}
    {content : PieceContent}
    (h : firstPiece previous b (s ++ after) = ⟨(b :: s).length, content⟩) :
    pieces previous (b :: s ++ after) =
      ⟨(b :: s).length, content⟩ :: pieces (b :: s).getLast? after := by
  rw [List.cons_append, pieces, h, List.getLast?_cons, List.getLastD_eq_getLast?]
  simp

theorem pieces_append {previous : Option UInt8} {b : UInt8} {s after : Bytes}
    {content : PieceContent}
    (h : firstPiece previous b (s ++ after) = ⟨(b :: s).length, content⟩) :
    ∃ previous', pieces previous (b :: s ++ after) =
      ⟨(b :: s).length, content⟩ :: pieces previous' after :=
  ⟨_, pieces_cons_append h⟩

/-- The pieces of a text are one that means what it says, and the pieces of the rest, where the last
byte of the first piece is the one before the rest. -/
theorem exists_means_getLast? (previous : Option UInt8) (b : UInt8) (rest : Bytes) :
    ∃ s after content, b :: rest = s ++ after ∧ Means s after content ∧
      pieces previous (b :: rest) = ⟨s.length, content⟩ :: pieces s.getLast? after := by
  obtain ⟨s, after, heq, hlength, hmeans⟩ := firstPiece_fits previous b rest
  cases s with
  | nil => exact absurd rfl hmeans.ne_nil
  | cons b' s =>
    obtain ⟨rfl, rfl⟩ := List.cons.inj heq
    exact ⟨b :: s, after, _, rfl, hmeans, pieces_cons_append (congrArg (Piece.mk · _) hlength)⟩

/-- The pieces of a text are one that means what it says, and the pieces of the rest. -/
theorem exists_means (previous : Option UInt8) (b : UInt8) (rest : Bytes) :
    ∃ s after content previous', b :: rest = s ++ after ∧ Means s after content ∧
      pieces previous (b :: rest) = ⟨s.length, content⟩ :: pieces previous' after := by
  obtain ⟨s, after, content, heq, hmeans, hpieces⟩ := exists_means_getLast? previous b rest
  exact ⟨s, after, content, _, heq, hmeans, hpieces⟩

end MarkupTemplate
