import Mathlib.Data.List.Chain
import MarkupTemplate.Proofs.Displacement
import MarkupTemplate.Proofs.Shape

/-!
# Tokens tile a text

Asking for one token after another comes to an end, and from then on the answer is always that there
is none. The tokens up to there stand side by side from the start of the text to the place where the
scan stops, and what each of them says is written at its place. In a start tag the name comes first,
and then each attribute in turn, its name before its value; no value reaches the name of the
attribute after it, so an offset lies in one value at most.

## Main definitions

* `Slice.StandsIn`: a part stands in a text where its offset says
* `Cursor.calls`: the answers to a number of calls for a token
* `Markup.Cover`: tokens cover a stretch of a text one after another
* `Markup.InTurn`: attributes stand in a text one after another
* `Markup.Content.Reads`: what a token says is written in its stretch of the text
* `Cursor.Past`: what is written from a place on comes after an offset

## Main results

* `Cursor.lies_of_attribute?`, `Cursor.inTurn_of_attributes?`: attributes are read in turn
* `Cursor.reads_of_next?`: every token says what is written
* `Cursor.isChain_tokens`: no two texts are side by side
* `Markup.scan_tiles`: all of this for the scan of a text
-/

namespace MarkupTemplate

open Markup

/-- The part stands in the text, with as many bytes before it as its offset says. -/
def Slice.StandsIn (text : Bytes) (s : Slice) : Prop :=
  ∃ before after, text = before ++ s.text ++ after ∧ before.length = s.offset

namespace Markup

/-- The tokens are not empty, and one after another they cover the stretch between two offsets. -/
def Cover (start stop : Nat) : List Token → Prop
  | [] => start = stop
  | t :: ts => t.offset = start ∧ 0 < t.length ∧ Cover (start + t.length) stop ts

/-- The attribute stands in the text between two offsets: its name, and then its value, or an empty
stretch if it is bare. -/
structure Attribute.Lies (text : Bytes) (start stop : Nat) (a : Attribute) : Prop where
  start_lt : start < a.name.offset
  name_lt : a.name.offset < a.valueStart
  value_le : a.valueStart ≤ a.valueStop
  stop_lt : a.valueStop < stop
  name : a.name.StandsIn text
  value : ∀ v ∈ a.value, v.StandsIn text

/-- The attributes stand in the text between two offsets, each after the value of the one before. -/
def InTurn (text : Bytes) (start stop : Nat) : List Attribute → Prop
  | [] => True
  | a :: as => a.Lies text start stop ∧ InTurn text a.valueStop stop as

/-- The name of a tag stands in the text from one offset on and ends before the other. -/
structure NamesTag (text : Bytes) (start stop : Nat) (name : Slice) : Prop where
  offset : name.offset = start
  ne_nil : name.text ≠ []
  stop_lt : name.stop < stop
  standsIn : name.StandsIn text

/-- What is said of the stretch between two offsets is written there. A text is the whole of its
stretch, and nowhere in it a tag or a comment starts. -/
def Content.Reads (text : Bytes) (start stop : Nat) : Content → Prop
  | .text data =>
    (⟨start, data⟩ : Slice).StandsIn text ∧ start + data.length = stop ∧
      ∀ place, start ≤ place → place < stop → startsMarkup (text.drop place) = false
  | .startTag name attributes _ =>
    NamesTag text (start + 1) stop name ∧ InTurn text name.stop stop attributes
  | .endTag name => NamesTag text (start + 2) stop name
  | .comment data =>
    ∃ offset, start < offset ∧ offset + data.length < stop ∧
      (⟨offset, data⟩ : Slice).StandsIn text

/-- The name by which a tag is told from others: its letters are in lower case. -/
def Content.foldedName? : Content → Option Bytes
  | .startTag name .. | .endTag name => some (Bytes.toLower name.text)
  | _ => none

/-- A tag has a name in lower case if it has a name. -/
theorem exists_of_foldedName? {text : Bytes} {begins ends : Nat} {content : Content}
    {folded : Bytes} (h : content.Reads text begins ends) (hfolded : folded ∈ content.foldedName?) :
    ∃ start name, NamesTag text start ends name ∧ begins < start ∧
      folded = Bytes.toLower name.text := by
  cases content with
  | startTag name attributes selfClosing =>
    obtain rfl : _ = folded := Option.some.inj hfolded
    exact ⟨_, name, h.1, Nat.lt_succ_self _, rfl⟩
  | endTag name =>
    obtain rfl : _ = folded := Option.some.inj hfolded
    exact ⟨_, name, h, Nat.lt_add_of_pos_right (by decide), rfl⟩
  | text | comment => cases hfolded

/-- Markup starts with `<`. -/
theorem head?_of_startsMarkup {s : Bytes} (h : startsMarkup s = true) :
    s.head? = some Byte.lessThan := by
  match s with
  | [] | [_] => cases h
  | a :: b :: rest => rw [(startsMarkup_iff.1 h).1, List.head?_cons]

end Markup

namespace Cursor

variable {c c' : Cursor} {text : Bytes} {limit : Nat}

/-! ## Calls for tokens -/

/-- The answers to a number of calls for the next token, and the place after the last call. When
there is no token, the answer says so, and the place stays. -/
def calls : Nat → Cursor → List (Option Token) × Cursor
  | 0, c => ([], c)
  | n + 1, c =>
    match c.next? with
    | none => (none :: (calls n c).1, (calls n c).2)
    | some (t, c') => (some t :: (calls n c').1, (calls n c').2)

theorem calls_of_next?_eq_none (h : c.next? = none) (n : Nat) :
    c.calls n = (List.replicate n none, c) := by
  induction n with
  | zero => rfl
  | succ n ih => simp [calls, h, ih, List.replicate_succ]

/-- The calls give the tokens one after another, and no token ever after. -/
theorem calls_tokens (c : Cursor) (n : Nat) :
    c.calls (c.tokens.1.length + n) =
      (c.tokens.1.map some ++ List.replicate n none, c.tokens.2) := by
  induction c using tokens.induct with
  | case1 c hnone => simpa [tokens_of_next?_eq_none hnone] using calls_of_next?_eq_none hnone n
  | case2 c t c' hsome ts stop hts ih =>
    rw [tokens_of_next?_eq_some hsome, List.length_cons, Nat.add_right_comm, calls, hsome]
    simp only [ih]
    rfl

/-! ## Places in a text -/

/-- What is read from a place on stands there. -/
theorem standsIn_of_rest (h : (start text).Reaches c) {s rest : Bytes}
    (hrest : c.rest = s ++ rest) :
    (⟨c.offset, s⟩ : Slice).StandsIn text := by
  obtain ⟨read, htext, hoffset⟩ := h
  refine ⟨read, rest, ?_, ?_⟩
  · rw [List.append_assoc, ← hrest]
    exact htext
  · rw [hoffset, offset_start, Nat.zero_add]

theorem standsIn_run (h : (start text).Reaches c) (p : UInt8 → Bool) : (c.run p).StandsIn text :=
  standsIn_of_rest h List.takeWhile_append_dropWhile.symm

theorem stop_run (p : UInt8 → Bool) (c : Cursor) : (c.run p).stop = (c.skipWhile p).offset := rfl

/-- A byte that is not skipped is none of those that are. -/
theorem not_head?_skipWhile (p : UInt8 → Bool) (c : Cursor) :
    ∀ b ∈ (c.skipWhile p).rest.head?, p b = false := by
  intro b hb
  have hne := List.head?_dropWhile_not p c.rest
  rw [rest_skipWhile] at hb
  rw [show (c.rest.dropWhile p).head? = some b from hb] at hne
  simpa using hne

/-- Where nothing is skipped, the place is the same. -/
theorem skipWhile_eq_self {p : UInt8 → Bool} (h : (c.skipWhile p).offset = c.offset) :
    (c.skipWhile p).rest = c.rest := by
  obtain ⟨read, hrest, hoffset⟩ := reaches_skipWhile p c
  obtain rfl : read = [] := by
    rw [← List.length_eq_zero_iff]
    omega
  exact hrest.symm

/-- The place is after the offset, or else it is at the offset, but there stands a byte that ends
the name of a tag: a blank, a slash or the end of the tag. -/
def Past (limit : Nat) (c : Cursor) : Prop :=
  limit < c.offset ∨ (limit = c.offset ∧ ∀ b ∈ c.rest.head?, isTagNamePart b = false)

theorem Past.le (h : c.Past limit) : limit ≤ c.offset :=
  h.elim Nat.le_of_lt fun h => Nat.le_of_eq h.1

/-- After the blanks comes the end of the tag, a slash, or what is past the offset. -/
theorem Past.skipBlanks (h : c.Past limit) {b : UInt8} {rest : Bytes}
    (hrest : c.skipBlanks.rest = b :: rest) (hgreater : b ≠ Byte.greaterThan)
    (hslash : b ≠ Byte.slash) : limit < c.skipBlanks.offset := by
  have hle := (reaches_skipBlanks c).offset_le
  rcases h with hlt | ⟨rfl, hhead⟩
  · omega
  · refine Nat.lt_of_le_of_ne hle fun he => ?_
    have hsame : c.rest = b :: rest := (skipWhile_eq_self he.symm).symm.trans hrest
    have hpart := hhead b (by simp [hsame])
    have hblank : Byte.isBlank b = false := not_head?_skipWhile Byte.isBlank c b (by
      rw [show c.skipWhile Byte.isBlank = c.skipBlanks from rfl, hrest]
      rfl)
    simp [isTagNamePart, hblank, hgreater, hslash] at hpart

/-! ## Attributes -/

/-- A value is written after its place, and what follows it is past its end. -/
theorem past_of_attributeValue? (htext : (start text).Reaches c) {v : Slice}
    (h : c.attributeValue? = some (v, c')) :
    v.StandsIn text ∧ c.offset ≤ v.offset ∧ c'.Past v.stop := by
  simp only [attributeValue?, Option.bind_eq_bind, Option.bind_eq_some_iff] at h
  obtain ⟨quote, hquote, h⟩ := h
  split at h
  · obtain ⟨d, hd, h⟩ := Option.bind_eq_some_iff.1 h
    obtain ⟨rfl, rfl⟩ := Prod.mk.inj (Option.some.inj h)
    have hinner := htext.trans (reaches_advance (length_pos_of_head? hquote))
    refine ⟨standsIn_run hinner _, Nat.le_succ _, .inl ?_⟩
    rw [(reaches_of_skipByte? hd).2]
    exact Nat.lt_succ_self _
  · split at h
    · simp at h
    · obtain ⟨rfl, rfl⟩ := Prod.mk.inj (Option.some.inj h)
      refine ⟨standsIn_run htext _, Nat.le_refl _, .inr ⟨rfl, fun b hb => ?_⟩⟩
      have hend := not_head?_skipWhile _ c b hb
      simp only [isUnquotedPart, Bool.not_eq_false', Bool.or_eq_true] at hend
      rcases hend with hblank | hgreater
      · simp [isTagNamePart, hblank]
      · simp [isTagNamePart, hgreater]

/-- An attribute starts where it is read, and what follows it is past its value. -/
theorem lies_of_attribute? (htext : (start text).Reaches c) {a : Attribute}
    (h : c.attribute? = some (a, c')) (hlimit : limit < c.offset) :
    c'.Past a.valueStop ∧ ∀ stop, a.valueStop < stop → a.Lies text limit stop := by
  simp only [attribute?, Option.bind_eq_bind, Option.bind_eq_some_iff] at h
  obtain ⟨first, hfirst, next, hnext, h⟩ := h
  obtain ⟨rest, hrest⟩ := List.head?_eq_some_iff.1 hfirst
  let tail := (c.advance 1).run isAttributeNamePart
  let name : Slice := ⟨c.offset, first :: tail.text⟩
  let after := (c.advance 1).skipWhile isAttributeNamePart
  have hafter : c.advance name.text.length = after := advance_attributeName first c
  change (c.advance name.text.length).skipBlanks.rest.head? = some next at hnext
  change (if next = Byte.equals then
      Option.map (fun x => ((⟨name, some x.1⟩ : Attribute), x.2))
        ((c.advance name.text.length).skipBlanks.advance 1).skipBlanks.attributeValue?
    else some (⟨name, none⟩, (c.advance name.text.length).skipBlanks)) = some (a, c') at h
  have hreach : c.Reaches (c.advance name.text.length) := reaches_attributeName hfirst
  have hname : name.StandsIn text := by
    refine @standsIn_of_rest _ _ htext _ after.rest ?_
    rw [hrest, List.cons_append]
    refine congrArg (first :: ·) ?_
    have hsplit : (c.advance 1).rest = tail.text ++ after.rest :=
      List.takeWhile_append_dropWhile.symm
    simpa [hrest] using hsplit
  have hstop : name.stop = (c.advance name.text.length).offset := rfl
  have hpos : name.offset < name.stop := Nat.lt_add_of_pos_right (Nat.succ_pos _)
  rw [hafter] at hnext h hreach hstop
  have hblanks := (reaches_skipBlanks after).offset_le
  split at h
  · -- The value comes after the sign that follows the name.
    obtain ⟨⟨v, d⟩, hv, he⟩ := Option.map_eq_some_iff.1 h
    obtain ⟨rfl, rfl⟩ := Prod.mk.inj he
    have hsign := reaches_advance (length_pos_of_head? hnext)
    have hvalue := hsign.trans (reaches_skipBlanks _)
    obtain ⟨hstands, hle, hpast⟩ :=
      past_of_attributeValue? (htext.trans (hreach.trans ((reaches_skipBlanks _).trans hvalue))) hv
    have hoffset := hvalue.offset_le
    refine ⟨hpast, fun stop hlt => ⟨hlimit, ?_, Nat.le_add_right _ _, hlt, hname, ?_⟩⟩
    · change name.offset < v.offset
      omega
    · intro w hw
      obtain rfl : v = w := Option.some.inj hw
      exact hstands
  · next hequals =>
    obtain ⟨rfl, rfl⟩ := Prod.mk.inj (Option.some.inj h)
    refine ⟨?_, fun stop hlt => ⟨hlimit, hpos, Nat.le_refl _, hlt, hname, by simp⟩⟩
    change after.skipBlanks.Past name.stop
    rw [hstop]
    rcases Nat.lt_or_eq_of_le hblanks with hlt | heq
    · exact .inl hlt
    · -- Nothing is between the name and the byte that ended it.
      have hsame : after.skipBlanks.rest = after.rest := skipWhile_eq_self heq.symm
      refine .inr ⟨heq, fun b hb => ?_⟩
      obtain rfl : next = b := Option.some.inj (hnext.symm.trans hb)
      have hend := not_head?_skipWhile isAttributeNamePart (c.advance 1) next (hsame ▸ hb)
      simpa [isAttributeNamePart, hequals] using hend

/-- The attributes of a start tag stand one after another, up to its end. -/
theorem inTurn_of_attributes? (htext : (start text).Reaches c) (hpast : c.Past limit)
    {as : List Attribute} {selfClosing : Bool}
    (h : c.attributes? = some (as, selfClosing, c')) :
    InTurn text limit c'.offset as ∧ limit < c'.offset := by
  fun_induction attributes? c generalizing limit as selfClosing with
  | case1 | case3 | case6 => simp at h
  | case2 c rest hr =>
    obtain ⟨rfl, -, rfl⟩ := by simpa using h
    have hle := Nat.le_trans hpast.le (reaches_skipBlanks c).offset_le
    exact ⟨trivial, Nat.lt_succ_of_le hle⟩
  | case4 c _ _ hr =>
    obtain ⟨rfl, -, rfl⟩ := by simpa using h
    have hle := Nat.le_trans hpast.le (reaches_skipBlanks c).offset_le
    exact ⟨trivial, Nat.lt_succ_of_le (Nat.le_succ_of_le hle)⟩
  | case5 c _ _ _ _ hr _ ih =>
    -- The slash is past the offset, and so is what follows it.
    have hle := Nat.le_trans hpast.le (reaches_skipBlanks c).offset_le
    have hskip := reaches_skipBlanks_advance (c := c) (n := 1) (by omega) (by simp [hr])
    exact ih (htext.trans hskip.1) (.inl (Nat.lt_succ_of_le hle)) h
  | case7 c b rest hr hgreater hslash a c'' ha ih =>
    obtain ⟨⟨as', s', d⟩, h', he⟩ := Option.map_eq_some_iff.1 h
    simp only [Prod.mk.injEq] at he
    obtain ⟨rfl, -, rfl⟩ := he
    have hlt := hpast.skipBlanks hr hgreater hslash
    have hplace := htext.trans (reaches_skipBlanks c)
    obtain ⟨hafter, hlies⟩ := lies_of_attribute? hplace ha hlt
    obtain ⟨hturn, hstop⟩ := ih (hplace.trans (reaches_of_attribute? ha).1) hafter h'
    have hthis := hlies d.offset hstop
    have hname := hthis.start_lt
    have hvalue := hthis.name_lt
    have hend := hthis.value_le
    exact ⟨⟨hthis, hturn⟩, by omega⟩

/-! ## Tags, comments and texts -/

/-- A byte that is not a part of the name comes after the name of a tag. -/
theorem past_skipWhile (c : Cursor) : (c.skipWhile isTagNamePart).Past (c.run isTagNamePart).stop :=
  .inr ⟨rfl, not_head?_skipWhile isTagNamePart c⟩

theorem reads_of_startTag? (htext : (start text).Reaches c) (hne : c.rest ≠ []) {content : Content}
    (hnamed : ∀ name attributes selfClosing, content = .startTag name attributes selfClosing →
      name.text ≠ []) (h : c.startTag? = some (content, c')) :
    content.Reads text c.offset c'.offset := by
  obtain ⟨⟨as, selfClosing, d⟩, has, he⟩ := Option.map_eq_some_iff.1 h
  obtain ⟨rfl, rfl⟩ := Prod.mk.inj he
  have hinner := htext.trans (reaches_advance (List.length_pos_iff.2 hne))
  obtain ⟨hturn, hstop⟩ := inTurn_of_attributes? (hinner.trans (reaches_skipWhile isTagNamePart _))
    (past_skipWhile _) has
  exact ⟨⟨rfl, hnamed _ _ _ rfl, hstop, standsIn_run hinner _⟩, hturn⟩

theorem reads_of_endTag? (htext : (start text).Reaches c) (hlength : 2 ≤ c.rest.length)
    (hletter : (c.rest.drop 2).head?.any Byte.isLetter = true) {content : Content}
    (h : c.endTag? = some (content, c')) : content.Reads text c.offset c'.offset := by
  obtain ⟨d, hd, he⟩ := Option.map_eq_some_iff.1 h
  obtain ⟨rfl, rfl⟩ := Prod.mk.inj he
  have hinner := htext.trans (reaches_advance hlength)
  obtain ⟨b, hb, hletter⟩ := (Option.any_eq_true _ _).1 hletter
  obtain ⟨rest, hrest⟩ := List.head?_eq_some_iff.1 hb
  refine ⟨rfl, ?_, ?_, standsIn_run hinner _⟩
  · simp [run, hrest, isTagNamePart_of_isLetter hletter]
  · have hskip := (reaches_skipWhile (· != Byte.greaterThan)
      ((c.advance 2).skipWhile isTagNamePart)).offset_le
    rw [(reaches_of_skipByte? hd).2, stop_run]
    exact Nat.lt_succ_of_le hskip

theorem reads_of_between? (htext : (start text).Reaches c) {opening : Nat} {closing data : Bytes}
    (hopening : 0 < opening) (hclosing : closing ≠ []) (hlength : opening ≤ c.rest.length)
    (h : c.between? opening closing = some (data, c')) :
    (Content.comment data).Reads text c.offset c'.offset := by
  obtain ⟨⟨data, after⟩, hsplit, he⟩ := Option.map_eq_some_iff.1 h
  obtain ⟨rfl, rfl⟩ := Prod.mk.inj he
  have hrest := Bytes.eq_of_splitAtFirst? hsplit
  rw [List.append_assoc] at hrest
  have hpos := List.length_pos_iff.2 hclosing
  refine ⟨c.offset + opening, by omega, ?_, ?_⟩
  · rw [offset_advance]
    omega
  · exact standsIn_of_rest (htext.trans (reaches_advance hlength)) hrest

theorem reads_of_comment? (htext : (start text).Reaches c) (hlength : 2 ≤ c.rest.length)
    {content : Content} (h : c.comment? = some (content, c')) :
    content.Reads text c.offset c'.offset := by
  unfold comment? at h
  obtain ⟨⟨data, d⟩, hd, he⟩ := Option.map_eq_some_iff.1 h
  obtain ⟨rfl, rfl⟩ := Prod.mk.inj he
  split at hd
  · next hmark =>
    have hle := (List.isPrefixOf_iff_prefix.1 hmark).length_le
    refine reads_of_between? htext (by decide) ?_ ?_ hd
    · decide
    · rwa [utf8_commentMark] at hle
  · refine reads_of_between? htext (by decide) ?_ hlength hd
    rw [utf8_greaterThan]
    exact List.cons_ne_nil _ _

/-- A tag or comment says what is written from its `<` on. -/
theorem reads_of_markup? (htext : (start text).Reaches c) (hs : startsMarkup c.rest = true)
    {content : Content} (h : c.markup? = some (content, c')) :
    content.Reads text c.offset c'.offset := by
  have hnamed : ∀ name attributes selfClosing,
      content = .startTag name attributes selfClosing → name.text ≠ [] := by
    rintro name attributes selfClosing rfl
    exact named_of_markup? hs h
  unfold markup? at h
  split at h
  · next a b rest hrest =>
    have hlength : 2 ≤ c.rest.length := by simp [hrest]
    split at h
    · exact reads_of_comment? htext hlength h
    · next hexclamation =>
      split at h
      · next hslash =>
        -- A slash starts an end tag only in front of a letter.
        rw [hrest, startsMarkup_iff] at hs
        have hletter : Byte.isLetter b = false := by
          rw [hslash]
          decide
        have hname := (hs.2.resolve_left (by simp [hletter])).resolve_left hexclamation
        exact reads_of_endTag? htext hlength (by simpa [hrest] using hname.2) h
      · exact reads_of_startTag? htext (by simp [hrest]) hnamed h
  · simp at h

/-- Nowhere in the bytes before markup a tag or a comment starts. -/
theorem startsMarkup_drop_of_lt {s : Bytes} {k : Nat} (h : k < (beforeMarkup s).length) :
    startsMarkup (s.drop k) = false := by
  induction s generalizing k with
  | nil => simp [beforeMarkup] at h
  | cons b rest ih =>
    rw [beforeMarkup] at h
    split at h
    · simp at h
    · next hs =>
      cases k with
      | zero => simpa using hs
      | succ k => exact ih (Nat.lt_of_succ_lt_succ h)

theorem reads_of_text (htext : (start text).Reaches c) :
    (Content.text (beforeMarkup c.rest)).Reads text c.offset
      (c.advance (beforeMarkup c.rest).length).offset := by
  refine ⟨standsIn_of_rest htext (beforeMarkup_append_drop c.rest).symm, rfl, ?_⟩
  intro place hle hlt
  obtain ⟨read, hread, hoffset⟩ := htext
  rw [rest_start] at hread
  rw [offset_start, Nat.zero_add] at hoffset
  obtain ⟨k, rfl⟩ := Nat.exists_eq_add_of_le hle
  rw [offset_advance] at hlt
  rw [hread, hoffset, List.drop_append, List.drop_of_length_le (by omega), List.nil_append,
    Nat.add_sub_cancel_left]
  exact startsMarkup_drop_of_lt (by omega)

/-- A token says what is written in its stretch of the text, which starts where it was read. -/
theorem reads_of_next? (htext : (start text).Reaches c) {t : Token} (h : c.next? = some (t, c')) :
    t.offset = c.offset ∧ t.offset + t.length = c'.offset ∧
      t.content.Reads text t.offset (t.offset + t.length) := by
  have hlt := (reaches_of_next? h).2
  obtain ⟨hs, content, hd, rfl⟩ | ⟨-, -, rfl, rfl⟩ := next?_cases h
  · have hsum : c.offset + (c'.offset - c.offset) = c'.offset := by omega
    refine ⟨rfl, hsum, ?_⟩
    rw [hsum]
    exact reads_of_markup? htext hs hd
  · exact ⟨rfl, rfl, reads_of_text htext⟩

/-! ## All tokens -/

/-- The tokens cover the text up to the place where the scan stops, each saying what is written. -/
theorem cover_tokens (htext : (start text).Reaches c) :
    Cover c.offset c.tokens.2.offset c.tokens.1 ∧
      ∀ t ∈ c.tokens.1, t.content.Reads text t.offset (t.offset + t.length) := by
  induction c using tokens.induct with
  | case1 c hnone =>
    rw [tokens_of_next?_eq_none hnone]
    exact ⟨rfl, by simp⟩
  | case2 c t c' hsome ts stop hts ih =>
    obtain ⟨hreach, hlt⟩ := reaches_of_next? hsome
    obtain ⟨hoffset, hstop, hreads⟩ := reads_of_next? htext hsome
    obtain ⟨hcover, hall⟩ := ih (htext.trans hreach)
    rw [tokens_of_next?_eq_some hsome]
    refine ⟨⟨hoffset, by omega, ?_⟩, ?_⟩
    · rw [← hoffset, hstop]
      exact hcover
    · simpa using ⟨hreads, hall⟩

/-- After a text comes a tag or comment, or nothing more. -/
theorem isChain_tokens (c : Cursor) :
    c.tokens.1.IsChain fun t u => ¬ (t.isText = true ∧ u.isText = true) := by
  induction c using tokens.induct with
  | case1 c hnone => simp [tokens_of_next?_eq_none hnone]
  | case2 c t c' hsome ts stop hts ih =>
    rw [tokens_of_next?_eq_some hsome, List.isChain_cons]
    refine ⟨?_, ih⟩
    rintro u hu ⟨htext, hutext⟩
    obtain ⟨hs, -⟩ | ⟨-, -, -, rfl⟩ := next?_cases hsome
    · have hnot := not_isText_of_startsMarkup hs t (by simp [tokens_of_next?_eq_some hsome])
      simp [hnot] at htext
    · have hend : beforeMarkup c.rest ≠ c.rest := by
        intro he
        rw [he, tokens_of_next?_eq_none (next?_of_rest_eq_nil (by simp))] at hu
        simp at hu
      have hnot := not_isText_of_startsMarkup (startsMarkup_drop_beforeMarkup_of_ne hend) u hu
      simp [hnot] at hutext

end Cursor

namespace Markup

/-- The scan of any text. Calls for tokens give the tokens of the scan, and after them no token ever
again. The tokens are not empty and cover the text from its start to the place where the scan stops,
where a tag or comment starts that is cut off, unless the text ends there. No two texts are side by
side. Each token says what is written in its stretch of the text: a text is its bytes, with no start
of a tag or comment among them; a tag has its name just after its mark, as it is written and never
empty, and goes by that name in lower case; and the attributes of a start tag come one after
another, each name before its value and each value before the next name. -/
theorem scan_tiles (text : Bytes) :
    let tokens := (scan text).tokens
    let stop := (scan text).stop
    (∀ n, (Cursor.start text).calls (tokens.length + n) =
        (tokens.map some ++ List.replicate n none, stop)) ∧
      Cover 0 stop.offset tokens ∧ stop.offset ≤ text.length ∧
      (stop.offset < text.length → startsMarkup (text.drop stop.offset) = true ∧
        text[stop.offset]? = some Byte.lessThan) ∧
      tokens.IsChain (fun t u => ¬ (t.isText = true ∧ u.isText = true)) ∧
      (∀ t ∈ tokens, t.content.Reads text t.offset (t.offset + t.length)) ∧
      ∀ t ∈ tokens, ∀ folded ∈ t.content.foldedName?, folded ≠ [] ∧
        ∃ name : Slice, name.StandsIn text ∧ t.offset < name.offset ∧
          name.stop < t.offset + t.length ∧ folded = Bytes.toLower name.text := by
  intro tokens stop
  obtain ⟨hcover, hreads⟩ := Cursor.cover_tokens (.refl (.start text))
  refine ⟨Cursor.calls_tokens _, hcover, stop_offset_le text, ?_, Cursor.isChain_tokens _, hreads,
    ?_⟩
  · intro hlt
    have hne : (scan text).remainder ≠ [] := by
      rw [remainder_scan, ne_eq, List.drop_eq_nil_iff]
      exact Nat.not_le.2 hlt
    have hstarts := startsMarkup_remainder hne
    rw [remainder_scan] at hstarts
    refine ⟨hstarts, ?_⟩
    rw [← List.head?_drop]
    exact head?_of_startsMarkup hstarts
  · intro t ht folded hfolded
    obtain ⟨start, name, hname, hlt, rfl⟩ := exists_of_foldedName? (hreads t ht) hfolded
    refine ⟨?_, name, hname.standsIn, hname.offset ▸ hlt, hname.stop_lt, rfl⟩
    simpa [Bytes.toLower] using hname.ne_nil

end Markup

end MarkupTemplate
