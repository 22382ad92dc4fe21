import MarkupTemplate.Markup.Cursor

/-!
# Scanning markup

From each place of a text there is at most one next token. A tag or comment that the text cuts off
is no token: the scan stops in front of it, and what is left is the remainder, to be read again once
more text has arrived.

## Main definitions

* `startsMarkup s`: a tag or a comment starts at the head of `s`
* `Cursor.next?`: the next token and the place after it
* `scan text`: all tokens of a text and the place where the scan stops

## Main results

* `Cursor.reaches_of_next?`: every token takes at least one byte
-/

namespace MarkupTemplate

namespace Markup

/-- A tag or a comment starts here: at `<` before a letter or `!`, and at `</` before a letter. -/
def startsMarkup : Bytes → Bool
  | a :: b :: rest =>
    a == Byte.lessThan &&
      (Byte.isLetter b || b == Byte.exclamation ||
        (b == Byte.slash && rest.head?.any Byte.isLetter))
  | _ => false

/-- The bytes before the next place where a tag or a comment starts. -/
def beforeMarkup : Bytes → Bytes
  | [] => []
  | b :: rest => if startsMarkup (b :: rest) then [] else b :: beforeMarkup rest

/-- The name of a tag goes on until a blank, a slash or `>`. -/
def isTagNamePart (b : UInt8) : Bool :=
  !(Byte.isBlank b || b == Byte.slash || b == Byte.greaterThan)

/-- The name of an attribute ends where the name of a tag would, and before `=`. -/
def isAttributeNamePart (b : UInt8) : Bool := isTagNamePart b && b != Byte.equals

/-- A value without quotes goes on until a blank or `>`. -/
def isUnquotedPart (b : UInt8) : Bool := !(Byte.isBlank b || b == Byte.greaterThan)

end Markup

namespace Cursor

open Markup

variable {c c' : Cursor}

/-! ## Attributes -/

/-- The value of an attribute: what is between two equal quotes, or an unquoted run. The text must
go on after it. -/
def attributeValue? (c : Cursor) : Option (Slice × Cursor) := do
  let quote ← c.rest.head?
  if quote = Byte.doubleQuote ∨ quote = Byte.singleQuote then
    let inner := c.advance 1
    let c' ← (inner.skipWhile (· != quote)).skipByte?
    return (inner.run (· != quote), c')
  else
    let c' := c.skipWhile isUnquotedPart
    if c'.rest.isEmpty then none else return (c.run isUnquotedPart, c')

/-- An attribute starts with its name, of which the first byte may be any. A value follows if the
next byte that is not blank is `=`; otherwise the attribute is bare. -/
def attribute? (c : Cursor) : Option (Attribute × Cursor) := do
  let first ← c.rest.head?
  let tail := (c.advance 1).run isAttributeNamePart
  let name : Slice := ⟨c.offset, first :: tail.text⟩
  let c := (c.advance name.text.length).skipBlanks
  let next ← c.rest.head?
  if next = Byte.equals then
    (c.advance 1).skipBlanks.attributeValue?.map fun (value, c') => (⟨name, some value⟩, c')
  else
    return (⟨name, none⟩, c)

theorem length_pos_of_head? {s : Bytes} {b : UInt8} (h : s.head? = some b) : 1 ≤ s.length := by
  cases s with
  | nil => simp at h
  | cons => simp

/-- The name of an attribute is a part of what is left. -/
theorem reaches_attributeName {first : UInt8} (h : c.rest.head? = some first) :
    c.Reaches (c.advance (first :: ((c.advance 1).run isAttributeNamePart).text).length) := by
  apply reaches_advance
  have h₁ := length_pos_of_head? h
  have h₂ := (List.takeWhile_prefix (l := (c.advance 1).rest) isAttributeNamePart).length_le
  simp only [run, rest_advance, List.length_drop, List.length_cons] at h₂ ⊢
  omega

theorem reaches_of_attributeValue? {v : Slice} (h : c.attributeValue? = some (v, c')) :
    c.Reaches c' := by
  simp only [attributeValue?, Option.bind_eq_bind, Option.bind_eq_some_iff] at h
  obtain ⟨quote, hq, h⟩ := h
  split at h
  · obtain ⟨d, hd, h⟩ := Option.bind_eq_some_iff.1 h
    obtain ⟨-, rfl⟩ := Prod.mk.inj (Option.some.inj h)
    exact ((reaches_advance (length_pos_of_head? hq)).trans (reaches_skipWhile _ _)).trans
      (reaches_of_skipByte? hd).1
  · split at h
    · simp at h
    · obtain ⟨-, rfl⟩ := Prod.mk.inj (Option.some.inj h)
      exact reaches_skipWhile _ _

/-- An attribute takes at least one byte. -/
theorem reaches_of_attribute? {a : Attribute} (h : c.attribute? = some (a, c')) :
    c.Reaches c' ∧ c.offset < c'.offset := by
  simp only [attribute?, Option.bind_eq_bind, Option.bind_eq_some_iff] at h
  obtain ⟨first, hfirst, next, hnext, h⟩ := h
  have hname := reaches_attributeName hfirst
  have hblanks := hname.trans (reaches_skipBlanks _)
  have hlt := Nat.lt_of_lt_of_le (Nat.lt_add_of_pos_right (Nat.succ_pos _))
    (reaches_skipBlanks
      (c.advance (first :: ((c.advance 1).run isAttributeNamePart).text).length)).offset_le
  split at h
  · obtain ⟨⟨v, d⟩, hv, h⟩ := Option.map_eq_some_iff.1 h
    obtain ⟨-, rfl⟩ := Prod.mk.inj h
    have hequals := reaches_advance (length_pos_of_head? hnext)
    have hvalue := (hequals.trans (reaches_skipBlanks _)).trans (reaches_of_attributeValue? hv)
    exact ⟨hblanks.trans hvalue, Nat.lt_of_lt_of_le hlt hvalue.offset_le⟩
  · obtain ⟨-, rfl⟩ := Prod.mk.inj (Option.some.inj h)
    exact ⟨hblanks, hlt⟩

/-! ## Tags and comments -/

/-- What follows the name in a start tag: attributes up to `>`, or up to `/>` in a self-closing tag.
Blanks and other slashes between the attributes are skipped. -/
def attributes? (c : Cursor) : Option (List Attribute × Bool × Cursor) :=
  match _ : c.skipBlanks.rest with
  | [] => none
  | b :: rest =>
    if b = Byte.greaterThan then
      some ([], false, c.skipBlanks.advance 1)
    else if b = Byte.slash then
      match rest with
      | [] => none
      | d :: _ =>
        if d = Byte.greaterThan then some ([], true, c.skipBlanks.advance 2)
        -- A slash that does not end the tag separates as a blank does.
        else (c.skipBlanks.advance 1).attributes?
    else
      match _ : c.skipBlanks.attribute? with
      | none => none
      | some (a, c') =>
        c'.attributes?.map fun (as, selfClosing, c'') => (a :: as, selfClosing, c'')
termination_by c.rest.length
decreasing_by
  · have hle : c.skipBlanks.rest.length ≤ c.rest.length := (reaches_skipBlanks c).length_le
    have hr : c.skipBlanks.rest = _ := ‹_›
    simp only [rest_advance, hr, List.drop_succ_cons, List.drop_zero, List.length_cons] at hle ⊢
    omega
  · have ha := reaches_of_attribute? ‹_›
    exact Nat.lt_of_lt_of_le (ha.1.length_lt ha.2) (reaches_skipBlanks c).length_le

/-- A start tag, from its `<` on. -/
def startTag? (c : Cursor) : Option (Content × Cursor) :=
  let inner := c.advance 1
  (inner.skipWhile isTagNamePart).attributes?.map fun (attributes, selfClosing, c') =>
    (.startTag (inner.run isTagNamePart) attributes selfClosing, c')

/-- An end tag, from its `</` on: what is between the name and the next `>` is skipped. -/
def endTag? (c : Cursor) : Option (Content × Cursor) :=
  let inner := c.advance 2
  ((inner.skipWhile isTagNamePart).skipWhile (· != Byte.greaterThan)).skipByte?.map fun c' =>
    (.endTag (inner.run isTagNamePart), c')

/-- What is between an opening mark of the given length and the next closing mark. -/
def between? (opening : Nat) (closing : Bytes) (c : Cursor) : Option (Bytes × Cursor) :=
  (Bytes.splitAtFirst? closing (c.rest.drop opening)).map fun (data, _) =>
    (data, c.advance (opening + data.length + closing.length))

/-- A comment from `<!--` to the next `-->`, or a declaration from `<!` to the next `>`. -/
def comment? (c : Cursor) : Option (Content × Cursor) :=
  (if (utf8 "<!--").isPrefixOf c.rest then c.between? 4 (utf8 "-->")
    else c.between? 2 (utf8 ">")).map fun (data, c') => (.comment data, c')

/-- The tag or comment that starts here, if the text holds all of it. -/
def markup? (c : Cursor) : Option (Content × Cursor) :=
  match c.rest with
  | _ :: b :: _ =>
    if b = Byte.exclamation then c.comment?
    else if b = Byte.slash then c.endTag?
    else c.startTag?
  | _ => none

/-- The next token and the place after it. There is none at the end of the text, nor in front of a
tag or comment that the text cuts off. -/
def next? (c : Cursor) : Option (Token × Cursor) :=
  if c.rest.isEmpty then none
  else if startsMarkup c.rest then
    c.markup?.map fun (content, c') => (⟨c.offset, c'.offset - c.offset, content⟩, c')
  else
    let data := beforeMarkup c.rest
    some (⟨c.offset, data.length, .text data⟩, c.advance data.length)

theorem reaches_skipBlanks_advance {n : Nat} (hn : 0 < n) (h : n ≤ c.skipBlanks.rest.length) :
    c.Reaches (c.skipBlanks.advance n) ∧ c.offset < (c.skipBlanks.advance n).offset := by
  have hle := (reaches_skipBlanks c).offset_le
  exact ⟨(reaches_skipBlanks c).trans (reaches_advance h), by simp only [offset_advance]; omega⟩

/-- What follows the name in a start tag takes at least one byte. -/
theorem reaches_of_attributes? {as : List Attribute} {selfClosing : Bool}
    (h : c.attributes? = some (as, selfClosing, c')) : c.Reaches c' ∧ c.offset < c'.offset := by
  fun_induction attributes? c generalizing as selfClosing with
  | case1 | case3 | case6 => simp at h
  | case2 c _ hr =>
    obtain ⟨-, -, rfl⟩ := by simpa using h
    exact reaches_skipBlanks_advance (by omega) (by simp [hr])
  | case4 c _ _ hr =>
    obtain ⟨-, -, rfl⟩ := by simpa using h
    exact reaches_skipBlanks_advance (by omega) (by simp [hr])
  | case5 c _ _ _ _ hr _ ih =>
    have hskip : c.Reaches _ ∧ c.offset < _ :=
      reaches_skipBlanks_advance (n := 1) (by omega) (by simp [hr])
    exact ⟨hskip.1.trans (ih h).1, Nat.lt_trans hskip.2 (ih h).2⟩
  | case7 c _ _ _ _ _ _ _ ha ih =>
    obtain ⟨⟨as', s', d⟩, h', he⟩ := Option.map_eq_some_iff.1 h
    simp only [Prod.mk.injEq] at he
    obtain ⟨-, -, rfl⟩ := he
    have hattribute := reaches_of_attribute? ha
    have htail := ih h'
    have hblanks := reaches_skipBlanks c
    have := hblanks.offset_le
    exact ⟨(hblanks.trans hattribute.1).trans htail.1, by omega⟩

theorem reaches_of_between? {opening : Nat} {closing data : Bytes} (ho : opening ≤ c.rest.length)
    (h : c.between? opening closing = some (data, c')) :
    c.Reaches c' ∧ c.offset + opening ≤ c'.offset := by
  obtain ⟨⟨data, after⟩, hs, he⟩ := Option.map_eq_some_iff.1 h
  obtain ⟨rfl, rfl⟩ := Prod.mk.inj he
  have hle := congrArg List.length (Bytes.eq_of_splitAtFirst? hs)
  simp only [List.length_drop, List.length_append] at hle
  exact ⟨reaches_advance (by omega), by simp; omega⟩

/-- A tag or comment takes at least one byte. -/
theorem reaches_of_markup? {content : Content} (h : c.markup? = some (content, c')) :
    c.Reaches c' ∧ c.offset < c'.offset := by
  unfold markup? at h
  split at h
  · next a b rest hr =>
    have h₂ : 2 ≤ c.rest.length := by simp [hr]
    split at h
    · obtain ⟨⟨data, d⟩, hd, he⟩ := Option.map_eq_some_iff.1 h
      obtain ⟨-, rfl⟩ := Prod.mk.inj he
      split at hd
      · next hp =>
        have h₄ : 4 ≤ c.rest.length := (List.isPrefixOf_iff_prefix.1 hp).length_le
        exact (reaches_of_between? h₄ hd).imp_right (by omega)
      · exact (reaches_of_between? h₂ hd).imp_right (by omega)
    · split at h
      · obtain ⟨d, hd, he⟩ := Option.map_eq_some_iff.1 h
        obtain ⟨-, rfl⟩ := Prod.mk.inj he
        have hskip := (reaches_skipWhile isTagNamePart (c.advance 2)).trans
          (reaches_skipWhile (· != Byte.greaterThan) _)
        have hlast := reaches_of_skipByte? hd
        refine ⟨((reaches_advance h₂).trans hskip).trans hlast.1, ?_⟩
        have := hskip.offset_le
        simp only [offset_advance] at this
        omega
      · obtain ⟨⟨as, s, d⟩, hd, he⟩ := Option.map_eq_some_iff.1 h
        obtain ⟨-, rfl⟩ := Prod.mk.inj he
        have hname := reaches_skipWhile isTagNamePart (c.advance 1)
        have htail := reaches_of_attributes? hd
        refine ⟨((reaches_advance (by omega)).trans hname).trans htail.1, ?_⟩
        have := hname.offset_le
        simp only [offset_advance] at this
        omega
  · simp at h

/-- A text does not start markup, so it is not empty. -/
theorem length_beforeMarkup_pos {s : Bytes} (hs : s ≠ []) (h : startsMarkup s = false) :
    0 < (beforeMarkup s).length := by
  cases s with
  | nil => exact absurd rfl hs
  | cons b rest => simp [beforeMarkup, h]

theorem length_beforeMarkup_le (s : Bytes) : (beforeMarkup s).length ≤ s.length := by
  induction s with
  | nil => simp [beforeMarkup]
  | cons b rest ih =>
    unfold beforeMarkup
    split
    · simp
    · simpa using ih

/-- A token is read where markup starts, or it is the text in front of markup. -/
theorem next?_cases {t : Token} (h : c.next? = some (t, c')) :
    (startsMarkup c.rest = true ∧ ∃ content, c.markup? = some (content, c') ∧
      t = ⟨c.offset, c'.offset - c.offset, content⟩) ∨
    (startsMarkup c.rest = false ∧ c.rest ≠ [] ∧
      t = ⟨c.offset, (beforeMarkup c.rest).length, .text (beforeMarkup c.rest)⟩ ∧
      c' = c.advance (beforeMarkup c.rest).length) := by
  unfold next? at h
  split at h
  · cases h
  · next hne =>
    split at h
    · next hs =>
      obtain ⟨⟨content, d⟩, hd, he⟩ := Option.map_eq_some_iff.1 h
      obtain ⟨rfl, rfl⟩ := Prod.mk.inj he
      exact .inl ⟨hs, content, hd, rfl⟩
    · next hs =>
      obtain ⟨rfl, rfl⟩ := Prod.mk.inj (Option.some.inj h)
      exact .inr ⟨by simpa using hs, by simpa using hne, rfl, rfl⟩

/-- Every token takes at least one byte. -/
theorem reaches_of_next? {t : Token} (h : c.next? = some (t, c')) :
    c.Reaches c' ∧ c.offset < c'.offset := by
  obtain ⟨-, content, hd, -⟩ | ⟨hs, hne, -, rfl⟩ := next?_cases h
  · exact reaches_of_markup? hd
  · have hpos := length_beforeMarkup_pos hne hs
    exact ⟨reaches_advance (length_beforeMarkup_le _), by simpa using hpos⟩

/-! ## All tokens -/

/-- All tokens from here on, and the place where no further token follows. -/
def tokens (c : Cursor) : List Token × Cursor :=
  match _ : c.next? with
  | none => ([], c)
  | some (t, c') =>
    let (ts, stop) := c'.tokens
    (t :: ts, stop)
termination_by c.rest.length
decreasing_by exact (reaches_of_next? ‹_›).1.length_lt (reaches_of_next? ‹_›).2

end Cursor

namespace Markup

/-- The outcome of scanning a text. -/
structure Scan where
  /-- The tokens in order. -/
  tokens : List Token
  /-- The place where the scan stops. -/
  stop : Cursor
deriving DecidableEq, Repr, Inhabited

/-- All tokens of a text, and the place where the scan stops: the end of the text, or the start of a
tag or comment that the text cuts off. -/
def scan (text : Bytes) : Scan :=
  let (tokens, stop) := (Cursor.start text).tokens
  ⟨tokens, stop⟩

/-- What a scan leaves to be read again, the empty text if nothing. -/
def Scan.remainder (s : Scan) : Bytes := s.stop.rest

end Markup

end MarkupTemplate
