import MarkupTemplate.Markup.Scan

/-!
# Scanning a text that goes on

A tag or comment is read from its own bytes: whatever follows it, it is the same. So a text that
arrives in two parts can be scanned part by part, if the scan of the second part starts with what
the first one left over. Only two things depend on what follows: a text token goes on, and a `<` or
`</` at the very end may turn out to start a tag.

## Main definitions

* `Cursor.extend`: the same place when more text has arrived
* `Markup.CutsCleanly`: nothing in a text starts markup because of what follows the text
* `Markup.joinTokens`: the tokens of two parts of a text, with a text token at the seam made one

## Main results

* `Cursor.markup?_extend`: what follows a tag or comment does not change it
* `Cursor.tokens_extend`: the tokens of a text that goes on
-/

namespace MarkupTemplate

namespace Bytes

/-- What follows the first mark does not matter for finding it. -/
theorem splitAtFirst?_append {mark s before after : Bytes} (more : Bytes) (hmark : mark ≠ [])
    (h : splitAtFirst? mark s = some (before, after)) :
    splitAtFirst? mark (s ++ more) = some (before, after ++ more) := by
  obtain ⟨rfl, hfirst⟩ := (splitAtFirst?_eq_some_iff hmark).1 h
  exact (splitAtFirst?_eq_some_iff hmark).2 ⟨List.append_assoc _ _ _, hfirst⟩

end Bytes

/-- The bytes of the mark that starts a comment. -/
theorem utf8_commentMark :
    utf8 "<!--" = [Byte.lessThan, Byte.exclamation, Byte.hyphen, Byte.hyphen] := by decide

theorem utf8_greaterThan : utf8 ">" = [Byte.greaterThan] := by decide

namespace Cursor

open Markup

/-- The same place when more text has arrived. -/
def extend (more : Bytes) (c : Cursor) : Cursor := ⟨c.offset, c.rest ++ more⟩

variable {c c' : Cursor} (more : Bytes)

@[simp] theorem rest_extend (c : Cursor) : (c.extend more).rest = c.rest ++ more := rfl

@[simp] theorem offset_extend (c : Cursor) : (c.extend more).offset = c.offset := rfl

@[simp] theorem extend_nil (c : Cursor) : c.extend [] = c := by simp [extend]

theorem advance_extend {n : Nat} (h : n ≤ c.rest.length) :
    (c.extend more).advance n = (c.advance n).extend more := by
  simp [extend, advance, List.drop_append_of_le_length h]

/-! ## How a start tag goes on -/

section Attributes

variable {b d : UInt8} {r : Bytes}

theorem attributes?_of_greaterThan (h : c.skipBlanks.rest = Byte.greaterThan :: r) :
    c.attributes? = some ([], false, c.skipBlanks.advance 1) := by
  rw [attributes?]
  split <;> simp_all

theorem attributes?_of_selfClosing
    (h : c.skipBlanks.rest = Byte.slash :: Byte.greaterThan :: r) :
    c.attributes? = some ([], true, c.skipBlanks.advance 2) := by
  rw [attributes?]
  split
  · simp_all
  · next b' rest' hr =>
    rw [h] at hr
    obtain ⟨rfl, rfl⟩ := List.cons.inj hr
    have hne : Byte.slash ≠ Byte.greaterThan := by decide
    simp [hne]

theorem attributes?_of_slash (h : c.skipBlanks.rest = Byte.slash :: d :: r)
    (hd : d ≠ Byte.greaterThan) : c.attributes? = (c.skipBlanks.advance 1).attributes? := by
  rw [attributes?]
  split
  · simp_all
  · next b' rest' hr =>
    rw [h] at hr
    obtain ⟨rfl, rfl⟩ := List.cons.inj hr
    have hne : Byte.slash ≠ Byte.greaterThan := by decide
    simp [hne, hd]

theorem attributes?_of_attribute {a : Attribute} (h : c.skipBlanks.rest = b :: r)
    (hgreater : b ≠ Byte.greaterThan) (hslash : b ≠ Byte.slash)
    (ha : c.skipBlanks.attribute? = some (a, c')) :
    c.attributes? = c'.attributes?.map fun (as, selfClosing, d) => (a :: as, selfClosing, d) := by
  rw [attributes?]
  split
  · simp_all
  · next b' rest' hr =>
    rw [h] at hr
    obtain ⟨rfl, rfl⟩ := List.cons.inj hr
    simp only [hgreater, hslash, if_false]
    split <;> simp_all

theorem attributes?_of_attribute_none (h : c.skipBlanks.rest = b :: r)
    (hgreater : b ≠ Byte.greaterThan) (hslash : b ≠ Byte.slash)
    (ha : c.skipBlanks.attribute? = none) : c.attributes? = none := by
  rw [attributes?]
  split
  · rfl
  · next b' rest' hr =>
    rw [h] at hr
    obtain ⟨rfl, rfl⟩ := List.cons.inj hr
    simp only [hgreater, hslash, if_false]
    split <;> simp_all

/-- A start tag that ends before its `>`, after a slash or not, is cut off. -/
theorem attributes?_of_cut (h : c.skipBlanks.rest = [] ∨ c.skipBlanks.rest = [Byte.slash]) :
    c.attributes? = none := by
  rw [attributes?]
  split
  · rfl
  · next b' rest' hr =>
    rw [hr] at h
    obtain ⟨rfl, rfl⟩ : b' = Byte.slash ∧ rest' = [] := by simpa using h
    have hne : Byte.slash ≠ Byte.greaterThan := by decide
    simp [hne]

end Attributes

/-! ## What is read does not depend on what follows -/

section Extend

variable {p : UInt8 → Bool}

theorem takeWhile_append_of_dropWhile_ne_nil {s : Bytes} (h : s.dropWhile p ≠ []) :
    (s ++ more).takeWhile p = s.takeWhile p := by
  rw [List.takeWhile_append, if_neg]
  intro hl
  apply h
  have hs := congrArg List.length (List.takeWhile_append_dropWhile (p := p) (l := s))
  rw [List.length_append, hl] at hs
  exact List.eq_nil_of_length_eq_zero (by omega)

theorem dropWhile_append_of_dropWhile_ne_nil {s : Bytes} (h : s.dropWhile p ≠ []) :
    (s ++ more).dropWhile p = s.dropWhile p ++ more := by
  rw [List.dropWhile_append, if_neg (by simpa using h)]

theorem skipWhile_extend (h : (c.skipWhile p).rest ≠ []) :
    (c.extend more).skipWhile p = (c.skipWhile p).extend more := by
  simp only [rest_skipWhile] at h
  simp [extend, skipWhile, takeWhile_append_of_dropWhile_ne_nil more h,
    dropWhile_append_of_dropWhile_ne_nil more h]

theorem skipBlanks_extend (h : c.skipBlanks.rest ≠ []) :
    (c.extend more).skipBlanks = c.skipBlanks.extend more :=
  skipWhile_extend more h

theorem run_extend (h : (c.skipWhile p).rest ≠ []) : (c.extend more).run p = c.run p := by
  simp only [rest_skipWhile] at h
  simp [extend, run, takeWhile_append_of_dropWhile_ne_nil more h]

theorem skipByte?_extend (h : c.skipByte? = some c') :
    (c.extend more).skipByte? = some (c'.extend more) := by
  unfold skipByte? at h ⊢
  split at h
  · simp at h
  · next hr =>
    obtain rfl := Option.some.inj h
    simp [extend, hr]

theorem rest_ne_nil_of_skipByte? (h : c.skipByte? = some c') : c.rest ≠ [] := by
  intro hr
  simp [skipByte?, hr] at h

theorem rest_ne_nil_of_head? {b : UInt8} (h : c.rest.head? = some b) : c.rest ≠ [] := by
  intro hr
  simp [hr] at h

theorem head?_extend {b : UInt8} (h : c.rest.head? = some b) :
    (c.extend more).rest.head? = some b := by
  rw [rest_extend, List.head?_append, h, Option.some_or]

theorem attributeValue?_extend {v : Slice} (h : c.attributeValue? = some (v, c')) :
    (c.extend more).attributeValue? = some (v, c'.extend more) := by
  simp only [attributeValue?, Option.bind_eq_bind, Option.bind_eq_some_iff] at h ⊢
  obtain ⟨quote, hq, h⟩ := h
  refine ⟨quote, head?_extend more hq, ?_⟩
  rw [advance_extend more (length_pos_of_head? hq)]
  split at h
  · next hquote =>
    obtain ⟨d, hd, h⟩ := Option.bind_eq_some_iff.1 h
    obtain ⟨rfl, rfl⟩ := Prod.mk.inj (Option.some.inj h)
    have hinner := rest_ne_nil_of_skipByte? hd
    rw [if_pos hquote, skipWhile_extend more hinner, skipByte?_extend more hd,
      run_extend more hinner]
    rfl
  · next hquote =>
    split at h
    · simp at h
    · next hrest =>
      obtain ⟨rfl, rfl⟩ := Prod.mk.inj (Option.some.inj h)
      have hend : (c.skipWhile isUnquotedPart).rest ≠ [] := by simpa using hrest
      rw [if_neg hquote, skipWhile_extend more hend, run_extend more hend, if_neg (by simp_all)]
      rfl

theorem rest_ne_nil_of_attributeValue? {v : Slice} (h : c.attributeValue? = some (v, c')) :
    c.rest ≠ [] := by
  simp only [attributeValue?, Option.bind_eq_bind, Option.bind_eq_some_iff] at h
  obtain ⟨quote, hq, -⟩ := h
  exact rest_ne_nil_of_head? hq

/-- Skipping a run is reading as many bytes as it has. -/
theorem advance_length_run (p : UInt8 → Bool) (c : Cursor) :
    c.advance (c.run p).text.length = c.skipWhile p := by
  have hrest : c.rest.drop (c.rest.takeWhile p).length = c.rest.dropWhile p := by
    have h : (c.rest.takeWhile p ++ c.rest.dropWhile p).drop (c.rest.takeWhile p).length =
        c.rest.dropWhile p := List.drop_left
    rwa [List.takeWhile_append_dropWhile] at h
  simp [advance, skipWhile, run, hrest]

/-- After the name of an attribute the text goes on where the run of its later bytes ends. -/
theorem advance_attributeName (first : UInt8) (c : Cursor) :
    c.advance (first :: ((c.advance 1).run isAttributeNamePart).text).length =
      (c.advance 1).skipWhile isAttributeNamePart := by
  rw [← advance_length_run]
  simp only [advance, List.length_cons, List.drop_drop, Cursor.mk.injEq]
  exact ⟨by omega, by rw [Nat.add_comm]⟩

theorem attribute?_extend {a : Attribute} (h : c.attribute? = some (a, c')) :
    (c.extend more).attribute? = some (a, c'.extend more) := by
  simp only [attribute?, Option.bind_eq_bind, Option.bind_eq_some_iff] at h ⊢
  obtain ⟨first, hfirst, next, hnext, h⟩ := h
  rw [advance_attributeName] at hnext h
  -- Something follows the name and the blanks after it, so both end inside the text.
  have hblanks := rest_ne_nil_of_head? hnext
  have hname : ((c.advance 1).skipWhile isAttributeNamePart).rest ≠ [] := by
    intro hr
    rw [skipBlanks, rest_skipWhile, hr] at hblanks
    simp at hblanks
  have hskip : (c.extend more).advance 1 = (c.advance 1).extend more :=
    advance_extend more (length_pos_of_head? hfirst)
  refine ⟨first, head?_extend more hfirst, next, ?_⟩
  rw [advance_attributeName, hskip, skipWhile_extend more hname, run_extend more hname,
    skipBlanks_extend more hblanks]
  refine ⟨head?_extend more hnext, ?_⟩
  split at h
  · next hequals =>
    obtain ⟨⟨v, d⟩, hv, he⟩ := Option.map_eq_some_iff.1 h
    obtain ⟨rfl, rfl⟩ := Prod.mk.inj he
    have hblanks' := rest_ne_nil_of_attributeValue? hv
    rw [if_pos hequals, advance_extend more (length_pos_of_head? hnext),
      skipBlanks_extend more hblanks']
    exact Option.map_eq_some_iff.2 ⟨_, attributeValue?_extend more hv, rfl⟩
  · next hequals =>
    obtain ⟨rfl, rfl⟩ := Prod.mk.inj (Option.some.inj h)
    rw [if_neg hequals]
    rfl

theorem attributes?_extend {as : List Attribute} {selfClosing : Bool}
    (h : c.attributes? = some (as, selfClosing, c')) :
    (c.extend more).attributes? = some (as, selfClosing, c'.extend more) := by
  fun_induction attributes? c generalizing as selfClosing with
  | case1 | case3 | case6 => simp at h
  | case2 c rest hr =>
    obtain ⟨rfl, rfl, rfl⟩ := by simpa using h
    have hskip := skipBlanks_extend more (c := c) (by simp [hr])
    rw [attributes?_of_greaterThan (r := rest ++ more) (by simp [hskip, hr]), hskip,
      advance_extend more (by simp [hr])]
  | case4 c rest hne hr =>
    obtain ⟨rfl, rfl, rfl⟩ := by simpa using h
    have hskip := skipBlanks_extend more (c := c) (by simp [hr])
    rw [attributes?_of_selfClosing (r := rest ++ more) (by simp [hskip, hr]), hskip,
      advance_extend more (by simp [hr])]
  | case5 c d rest hd _ hr _ ih =>
    have hskip := skipBlanks_extend more (c := c) (by simp [hr])
    rw [attributes?_of_slash (r := rest ++ more) (by simp [hskip, hr]) hd, hskip,
      advance_extend more (by simp [hr])]
    exact ih h
  | case7 c b rest hr hne hne' a d ha ih =>
    obtain ⟨⟨as', selfClosing', d'⟩, h', he⟩ := Option.map_eq_some_iff.1 h
    obtain ⟨rfl, rfl, rfl⟩ := by simpa using he
    have hskip := skipBlanks_extend more (c := c) (by simp [hr])
    rw [attributes?_of_attribute (r := rest ++ more) (by simp [hskip, hr]) hne hne'
      (by rw [hskip]; exact attribute?_extend more ha), ih h']
    rfl

theorem rest_ne_nil_of_attributes? {as : List Attribute} {selfClosing : Bool}
    (h : c.attributes? = some (as, selfClosing, c')) : c.rest ≠ [] := by
  have hreach := reaches_of_attributes? h
  have hlt := hreach.1.length_lt hreach.2
  exact List.ne_nil_of_length_pos (by omega)

theorem startTag?_extend {content : Content} (h : c.startTag? = some (content, c'))
    (hc : c.rest ≠ []) : (c.extend more).startTag? = some (content, c'.extend more) := by
  simp only [startTag?] at h ⊢
  obtain ⟨⟨as, selfClosing, d⟩, hd, he⟩ := Option.map_eq_some_iff.1 h
  obtain ⟨rfl, rfl⟩ := Prod.mk.inj he
  have hname := rest_ne_nil_of_attributes? hd
  rw [advance_extend more (List.length_pos_iff.2 hc), skipWhile_extend more hname,
    run_extend more hname, attributes?_extend more hd]
  rfl

theorem endTag?_extend {content : Content} (h : c.endTag? = some (content, c'))
    (hc : 2 ≤ c.rest.length) : (c.extend more).endTag? = some (content, c'.extend more) := by
  simp only [endTag?] at h ⊢
  obtain ⟨d, hd, he⟩ := Option.map_eq_some_iff.1 h
  obtain ⟨rfl, rfl⟩ := Prod.mk.inj he
  have hclose := rest_ne_nil_of_skipByte? hd
  have hname : ((c.advance 2).skipWhile isTagNamePart).rest ≠ [] := by
    intro hr
    rw [rest_skipWhile, hr] at hclose
    simp at hclose
  rw [advance_extend more hc, skipWhile_extend more hname, skipWhile_extend more hclose,
    run_extend more hname, skipByte?_extend more hd]
  rfl

theorem between?_extend {opening : Nat} {closing data : Bytes} (hclosing : closing ≠ [])
    (ho : opening ≤ c.rest.length) (h : c.between? opening closing = some (data, c')) :
    (c.extend more).between? opening closing = some (data, c'.extend more) := by
  obtain ⟨⟨data, after⟩, hs, he⟩ := Option.map_eq_some_iff.1 h
  obtain ⟨rfl, rfl⟩ := Prod.mk.inj he
  have hlen := congrArg List.length (Bytes.eq_of_splitAtFirst? hs)
  simp only [List.length_drop, List.length_append] at hlen
  rw [between?, rest_extend, List.drop_append_of_le_length ho,
    Bytes.splitAtFirst?_append more hclosing hs, ← advance_extend more (by omega)]
  rfl

/-- What is no comment does not become one: the end of a declaration is not in `<!--`. -/
theorem not_commentMark_prefix_append {data : Bytes} (h : c.between? 2 (utf8 ">") = some (data, c'))
    (hc : ¬ utf8 "<!--" <+: c.rest) : ¬ utf8 "<!--" <+: c.rest ++ more := by
  intro hp
  obtain ⟨⟨data, after⟩, hs, -⟩ := Option.map_eq_some_iff.1 h
  have hclose : Byte.greaterThan ∈ c.rest := by
    refine List.mem_of_mem_drop (i := 2) ?_
    rw [Bytes.eq_of_splitAtFirst? hs]
    simp [utf8_greaterThan]
  rcases Nat.lt_or_ge c.rest.length 4 with hlt | hge
  · have hshort : c.rest <+: utf8 "<!--" :=
      List.prefix_of_prefix_length_le (List.prefix_append c.rest more) hp
        (by rw [utf8_commentMark]; exact Nat.le_of_lt hlt)
    have hmem := hshort.subset hclose
    rw [utf8_commentMark] at hmem
    exact absurd hmem (by decide)
  · exact hc (List.prefix_of_prefix_length_le hp (List.prefix_append c.rest more)
      (by rw [utf8_commentMark]; exact hge))

theorem comment?_extend {content : Content} (h : c.comment? = some (content, c'))
    (hc : 2 ≤ c.rest.length) : (c.extend more).comment? = some (content, c'.extend more) := by
  simp only [comment?] at h ⊢
  obtain ⟨⟨data, d⟩, hd, he⟩ := Option.map_eq_some_iff.1 h
  obtain ⟨rfl, rfl⟩ := Prod.mk.inj he
  split at hd
  · next hp =>
    have hp := List.isPrefixOf_iff_prefix.1 hp
    have hlong : 4 ≤ c.rest.length := hp.length_le
    have hp' : (utf8 "<!--").isPrefixOf (c.extend more).rest = true :=
      List.isPrefixOf_iff_prefix.2 (hp.trans (List.prefix_append c.rest more))
    rw [if_pos hp', between?_extend more (by decide) hlong hd]
    rfl
  · next hp =>
    rw [List.isPrefixOf_iff_prefix] at hp
    have hp' : ¬ (utf8 "<!--").isPrefixOf (c.extend more).rest = true :=
      mt List.isPrefixOf_iff_prefix.1 (not_commentMark_prefix_append more hd hp)
    rw [if_neg hp', between?_extend more (by decide) hc hd]
    rfl

/-- What follows a tag or comment does not change it. -/
theorem markup?_extend {content : Content} (h : c.markup? = some (content, c')) :
    (c.extend more).markup? = some (content, c'.extend more) := by
  unfold markup? at h ⊢
  split at h
  · next a b rest hr =>
    have hlen : 2 ≤ c.rest.length := by simp [hr]
    simp only [rest_extend, hr, List.cons_append]
    split at h
    · next hb => rw [if_pos hb, comment?_extend more h hlen]
    · next hb =>
      rw [if_neg hb]
      split at h
      · next hb' => rw [if_pos hb', endTag?_extend more h hlen]
      · next hb' => rw [if_neg hb', startTag?_extend more h (by simp [hr])]
  · simp at h

end Extend

end Cursor

/-! ## Where a text may be cut -/

namespace Markup

/-- No tag or comment starts in the text because of what follows it. -/
def CutsCleanly (s more : Bytes) : Prop :=
  ∀ t, t <:+ s → t ≠ [] → startsMarkup (t ++ more) = startsMarkup t

/-- The text ends with `<` or `</`, which may turn out to start a tag. -/
def endsInTagStart (s : Bytes) : Bool :=
  [Byte.lessThan].isSuffixOf s || [Byte.lessThan, Byte.slash].isSuffixOf s

theorem endsInTagStart_eq_false {s : Bytes} : endsInTagStart s = false ↔
    ¬ [Byte.lessThan] <:+ s ∧ ¬ [Byte.lessThan, Byte.slash] <:+ s := by
  rw [endsInTagStart, Bool.or_eq_false_iff, ← Bool.not_eq_true, ← Bool.not_eq_true,
    List.isSuffixOf_iff_suffix, List.isSuffixOf_iff_suffix]

/-- Whether markup starts here is known from three bytes, and from two or one unless these are `</`
or `<`. -/
theorem startsMarkup_append (more : Bytes) {s : Bytes} (hs : s ≠ []) (h₁ : s ≠ [Byte.lessThan])
    (h₂ : s ≠ [Byte.lessThan, Byte.slash]) : startsMarkup (s ++ more) = startsMarkup s := by
  match s with
  | [] => exact absurd rfl hs
  | [a] =>
    have ha : a ≠ Byte.lessThan := by simpa using h₁
    cases more <;> simp [startsMarkup, ha]
  | [a, b] =>
    have hab : ¬ (a = Byte.lessThan ∧ b = Byte.slash) := by simpa using h₂
    grind [startsMarkup]
  | a :: b :: c :: rest => rfl

/-- Where markup starts is known from the bytes that it takes to know it. -/
theorem startsMarkup_append_of_startsMarkup {s : Bytes} (h : startsMarkup s = true)
    (more : Bytes) : startsMarkup (s ++ more) = true := by
  match s with
  | [] | [_] => simp [startsMarkup] at h
  | [a, b] =>
    simp only [startsMarkup, List.head?_nil, Option.any_none, Bool.and_false, Bool.or_false] at h
    simp only [List.cons_append, startsMarkup]
    grind
  | _ :: _ :: _ :: _ => exact h

namespace CutsCleanly

variable {s more : Bytes}

theorem of_suffix {t : Bytes} (h : CutsCleanly s more) (ht : t <:+ s) : CutsCleanly t more :=
  fun u hu hne => h u (hu.trans ht) hne

theorem nil (s : Bytes) : CutsCleanly s [] := fun t _ _ => by rw [List.append_nil]

theorem of_not_endsInTagStart (h : endsInTagStart s = false) : CutsCleanly s more := by
  rw [endsInTagStart_eq_false] at h
  intro t ht hne
  refine startsMarkup_append more hne ?_ ?_
  · rintro rfl
    exact h.1 ht
  · rintro rfl
    exact h.2 ht

/-- Before a `<` every text may be cut: neither `<<` nor `</<` starts a tag. -/
theorem lessThan (s more : Bytes) : CutsCleanly s (Byte.lessThan :: more) := by
  intro t _ hne
  rcases Decidable.em (t = [Byte.lessThan]) with rfl | h₁
  · rfl
  rcases Decidable.em (t = [Byte.lessThan, Byte.slash]) with rfl | h₂
  · rfl
  exact startsMarkup_append _ hne h₁ h₂

end CutsCleanly

theorem beforeMarkup_of_startsMarkup {s : Bytes} (h : startsMarkup s = true) :
    beforeMarkup s = [] := by
  cases s with
  | nil => rfl
  | cons b rest => rw [beforeMarkup, if_pos h]

/-- What is before the markup goes on only if the text has no markup. -/
theorem beforeMarkup_append {s more : Bytes} (h : CutsCleanly s more) :
    beforeMarkup (s ++ more) =
      if beforeMarkup s = s then s ++ beforeMarkup more else beforeMarkup s := by
  induction s with
  | nil => simp [beforeMarkup]
  | cons b rest ih =>
    have hb := h (b :: rest) List.suffix_rfl (by simp)
    have hrest := ih (h.of_suffix (List.suffix_cons b rest))
    simp only [List.cons_append] at hb ⊢
    rw [beforeMarkup, beforeMarkup, hb]
    by_cases hs : startsMarkup (b :: rest) = true
    · simp [hs]
    · rw [if_neg hs, if_neg hs, hrest]
      by_cases he : beforeMarkup rest = rest <;> simp [he]

theorem ne_nil_of_startsMarkup {s : Bytes} (h : startsMarkup s = true) : s ≠ [] := by
  rintro rfl
  simp [startsMarkup] at h

/-- What is before the markup is the head of the text. -/
theorem beforeMarkup_append_drop (s : Bytes) :
    beforeMarkup s ++ s.drop (beforeMarkup s).length = s := by
  induction s with
  | nil => rfl
  | cons b rest ih =>
    rw [beforeMarkup]
    split
    · rfl
    · rw [List.length_cons, List.drop_succ_cons, List.cons_append, ih]

/-- After a text token that ends before the text does there is markup. -/
theorem startsMarkup_drop_beforeMarkup_of_ne {s : Bytes} (h : beforeMarkup s ≠ s) :
    startsMarkup (s.drop (beforeMarkup s).length) = true := by
  induction s with
  | nil => exact absurd rfl h
  | cons b rest ih =>
    rw [beforeMarkup] at h ⊢
    split
    · next hs => exact hs
    · next hs =>
      rw [if_neg hs] at h
      exact ih fun he => h (by rw [he])

end Markup

/-! ## Tokens of a text in two parts -/

namespace Markup

/-- The token is a text. -/
def Token.isText (t : Token) : Bool := t.content matches .text _

/-- A token before others; two texts become one. -/
def Token.joinTo (t : Token) : List Token → List Token
  | [] => [t]
  | u :: us =>
    match t.content, u.content with
    | .text d, .text e => ⟨t.offset, t.length + u.length, .text (d ++ e)⟩ :: us
    | _, _ => t :: u :: us

/-- Tokens of one part of a text before those of the next: a text at the seam is one text. -/
def joinTokens : List Token → List Token → List Token
  | [], us => us
  | [t], us => t.joinTo us
  | t :: t' :: ts, us => t :: joinTokens (t' :: ts) us

theorem Token.joinTo_of_not_isText {t : Token} (h : t.isText = false) (us : List Token) :
    t.joinTo us = t :: us := by
  cases us with
  | nil => rfl
  | cons u us =>
    obtain ⟨o, l, content⟩ := t
    cases content <;> simp_all [Token.isText, Token.joinTo]

theorem Token.joinTo_of_head_not_isText (t : Token) {us : List Token}
    (h : ∀ u ∈ us.head?, u.isText = false) : t.joinTo us = t :: us := by
  cases us with
  | nil => rfl
  | cons u us =>
    obtain ⟨o, l, content⟩ := u
    cases content <;> simp_all [Token.isText, Token.joinTo]

theorem joinTokens_cons (t : Token) (ts us : List Token)
    (h : ts = [] → t.joinTo us = t :: us) : joinTokens (t :: ts) us = t :: joinTokens ts us := by
  cases ts with
  | nil => exact h rfl
  | cons t' ts => rfl

end Markup

namespace Cursor

open Markup

variable {c c' : Cursor} {t : Token} (more : Bytes)

theorem tokens_of_next?_eq_none (h : c.next? = none) : c.tokens = ([], c) := by
  rw [tokens]
  split <;> simp_all

theorem tokens_of_next?_eq_some (h : c.next? = some (t, c')) :
    c.tokens = (t :: c'.tokens.1, c'.tokens.2) := by
  rw [tokens]
  split <;> simp_all

/-- What holds of every token that is read holds of all tokens. -/
theorem forall_mem_tokens {P : Token → Prop} (h : ∀ c t c', next? c = some (t, c') → P t) :
    ∀ t ∈ c.tokens.1, P t := by
  induction c using tokens.induct with
  | case1 c hnone => simp [tokens_of_next?_eq_none hnone]
  | case2 c t c' hsome ts stop hts ih =>
    rw [tokens_of_next?_eq_some hsome, List.forall_mem_cons]
    exact ⟨h c t c' hsome, ih⟩

theorem next?_of_startsMarkup (h : startsMarkup c.rest = true) :
    c.next? = c.markup?.map fun (content, c') =>
      (⟨c.offset, c'.offset - c.offset, content⟩, c') := by
  have hne : c.rest.isEmpty = false := by
    cases hr : c.rest with
    | nil => simp [hr, startsMarkup] at h
    | cons => rfl
  simp [next?, hne, h]

theorem next?_of_text (hne : c.rest ≠ []) (h : startsMarkup c.rest = false) :
    c.next? = some (⟨c.offset, (beforeMarkup c.rest).length, .text (beforeMarkup c.rest)⟩,
      c.advance (beforeMarkup c.rest).length) := by
  simp [next?, hne, h]

theorem next?_of_rest_eq_nil (h : c.rest = []) : c.next? = none := by
  simp [next?, h]

theorem not_text_of_markup? {data : Bytes} : c.markup? ≠ some (.text data, c') := by
  intro h
  unfold markup? at h
  split at h
  · simp only [comment?, endTag?, startTag?] at h
    split at h
    · simp at h
    · split at h <;> simp at h
  · simp at h

/-- Where markup starts there is no text. -/
theorem not_isText_of_startsMarkup (hs : startsMarkup c.rest = true) :
    ∀ u ∈ c.tokens.1.head?, u.isText = false := by
  intro u hu
  cases hm : c.markup? with
  | none =>
    have hnext : c.next? = none := by rw [next?_of_startsMarkup hs, hm, Option.map_none]
    simp [tokens_of_next?_eq_none hnext] at hu
  | some r =>
    obtain ⟨content, d⟩ := r
    have hnext := (next?_of_startsMarkup hs).trans (congrArg (Option.map _) hm)
    rw [tokens_of_next?_eq_some hnext] at hu
    simp only [List.head?_cons, Option.mem_some_iff] at hu
    subst hu
    cases content with
    | text data => exact absurd hm not_text_of_markup?
    | _ => rfl

theorem rest_suffix (h : c.Reaches c') : c'.rest <:+ c.rest := by
  obtain ⟨read, hr, -⟩ := h
  exact ⟨read, hr.symm⟩

/-- A text token that ends before the text does is the same when more text has arrived. -/
theorem next?_extend_of_text (hne : c.rest ≠ []) (hs : startsMarkup c.rest = false)
    (h : CutsCleanly c.rest more) (hend : beforeMarkup c.rest ≠ c.rest) :
    (c.extend more).next? =
      some (⟨c.offset, (beforeMarkup c.rest).length, .text (beforeMarkup c.rest)⟩,
        (c.advance (beforeMarkup c.rest).length).extend more) := by
  have hs' : startsMarkup (c.extend more).rest = false := by
    rw [rest_extend, h c.rest List.suffix_rfl hne, hs]
  rw [next?_of_text (by simp [hne]) hs', rest_extend, beforeMarkup_append h, if_neg hend,
    advance_extend more (length_beforeMarkup_le _)]
  rfl

/-- A text token that ends with the text goes on with the text that follows. -/
theorem tokens_extend_of_text (hne : c.rest ≠ []) (hs : startsMarkup c.rest = false)
    (h : CutsCleanly c.rest more) (hend : beforeMarkup c.rest = c.rest) :
    (c.extend more).tokens =
      (Token.joinTo ⟨c.offset, c.rest.length, .text c.rest⟩
          ((c.advance c.rest.length).extend more).tokens.1,
        ((c.advance c.rest.length).extend more).tokens.2) := by
  have hs' : startsMarkup (c.extend more).rest = false := by
    rw [rest_extend, h c.rest List.suffix_rfl hne, hs]
  have hnext := next?_of_text (c := c.extend more) (by simp [hne]) hs'
  rw [rest_extend, beforeMarkup_append h, if_pos hend] at hnext
  rw [tokens_of_next?_eq_some hnext]
  have hrest : ((c.advance c.rest.length).extend more).rest = more := by simp
  by_cases hmore : more = [] ∨ startsMarkup more = true
  · -- Nothing of what follows belongs to the text.
    have hbefore : beforeMarkup more = [] :=
      hmore.elim (fun h => by rw [h]; rfl) beforeMarkup_of_startsMarkup
    have hhead : ∀ u ∈ ((c.advance c.rest.length).extend more).tokens.1.head?,
        u.isText = false := by
      rcases hmore with hmore | hmore
      · rw [tokens_of_next?_eq_none (next?_of_rest_eq_nil (hrest.trans hmore))]
        simp
      · exact not_isText_of_startsMarkup (by rwa [hrest])
    rw [Token.joinTo_of_head_not_isText _ hhead, hbefore, List.append_nil,
      advance_extend more (Nat.le_refl _)]
    rfl
  · -- What follows starts with a text, which is the same token.
    obtain ⟨hmore, hstarts⟩ := not_or.1 hmore
    have hnext' := next?_of_text (c := (c.advance c.rest.length).extend more)
      (by rwa [hrest]) (by simpa [hrest] using hstarts)
    rw [hrest] at hnext'
    have hstop : ((c.advance c.rest.length).extend more).advance (beforeMarkup more).length =
        (c.extend more).advance (c.rest ++ beforeMarkup more).length := by
      simp [advance, extend, List.drop_append, Nat.add_assoc]
    rw [tokens_of_next?_eq_some hnext', hstop]
    simp [Token.joinTo]

theorem tokens_snd_of_fst_eq_nil (h : c.tokens.1 = []) : c.tokens.2 = c := by
  cases hn : c.next? with
  | none => rw [tokens_of_next?_eq_none hn]
  | some r => simp [tokens_of_next?_eq_some hn] at h

/-- The scan stops where there is no token. -/
theorem next?_tokens (c : Cursor) : c.tokens.2.next? = none := by
  induction c using tokens.induct with
  | case1 c hnone => rwa [tokens_of_next?_eq_none hnone]
  | case2 c t c' hsome ts stop hts ih =>
    rw [tokens_of_next?_eq_some hsome]
    exact ih

/-- The scan of a text stops at or after its start. -/
theorem reaches_tokens (c : Cursor) : c.Reaches c.tokens.2 := by
  induction c using tokens.induct with
  | case1 c hnone =>
    rw [tokens_of_next?_eq_none hnone]
    exact Reaches.refl c
  | case2 c t c' hsome ts stop hts ih =>
    rw [tokens_of_next?_eq_some hsome]
    exact (reaches_of_next? hsome).1.trans ih

/-- The tokens of a text that goes on: those of the text as it was, and those of what they leave
over together with what follows. -/
theorem tokens_extend (h : CutsCleanly c.rest more) :
    (c.extend more).tokens =
      (joinTokens c.tokens.1 (c.tokens.2.extend more).tokens.1,
        (c.tokens.2.extend more).tokens.2) := by
  induction c using tokens.induct with
  | case1 c hnone => simp [tokens_of_next?_eq_none hnone, joinTokens]
  | case2 c t c' hsome ts stop hts ih =>
    have ih := ih (h.of_suffix (rest_suffix (reaches_of_next? hsome).1))
    rw [tokens_of_next?_eq_some hsome]
    obtain ⟨hs, content, hd, rfl⟩ | ⟨hs, hne, rfl, rfl⟩ := next?_cases hsome
    · have hne := ne_nil_of_startsMarkup hs
      have hs' : startsMarkup (c.extend more).rest = true := by
        rw [rest_extend, h c.rest List.suffix_rfl hne, hs]
      have hnext := (next?_of_startsMarkup hs').trans
        (congrArg (Option.map _) (markup?_extend more hd))
      have hnot : Token.isText ⟨c.offset, c'.offset - c.offset, content⟩ = false := by
        cases content with
        | text data => exact absurd hd not_text_of_markup?
        | _ => rfl
      rw [tokens_of_next?_eq_some hnext, ih,
        joinTokens_cons _ _ _ fun _ => Token.joinTo_of_not_isText hnot _]
      rfl
    · by_cases hend : beforeMarkup c.rest = c.rest
      · have hstop : (c.advance c.rest.length).next? = none :=
          next?_of_rest_eq_nil (by simp)
        rw [tokens_extend_of_text more hne hs h hend, hend, tokens_of_next?_eq_none hstop]
        rfl
      · rw [tokens_of_next?_eq_some (next?_extend_of_text more hne hs h hend), ih,
          joinTokens_cons]
        intro hnil
        -- No token follows the text, so a tag or comment is cut off there.
        rw [tokens_snd_of_fst_eq_nil hnil]
        apply Token.joinTo_of_head_not_isText
        apply not_isText_of_startsMarkup
        have hdrop := startsMarkup_drop_beforeMarkup_of_ne hend
        rw [rest_extend, rest_advance, h _ (List.drop_suffix _ _) (ne_nil_of_startsMarkup hdrop)]
        exact hdrop

end Cursor

end MarkupTemplate
