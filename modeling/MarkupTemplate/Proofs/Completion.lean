import MarkupTemplate.Proofs.Tiling

/-!
# Where a tag that was cut off is complete

A tag or comment that a text cuts off may be complete once more text has arrived. Nothing of what is
read on the way ends inside of the first text, or else it would have been found there before. So the
tag takes all of the first text and at least one byte of what has arrived.

## Main definitions

* `Cursor.textEnd`: the offset at which the text ends
* `Markup.CutOff`: a tag or comment of which the end is missing

## Main results

* `Cursor.attributes?_of_extend`: a start tag that ends inside of the first text is read there
* `Cursor.textEnd_lt_of_markup?`: what is read only once more text has arrived ends behind the first
  text
* `Markup.scan_append_of_cutOff`: the first token of a text that starts with a tag or comment that
  was cut off
-/

namespace MarkupTemplate

namespace Cursor

open Markup

variable {c c' e : Cursor} {p : UInt8 → Bool} (more : Bytes)

/-- The offset at which the text ends. -/
def textEnd (c : Cursor) : Nat := c.offset + c.rest.length

theorem Reaches.textEnd_eq (h : c.Reaches c') : c'.textEnd = c.textEnd := h.offset_add_length

theorem textEnd_advance {n : Nat} (h : n ≤ c.rest.length) : (c.advance n).textEnd = c.textEnd :=
  (reaches_advance h).textEnd_eq

/-- A run that goes on to the end of the text does not end before it when more text arrives. -/
theorem textEnd_le_skipWhile (h : (c.skipWhile p).rest = []) :
    c.textEnd ≤ ((c.extend more).skipWhile p).offset := by
  have hall : c.rest.takeWhile p = c.rest := by
    have hsplit := List.takeWhile_append_dropWhile (p := p) (l := c.rest)
    rwa [show c.rest.dropWhile p = [] from h, List.append_nil] at hsplit
  simp only [textEnd, extend, skipWhile, List.takeWhile_append, hall, if_true, List.length_append]
  omega

/-- What is skipped ends inside of the text, and then it does not depend on what has arrived. -/
theorem skipWhile_extend_of_lt (h : ((c.extend more).skipWhile p).offset < c.textEnd) :
    (c.skipWhile p).rest ≠ [] ∧ (c.extend more).skipWhile p = (c.skipWhile p).extend more := by
  have hne : (c.skipWhile p).rest ≠ [] := fun hnil =>
    Nat.not_lt.2 (textEnd_le_skipWhile more hnil) h
  exact ⟨hne, skipWhile_extend more hne⟩

/-- What is read inside of a text is read from a place at which the text has not ended. -/
theorem length_pos_of_reaches (h : (c.extend more).Reaches e) (hlt : e.offset < c.textEnd) :
    1 ≤ c.rest.length := by
  have hle := h.offset_le
  rw [offset_extend] at hle
  rw [textEnd] at hlt
  omega

theorem head?_of_extend {b : UInt8} (hlen : 1 ≤ c.rest.length)
    (h : (c.extend more).rest.head? = some b) : c.rest.head? = some b := by
  rwa [rest_extend, List.head?_append_of_ne_nil _ (List.length_pos_iff.1 hlen)] at h

/-! ## Attributes -/

theorem attributeValue?_of_extend {v : Slice} (h : (c.extend more).attributeValue? = some (v, e))
    (hlt : e.offset < c.textEnd) : c.attributeValue?.isSome := by
  have hlen := length_pos_of_reaches more (reaches_of_attributeValue? h) hlt
  simp only [attributeValue?, Option.bind_eq_bind, Option.bind_eq_some_iff] at h
  obtain ⟨quote, hquote, h⟩ := h
  rw [attributeValue?, head?_of_extend more hlen hquote, Option.bind_eq_bind, Option.bind_some]
  split at h
  · next hquoted =>
    obtain ⟨f, hf, h⟩ := Option.bind_eq_some_iff.1 h
    obtain ⟨-, rfl⟩ := Prod.mk.inj (Option.some.inj h)
    rw [advance_extend more hlen] at hf
    have hlast := (reaches_of_skipByte? hf).2
    -- The second quote stands inside of the text.
    obtain ⟨hclosed, -⟩ := skipWhile_extend_of_lt (c := c.advance 1) (p := (· != quote)) more
      (by rw [textEnd_advance hlen]; omega)
    obtain ⟨b, rest, hrest⟩ := List.exists_cons_of_ne_nil hclosed
    simp only [if_pos hquoted, skipByte?, hrest]
    rfl
  · next hquoted =>
    split at h
    · cases h
    · obtain ⟨-, rfl⟩ := Prod.mk.inj (Option.some.inj h)
      obtain ⟨hends, -⟩ := skipWhile_extend_of_lt more hlt
      rw [if_neg hquoted, if_neg (by simpa using hends)]
      rfl

theorem skipBlanks_extend_of_lt (h : (c.extend more).skipBlanks.offset < c.textEnd) :
    1 ≤ c.skipBlanks.rest.length ∧ (c.extend more).skipBlanks = c.skipBlanks.extend more :=
  (skipWhile_extend_of_lt more h).imp_left List.length_pos_iff.2

theorem textEnd_skipBlanks (c : Cursor) : c.skipBlanks.textEnd = c.textEnd :=
  (reaches_skipBlanks c).textEnd_eq

theorem attribute?_of_extend {a : Attribute} (h : (c.extend more).attribute? = some (a, e))
    (hlt : e.offset < c.textEnd) : c.attribute?.isSome := by
  have hlen := length_pos_of_reaches more (reaches_of_attribute? h).1 hlt
  simp only [attribute?, Option.bind_eq_bind, Option.bind_eq_some_iff] at h
  obtain ⟨first, hfirst, next, hnext, h⟩ := h
  rw [advance_attributeName, advance_extend more hlen] at hnext h
  simp only [attribute?, head?_of_extend more hlen hfirst, Option.bind_eq_bind, Option.bind_some,
    advance_attributeName]
  -- What comes after the name and the blanks behind it is still read inside of the text.
  have hafter : (((c.advance 1).extend more).skipWhile isAttributeNamePart).skipBlanks.offset ≤
      e.offset := by
    split at h
    · obtain ⟨⟨v, f⟩, hv, he⟩ := Option.map_eq_some_iff.1 h
      obtain ⟨-, rfl⟩ := Prod.mk.inj he
      exact (((reaches_advance (length_pos_of_head? hnext)).trans (reaches_skipBlanks _)).trans
        (reaches_of_attributeValue? hv)).offset_le
    · obtain ⟨-, rfl⟩ := Prod.mk.inj (Option.some.inj h)
      exact Nat.le_refl _
  have hend : ((c.advance 1).skipWhile isAttributeNamePart).textEnd = c.textEnd := by
    rw [(reaches_skipWhile _ _).textEnd_eq, textEnd_advance hlen]
  obtain ⟨-, hname⟩ := skipWhile_extend_of_lt (c := c.advance 1) (p := isAttributeNamePart) more
    (Nat.lt_of_le_of_lt (Nat.le_trans (reaches_skipBlanks _).offset_le hafter)
      (by rwa [textEnd_advance hlen]))
  rw [hname] at hnext h hafter
  generalize (c.advance 1).skipWhile isAttributeNamePart = name at hend hnext h hafter ⊢
  obtain ⟨hpos, hblanks⟩ := skipBlanks_extend_of_lt (c := name) more (by omega)
  rw [hblanks] at hnext h
  rw [head?_of_extend more hpos hnext, Option.bind_some]
  split at h
  · next hequals =>
    obtain ⟨⟨v, f⟩, hv, he⟩ := Option.map_eq_some_iff.1 h
    obtain ⟨-, rfl⟩ := Prod.mk.inj he
    rw [advance_extend more hpos] at hv
    have hsign : (name.skipBlanks.advance 1).textEnd = c.textEnd := by
      rw [textEnd_advance hpos, textEnd_skipBlanks, hend]
    obtain ⟨-, hvalue⟩ := skipBlanks_extend_of_lt (c := name.skipBlanks.advance 1) more
      (hsign ▸ Nat.lt_of_le_of_lt (reaches_of_attributeValue? hv).offset_le hlt)
    rw [hvalue] at hv
    rw [if_pos hequals, Option.isSome_map]
    exact attributeValue?_of_extend more hv (by rw [textEnd_skipBlanks, hsign]; exact hlt)
  · next hequals =>
    rw [if_neg hequals]
    rfl

/-- What follows the name in a start tag takes at least one byte that is not blank. -/
theorem skipBlanks_lt_of_attributes? {as : List Attribute} {selfClosing : Bool}
    (h : c.attributes? = some (as, selfClosing, e)) : c.skipBlanks.offset < e.offset := by
  fun_induction attributes? c generalizing as selfClosing with
  | case1 | case3 | case6 => simp at h
  | case2 c | case4 c =>
    obtain ⟨-, -, rfl⟩ := by simpa using h
    simp only [offset_advance]
    omega
  | case5 c =>
    have hlater := (reaches_of_attributes? h).2
    rw [offset_advance] at hlater
    omega
  | case7 c _ _ _ _ _ a c' ha ih =>
    obtain ⟨⟨as', s', f⟩, h', he⟩ := Option.map_eq_some_iff.1 h
    simp only [Prod.mk.injEq] at he
    obtain ⟨-, -, rfl⟩ := he
    exact Nat.lt_trans (reaches_of_attribute? ha).2 (reaches_of_attributes? h').2

/-- What follows the name in a start tag is in the text, if it does not end behind it. -/
theorem attributes?_of_extend {as : List Attribute} {selfClosing : Bool}
    (h : (c.extend more).attributes? = some (as, selfClosing, e)) (hle : e.offset ≤ c.textEnd) :
    c.attributes?.isSome := by
  have hlater := skipBlanks_lt_of_attributes? h
  fun_induction attributes? c generalizing as selfClosing with
  | case2 | case4 => rfl
  | case1 c hr =>
    obtain ⟨hpos, -⟩ := skipBlanks_extend_of_lt more (Nat.lt_of_lt_of_le hlater hle)
    simp [hr] at hpos
  | case3 c _ hr =>
    obtain ⟨-, hskip⟩ := skipBlanks_extend_of_lt more (Nat.lt_of_lt_of_le hlater hle)
    have hend : c.skipBlanks.offset + 1 = c.textEnd := by
      rw [← textEnd_skipBlanks, textEnd, hr, List.length_singleton]
    -- A slash at the end of the text does not end the tag.
    cases more with
    | nil =>
      rw [attributes?_of_cut (.inr (by simp [hr]))] at h
      cases h
    | cons b r =>
      by_cases hb : b = Byte.greaterThan
      · subst hb
        rw [attributes?_of_selfClosing (r := r) (by simp [hskip, hr])] at h
        obtain ⟨-, -, rfl⟩ := by simpa using h
        rw [hskip, offset_advance, offset_extend] at hle
        omega
      · rw [attributes?_of_slash (r := r) (by simp [hskip, hr]) hb] at h
        have hlast := (reaches_of_attributes? h).2
        rw [hskip, offset_advance, offset_extend] at hlast
        omega
  | case5 c b rest hb _ hr _ ih =>
    obtain ⟨hpos, hskip⟩ := skipBlanks_extend_of_lt more (Nat.lt_of_lt_of_le hlater hle)
    rw [attributes?_of_slash (r := rest ++ more) (by simp [hskip, hr]) hb, hskip,
      advance_extend more hpos] at h
    exact ih h (by rwa [textEnd_advance hpos, textEnd_skipBlanks]) (skipBlanks_lt_of_attributes? h)
  | case6 c b rest hr hgreater hslash hnone =>
    obtain ⟨-, hskip⟩ := skipBlanks_extend_of_lt more (Nat.lt_of_lt_of_le hlater hle)
    have hrest : (c.extend more).skipBlanks.rest = b :: (rest ++ more) := by simp [hskip, hr]
    cases ha : (c.extend more).skipBlanks.attribute? with
    | none =>
      rw [attributes?_of_attribute_none hrest hgreater hslash ha] at h
      cases h
    | some read =>
      obtain ⟨a, f⟩ := read
      rw [attributes?_of_attribute hrest hgreater hslash ha] at h
      obtain ⟨⟨as', s', g⟩, h', he⟩ := Option.map_eq_some_iff.1 h
      obtain ⟨-, -, rfl⟩ := by simpa using he
      rw [hskip] at ha
      -- Something of the tag comes after the attribute, which therefore is in the text.
      have hsome := attribute?_of_extend more ha (by
        rw [textEnd_skipBlanks]
        exact Nat.lt_of_lt_of_le (reaches_of_attributes? h').2 hle)
      rw [hnone] at hsome
      cases hsome
  | case7 c b rest hr hgreater hslash a c' ha ih =>
    obtain ⟨-, hskip⟩ := skipBlanks_extend_of_lt more (Nat.lt_of_lt_of_le hlater hle)
    rw [attributes?_of_attribute (r := rest ++ more) (by simp [hskip, hr]) hgreater hslash
      (by rw [hskip]; exact attribute?_extend more ha)] at h
    obtain ⟨⟨as', s', g⟩, h', he⟩ := Option.map_eq_some_iff.1 h
    obtain ⟨-, -, rfl⟩ := by simpa using he
    rw [Option.isSome_map]
    refine ih h' ?_ (skipBlanks_lt_of_attributes? h')
    rwa [(reaches_of_attribute? ha).1.textEnd_eq, textEnd_skipBlanks]

/-! ## Tags and comments -/

theorem startTag?_of_extend {content : Content} (hlen : 1 ≤ c.rest.length)
    (h : (c.extend more).startTag? = some (content, e)) (hle : e.offset ≤ c.textEnd) :
    c.startTag?.isSome := by
  obtain ⟨⟨as, selfClosing, f⟩, hf, he⟩ := Option.map_eq_some_iff.1 h
  obtain ⟨-, rfl⟩ := Prod.mk.inj he
  rw [advance_extend more hlen] at hf
  have hend : ((c.advance 1).skipWhile isTagNamePart).textEnd = c.textEnd := by
    rw [(reaches_skipWhile _ _).textEnd_eq, textEnd_advance hlen]
  obtain ⟨-, hname⟩ := skipWhile_extend_of_lt (c := c.advance 1) (p := isTagNamePart) more
    (Nat.lt_of_lt_of_le (reaches_of_attributes? hf).2 (by rwa [textEnd_advance hlen]))
  rw [hname] at hf
  rw [startTag?, Option.isSome_map]
  exact attributes?_of_extend more hf (by rwa [hend])

theorem endTag?_of_extend {content : Content} (hlen : 2 ≤ c.rest.length)
    (h : (c.extend more).endTag? = some (content, e)) (hle : e.offset ≤ c.textEnd) :
    c.endTag?.isSome := by
  obtain ⟨f, hf, he⟩ := Option.map_eq_some_iff.1 h
  obtain ⟨-, rfl⟩ := Prod.mk.inj he
  rw [advance_extend more hlen] at hf
  have hlast := (reaches_of_skipByte? hf).2
  have hend : ((c.advance 2).skipWhile isTagNamePart).textEnd = c.textEnd := by
    rw [(reaches_skipWhile _ _).textEnd_eq, textEnd_advance hlen]
  -- Both the name and what is skipped after it end inside of the text.
  have hfirst := (reaches_skipWhile (· != Byte.greaterThan)
    (((c.advance 2).extend more).skipWhile isTagNamePart)).offset_le
  obtain ⟨-, hname⟩ := skipWhile_extend_of_lt (c := c.advance 2) (p := isTagNamePart) more
    (by rw [textEnd_advance hlen]; omega)
  rw [hname] at hlast
  obtain ⟨hclosed, -⟩ := skipWhile_extend_of_lt (p := (· != Byte.greaterThan)) more
    (c := (c.advance 2).skipWhile isTagNamePart) (by rw [hend]; omega)
  obtain ⟨b, rest, hrest⟩ := List.exists_cons_of_ne_nil hclosed
  rw [endTag?, Option.isSome_map]
  simp only [skipByte?, hrest]
  rfl

theorem between?_of_extend {opening : Nat} {closing data : Bytes} (hclosing : closing ≠ [])
    (hlen : opening ≤ c.rest.length) (h : (c.extend more).between? opening closing = some (data, e))
    (hle : e.offset ≤ c.textEnd) : (c.between? opening closing).isSome := by
  obtain ⟨⟨before, after⟩, hsplit, he⟩ := Option.map_eq_some_iff.1 h
  obtain ⟨rfl, rfl⟩ := Prod.mk.inj he
  rw [rest_extend, List.drop_append_of_le_length hlen] at hsplit
  obtain ⟨htext, hfirst⟩ := (Bytes.splitAtFirst?_eq_some_iff hclosing).1 hsplit
  rw [offset_advance, offset_extend, textEnd] at hle
  -- The closing mark stands inside of the text.
  obtain ⟨rest, hrest⟩ : before ++ closing <+: c.rest.drop opening := by
    refine List.prefix_of_prefix_length_le ⟨after, htext.symm⟩ (List.prefix_append _ more) ?_
    rw [List.length_append, List.length_drop]
    omega
  rw [between?, Option.isSome_map,
    (Bytes.splitAtFirst?_eq_some_iff hclosing).2 ⟨hrest.symm, hfirst⟩]
  rfl

theorem comment?_of_extend {content : Content} (hlen : 2 ≤ c.rest.length)
    (h : (c.extend more).comment? = some (content, e)) (hle : e.offset ≤ c.textEnd) :
    c.comment?.isSome := by
  obtain ⟨⟨data, f⟩, hf, he⟩ := Option.map_eq_some_iff.1 h
  obtain ⟨-, rfl⟩ := Prod.mk.inj he
  rw [comment?, Option.isSome_map]
  split at hf
  · next hmark =>
    have hmark' := List.isPrefixOf_iff_prefix.1 hmark
    have hlong : 4 ≤ c.rest.length := by
      have hfour : 4 ≤ (c.extend more).rest.length := hmark'.length_le
      have hinner := (reaches_of_between? hfour hf).2
      rw [offset_extend] at hinner
      rw [textEnd] at hle
      omega
    have hinside : utf8 "<!--" <+: c.rest :=
      List.prefix_of_prefix_length_le hmark' (List.prefix_append _ more) hlong
    rw [if_pos (List.isPrefixOf_iff_prefix.2 hinside)]
    exact between?_of_extend more (by decide) hlong hf hle
  · next hmark =>
    have hinside : ¬ (utf8 "<!--").isPrefixOf c.rest = true := fun hp => hmark
      (List.isPrefixOf_iff_prefix.2 ((List.isPrefixOf_iff_prefix.1 hp).trans
        (List.prefix_append _ more)))
    rw [if_neg hinside]
    exact between?_of_extend more (by decide) hlen hf hle

/-- A tag or comment that a text cuts off ends behind the text once it is complete. -/
theorem textEnd_lt_of_markup? {content : Content} (hstarts : startsMarkup c.rest = true)
    (hnone : c.markup? = none) (h : (c.extend more).markup? = some (content, e)) :
    c.textEnd < e.offset := by
  refine Nat.lt_of_not_le fun hle => ?_
  obtain ⟨a, b, rest, hrest⟩ : ∃ a b rest, c.rest = a :: b :: rest := by
    match hr : c.rest with
    | [] | [_] =>
      rw [hr] at hstarts
      cases hstarts
    | a :: b :: rest => exact ⟨a, b, rest, rfl⟩
  have hlen : 2 ≤ c.rest.length := by simp [hrest]
  have hsome : c.markup?.isSome := by
    simp only [markup?, rest_extend, hrest, List.cons_append] at h ⊢
    split at h
    · next hb =>
      rw [if_pos hb]
      exact comment?_of_extend more hlen h hle
    · next hb =>
      rw [if_neg hb]
      split at h
      · next hb' =>
        rw [if_pos hb']
        exact endTag?_of_extend more hlen h hle
      · next hb' =>
        rw [if_neg hb']
        exact startTag?_of_extend more (Nat.le_of_succ_le hlen) h hle
  rw [hnone] at hsome
  cases hsome

end Cursor

/-! ## The first token of a text that goes on -/

namespace Markup

/-- The text is the start of a tag or comment of which the end is missing: nothing of it is read. -/
structure CutOff (text : Bytes) : Prop where
  starts : startsMarkup text = true
  tokens : (scan text).tokens = []

/-- What a scan leaves over is cut off. -/
theorem cutOff_remainder {text : Bytes} (h : (scan text).remainder ≠ []) :
    CutOff (scan text).remainder := by
  refine ⟨startsMarkup_remainder h, ?_⟩
  have hnone : (Cursor.start (scan text).remainder).next? = none := by
    have hstop : (scan text).stop.next? = none := Cursor.next?_tokens _
    have hshift : (Cursor.start (scan text).remainder).shift (scan text).stop.offset =
        (scan text).stop := by simp [Cursor.shift, Scan.remainder]
    rw [← hshift, Cursor.next?_shift, Option.map_eq_none_iff] at hstop
    exact hstop
  exact congrArg Prod.fst (Cursor.tokens_of_next?_eq_none hnone)

/-- A tag or comment that a text cuts off is the first that is read once more text has arrived:
either it is complete then, and takes all of the text and something of what has arrived, or it is
still cut off, and nothing is read. -/
theorem scan_append_of_cutOff {carried : Bytes} (h : CutOff carried) (more : Bytes) :
    (∃ t ts, (scan (carried ++ more)).tokens = t :: ts ∧ t.offset = 0 ∧ t.isText = false ∧
        carried.length < t.length) ∨
      (scan (carried ++ more)).tokens = [] ∧
        (scan (carried ++ more)).stop = .start (carried ++ more) := by
  obtain ⟨hstarts, hcut⟩ := h
  have hstarts' : startsMarkup (Cursor.start (carried ++ more)).rest = true :=
    startsMarkup_append_of_startsMarkup hstarts more
  have hnone : (Cursor.start carried).markup? = none := by
    have hnext : (Cursor.start carried).next? = none := by
      cases hnext : (Cursor.start carried).next? with
      | none => rfl
      | some read =>
        have htokens := congrArg Prod.fst (Cursor.tokens_of_next?_eq_some hnext)
        exact absurd (htokens.symm.trans hcut) (List.cons_ne_nil _ _)
    rw [Cursor.next?_of_startsMarkup hstarts, Option.map_eq_none_iff] at hnext
    exact hnext
  cases hmarkup : (Cursor.start (carried ++ more)).markup? with
  | none =>
    right
    have hnext : (Cursor.start (carried ++ more)).next? = none := by
      rw [Cursor.next?_of_startsMarkup hstarts', hmarkup, Option.map_none]
    have htokens := Cursor.tokens_of_next?_eq_none hnext
    exact ⟨congrArg Prod.fst htokens, congrArg Prod.snd htokens⟩
  | some read =>
    left
    obtain ⟨content, stop⟩ := read
    have hnext := (Cursor.next?_of_startsMarkup hstarts').trans (congrArg (Option.map _) hmarkup)
    have htokens := congrArg Prod.fst (Cursor.tokens_of_next?_eq_some hnext)
    have hlt := Cursor.textEnd_lt_of_markup? (c := .start carried) more hstarts hnone hmarkup
    refine ⟨_, _, htokens, rfl, ?_, by simpa [Cursor.textEnd] using hlt⟩
    exact Cursor.not_isText_of_startsMarkup hstarts' _ (by
      rw [show (Cursor.start (carried ++ more)).tokens.1 = _ from htokens]
      rfl)

end Markup

end MarkupTemplate
