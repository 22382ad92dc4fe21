import MarkupTemplate.Proofs.Resumption

/-!
# Scanning further on in a text

What was read before a place changes the offsets of the tokens from there on, and nothing else. So
what the scan of a text leaves over can be scanned again as a text of its own, and a text in two
parts is scanned as one.

## Main definitions

* `Cursor.shift`, `Markup.Token.shift`: the same place, and the same token, with more bytes before
  it

## Main results

* `Cursor.tokens_shift`: tokens do not depend on what was read before, their offsets apart
* `Markup.scan_append`, `Markup.remainder_append`: scanning a text in two parts
* `Markup.scan_resumes`: the scan of a text goes on from where the scan of its first part stopped
-/

namespace MarkupTemplate

/-- The same part of a text with `n` more bytes before it. -/
def Slice.shift (n : Nat) (s : Slice) : Slice := ⟨s.offset + n, s.text⟩

namespace Markup

/-- The same attribute with `n` more bytes before it. -/
def Attribute.shift (n : Nat) (a : Attribute) : Attribute :=
  ⟨a.name.shift n, a.value.map (Slice.shift n)⟩

/-- The same meaning with `n` more bytes before it. -/
def Content.shift (n : Nat) : Content → Content
  | .startTag name attributes selfClosing =>
    .startTag (name.shift n) (attributes.map (Attribute.shift n)) selfClosing
  | .endTag name => .endTag (name.shift n)
  | content => content

/-- The same token with `n` more bytes before it. -/
def Token.shift (n : Nat) (t : Token) : Token := ⟨t.offset + n, t.length, t.content.shift n⟩

end Markup

namespace Cursor

open Markup

/-- The same place with `n` more bytes before it. -/
def shift (n : Nat) (c : Cursor) : Cursor := ⟨c.offset + n, c.rest⟩

variable (n : Nat) (c : Cursor)

@[simp] theorem rest_shift : (c.shift n).rest = c.rest := rfl

@[simp] theorem offset_shift : (c.shift n).offset = c.offset + n := rfl

theorem advance_shift (k : Nat) : (c.shift n).advance k = (c.advance k).shift n := by
  simp [advance, shift, Nat.add_right_comm]

theorem skipWhile_shift (p : UInt8 → Bool) :
    (c.shift n).skipWhile p = (c.skipWhile p).shift n := by
  simp [skipWhile, shift, Nat.add_right_comm]

theorem skipBlanks_shift : (c.shift n).skipBlanks = c.skipBlanks.shift n := skipWhile_shift n c _

theorem run_shift (p : UInt8 → Bool) : (c.shift n).run p = (c.run p).shift n := rfl

theorem skipByte?_shift : (c.shift n).skipByte? = c.skipByte?.map (shift n) := by
  obtain ⟨offset, rest⟩ := c
  cases rest <;> simp [skipByte?, shift, Nat.add_right_comm]

theorem attributeValue?_shift :
    (c.shift n).attributeValue? =
      c.attributeValue?.map fun (value, d) => (value.shift n, d.shift n) := by
  simp only [attributeValue?, rest_shift, advance_shift, skipWhile_shift, skipByte?_shift,
    run_shift, Option.bind_eq_bind]
  cases c.rest.head? with
  | none => rfl
  | some quote =>
    simp only [Option.bind_some]
    split
    · cases ((c.advance 1).skipWhile (· != quote)).skipByte? <;> rfl
    · split <;> rfl

theorem attribute?_shift :
    (c.shift n).attribute? = c.attribute?.map fun (a, d) => (a.shift n, d.shift n) := by
  simp only [attribute?, rest_shift, offset_shift, advance_shift, run_shift, Slice.shift,
    skipBlanks_shift, Option.bind_eq_bind]
  cases c.rest.head? with
  | none => rfl
  | some first =>
    simp only [Option.bind_some]
    generalize (c.advance (first :: ((c.advance 1).run isAttributeNamePart).text).length).skipBlanks
      = d
    cases d.rest.head? with
    | none => rfl
    | some next =>
      simp only [Option.bind_some, attributeValue?_shift]
      split
      · cases (d.advance 1).skipBlanks.attributeValue? <;> rfl
      · rfl

theorem attributes?_shift :
    (c.shift n).attributes? =
      c.attributes?.map fun (as, selfClosing, d) =>
        (as.map (Attribute.shift n), selfClosing, d.shift n) := by
  induction c using attributes?.induct with
  | case1 c hr =>
    rw [attributes?_of_cut (.inl hr), attributes?_of_cut (.inl (by rwa [skipBlanks_shift]))]
    rfl
  | case2 c rest hr =>
    rw [attributes?_of_greaterThan hr, attributes?_of_greaterThan (r := rest)
      (by rwa [skipBlanks_shift]), skipBlanks_shift, advance_shift]
    rfl
  | case3 c _ hr =>
    rw [attributes?_of_cut (.inr hr), attributes?_of_cut (.inr (by rwa [skipBlanks_shift]))]
    rfl
  | case4 c rest _ hr =>
    rw [attributes?_of_selfClosing hr, attributes?_of_selfClosing (r := rest)
      (by rwa [skipBlanks_shift]), skipBlanks_shift, advance_shift]
    rfl
  | case5 c d rest hd _ hr _ ih =>
    rw [attributes?_of_slash hr hd, attributes?_of_slash (r := rest)
      (by rwa [skipBlanks_shift]) hd, skipBlanks_shift, advance_shift, ih]
  | case6 c b rest hr hne hne' ha =>
    rw [attributes?_of_attribute_none hr hne hne' ha, attributes?_of_attribute_none (r := rest)
      (by rwa [skipBlanks_shift]) hne hne' (by rw [skipBlanks_shift, attribute?_shift, ha]; rfl)]
    rfl
  | case7 c b rest hr hne hne' a d ha ih =>
    rw [attributes?_of_attribute hr hne hne' ha, attributes?_of_attribute (r := rest)
      (by rwa [skipBlanks_shift]) hne hne' (by rw [skipBlanks_shift, attribute?_shift, ha]; rfl),
      ih, Option.map_map, Option.map_map]
    rfl

theorem startTag?_shift :
    (c.shift n).startTag? = c.startTag?.map fun (content, d) => (content.shift n, d.shift n) := by
  simp only [startTag?, advance_shift, skipWhile_shift, run_shift, attributes?_shift,
    Option.map_map]
  rfl

theorem endTag?_shift :
    (c.shift n).endTag? = c.endTag?.map fun (content, d) => (content.shift n, d.shift n) := by
  simp only [endTag?, advance_shift, skipWhile_shift, run_shift, skipByte?_shift, Option.map_map]
  rfl

theorem comment?_shift :
    (c.shift n).comment? = c.comment?.map fun (content, d) => (content.shift n, d.shift n) := by
  simp only [comment?, between?, rest_shift, advance_shift]
  split <;> simp only [Option.map_map] <;> rfl

theorem markup?_shift :
    (c.shift n).markup? = c.markup?.map fun (content, d) => (content.shift n, d.shift n) := by
  simp only [markup?, rest_shift, comment?_shift, endTag?_shift, startTag?_shift]
  split
  · split
    · rfl
    · split <;> rfl
  · rfl

theorem next?_shift :
    (c.shift n).next? = c.next?.map fun (t, d) => (t.shift n, d.shift n) := by
  simp only [next?, rest_shift, offset_shift, markup?_shift, advance_shift, Option.map_map]
  split
  · rfl
  · split
    · cases c.markup? <;> simp [Token.shift, Nat.add_sub_add_right]
    · rfl

/-- What was read before a place changes the offsets of the tokens from there on, and nothing
else. -/
theorem tokens_shift :
    (c.shift n).tokens = (c.tokens.1.map (Token.shift n), c.tokens.2.shift n) := by
  induction c using tokens.induct with
  | case1 c hnone =>
    have hnone' : (c.shift n).next? = none := by rw [next?_shift, hnone, Option.map_none]
    rw [tokens_of_next?_eq_none hnone, tokens_of_next?_eq_none hnone']
    rfl
  | case2 c t c' hsome ts stop hts ih =>
    have hsome' := (next?_shift n c).trans (congrArg (Option.map _) hsome)
    rw [tokens_of_next?_eq_some hsome, tokens_of_next?_eq_some hsome', ih]
    rfl

end Cursor

/-! ## Scanning a text in two parts -/

namespace Markup

/-- A text in two parts is scanned as one: what the first part cuts off is scanned again before the
second part. -/
theorem scan_append {x y : Bytes} (h : CutsCleanly x y) :
    let after := scan ((scan x).remainder ++ y)
    (scan (x ++ y)).tokens =
        joinTokens (scan x).tokens (after.tokens.map (Token.shift (scan x).stop.offset)) ∧
      (scan (x ++ y)).stop = after.stop.shift (scan x).stop.offset := by
  have hsame : (Cursor.start x).tokens.2.extend y =
      (Cursor.start ((scan x).remainder ++ y)).shift (scan x).stop.offset := by
    simp [Cursor.extend, Cursor.shift, Scan.remainder, scan]
  have htokens : (Cursor.start (x ++ y)).tokens = _ := Cursor.tokens_extend (c := .start x) y h
  rw [hsame, Cursor.tokens_shift] at htokens
  exact ⟨congrArg Prod.fst htokens, congrArg Prod.snd htokens⟩

theorem remainder_append {x y : Bytes} (h : CutsCleanly x y) :
    (scan (x ++ y)).remainder = (scan ((scan x).remainder ++ y)).remainder := by
  rw [Scan.remainder, (scan_append h).2]
  rfl

/-- A scan leaves over what comes after the place where it stops. -/
theorem remainder_scan (text : Bytes) :
    (scan text).remainder = text.drop (scan text).stop.offset := by
  obtain ⟨read, htext, hoffset⟩ := Cursor.reaches_tokens (.start text)
  change text = read ++ (scan text).remainder at htext
  change (scan text).stop.offset = 0 + read.length at hoffset
  rw [hoffset, Nat.zero_add]
  exact (congrArg (List.drop read.length) htext |>.trans List.drop_left).symm

theorem stop_offset_le (text : Bytes) : (scan text).stop.offset ≤ text.length := by
  have hsum := (Cursor.reaches_tokens (.start text)).offset_add_length
  change (scan text).stop.offset + (scan text).remainder.length = 0 + text.length at hsum
  omega

/-- A scan leaves nothing over, or the start of a tag or comment that the text cuts off. -/
theorem startsMarkup_remainder {text : Bytes} (h : (scan text).remainder ≠ []) :
    startsMarkup (scan text).remainder = true := by
  have hnone : (scan text).stop.next? = none := Cursor.next?_tokens _
  rw [← Bool.not_eq_false]
  intro hs
  rw [Cursor.next?_of_text h hs] at hnone
  exact Option.some_ne_none _ hnone

/-- Tokens of which the first is no text are simply added. -/
theorem joinTokens_of_head_not_isText (ts : List Token) {us : List Token}
    (h : ∀ u ∈ us.head?, u.isText = false) : joinTokens ts us = ts ++ us := by
  induction ts with
  | nil => rfl
  | cons t ts ih =>
    rw [joinTokens_cons t ts us fun _ => t.joinTo_of_head_not_isText h, ih, List.cons_append]

theorem Token.isText_shift (n : Nat) (t : Token) : (t.shift n).isText = t.isText := by
  obtain ⟨offset, length, content⟩ := t
  cases content <;> rfl

/-- A scan goes on from where it stopped. If it left something over, that is read again before the
second part; otherwise a text that ends the first part and one that starts the second are one. -/
theorem scan_resumes {x : Bytes} (y : Bytes) (h : endsInTagStart x = false) :
    let stop := (scan x).stop.offset
    let after := scan (x.drop stop ++ y)
    (scan (x ++ y)).tokens =
        (if stop = x.length then joinTokens (scan x).tokens (after.tokens.map (Token.shift stop))
          else (scan x).tokens ++ after.tokens.map (Token.shift stop)) ∧
      (scan (x ++ y)).stop.offset = after.stop.offset + stop ∧
      (scan (x ++ y)).remainder = after.remainder := by
  have hcut : CutsCleanly x y := .of_not_endsInTagStart h
  have hremainder := remainder_scan x
  intro stop after
  have hafter : after = scan ((scan x).remainder ++ y) := by rw [hremainder]
  obtain ⟨htokens, hstop⟩ := scan_append hcut
  rw [← hafter] at htokens hstop
  refine ⟨?_, by rw [hstop]; rfl, by rw [remainder_append hcut, hafter]⟩
  rw [htokens]
  split
  · rfl
  · next hne =>
    -- What is left over starts with a tag or comment, so no text follows the seam.
    have hleft : (scan x).remainder ≠ [] := by
      have hle : stop ≤ x.length := stop_offset_le x
      rw [hremainder, ne_eq, List.drop_eq_nil_iff]
      omega
    apply joinTokens_of_head_not_isText
    intro u hu
    rw [List.head?_map, Option.mem_def, Option.map_eq_some_iff] at hu
    obtain ⟨t, ht, rfl⟩ := hu
    rw [Token.isText_shift]
    refine Cursor.not_isText_of_startsMarkup (c := .start ((scan x).remainder ++ y))
      (startsMarkup_append_of_startsMarkup (startsMarkup_remainder hleft) y) t ?_
    rwa [hafter] at ht

/-- The tag `<b id=1>` is cut off inside the name of its attribute, and read as a whole then. -/
theorem cutTag_resumes :
    endsInTagStart (utf8 "a<b i") = false ∧ (scan (utf8 "a<b i")).stop.offset = 1 ∧
      (scan (utf8 "a<b i" ++ utf8 "d=1>")).tokens =
        ⟨0, 1, .text (utf8 "a")⟩ ::
          (scan (utf8 "<b i" ++ utf8 "d=1>")).tokens.map (Token.shift 1) := by
  have h : endsInTagStart (utf8 "a<b i") = false := by decide
  have hstop : (scan (utf8 "a<b i")).stop.offset = 1 := by decide +kernel
  have hscan := (scan_resumes (utf8 "d=1>") h).1
  rw [hstop, if_neg (by decide)] at hscan
  refine ⟨h, hstop, hscan.trans ?_⟩
  have htokens : (scan (utf8 "a<b i")).tokens = [⟨0, 1, .text (utf8 "a")⟩] := by decide +kernel
  rw [htokens]
  rfl

end Markup

end MarkupTemplate
