import MarkupTemplate.Proofs.Resumption
import MarkupTemplate.Proofs.Splicing

/-!
# Holes right behind the sign of an attribute

A start tag may be cut off right behind the `=` of an attribute, for the value to be a hole. Where
the value starts is decided only when the tag is complete, by the byte that comes then: blanks behind
the sign are skipped, and a quote is no part of the value. So the hole is in the value if the text
goes on with any other byte; behind a blank or a quote the value starts too late, and the hole
stands before the element.

## Main definitions

* `Markup.Attribute.behindSign`: where the sign of an attribute ends
* `Markup.valueBehind`: the value that is written behind a sign

## Main results

* `Document.StartTag.eq_valueBehind`: the value of every attribute is what is written behind its sign
* `Markup.isIn_iff_of_behindSign`: the holes behind a sign that are in the value
* `Document.StartTag.mem_waiting`: holes wait for a tag at the place where it was cut off
* `Document.StartTag.spliced_behindSign`: where such a hole goes
-/

namespace MarkupTemplate

open Markup

/-! ## The value behind a sign -/

namespace Markup

/-- The offset behind the sign that follows the name of an attribute. -/
def Attribute.behindSign (text : Bytes) (a : Attribute) : Nat :=
  a.name.stop + ((text.drop a.name.stop).takeWhile Byte.isBlank).length + 1

/-- A quote, single or double. -/
def isQuote (b : UInt8) : Bool := b = Byte.doubleQuote ∨ b = Byte.singleQuote

/-- The value that is written at an offset: what is between two equal quotes, or an unquoted run. -/
def valueAt (text : Bytes) (offset : Nat) : Slice :=
  match text.drop offset with
  | [] => ⟨offset, []⟩
  | b :: rest =>
    if isQuote b then ⟨offset + 1, rest.takeWhile (· != b)⟩
    else ⟨offset, (b :: rest).takeWhile isUnquotedPart⟩

/-- The value that is written behind a sign which ends at an offset: it comes after the blanks. -/
def valueBehind (text : Bytes) (offset : Nat) : Slice :=
  valueAt text (offset + ((text.drop offset).takeWhile Byte.isBlank).length)

/-- The text goes on with a byte that is no part of a value. -/
def skips (s : Bytes) : Bool := s.head?.any fun b => Byte.isBlank b || isQuote b

theorem le_offset_valueAt (text : Bytes) (offset : Nat) : offset ≤ (valueAt text offset).offset := by
  rw [valueAt]
  split
  · exact Nat.le_refl _
  · split
    · exact Nat.le_succ _
    · exact Nat.le_refl _

/-- A value starts right behind the sign unless there is something to skip. -/
theorem offset_valueBehind_eq_iff {text : Bytes} {offset : Nat} :
    (valueBehind text offset).offset = offset ↔ skips (text.drop offset) = false := by
  rw [valueBehind, skips]
  cases hdrop : text.drop offset with
  | nil => simp [valueAt, hdrop]
  | cons b rest =>
    rw [List.head?_cons, Option.any_some]
    by_cases hblank : Byte.isBlank b
    · have hle := le_offset_valueAt text (offset + ((b :: rest).takeWhile Byte.isBlank).length)
      rw [List.takeWhile_cons_of_pos hblank, List.length_cons] at hle ⊢
      simp only [hblank, Bool.true_or, Bool.true_eq_false, iff_false]
      omega
    · -- No blank is skipped, so only a quote can come before the value.
      rw [List.takeWhile_cons_of_neg hblank, List.length_nil, Nat.add_zero, valueAt, hdrop]
      by_cases hquote : isQuote b
      · simp [hquote]
      · simp [hblank, hquote]

theorem le_offset_valueBehind (text : Bytes) (offset : Nat) :
    offset ≤ (valueBehind text offset).offset :=
  Nat.le_trans (Nat.le_add_right _ _) (le_offset_valueAt _ _)

/-- A hole behind the sign is in the value if the value starts there. -/
theorem isIn_iff_of_behindSign {text : Bytes} {a : Attribute} {v : Slice} {hole : Hole}
    (hv : a.value = some v) (hvalue : v = valueBehind text (a.behindSign text))
    (hhole : hole.offset = some (a.behindSign text)) :
    hole.isIn a = true ↔ skips (text.drop (a.behindSign text)) = false := by
  have hle := le_offset_valueBehind text (a.behindSign text)
  rw [← offset_valueBehind_eq_iff, ← hvalue, isIn_iff]
  rw [← hvalue] at hle
  constructor
  · rintro ⟨i, hi, w, hw, hstart, -⟩
    obtain rfl : v = w := Option.some.inj (hv.symm.trans hw)
    obtain rfl : _ = i := Option.some.inj (hhole.symm.trans hi)
    exact Nat.le_antisymm hstart hle
  · intro hstart
    exact ⟨_, hhole, v, hv, Nat.le_of_eq hstart, hstart ▸ Nat.le_add_right _ _⟩

/-- Of two attributes of a tag, one ends before the name of the other. -/
theorem InTurn.lt_or_lt {text : Bytes} {start stop : Nat} {entries : List Attribute}
    (h : InTurn text start stop entries) {a b : Attribute} (ha : a ∈ entries) (hb : b ∈ entries)
    (hne : a ≠ b) : a.valueStop < b.name.offset ∨ b.valueStop < a.name.offset := by
  let R (a b : Attribute) : Prop := a.valueStop < b.name.offset ∨ b.valueStop < a.name.offset
  have hsymm : Std.Symm R := ⟨fun _ _ => Or.symm⟩
  have hpairwise : entries.Pairwise R := h.pairwise_lt.imp Or.inl
  exact hpairwise.forall ha hb hne

/-- A hole behind the sign of an attribute is in the value of no other attribute. -/
theorem InTurn.isIn_eq_false {text : Bytes} {start stop : Nat} {entries : List Attribute}
    (h : InTurn text start stop entries) {a b : Attribute} {v : Slice} {hole : Hole}
    (ha : a ∈ entries) (hv : a.value = some v) (hvalue : v = valueBehind text (a.behindSign text))
    (hhole : hole.offset = some (a.behindSign text)) (hb : b ∈ entries) (hne : a ≠ b) :
    hole.isIn b = false := by
  rw [Bool.eq_false_iff]
  intro hin
  obtain ⟨i, hi, w, hw, hstart, hstop⟩ := isIn_iff.1 hin
  obtain rfl : _ = i := Option.some.inj (hhole.symm.trans hi)
  rcases h.lt_or_lt ha hb hne with hlt | hlt
  · -- The value of `a` ends before `b`, and the hole is before the value of `a`.
    obtain ⟨_, -, hlies⟩ := h.lies b hb
    have hname := hlies.name_lt
    have hle := le_offset_valueBehind text (a.behindSign text)
    rw [← hvalue] at hle
    simp only [Attribute.valueStart, Attribute.valueStop, hv, Option.mem_def.1 hw,
      Option.elim_some, Slice.stop] at hlt hname
    omega
  · -- The value of `b` ends before the name of `a`.
    simp only [Attribute.valueStop, Option.mem_def.1 hw, Option.elim_some] at hlt
    simp only [Attribute.behindSign, Slice.stop] at hstop hlt
    omega

end Markup

/-! ## Reading the value -/

namespace Cursor

variable {c c' : Cursor} {text : Bytes}

/-- What is left of a text is what comes after as many bytes as the offset says. -/
theorem Reaches.rest_eq (h : (start text).Reaches c) : c.rest = text.drop c.offset := by
  obtain ⟨read, htext, hoffset⟩ := h
  rw [rest_start] at htext
  rw [hoffset, offset_start, Nat.zero_add, htext, List.drop_left]

theorem offset_skipWhile (p : UInt8 → Bool) (c : Cursor) :
    (c.skipWhile p).offset = c.offset + (c.rest.takeWhile p).length := rfl

/-- The value that is read is the one that is written. -/
theorem eq_valueAt_of_attributeValue? (htext : (start text).Reaches c) {v : Slice}
    (h : c.attributeValue? = some (v, c')) : v = valueAt text c.offset := by
  simp only [attributeValue?, Option.bind_eq_bind, Option.bind_eq_some_iff] at h
  obtain ⟨quote, hquote, h⟩ := h
  obtain ⟨rest, hrest⟩ := List.head?_eq_some_iff.1 hquote
  rw [valueAt, ← htext.rest_eq, hrest]
  split at h
  · next hq =>
    obtain ⟨d, -, h⟩ := Option.bind_eq_some_iff.1 h
    obtain ⟨rfl, -⟩ := Prod.mk.inj (Option.some.inj h)
    simp [isQuote, hq, run, hrest]
  · next hq =>
    split at h
    · simp at h
    · obtain ⟨rfl, -⟩ := Prod.mk.inj (Option.some.inj h)
      simp [isQuote, hq, run, hrest]

/-- The value of an attribute is what is written behind its sign. -/
theorem eq_valueBehind_of_attribute? (htext : (start text).Reaches c) {a : Attribute} {v : Slice}
    (h : c.attribute? = some (a, c')) (hv : a.value = some v) :
    v = valueBehind text (a.behindSign text) := by
  simp only [attribute?, Option.bind_eq_bind, Option.bind_eq_some_iff] at h
  obtain ⟨first, hfirst, next, hnext, h⟩ := h
  have hafter := htext.trans (reaches_attributeName hfirst)
  split at h
  · obtain ⟨⟨w, d⟩, hw, he⟩ := Option.map_eq_some_iff.1 h
    obtain ⟨rfl, -⟩ := Prod.mk.inj he
    obtain rfl : w = v := Option.some.inj hv
    -- The sign comes after the name and blanks, and the value after the sign and blanks.
    have hsign := (hafter.trans (reaches_skipBlanks _)).trans
      (reaches_advance (length_pos_of_head? hnext))
    have hvalue := eq_valueAt_of_attributeValue? (hsign.trans (reaches_skipBlanks _)) hw
    rw [skipBlanks, offset_skipWhile, hsign.rest_eq, offset_advance, skipBlanks, offset_skipWhile,
      hafter.rest_eq] at hvalue
    exact hvalue
  · -- Without a sign there is no value.
    obtain ⟨rfl, -⟩ := Prod.mk.inj (Option.some.inj h)
    cases hv

/-- A token is read at a place of the text. -/
theorem exists_next?_of_mem_tokens {t : Token} (h : t ∈ c.tokens.1) :
    ∃ c₁ c₂, c.Reaches c₁ ∧ c₁.next? = some (t, c₂) := by
  induction c using tokens.induct with
  | case1 c hnone => simp [tokens_of_next?_eq_none hnone] at h
  | case2 c t' c' hsome ts stop hts ih =>
    rw [tokens_of_next?_eq_some hsome, List.mem_cons] at h
    rcases h with rfl | h
    · exact ⟨c, c', .refl c, hsome⟩
    · obtain ⟨c₁, c₂, hreach, hnext⟩ := ih h
      exact ⟨c₁, c₂, (reaches_of_next? hsome).1.trans hreach, hnext⟩

/-- The value of every attribute of a tag is what is written behind its sign. -/
theorem eq_valueBehind_of_attributes? (htext : (start text).Reaches c) {as : List Attribute}
    {selfClosing : Bool} (h : c.attributes? = some (as, selfClosing, c')) :
    ∀ a ∈ as, ∀ v ∈ a.value, v = valueBehind text (a.behindSign text) := by
  fun_induction attributes? c generalizing as selfClosing with
  | case1 | case3 | case6 => simp at h
  | case2 | case4 =>
    obtain ⟨rfl, -⟩ := by simpa using h
    simp
  | case5 c _ _ _ _ hr _ ih =>
    have hskip := reaches_skipBlanks_advance (c := c) (n := 1) (by omega) (by simp [hr])
    exact ih (htext.trans hskip.1) h
  | case7 c b rest hr hgreater hslash a c'' ha ih =>
    obtain ⟨⟨as', s', d⟩, h', he⟩ := Option.map_eq_some_iff.1 h
    simp only [Prod.mk.injEq] at he
    obtain ⟨rfl, -, rfl⟩ := he
    have hplace := htext.trans (reaches_skipBlanks c)
    exact List.forall_mem_cons.2 ⟨fun v hv => eq_valueBehind_of_attribute? hplace ha hv,
      ih (hplace.trans (reaches_of_attribute? ha).1) h'⟩

/-- A start tag is read as one. -/
theorem startTag?_of_markup? {name : Slice} {attributes : List Attribute} {selfClosing : Bool}
    (h : c.markup? = some (.startTag name attributes selfClosing, c')) :
    c.rest ≠ [] ∧ c.startTag? = some (.startTag name attributes selfClosing, c') := by
  unfold markup? at h
  split at h
  · next a b rest hrest =>
    refine ⟨by simp [hrest], ?_⟩
    split at h
    · simp [comment?] at h
    · split at h
      · simp [endTag?] at h
      · exact h
  · cases h

end Cursor

/-! ## Holes that wait for a tag -/

namespace Structuring

variable {d : Document} {container : NodeId} {s : Structuring} {hole : Hole}

/-- Only markup takes holes that wait. -/
theorem Regular.mem_waiting_take (hs : Regular d container s) {child : NodeId}
    (hchild : child < d.size) (hkind : d.kind child ≠ .markup) (hhole : hole ∈ s.waiting) :
    hole ∈ (s.take container child).waiting := by
  rw [← hs.kind_eq hchild] at hkind
  rw [Structuring.take]
  split
  · next hmarkup => exact absurd hmarkup hkind
  · exact List.mem_append_left _ hhole
  · split
    · exact hhole
    · exact List.mem_append_left _ hhole

/-- The holes go on waiting while no markup comes. -/
theorem Regular.mem_waiting_foldl_take (hs : Regular d container s) (hcontainer : container < d.size)
    {late : List NodeId} (hsize : ∀ child ∈ late, child < d.size)
    (hlate : ∀ child ∈ late, d.kind child ≠ .markup) (hhole : hole ∈ s.waiting) :
    hole ∈ (late.foldl (Structuring.take container) s).waiting := by
  -- The states are regular all along, so that the kinds of the children are known.
  have hrun : Regular d container (late.foldl (Structuring.take container) s) ∧
      hole ∈ (late.foldl (Structuring.take container) s).waiting := by
    refine List.foldlRecOn (motive := fun s => Regular d container s ∧ hole ∈ s.waiting) late _
      ⟨hs, hhole⟩ ?_
    rintro s ⟨hs, hhole⟩ child hmem
    exact ⟨hs.take hcontainer (hsize child hmem),
      hs.mem_waiting_take (hsize child hmem) (hlate child hmem) hhole⟩
  exact hrun.2

/-- A child that is neither markup nor an attribute waits if something is carried on. -/
theorem Regular.mem_waiting_of_carried (hs : Regular d container s) {child : NodeId}
    (hchild : child < d.size) (hmarkup : d.kind child ≠ .markup)
    (hattribute : d.kind child ≠ .attribute) (hcarried : s.carried ≠ []) :
    ⟨child, some s.carried.length⟩ ∈ (s.take container child).waiting := by
  rw [← hs.kind_eq hchild] at hmarkup hattribute
  rw [Structuring.take]
  split
  · next h => exact absurd h hmarkup
  · next h => exact absurd h hattribute
  · rw [if_neg (by simpa using hcarried)]
    exact List.mem_append_right _ (List.mem_singleton_self _)

end Structuring

/-- A node that stands in a text is one of its parts. -/
theorem mem_of_mem_placedFrom {offset : Nat} {parts : List ValuePart} {hole : Hole}
    (h : hole ∈ placedFrom offset parts) : .hole hole.node ∈ parts := by
  induction parts generalizing offset with
  | nil => cases h
  | cons part parts ih =>
    cases part with
    | literal text => exact List.mem_cons_of_mem _ (ih h)
    | hole node =>
      rcases List.mem_cons.1 h with rfl | h
      · exact List.mem_cons_self
      · exact List.mem_cons_of_mem _ (ih h)

/-- Each of the first elements is related to one of the second. -/
theorem exists_mem_of_forall₂ {α β : Type} {R : α → β → Prop} {xs : List α} {ys : List β}
    (h : List.Forall₂ R xs ys) : ∀ x ∈ xs, ∃ y ∈ ys, R x y := by
  induction h with
  | nil => simp
  | @cons x y xs ys hxy _ ih =>
    refine List.forall_mem_cons.2 ⟨⟨y, List.mem_cons_self, hxy⟩, fun x' hx' => ?_⟩
    obtain ⟨y', hy', hrel⟩ := ih x' hx'
    exact ⟨y', List.mem_cons_of_mem _ hy', hrel⟩

namespace Document

variable {d : Document} {container : NodeId}

/-- The node is in the value of an attribute of the element, which is what an attribute of a tag
makes. -/
def InValue (d : Document) (n : Nat) (waiting : List Hole) (element : NodeId) (a : Attribute)
    (id : NodeId) : Prop :=
  ∃ entry ∈ d.children element, d.Spells n waiting a entry ∧
    ∃ value, d.children entry = [value] ∧ id ∈ d.children value

/-- The hole stands directly before a node, with others of those that wait. -/
def StandsBefore (d : Document) (parent id : NodeId) (waiting : List Hole) (hole : Hole) : Prop :=
  ∃ (front : List NodeId) (holes : List Hole) (more : List NodeId),
    d.children parent = front ++ holes.map Hole.node ++ id :: more ∧ hole ∈ holes ∧
      holes.Sublist waiting

/-- A hole in the value of an attribute is one of the parts of the value. -/
theorem Spells.mem_children {n : Nat} {waiting : List Hole} {a : Attribute} {entry : NodeId}
    (h : d.Spells n waiting a entry) {hole : Hole} (hhole : hole ∈ waiting)
    (hin : hole.isIn a = true) :
    ∃ value, d.children entry = [value] ∧ hole.node ∈ d.children value := by
  obtain ⟨value, -, hchildren, -, parts, hsplit, hparts⟩ := h.value
  obtain ⟨-, -, v, hv, -⟩ := isIn_iff.1 hin
  have hplaced : hole ∈ placedFrom v.offset parts := by
    rw [hsplit.placed v hv]
    exact List.mem_filter.2 ⟨hhole, hin⟩
  obtain ⟨id, hid, hpart⟩ := exists_mem_of_forall₂ hparts _ (mem_of_mem_placedFrom hplaced)
  obtain rfl : id = hole.node := hpart
  exact ⟨value, hchildren, hid⟩

end Document

namespace Structuring.Spliced

variable {d d₁ : Document} {container : NodeId} {s : Structuring} {name : Bytes}
  {attributes : List Attribute} {hole : Hole}

/-- A hole in the value of an attribute goes into the value. -/
theorem inValue (h : Spliced d container s name attributes d₁) (hhole : hole ∈ s.waiting)
    {a : Attribute} (ha : a ∈ attributes) (hin : hole.isIn a = true) :
    d₁.InValue d.size s.waiting s.document.size a hole.node := by
  obtain ⟨entries, more, hentries, hspells, -⟩ := h.content
  obtain ⟨entry, hmem, hentry⟩ := exists_mem_of_forall₂ hspells a ha
  refine ⟨entry, ?_, hentry, hentry.mem_children hhole hin⟩
  rw [hentries]
  exact List.mem_append_left _ (List.mem_append_left _ hmem)

/-- A hole that has a place but is in no value goes before the element. -/
theorem standsBefore (h : Spliced d container s name attributes d₁) (hhole : hole ∈ s.waiting)
    (hplace : hole.isPositional = true) (hnone : ∀ a ∈ attributes, hole.isIn a = false) :
    d₁.StandsBefore (s.top container) s.document.size s.waiting hole := by
  obtain ⟨more, hmore⟩ := h.place
  refine ⟨_, _, more, hmore, List.mem_filter.2 ⟨hhole, ?_⟩, List.filter_sublist⟩
  have hany : attributes.any hole.isIn = false :=
    List.any_eq_false.2 fun a ha => by simp [hnone a ha]
  rw [Assembly.isBetween, hplace, hany]
  rfl

end Structuring.Spliced

namespace Document

variable {d : Document} {container : NodeId}

namespace StartTag

variable (t : d.StartTag container)

/-- The value of every attribute of a start tag is what is written behind its sign. -/
theorem eq_valueBehind : ∀ a ∈ t.attributes, ∀ v ∈ a.value,
    v = valueBehind t.text (a.behindSign t.text) := by
  have hmem : t.token ∈ (Cursor.start t.text).tokens.1 := by
    rw [show (Cursor.start t.text).tokens.1 = _ from t.tokens]
    simp
  obtain ⟨c, c', htext, hnext⟩ := Cursor.exists_next?_of_mem_tokens hmem
  have hcontent := t.content
  obtain ⟨-, content, hmarkup, heq⟩ | ⟨-, -, heq, -⟩ := Cursor.next?_cases hnext
  · rw [heq] at hcontent
    obtain rfl : content = _ := hcontent
    obtain ⟨hne, htag⟩ := Cursor.startTag?_of_markup? hmarkup
    obtain ⟨⟨as, selfClosing, c''⟩, has, he⟩ := Option.map_eq_some_iff.1 htag
    obtain ⟨hcontent', -⟩ := Prod.mk.inj he
    obtain ⟨-, rfl, -⟩ := Content.startTag.inj hcontent'
    exact Cursor.eq_valueBehind_of_attributes? ((htext.trans
      (Cursor.reaches_advance (List.length_pos_iff.2 hne))).trans (Cursor.reaches_skipWhile _ _)) has
  · rw [heq] at hcontent
    cases hcontent

/-- The children that come while the tag is cut off wait for it at the place where it was. -/
theorem mem_waiting (hchildren : ∀ child ∈ d.children container, child < d.size)
    (hearlier : t.earlier = []) {early late : List NodeId} {child : NodeId}
    (hbefore : t.before = early ++ child :: late) (hmarkup : d.kind child ≠ .markup)
    (hattribute : d.kind child ≠ .attribute) (hlate : ∀ id ∈ late, d.kind id ≠ .markup)
    (hcarried : (d.taken container early).carried ≠ []) :
    ⟨child, some (d.taken container early).carried.length⟩ ∈ t.state.waiting := by
  have hsize := t.lt_of_mem_before hchildren
  rw [hbefore] at hsize
  obtain ⟨hearly, hchild, hlate'⟩ :
      (∀ id ∈ early, id < d.size) ∧ child < d.size ∧ ∀ id ∈ late, id < d.size := by
    simpa [or_imp, forall_and] using hsize
  have hs := regular_taken t.container_lt hearly
  have hstate : t.state =
      late.foldl (Structuring.take container) ((d.taken container early).take container child) := by
    rw [state, hearlier, hbefore, taken_append]
    rfl
  rw [hstate]
  exact (hs.take t.container_lt hchild).mem_waiting_foldl_take t.container_lt hlate' hlate
    (hs.mem_waiting_of_carried hchild hmarkup hattribute hcarried)

/-- A start tag that is cut off behind the sign of an attribute, for holes to arrive there. Every
child that is neither markup nor an attribute waits behind what was carried on, until markup comes.
When the tag is complete, the value of the attribute is what is written behind the sign. A hole there
is in the value, under the new element, if the text goes on with no blank and no quote. Otherwise
the value starts after the hole; the hole is in no value of the tag, and stands directly before the
element with the other holes that are in none. -/
theorem spliced_behindSign (hchildren : ∀ child ∈ d.children container, child < d.size) :
    let d₁ := (d.structureChildren container).document
    let element := t.state.document.size
    (∀ early late child, t.before = early ++ child :: late → t.earlier = [] →
      d.kind child ≠ .markup → d.kind child ≠ .attribute → (∀ id ∈ late, d.kind id ≠ .markup) →
      (d.taken container early).carried ≠ [] →
        ⟨child, some (d.taken container early).carried.length⟩ ∈ t.state.waiting) ∧
    Structuring.Spliced d container t.state t.name.text t.attributes d₁ ∧
    ∀ a ∈ t.attributes, ∀ v ∈ a.value, ∀ hole ∈ t.state.waiting,
      hole.offset = some (a.behindSign t.text) →
        v = valueBehind t.text (a.behindSign t.text) ∧
        if skips (t.text.drop (a.behindSign t.text)) then
          (∀ b ∈ t.attributes, hole.isIn b = false) ∧
            d₁.StandsBefore (t.state.top container) element t.state.waiting hole
        else d₁.InValue d.size t.state.waiting element a hole.node := by
  intro d₁ element
  obtain ⟨-, hturn, -, hspliced⟩ := t.spliced hchildren
  refine ⟨fun early late child hbefore hearlier hmarkup hattribute hlate hcarried =>
    t.mem_waiting hchildren hearlier hbefore hmarkup hattribute hlate hcarried, hspliced, ?_⟩
  intro a ha v hv hole hhole hplace
  have hvalue := t.eq_valueBehind a ha v hv
  have hin := isIn_iff_of_behindSign hv hvalue hplace
  refine ⟨hvalue, ?_⟩
  split
  · next hskips =>
    -- The value of `a` starts after the hole, and the other values are not near it.
    have hout : hole.isIn a = false := by
      rw [Bool.eq_false_iff, Ne, hin, hskips]
      exact Bool.noConfusion
    have hnone : ∀ b ∈ t.attributes, hole.isIn b = false := by
      intro b hb
      by_cases he : a = b
      · exact he ▸ hout
      · exact hturn.isIn_eq_false ha hv hvalue hplace hb he
    refine ⟨hnone, hspliced.standsBefore hhole ?_ hnone⟩
    rw [Hole.isPositional, hplace]
    rfl
  · next hskips => exact hspliced.inValue hhole ha (hin.2 (Bool.eq_false_iff.2 hskips))

end StartTag

/-- A tag that is cut off behind the sign, where an expression comes, and then goes on with the given
markup. -/
def signedMarkup (rest : Bytes) : Document :=
  ⟨#[{ kind := .document, children := [1, 2, 3] },
    { kind := .markup, fragments := [utf8 "<a x="] },
    { kind := .embedded .expression (utf8 "foo") },
    { kind := .markup, fragments := [rest] }], Nat.zero_lt_succ _⟩

/-- The tag that ends right behind the expression. -/
def signedTag : (signedMarkup (utf8 "></a>")).StartTag root where
  before := [1, 2]
  markup := 3
  after := []
  children := by decide
  kind := by decide
  earlier := []
  token := ⟨0, 6, .startTag ⟨1, utf8 "a"⟩ [⟨⟨3, utf8 "x"⟩, some ⟨5, []⟩⟩] false⟩
  later := [⟨6, 4, .endTag ⟨8, utf8 "a"⟩⟩]
  tokens := by decide +kernel
  name := ⟨1, utf8 "a"⟩
  attributes := [⟨⟨3, utf8 "x"⟩, some ⟨5, []⟩⟩]
  selfClosing := false
  content := rfl

theorem signedTag_spliced :
    (∀ child ∈ (signedMarkup (utf8 "></a>")).children root,
      child < (signedMarkup (utf8 "></a>")).size) ∧
    ((signedMarkup (utf8 "></a>")).taken root [1]).carried = utf8 "<a x=" ∧
    (⟨2, some 5⟩ : Hole) ∈ signedTag.state.waiting ∧
    ((signedMarkup (utf8 "></a>")).structureChildren root).document.InValue 4
      signedTag.state.waiting 4 ⟨⟨3, utf8 "x"⟩, some ⟨5, []⟩⟩ 2 := by
  have hchildren : ∀ child ∈ (signedMarkup (utf8 "></a>")).children root,
      child < (signedMarkup (utf8 "></a>")).size := by decide
  have hcarried : ((signedMarkup (utf8 "></a>")).taken root [1]).carried = utf8 "<a x=" := by
    decide +kernel
  obtain ⟨harrived, -, hplaced⟩ := signedTag.spliced_behindSign hchildren
  have hwaiting : (⟨2, some 5⟩ : Hole) ∈ signedTag.state.waiting := by
    have h := harrived [1] [] 2 rfl rfl (by decide) (by decide) (by decide)
      (by rw [hcarried]; decide)
    rwa [hcarried] at h
  obtain ⟨-, hvalue⟩ := hplaced _ (List.mem_singleton_self _) _ rfl _ hwaiting (by decide +kernel)
  have hsize : signedTag.state.document.size = 4 := by decide +kernel
  rw [if_neg (by decide +kernel), hsize] at hvalue
  exact ⟨hchildren, hcarried, hwaiting, hvalue⟩

/-- Where the tag goes on with a blank behind the expression, the expression stands before the
element, and the next attribute is the value. -/
theorem looseExpression_spliced :
    let structured := (signedMarkup (utf8 " y=1></a>")).structureChildren root
    structured.ok ∧ structured.document.children root = [2, 4] ∧
      structured.document.kind 2 = .embedded .expression (utf8 "foo") ∧
      structured.document.children 4 = [5] ∧ (structured.document.label 5).name = utf8 "x" ∧
      structured.document.children 5 = [6] ∧ structured.document.children 6 = [7] ∧
      structured.document.kind 7 = .markup ∧ (structured.document.label 7).text = utf8 "y=1" := by
  decide +kernel

end Document

end MarkupTemplate
