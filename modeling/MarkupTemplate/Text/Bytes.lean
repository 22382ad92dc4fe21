import MarkupTemplate.Text.Byte

/-!
# Texts

A text is a list of bytes, of any encoding and of none. Fixed wordings are written as string
literals and enter a text through their UTF-8 bytes.

## Main definitions

* `Bytes`: texts
* `utf8 s`: the bytes of a fixed wording
* `Bytes.toLower`, `Bytes.equalsIgnoringCase`: comparison up to the case of ASCII letters
* `Bytes.isWhite`: no byte but white space
* `Bytes.trim p`: a text without the bytes in `p` at its two ends
* `Bytes.after? mark`: what remains of a text after `mark` at its head
* `Bytes.splitAtFirst? mark`: a text before and after the first place where `mark` stands

## Main results

* `Bytes.splitAtFirst?_eq_none_iff`, `Bytes.splitAtFirst?_eq_some_iff`: what is found is the first
  place of the mark
-/

namespace MarkupTemplate

/-- A text: its bytes in order. -/
abbrev Bytes := List UInt8

/-- The bytes of a fixed wording. -/
def utf8 (s : String) : Bytes := s.toUTF8.data.toList

namespace Bytes

/-- The text with its ASCII letters in lower case. -/
def toLower (s : Bytes) : Bytes := s.map Byte.toLower

/-- Equality up to the case of ASCII letters. -/
def equalsIgnoringCase (s t : Bytes) : Bool := toLower s == toLower t

/-- A text of white space only, such as the empty text. -/
def isWhite (s : Bytes) : Bool := s.all Byte.isSpace

/-- The text without the bytes in `p` at its two ends. -/
def trim (p : UInt8 → Bool) (s : Bytes) : Bytes := ((s.dropWhile p).reverse.dropWhile p).reverse

/-- What remains of a text after a mark at its head. -/
def after? (mark s : Bytes) : Option Bytes := mark.isPrefixOf? s

/-- The parts of a text before and after the first place where `mark` stands in it. -/
def splitAtFirst? (mark : Bytes) : Bytes → Option (Bytes × Bytes)
  | [] => if mark.isEmpty then some ([], []) else none
  | b :: rest =>
    if mark.isPrefixOf (b :: rest) then some ([], (b :: rest).drop mark.length)
    else (splitAtFirst? mark rest).map fun (before, after) => (b :: before, after)

@[simp] theorem length_toLower (s : Bytes) : (toLower s).length = s.length := by
  simp [toLower]

/-- Comparison without case sees nothing but the folded texts. -/
theorem equalsIgnoringCase_iff {s t : Bytes} :
    equalsIgnoringCase s t = true ↔ toLower s = toLower t := by
  simp [equalsIgnoringCase]

variable {mark s before after : Bytes}

/-- A text falls into the part before a mark, the mark and the part after it. -/
theorem eq_of_splitAtFirst? (h : splitAtFirst? mark s = some (before, after)) :
    s = before ++ mark ++ after := by
  induction s generalizing before with
  | nil =>
    simp only [splitAtFirst?] at h
    split at h <;> simp_all
  | cons b rest ih =>
    simp only [splitAtFirst?] at h
    split at h
    · next hp =>
      obtain ⟨t, ht⟩ := List.isPrefixOf_iff_prefix.1 hp
      simp only [Option.some.injEq, Prod.mk.injEq] at h
      obtain ⟨rfl, rfl⟩ := h
      simp [← ht]
    · obtain ⟨⟨before', after'⟩, h', he⟩ := Option.map_eq_some_iff.1 h
      simp only [Prod.mk.injEq] at he
      obtain ⟨rfl, rfl⟩ := he
      simp [ih h']

/-- Nothing is found where the mark does not stand. -/
theorem splitAtFirst?_eq_none_iff (hmark : mark ≠ []) :
    splitAtFirst? mark s = none ↔ ¬ mark <:+: s := by
  induction s with
  | nil => simp [splitAtFirst?, hmark]
  | cons b rest ih =>
    rw [List.infix_cons_iff, not_or, ← ih, ← List.isPrefixOf_iff_prefix, splitAtFirst?]
    split <;> simp [*]

/-- A mark that starts before another one ends before the other one does. -/
theorem prefix_before_iff (hmark : mark ≠ []) (b : UInt8) :
    mark <+: b :: (before ++ mark ++ after) ↔ mark <+: b :: (before ++ mark.dropLast) := by
  have hle : b :: (before ++ mark.dropLast) <+: b :: (before ++ mark ++ after) := by
    rw [List.prefix_cons_inj, List.append_assoc, List.prefix_append_right_inj]
    exact (List.dropLast_prefix mark).trans (List.prefix_append mark after)
  refine ⟨fun h => List.prefix_of_prefix_length_le h hle ?_, fun h => h.trans hle⟩
  have := List.length_pos_iff.2 hmark
  simp only [List.length_cons, List.length_append, List.length_dropLast]
  omega

/-- The text falls apart at the first place of the mark: no place before it is one. -/
theorem splitAtFirst?_eq_some_iff (hmark : mark ≠ []) :
    splitAtFirst? mark s = some (before, after) ↔
      s = before ++ mark ++ after ∧ ¬ mark <:+: before ++ mark.dropLast := by
  induction s generalizing before with
  | nil => simp [splitAtFirst?, hmark]
  | cons b rest ih =>
    rw [splitAtFirst?]
    cases before with
    | nil =>
      have hnot : ¬ mark <:+: mark.dropLast := fun h => by
        have := h.length_le
        have := List.length_pos_iff.2 hmark
        simp only [List.length_dropLast] at *
        omega
      rw [List.nil_append, List.nil_append, and_iff_left hnot]
      constructor
      · intro h
        split at h
        · next hp =>
          obtain ⟨more, hmore⟩ := List.isPrefixOf_iff_prefix.1 hp
          obtain ⟨-, rfl⟩ := Prod.mk.inj (Option.some.inj h)
          rw [← hmore, List.drop_left]
        · obtain ⟨⟨_, _⟩, -, he⟩ := Option.map_eq_some_iff.1 h
          cases he
      · intro h
        rw [h, if_pos (List.isPrefixOf_iff_prefix.2 (List.prefix_append _ _)), List.drop_left]
    | cons b' before =>
      simp only [List.cons_append, List.infix_cons_iff, not_or, List.isPrefixOf_iff_prefix]
      constructor
      · intro h
        split at h
        · cases h
        · next hp =>
          obtain ⟨⟨before', after'⟩, hsplit, he⟩ := Option.map_eq_some_iff.1 h
          obtain ⟨⟨rfl, rfl⟩, rfl⟩ := And.imp_left List.cons.inj (Prod.mk.inj he)
          obtain ⟨rfl, hnot⟩ := ih.1 hsplit
          exact ⟨rfl, fun h => hp ((prefix_before_iff hmark b).2 h), hnot⟩
      · rintro ⟨heq, hhere, hnot⟩
        obtain ⟨rfl, rfl⟩ := List.cons.inj heq
        rw [if_neg fun h => hhere ((prefix_before_iff hmark b).1 h), ih.2 ⟨rfl, hnot⟩]
        rfl

end Bytes

end MarkupTemplate
