import MarkupTemplate.Markup.Token

/-!
# Reading from a place in a text

## Main definitions

* `Cursor`: a place in a text, with what is left of the text
* `Cursor.advance`, `Cursor.skipWhile`, `Cursor.skipByte?`: further places
* `Cursor.run p`: the longest part from here with bytes in `p` only
* `Cursor.Reaches`: one place of a text is at or after another

## Main results

* `Cursor.reaches_advance`, `Cursor.reaches_skipWhile`, `Cursor.reaches_of_skipByte?`: the further
  places are reached by reading
-/

namespace MarkupTemplate

/-- A place in a text: the number of bytes before it and the bytes after it. -/
structure Cursor where
  /-- The number of bytes before the place. -/
  offset : Nat
  /-- What is left of the text. -/
  rest : Bytes
deriving DecidableEq, Repr, Inhabited

namespace Cursor

/-- The start of a text. -/
def start (text : Bytes) : Cursor := ⟨0, text⟩

/-- The place `n` bytes further. -/
def advance (n : Nat) (c : Cursor) : Cursor := ⟨c.offset + n, c.rest.drop n⟩

/-- The next place at which a byte outside `p` stands, or the end. -/
def skipWhile (p : UInt8 → Bool) (c : Cursor) : Cursor :=
  ⟨c.offset + (c.rest.takeWhile p).length, c.rest.dropWhile p⟩

/-- The next place that is not blank. -/
def skipBlanks (c : Cursor) : Cursor := c.skipWhile Byte.isBlank

/-- The place one byte further, unless the text ends here. -/
def skipByte? (c : Cursor) : Option Cursor :=
  match c.rest with
  | [] => none
  | _ :: rest => some ⟨c.offset + 1, rest⟩

/-- The longest part from here with bytes in `p` only. -/
def run (p : UInt8 → Bool) (c : Cursor) : Slice := ⟨c.offset, c.rest.takeWhile p⟩

variable {c c' : Cursor}

@[simp] theorem offset_start (text : Bytes) : (start text).offset = 0 := rfl

@[simp] theorem rest_start (text : Bytes) : (start text).rest = text := rfl

@[simp] theorem offset_advance (n : Nat) (c : Cursor) : (c.advance n).offset = c.offset + n := rfl

@[simp] theorem rest_advance (n : Nat) (c : Cursor) : (c.advance n).rest = c.rest.drop n := rfl

@[simp] theorem rest_skipWhile (p : UInt8 → Bool) (c : Cursor) :
    (c.skipWhile p).rest = c.rest.dropWhile p := rfl

/-! ## Reaching a place from another -/

/-- A place is reached from another of the same text by reading the bytes between them. -/
def Reaches (c c' : Cursor) : Prop :=
  ∃ read : Bytes, c.rest = read ++ c'.rest ∧ c'.offset = c.offset + read.length

namespace Reaches

theorem refl (c : Cursor) : c.Reaches c := ⟨[], rfl, rfl⟩

theorem trans {c₁ c₂ c₃ : Cursor} (h : c₁.Reaches c₂) (h' : c₂.Reaches c₃) : c₁.Reaches c₃ := by
  obtain ⟨w, hw, ho⟩ := h
  obtain ⟨w', hw', ho'⟩ := h'
  exact ⟨w ++ w', by rw [hw, hw', List.append_assoc], by rw [ho', ho, List.length_append]; omega⟩

theorem offset_le (h : c.Reaches c') : c.offset ≤ c'.offset := by
  obtain ⟨w, -, ho⟩ := h
  omega

/-- What is read adds to the offset and is no longer left. -/
theorem offset_add_length (h : c.Reaches c') :
    c'.offset + c'.rest.length = c.offset + c.rest.length := by
  obtain ⟨w, hw, ho⟩ := h
  rw [hw, ho, List.length_append]
  omega

theorem length_le (h : c.Reaches c') : c'.rest.length ≤ c.rest.length := by
  have := h.offset_add_length
  have := h.offset_le
  omega

/-- A further place has less text left. -/
theorem length_lt (h : c.Reaches c') (hlt : c.offset < c'.offset) :
    c'.rest.length < c.rest.length := by
  have := h.offset_add_length
  omega

end Reaches

theorem reaches_advance {n : Nat} (h : n ≤ c.rest.length) : c.Reaches (c.advance n) :=
  ⟨c.rest.take n, (List.take_append_drop n c.rest).symm, by simp [Nat.min_eq_left h]⟩

theorem reaches_skipWhile (p : UInt8 → Bool) (c : Cursor) : c.Reaches (c.skipWhile p) :=
  ⟨c.rest.takeWhile p, List.takeWhile_append_dropWhile.symm, rfl⟩

theorem reaches_skipBlanks (c : Cursor) : c.Reaches c.skipBlanks := reaches_skipWhile _ c

/-- Skipping a byte moves one place on. -/
theorem reaches_of_skipByte? (h : c.skipByte? = some c') :
    c.Reaches c' ∧ c'.offset = c.offset + 1 := by
  unfold skipByte? at h
  split at h
  · simp at h
  · next b _ heq =>
    obtain rfl := Option.some.inj h
    exact ⟨⟨[b], by simp [heq], by simp⟩, rfl⟩

end Cursor

end MarkupTemplate
