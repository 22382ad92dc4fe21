import MarkupTemplate.Render.Listing

/-!
# Reading string literals

A string literal is read from its opening quote to the first quote that no backslash stands before.
After a backslash comes the sign of an escape, or an octal numeral: as many digits as follow, but
three at most. So a numeral with less than three digits takes in a digit of the text after it, and
one with three takes in none.

## Main definitions

* `Literal.readEscape`: the byte that an escape stands for
* `Literal.read`: the text of the literal at the head of a program text

## Main results

* `Literal.readBody_escape`: what stands for a byte in a literal is read as this byte
* `Listing.read_writeLiteral`: the literal of a text is read as the text, whatever is written next
-/

namespace MarkupTemplate

namespace Literal

/-! ## Reading -/

/-- The signs of escapes with the bytes that they stand for. -/
def signs : List (UInt8 × UInt8) :=
  [(Byte.backslash, Byte.backslash), (Byte.doubleQuote, Byte.doubleQuote),
    ('n'.toUInt8, Byte.lineFeed), ('r'.toUInt8, Byte.carriageReturn), ('t'.toUInt8, Byte.tab)]

/-- A digit of an octal numeral. -/
def isOctalDigit (b : UInt8) : Bool := 48 ≤ b && b ≤ 55

/-- The number that a list of octal digits stands for. -/
def ofOctal (digits : Bytes) : Nat := digits.foldl (fun n b => 8 * n + (b - Byte.zero).toNat) 0

/-- The digits of an octal numeral at the head of a text, three at most. -/
def octalDigits (s : Bytes) : Bytes := (s.take 3).takeWhile isOctalDigit

/-- The byte that an octal numeral stands for, and the text after it. A numeral above 255 stands for
no byte. -/
def readOctal (s : Bytes) : Option (UInt8 × Bytes) :=
  let digits := octalDigits s
  if digits.isEmpty || 255 < ofOctal digits then none
  else some (UInt8.ofNat (ofOctal digits), s.drop digits.length)

/-- The byte that an escape stands for, given the text after its backslash, and the text after the
escape. -/
def readEscape : Bytes → Option (UInt8 × Bytes)
  | [] => none
  | b :: rest =>
    match signs.lookup b with
    | some c => some (c, rest)
    | none => readOctal (b :: rest)

theorem length_lt_of_readEscape {s rest : Bytes} {b : UInt8} (h : readEscape s = some (b, rest)) :
    rest.length < s.length := by
  unfold readEscape at h
  split at h
  · cases h
  · split at h
    · cases h
      simp
    · unfold readOctal at h
      dsimp only at h
      split at h
      · cases h
      · next hdigits =>
        cases h
        simp only [Bool.or_eq_true, List.isEmpty_iff, not_or] at hdigits
        have := List.length_pos_iff.2 hdigits.1
        simp only [List.length_drop, List.length_cons]
        omega

/-- The text up to the closing quote of a literal, and what is left after the quote. A line does not
end within a literal. -/
def readBody (s : Bytes) : Option (Bytes × Bytes) :=
  match s with
  | [] => none
  | b :: rest =>
    if b = Byte.doubleQuote then some ([], rest)
    else if b = Byte.lineFeed then none
    else if b = Byte.backslash then
      match h : readEscape rest with
      | none => none
      | some (c, rest') =>
        have := length_lt_of_readEscape h
        (readBody rest').map (Prod.map (c :: ·) id)
    else (readBody rest).map (Prod.map (b :: ·) id)
termination_by s.length
decreasing_by
  all_goals simp only [List.length_cons]; omega

/-- The text of the literal at the head of a program text, and what is left after the literal. -/
def read : Bytes → Option (Bytes × Bytes)
  | [] => none
  | b :: rest => if b = Byte.doubleQuote then readBody rest else none

/-! ## What stands for one byte -/

theorem readBody_doubleQuote (rest : Bytes) :
    readBody (Byte.doubleQuote :: rest) = some ([], rest) := by
  rw [readBody, if_pos rfl]

/-- An escape is read as the byte that it stands for. -/
theorem readBody_backslash {s rest : Bytes} {b : UInt8} (h : readEscape s = some (b, rest)) :
    readBody (Byte.backslash :: s) = (readBody rest).map (Prod.map (b :: ·) id) := by
  rw [readBody, if_neg (by decide), if_neg (by decide), if_pos rfl]
  split
  · next hnone => exact absurd (hnone.symm.trans h) (by simp)
  · next hsome =>
    obtain ⟨rfl, rfl⟩ := Prod.mk.inj (Option.some.inj (hsome.symm.trans h))
    rfl

/-- Any other byte is read as itself. -/
theorem readBody_cons {b : UInt8} (hquote : b ≠ Byte.doubleQuote) (hline : b ≠ Byte.lineFeed)
    (hbackslash : b ≠ Byte.backslash) (rest : Bytes) :
    readBody (b :: rest) = (readBody rest).map (Prod.map (b :: ·) id) := by
  rw [readBody, if_neg hquote, if_neg hline, if_neg hbackslash]

theorem toNat_octalDigit (weight b : UInt8) :
    (octalDigit weight b).toNat = 48 + b.toNat / weight.toNat % 8 := by
  have hzero : Byte.zero.toNat = 48 := rfl
  have height : (8 : UInt8).toNat = 8 := rfl
  simp only [octalDigit, UInt8.toNat_add, UInt8.toNat_mod, UInt8.toNat_div, hzero, height]
  omega

theorem isOctalDigit_octalDigit (weight b : UInt8) : isOctalDigit (octalDigit weight b) := by
  have h := toNat_octalDigit weight b
  simp only [isOctalDigit, Bool.and_eq_true, decide_eq_true_eq, UInt8.le_iff_toNat_le, h]
  have hlow : (48 : UInt8).toNat = 48 := rfl
  have hhigh : (55 : UInt8).toNat = 55 := rfl
  omega

/-- A byte has three octal digits. -/
theorem ofOctal_octalDigits (b : UInt8) :
    ofOctal [octalDigit 64 b, octalDigit 8 b, octalDigit 1 b] = b.toNat := by
  have hdigit : ∀ weight : UInt8,
      (octalDigit weight b - Byte.zero).toNat = b.toNat / weight.toNat % 8 := by
    intro weight
    have hzero : Byte.zero.toNat = 48 := rfl
    rw [UInt8.toNat_sub, toNat_octalDigit, hzero]
    omega
  have hlt := b.toNat_lt
  have h64 : (64 : UInt8).toNat = 64 := rfl
  have h8 : (8 : UInt8).toNat = 8 := rfl
  have h1 : (1 : UInt8).toNat = 1 := rfl
  simp only [ofOctal, List.foldl_cons, List.foldl_nil, hdigit, h64, h8, h1]
  omega

/-- No sign of an escape is a digit. -/
theorem lookup_signs_of_isOctalDigit {b : UInt8} (h : isOctalDigit b) : signs.lookup b = none := by
  rw [List.lookup_eq_none_iff]
  intro sign hsign
  have hnot : isOctalDigit sign.1 = false := by
    simp only [signs, List.mem_cons, List.not_mem_nil, or_false] at hsign
    rcases hsign with rfl | rfl | rfl | rfl | rfl <;> rfl
  have hne : b ≠ sign.1 := by
    rintro rfl
    exact absurd h (by simp [hnot])
  simpa using hne

/-- The three digits of a byte are read as the byte, whatever comes next. -/
theorem readEscape_octal (b : UInt8) (rest : Bytes) :
    readEscape (octalDigit 64 b :: octalDigit 8 b :: octalDigit 1 b :: rest) = some (b, rest) := by
  have hdigits : octalDigits (octalDigit 64 b :: octalDigit 8 b :: octalDigit 1 b :: rest) =
      [octalDigit 64 b, octalDigit 8 b, octalDigit 1 b] := by
    simp [octalDigits, isOctalDigit_octalDigit]
  have hlt := b.toNat_lt
  rw [readEscape, lookup_signs_of_isOctalDigit (isOctalDigit_octalDigit 64 b)]
  simp only [readOctal, hdigits, ofOctal_octalDigits]
  rw [if_neg (by simp; omega)]
  simp

/-- What stands for a byte in a literal is read as this byte, whatever comes next. -/
theorem readBody_escape (b : UInt8) (rest : Bytes) :
    readBody (escape b ++ rest) = (readBody rest).map (Prod.map (b :: ·) id) := by
  unfold escape
  split
  · next h => subst h; exact readBody_backslash rfl
  split
  · next h => subst h; exact readBody_backslash rfl
  split
  · next h => subst h; exact readBody_backslash rfl
  split
  · next h => subst h; exact readBody_backslash rfl
  split
  · next h => subst h; exact readBody_backslash rfl
  split
  · exact readBody_backslash (readEscape_octal b rest)
  · next hbackslash hquote hline _ _ _ => exact readBody_cons hquote hline hbackslash rest

/-- No byte below the space stands in a literal. -/
theorem space_le_of_mem_escape {b c : UInt8} (h : c ∈ escape b) : Byte.space ≤ c := by
  have hfixed : ∀ s ∈ [utf8 "\\\\", utf8 "\\\"", utf8 "\\n", utf8 "\\r", utf8 "\\t"],
      ∀ c ∈ s, Byte.space ≤ c := by decide +kernel
  simp only [List.forall_mem_cons] at hfixed
  obtain ⟨hbackslash, hquote, hline, hreturn, htab, -⟩ := hfixed
  have hdigit : ∀ weight, Byte.space ≤ octalDigit weight b := by
    intro weight
    have hspace : Byte.space.toNat = 32 := rfl
    rw [UInt8.le_iff_toNat_le, toNat_octalDigit, hspace]
    omega
  unfold escape at h
  split at h
  · exact hbackslash c h
  split at h
  · exact hquote c h
  split at h
  · exact hline c h
  split at h
  · exact hreturn c h
  split at h
  · exact htab c h
  split at h
  · simp only [List.mem_cons, List.not_mem_nil, or_false] at h
    rcases h with rfl | rfl | rfl | rfl
    · decide
    · exact hdigit 64
    · exact hdigit 8
    · exact hdigit 1
  · next hspace =>
    rw [List.mem_singleton.1 h]
    exact UInt8.not_lt.1 hspace

/-! ## Whole literals -/

/-- The literal of a text is read up to its own closing quote. -/
theorem read_encode (text rest : Bytes) : read (encode text ++ rest) = some (text, rest) := by
  have hbody : readBody (text.flatMap escape ++ Byte.doubleQuote :: rest) = some (text, rest) := by
    induction text with
    | nil => exact readBody_doubleQuote rest
    | cons b text ih =>
      rw [List.flatMap_cons, List.append_assoc, readBody_escape, ih]
      rfl
  simpa [encode, read] using hbody

theorem space_le_of_mem_encode {text : Bytes} {b : UInt8} (h : b ∈ encode text) :
    Byte.space ≤ b := by
  simp only [encode, List.mem_cons, List.mem_append, List.mem_flatMap, List.not_mem_nil,
    or_false] at h
  rcases h with rfl | ⟨c, -, hb⟩ | rfl
  · decide
  · exact space_le_of_mem_escape hb
  · decide

end Literal

/-- What a listing gets for a text, after the indentation of a new line, is a literal without a byte
below the space. Whatever is written next, reading the literal ends with its own closing quote, and
what is read is the text. -/
theorem Listing.read_writeLiteral (l : Listing) (text rest : Bytes) :
    ∃ literal : Bytes, (l.writeLiteral text).text = l.text ++ (l.indentation ++ literal) ∧
      Literal.read (literal ++ rest) = some (text, rest) ∧
      ∀ b ∈ literal, Byte.space ≤ b :=
  ⟨_, l.text_writeLiteral text, Literal.read_encode text rest,
    fun _ hb => Literal.space_le_of_mem_encode hb⟩

end MarkupTemplate
