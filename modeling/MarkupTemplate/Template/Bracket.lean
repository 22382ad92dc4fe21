import MarkupTemplate.Text.Bytes

/-!
# Brackets

Embedded code ends where its first bracket is closed. Brackets in quoted strings do not count, and
inside a string a backslash escapes the byte after it.

## Main definitions

* `Bracket`: the three pairs of brackets
* `Bracket.Mode`: whether a byte is code, part of a string, or escaped
* `Bracket.closing?`: how much of a text is read when its first bracket is closed

## Main results

* `Bracket.closingFrom_cons`: what one byte does to the search for the closing bracket
* `Bracket.closingFrom_eq_some_iff`: what is read ends with the closing bracket
-/

namespace MarkupTemplate

/-- A pair of brackets. -/
inductive Bracket where
  /-- Parentheses. -/
  | paren
  /-- Square brackets. -/
  | square
  /-- Braces. -/
  | brace
deriving DecidableEq, Repr, Inhabited

namespace Bracket

/-- The opening bracket of a pair. -/
def opening : Bracket → UInt8
  | paren => Byte.openParen
  | square => Byte.openBracket
  | brace => Byte.openBrace

/-- The closing bracket of a pair. -/
def closing : Bracket → UInt8
  | paren => Byte.closeParen
  | square => Byte.closeBracket
  | brace => Byte.closeBrace

/-- How a byte is to be read. -/
inductive Mode where
  /-- As code, where brackets count. -/
  | code
  /-- As part of the string that the given quote started. -/
  | quoted (quote : UInt8)
  /-- As part of a string, after a backslash. -/
  | escaped (quote : UInt8)
deriving DecidableEq, Repr, Inhabited

/-- The number of bytes up to the bracket that closes the outermost of the open brackets, and with
it. There is none if the text ends before. -/
def closingFrom (bracket : Bracket) : Mode → Nat → Bytes → Option Nat
  | _, _, [] => none
  | .code, depth, b :: rest =>
    if b = Byte.doubleQuote ∨ b = Byte.singleQuote then
      (closingFrom bracket (.quoted b) depth rest).map (· + 1)
    else if b = bracket.opening then (closingFrom bracket .code (depth + 1) rest).map (· + 1)
    else if b = bracket.closing then
      if depth ≤ 1 then some 1 else (closingFrom bracket .code (depth - 1) rest).map (· + 1)
    else (closingFrom bracket .code depth rest).map (· + 1)
  | .quoted quote, depth, b :: rest =>
    let next : Mode :=
      if b = quote then .code else if b = Byte.backslash then .escaped quote else .quoted quote
    (closingFrom bracket next depth rest).map (· + 1)
  | .escaped quote, depth, _ :: rest =>
    (closingFrom bracket (.quoted quote) depth rest).map (· + 1)

/-- The number of bytes from the opening bracket at the head of a text to the bracket that closes
it, both included. -/
def closing? (bracket : Bracket) (s : Bytes) : Option Nat := closingFrom bracket .code 0 s

variable {bracket : Bracket} {mode : Mode} {depth n : Nat} {s : Bytes}

/-- One byte is the closing bracket that is looked for, or it decides how the bytes after it are
read. -/
theorem closingFrom_cons (bracket : Bracket) (mode : Mode) (depth : Nat) (b : UInt8) :
    (b = bracket.closing ∧ ∀ rest, closingFrom bracket mode depth (b :: rest) = some 1) ∨
      ∃ mode' depth', ∀ rest, closingFrom bracket mode depth (b :: rest) =
        (closingFrom bracket mode' depth' rest).map (· + 1) := by
  cases mode with
  | code =>
    by_cases hquote : b = Byte.doubleQuote ∨ b = Byte.singleQuote
    · exact .inr ⟨.quoted b, depth, fun rest => by rw [closingFrom, if_pos hquote]⟩
    by_cases hopening : b = bracket.opening
    · refine .inr ⟨.code, depth + 1, fun rest => ?_⟩
      rw [closingFrom, if_neg hquote, if_pos hopening]
    by_cases hclosing : b = bracket.closing
    · by_cases hdepth : depth ≤ 1
      · refine .inl ⟨hclosing, fun rest => ?_⟩
        rw [closingFrom, if_neg hquote, if_neg hopening, if_pos hclosing, if_pos hdepth]
      · refine .inr ⟨.code, depth - 1, fun rest => ?_⟩
        rw [closingFrom, if_neg hquote, if_neg hopening, if_pos hclosing, if_neg hdepth]
    · refine .inr ⟨.code, depth, fun rest => ?_⟩
      rw [closingFrom, if_neg hquote, if_neg hopening, if_neg hclosing]
  | quoted quote => exact .inr ⟨_, depth, fun rest => by rw [closingFrom]⟩
  | escaped quote => exact .inr ⟨.quoted quote, depth, fun rest => by rw [closingFrom]⟩

/-- What is read ends with the closing bracket, and what follows it does not matter. -/
theorem closingFrom_eq_some_iff : closingFrom bracket mode depth s = some n ↔
    ∃ inner after, s = inner ++ bracket.closing :: after ∧ n = inner.length + 1 ∧
      ∀ more, closingFrom bracket mode depth (inner ++ bracket.closing :: more) = some n := by
  constructor
  · intro h
    induction s generalizing mode depth n with
    | nil => simp [closingFrom] at h
    | cons b rest ih =>
      rcases closingFrom_cons bracket mode depth b with ⟨rfl, hstep⟩ | ⟨mode', depth', hstep⟩
      · rw [hstep] at h
        cases h
        exact ⟨[], rest, rfl, rfl, hstep⟩
      · rw [hstep] at h
        obtain ⟨m, hm, rfl⟩ := Option.map_eq_some_iff.1 h
        obtain ⟨inner, after, rfl, rfl, hall⟩ := ih hm
        refine ⟨b :: inner, after, rfl, rfl, fun more => ?_⟩
        rw [List.cons_append, hstep, hall, Option.map_some]
  · rintro ⟨inner, after, rfl, -, hall⟩
    exact hall after

end Bracket

end MarkupTemplate
