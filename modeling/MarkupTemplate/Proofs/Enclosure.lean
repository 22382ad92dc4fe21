import Mathlib.Data.Set.Basic
import Mathlib.Order.Bounds.Basic
import Mathlib.Order.Nat
import MarkupTemplate.Proofs.Pieces

/-!
# Where brackets are closed

The search for the closing bracket reads byte by byte and counts the brackets that are open. Where it
ends can be said without the search: at the first place up to which, strings left out, there are as
many closing brackets as opening ones. Brackets of another kind do not count, and neither does
anything in a string; a string that is not ended takes all of the text with it.

## Main definitions

* `Bracket.afterString`, `Bracket.unquoted`: what comes after a string, and a text without strings
* `Bracket.Balanced`: a text with as many opening as closing brackets outside of strings
* `Bracket.ends`: the places of a template up to which the brackets from a place on are balanced
* `Bracket.Closes`: a part of a text closes the brackets that are open before it

## Main results

* `Bracket.closingFrom_eq_some_iff_isLeast`: the search finds the shortest part that closes the open
  brackets, however the first byte is read
* `Bracket.enclosed_exactly`: from an opening bracket in a template the search ends at the first place
  at which the brackets are balanced, and it fails just if there is none
-/

namespace MarkupTemplate

namespace Bracket

/-! ## Texts without strings -/

/-- What comes after a string that has begun with the quote: all after the next such quote that no
backslash escapes. A string that is not ended goes on to the end of the text. -/
def afterString (quote : UInt8) : Bytes → Bytes
  | [] => []
  | b :: rest =>
    if b = quote then rest
    else if b = Byte.backslash then afterString quote (rest.drop 1)
    else afterString quote rest
termination_by s => s.length
decreasing_by all_goals simp only [List.length_drop, List.length_cons]; omega

theorem length_afterString_le (quote : UInt8) (s : Bytes) :
    (afterString quote s).length ≤ s.length := by
  fun_induction afterString quote s with
  | case1 => exact Nat.le_refl _
  | case2 => exact Nat.le_succ _
  | case3 rest _ ih =>
    rw [List.length_drop] at ih
    rw [List.length_cons]
    omega
  | case4 b rest _ _ ih => exact Nat.le_succ_of_le ih

/-- A text without its strings. Either quote starts a string. -/
def unquoted : Bytes → Bytes
  | [] => []
  | b :: rest =>
    if b = Byte.doubleQuote ∨ b = Byte.singleQuote then unquoted (afterString b rest)
    else b :: unquoted rest
termination_by s => s.length
decreasing_by
  · exact Nat.lt_succ_of_le (length_afterString_le b rest)
  · exact Nat.lt_succ_self _

variable {bracket : Bracket} {mode : Mode} {depth n : Nat} {b : UInt8} {s rest source : Bytes}

/-- Outside of strings there are as many opening as closing brackets. -/
def Balanced (bracket : Bracket) (s : Bytes) : Prop :=
  (unquoted s).count bracket.opening = (unquoted s).count bracket.closing

/-- The places of a template after the given one up to which the brackets are balanced. -/
def ends (bracket : Bracket) (source : Bytes) (position : Nat) : Set Nat :=
  { e | position < e ∧ e ≤ source.length ∧ bracket.Balanced ((source.take e).drop position) }

/-! ## Parts that close brackets -/

/-- What of a text is code, if its first byte is read in the given mode. -/
def Mode.codeOf : Mode → Bytes → Bytes
  | .code, s => unquoted s
  | .quoted quote, s => unquoted (afterString quote s)
  | .escaped quote, s => unquoted (afterString quote (s.drop 1))

@[simp] theorem Mode.codeOf_nil (mode : Mode) : mode.codeOf [] = [] := by
  cases mode <;> simp [codeOf, unquoted, afterString]

theorem Mode.codeOf_quote (h : b = Byte.doubleQuote ∨ b = Byte.singleQuote) (s : Bytes) :
    Mode.code.codeOf (b :: s) = (Mode.quoted b).codeOf s := by
  rw [codeOf, unquoted, if_pos h, codeOf]

theorem Mode.codeOf_cons (h : ¬ (b = Byte.doubleQuote ∨ b = Byte.singleQuote)) (s : Bytes) :
    Mode.code.codeOf (b :: s) = b :: Mode.code.codeOf s := by
  rw [codeOf, unquoted, if_neg h, codeOf]

/-- A byte of a string is no code, and it decides how the next byte is read. -/
theorem Mode.codeOf_quoted (quote b : UInt8) (s : Bytes) :
    (Mode.quoted quote).codeOf (b :: s) =
      (if b = quote then Mode.code else if b = Byte.backslash then .escaped quote
        else .quoted quote).codeOf s := by
  rw [codeOf, afterString]
  split
  · rfl
  · split <;> rfl

theorem Mode.codeOf_escaped (quote b : UInt8) (s : Bytes) :
    (Mode.escaped quote).codeOf (b :: s) = (Mode.quoted quote).codeOf s := rfl

/-- The first `n` bytes of a text close as many brackets as they open, and those that were open
before. -/
def Closes (bracket : Bracket) (mode : Mode) (depth : Nat) (s : Bytes) (n : Nat) : Prop :=
  n ≤ s.length ∧
    depth + (mode.codeOf (s.take n)).count bracket.opening =
      (mode.codeOf (s.take n)).count bracket.closing

/-- The empty part closes nothing. -/
theorem not_closes_zero (hdepth : 0 < depth) : ¬ bracket.Closes mode depth s 0 := by
  rintro ⟨-, h⟩
  simp only [List.take_zero, Mode.codeOf_nil, List.count_nil] at h
  omega

/-- A part with one more byte in front of it. -/
theorem closes_cons {mode' : Mode} {depth' : Nat}
    (h : ∀ t, depth + (mode.codeOf (b :: t)).count bracket.opening =
        (mode.codeOf (b :: t)).count bracket.closing ↔
      depth' + (mode'.codeOf t).count bracket.opening =
        (mode'.codeOf t).count bracket.closing) :
    bracket.Closes mode depth (b :: rest) (n + 1) ↔ bracket.Closes mode' depth' rest n := by
  simp only [Closes, List.length_cons, List.take_succ_cons, h, Nat.add_le_add_iff_right]

/-- What one byte does: it closes the last open bracket, or it leads to the search in the text after
it, and the parts that close the open brackets are those of this text with the byte in front. -/
theorem closingFrom_step (bracket : Bracket) (mode : Mode) (b : UInt8) (rest : Bytes)
    (hdepth : 0 < depth) :
    (closingFrom bracket mode depth (b :: rest) = some 1 ∧
        bracket.Closes mode depth (b :: rest) 1) ∨
      ∃ mode' depth', 0 < depth' ∧
        closingFrom bracket mode depth (b :: rest) =
          (closingFrom bracket mode' depth' rest).map (· + 1) ∧
        ∀ n, bracket.Closes mode depth (b :: rest) (n + 1) ↔
          bracket.Closes mode' depth' rest n := by
  cases mode with
  | code =>
    by_cases hquote : b = Byte.doubleQuote ∨ b = Byte.singleQuote
    · refine .inr ⟨.quoted b, depth, hdepth, by rw [closingFrom, if_pos hquote], fun n => ?_⟩
      exact closes_cons fun t => by rw [Mode.codeOf_quote hquote]
    by_cases hopening : b = bracket.opening
    · refine .inr ⟨.code, depth + 1, Nat.succ_pos _, ?_, fun n => closes_cons fun t => ?_⟩
      · rw [closingFrom, if_neg hquote, if_pos hopening]
      · rw [Mode.codeOf_cons hquote, hopening, List.count_cons_self,
          List.count_cons_of_ne bracket.opening_ne_closing]
        omega
    by_cases hclosing : b = bracket.closing
    · by_cases hlast : depth ≤ 1
      · refine .inl ⟨?_, by simp, ?_⟩
        · rw [closingFrom, if_neg hquote, if_neg hopening, if_pos hclosing, if_pos hlast]
        · rw [List.take_succ_cons, List.take_zero, Mode.codeOf_cons hquote, Mode.codeOf_nil,
            List.count_singleton, List.count_singleton]
          simp only [hclosing, beq_self_eq_true, if_true]
          simp only [beq_iff_eq, bracket.opening_ne_closing.symm, if_false]
          omega
      · refine .inr ⟨.code, depth - 1, by omega, ?_, fun n => closes_cons fun t => ?_⟩
        · rw [closingFrom, if_neg hquote, if_neg hopening, if_pos hclosing, if_neg hlast]
        · rw [Mode.codeOf_cons hquote, hclosing, List.count_cons_self,
            List.count_cons_of_ne bracket.opening_ne_closing.symm]
          omega
    · refine .inr ⟨.code, depth, hdepth, ?_, fun n => closes_cons fun t => ?_⟩
      · rw [closingFrom, if_neg hquote, if_neg hopening, if_neg hclosing]
      · rw [Mode.codeOf_cons hquote, List.count_cons_of_ne hopening,
          List.count_cons_of_ne hclosing]
  | quoted quote =>
    refine .inr ⟨_, depth, hdepth, by rw [closingFrom], fun n => closes_cons fun t => ?_⟩
    rw [Mode.codeOf_quoted]
  | escaped quote =>
    refine .inr ⟨_, depth, hdepth, by rw [closingFrom], fun n => closes_cons fun t => ?_⟩
    rw [Mode.codeOf_escaped]

theorem isLeast_succ {P : Nat → Prop} (h : ¬ P 0) :
    IsLeast { n | P n } (n + 1) ↔ IsLeast { n | P (n + 1) } n := by
  constructor
  · rintro ⟨hmem, hleast⟩
    exact ⟨hmem, fun m hm => Nat.le_of_succ_le_succ (hleast hm)⟩
  · rintro ⟨hmem, hleast⟩
    refine ⟨hmem, fun m hm => ?_⟩
    cases m with
    | zero => exact absurd hm h
    | succ m => exact Nat.succ_le_succ (hleast hm)

/-- The search finds the shortest part of a text that closes the brackets that are open. -/
theorem closingFrom_eq_some_iff_isLeast (hdepth : 0 < depth) :
    closingFrom bracket mode depth s = some n ↔
      IsLeast { n | bracket.Closes mode depth s n } n := by
  induction s generalizing mode depth n with
  | nil =>
    refine iff_of_false (by simp [closingFrom]) fun h => ?_
    have hnone : n = 0 := Nat.le_zero.1 h.1.1
    exact not_closes_zero hdepth (hnone ▸ h.1)
  | cons b rest ih =>
    rcases closingFrom_step bracket mode b rest hdepth with
      ⟨hfound, hcloses⟩ | ⟨mode', depth', hdepth', hfound, hcloses⟩
    · -- No part is shorter than one byte.
      have hleast : IsLeast { n | bracket.Closes mode depth (b :: rest) n } 1 :=
        ⟨hcloses, fun m hm => Nat.pos_of_ne_zero fun hzero =>
          not_closes_zero hdepth (hzero ▸ hm : bracket.Closes mode depth (b :: rest) 0)⟩
      rw [hfound, Option.some_inj]
      exact ⟨fun h => h ▸ hleast, fun h => hleast.unique h⟩
    · cases n with
      | zero =>
        refine iff_of_false (by simp [hfound]) fun h => not_closes_zero hdepth h.1
      | succ n =>
        rw [isLeast_succ (not_closes_zero hdepth), hfound]
        simp only [hcloses, ← ih hdepth', Option.map_eq_some_iff, Nat.add_right_cancel_iff,
          exists_eq_right]

/-! ## Opening brackets in a template -/

theorem opening_ne_quote (bracket : Bracket) :
    ¬ (bracket.opening = Byte.doubleQuote ∨ bracket.opening = Byte.singleQuote) := by
  cases bracket <;> decide

/-- After its opening bracket a text has one bracket to close. -/
theorem closing?_opening (bracket : Bracket) (rest : Bytes) :
    bracket.closing? (bracket.opening :: rest) =
      (closingFrom bracket .code 1 rest).map (· + 1) := by
  rw [closing?, closingFrom, if_neg bracket.opening_ne_quote, if_pos rfl]

theorem balanced_opening (t : Bytes) :
    bracket.Balanced (bracket.opening :: t) ↔
      1 + (Mode.code.codeOf t).count bracket.opening = (Mode.code.codeOf t).count bracket.closing := by
  rw [Balanced, show unquoted (bracket.opening :: t) = _ from
    Mode.codeOf_cons bracket.opening_ne_quote t, List.count_cons_self,
    List.count_cons_of_ne bracket.opening_ne_closing, Nat.add_comm]

/-- The places up to which the brackets are balanced, counted from the byte after the opening
bracket. -/
theorem mem_ends_iff {position : Nat} (h : source[position]? = some bracket.opening) :
    position + 1 + n ∈ bracket.ends source position ↔
      bracket.Closes .code 1 (source.drop (position + 1)) n := by
  obtain ⟨hlt, hget⟩ := List.getElem?_eq_some_iff.1 h
  have hslice : (source.take (position + 1 + n)).drop position =
      bracket.opening :: (source.drop (position + 1)).take n := by
    rw [List.drop_take, ← List.getElem_cons_drop hlt, hget, show position + 1 + n - position = n + 1
      by omega, List.take_succ_cons]
  have hlength : position + 1 + n ≤ source.length ↔
      n ≤ (source.drop (position + 1)).length := by
    rw [List.length_drop]
    omega
  have hlt' : position < position + 1 + n := by omega
  change position < position + 1 + n ∧ position + 1 + n ≤ source.length ∧ bracket.Balanced _ ↔ _
  rw [hslice, balanced_opening, hlength]
  exact and_iff_right hlt'

/-- The place just after the bracket that closes the one at the given place. -/
def stop? (bracket : Bracket) (source : Bytes) (position : Nat) : Option Nat :=
  (bracket.closing? (source.drop position)).map (position + ·)

variable {position e : Nat}

/-- The search ends at the first place at which the brackets are balanced. -/
theorem stop?_eq_some_iff (h : source[position]? = some bracket.opening) :
    bracket.stop? source position = some e ↔ IsLeast (bracket.ends source position) e := by
  obtain ⟨hlt, hget⟩ := List.getElem?_eq_some_iff.1 h
  have hsearch : bracket.stop? source position =
      (closingFrom bracket .code 1 (source.drop (position + 1))).map (position + 1 + ·) := by
    rw [stop?, ← List.getElem_cons_drop hlt, hget, closing?_opening, Option.map_map]
    exact congrArg (Option.map · _) (funext fun n => by simp only [Function.comp]; omega)
  -- The byte after the opening bracket is the first place that counts.
  have hplaces : ∀ m, m ∈ bracket.ends source position ↔
      ∃ n, bracket.Closes .code 1 (source.drop (position + 1)) n ∧ position + 1 + n = m := by
    intro m
    constructor
    · intro hm
      obtain ⟨n, rfl⟩ := Nat.exists_eq_add_of_lt hm.1
      refine ⟨n, (mem_ends_iff h).1 ?_, by omega⟩
      rwa [show position + 1 + n = position + n + 1 by omega]
    · rintro ⟨n, hn, rfl⟩
      exact (mem_ends_iff h).2 hn
  rw [hsearch, Option.map_eq_some_iff]
  constructor
  · rintro ⟨n, hn, rfl⟩
    obtain ⟨hmem, hleast⟩ := (closingFrom_eq_some_iff_isLeast Nat.one_pos).1 hn
    refine ⟨(hplaces _).2 ⟨n, hmem, rfl⟩, fun m hm => ?_⟩
    obtain ⟨k, hk, rfl⟩ := (hplaces m).1 hm
    exact Nat.add_le_add_left (hleast hk) _
  · rintro ⟨hmem, hleast⟩
    obtain ⟨n, hn, rfl⟩ := (hplaces e).1 hmem
    refine ⟨n, (closingFrom_eq_some_iff_isLeast Nat.one_pos).2 ⟨hn, fun k hk => ?_⟩, rfl⟩
    exact Nat.le_of_add_le_add_left (hleast ((hplaces _).2 ⟨k, hk, rfl⟩))

/-- Texts that are the same up to a place have the same ends up to it. -/
theorem mem_ends_congr {other : Bytes} {m : Nat} (h : other.take e = source.take e) (hm : m ≤ e)
    (hmem : m ∈ bracket.ends source position) : m ∈ bracket.ends other position := by
  obtain ⟨hlt, hle, hbalanced⟩ := hmem
  have htake : other.take m = source.take m := by
    rw [← Nat.min_eq_left hm, ← List.take_take, h, List.take_take]
  have hlength := congrArg List.length htake
  rw [List.length_take, List.length_take] at hlength
  exact ⟨hlt, by omega, htake ▸ hbalanced⟩

/-- From an opening bracket in a template the search for the closing one ends at the first place
after the bracket up to which, strings left out, as many brackets are closed as are opened, and it
fails just if there is no such place. This place comes after at least one more byte and not after
the end of the template, and it does not depend on what follows it. -/
theorem enclosed_exactly (h : source[position]? = some bracket.opening) :
    (∀ e, bracket.stop? source position = some e ↔ IsLeast (bracket.ends source position) e) ∧
      (bracket.stop? source position = none ↔ bracket.ends source position = ∅) ∧
      ∀ e, bracket.stop? source position = some e →
        position + 1 < e ∧ e ≤ source.length ∧
          ∀ other, other.take e = source.take e → bracket.stop? other position = some e := by
  refine ⟨fun e => stop?_eq_some_iff h, ⟨fun hnone => ?_, fun hempty => ?_⟩, fun e he => ?_⟩
  · classical
    by_contra hne
    have hleast := (stop?_eq_some_iff h).2 (Set.nonempty_iff_ne_empty.2 hne).isLeast_natFind
    simp [hnone] at hleast
  · refine Option.eq_none_iff_forall_ne_some.2 fun e he => ?_
    have hmem := ((stop?_eq_some_iff h).1 he).1
    rw [hempty] at hmem
    exact hmem
  · obtain ⟨hmem, hleast⟩ := (stop?_eq_some_iff h).1 he
    have hlt : position + 1 < e := by
      refine Nat.lt_of_le_of_ne hmem.1 fun heq => ?_
      have hfirst : position + 1 + 0 ∈ bracket.ends source position := heq ▸ hmem
      exact not_closes_zero Nat.one_pos ((mem_ends_iff h).1 hfirst)
    refine ⟨hlt, hmem.2.1, fun other hother => ?_⟩
    have hopening : other[position]? = some bracket.opening := by
      rw [← List.getElem?_take_of_lt hmem.1, hother, List.getElem?_take_of_lt hmem.1, h]
    refine (stop?_eq_some_iff hopening).2 ⟨mem_ends_congr hother (Nat.le_refl e) hmem, ?_⟩
    intro m hm
    refine Nat.le_of_not_lt fun hless => ?_
    exact Nat.not_le_of_lt hless (hleast (mem_ends_congr hother.symm hless.le hm))

/-- An expression with parentheses in strings, after an escaped quote and in square brackets. -/
def nestedCode : Bytes := utf8 "x@(f(\")\\\"\") + g['(']) y)"

theorem nestedCode_enclosed :
    nestedCode[2]? = some Bracket.paren.opening ∧ Bracket.paren.stop? nestedCode 2 = some 21 ∧
      IsLeast (Bracket.paren.ends nestedCode 2) 21 ∧
      Bracket.paren.stop? (nestedCode.take 21 ++ utf8 "\"'(") 2 = some 21 := by
  have hopening : nestedCode[2]? = some Bracket.paren.opening := by decide +kernel
  have hstop : Bracket.paren.stop? nestedCode 2 = some 21 := by decide +kernel
  obtain ⟨hleast, -, hbounds⟩ := enclosed_exactly hopening
  exact ⟨hopening, hstop, (hleast 21).1 hstop,
    (hbounds 21 hstop).2.2 _ (by rw [List.take_left' (by decide +kernel)])⟩

end Bracket

end MarkupTemplate
