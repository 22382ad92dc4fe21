import MarkupTemplate.Document.Outline
import MarkupTemplate.Proofs.Reachability
import Mathlib.Tactic.Ring

/-!
# Texts in outlines

In an outline the line feeds, carriage returns and tabs of a text are spelled out, with a backslash
and a letter, and double quotes have a backslash before them; but a backslash of the text itself
stands as it is. So a text that spells a control character out looks the same as one that has the
control character in its place. No other texts look the same: double quotes are escaped wherever
they stand, so a backslash right before one is never taken for a part of the text. Therefore an
outline tells the texts of a document apart up to such spellings, and no better.

## Main definitions

* `Outline.respell`: a text in which the signs after backslashes are taken for what they stand for
* `Outline.unspell`: a text in which control characters are no longer spelled out
* `Label.content?`, `Document.withContent`: the text or the code of a node, and a document with
  another one

## Main results

* `Outline.escape_eq_iff`: which texts are written alike
* `Document.outline_withContent_eq_iff`: which changes of a text the outline does not show
-/

namespace MarkupTemplate

namespace Outline

/-! ## Spelled-out characters -/

/-- The letters that spell control characters out. -/
def controls : List (UInt8 × UInt8) :=
  [('n'.toUInt8, Byte.lineFeed), ('r'.toUInt8, Byte.carriageReturn), ('t'.toUInt8, Byte.tab)]

/-- What a byte stands for if it comes after another one, which has to be a backslash. -/
def meaning (signs : List (UInt8 × UInt8)) (before sign : UInt8) : Option UInt8 :=
  if before = Byte.backslash then signs.lookup sign else none

/-- The text in which every sign with a backslash before it is replaced by what it stands for. -/
def respell (signs : List (UInt8 × UInt8)) : Bytes → Bytes
  | [] => []
  | [b] => [b]
  | b :: c :: rest =>
    match meaning signs b c with
    | some e => e :: respell signs rest
    | none => b :: respell signs (c :: rest)

/-- The text in which control characters stand as themselves and are not spelled out. -/
def unspell (s : Bytes) : Bytes := respell controls s

/-- The text that is read from an escaped one. -/
def unescape (s : Bytes) : Bytes := respell ((Byte.doubleQuote, Byte.doubleQuote) :: controls) s

theorem respell_of_some {signs : List (UInt8 × UInt8)} {b c e : UInt8}
    (h : meaning signs b c = some e) (rest : Bytes) :
    respell signs (b :: c :: rest) = e :: respell signs rest := by
  rw [respell, h]

/-- A byte stands as it is if no backslash and sign begin with it. -/
theorem respell_of_none {signs : List (UInt8 × UInt8)} {b : UInt8} {rest : Bytes}
    (h : ∀ c ∈ rest.head?, meaning signs b c = none) :
    respell signs (b :: rest) = b :: respell signs rest := by
  cases rest with
  | nil => rfl
  | cons c rest => rw [respell, h c rfl]

/-- A sign with another name plays no part. -/
theorem meaning_cons_of_ne {letter e c : UInt8} {signs : List (UInt8 × UInt8)} (h : c ≠ letter)
    (b : UInt8) : meaning ((letter, e) :: signs) b c = meaning signs b c := by
  have hne : (c == letter) = false := beq_false_of_ne h
  rw [meaning, List.lookup_cons, hne, meaning]

/-- What a letter stands for is spelled out with this letter, which stands as it is in an escaped
text, as the backslash does. -/
theorem escapeByte_of_meaning {b c e : UInt8} (h : meaning controls b c = some e) :
    escapeByte e = [b, c] ∧ escape [b, c] = [b, c] ∧ c ≠ Byte.doubleQuote := by
  unfold meaning at h
  split at h
  · next hb =>
    subst hb
    have hcontrols : ∀ sign ∈ controls, escapeByte sign.2 = [Byte.backslash, sign.1] ∧
        escape [Byte.backslash, sign.1] = [Byte.backslash, sign.1] ∧
        sign.1 ≠ Byte.doubleQuote := by
      intro sign hsign
      simp only [controls, List.mem_cons, List.not_mem_nil, or_false] at hsign
      rcases hsign with rfl | rfl | rfl <;> decide +kernel
    obtain ⟨before, after, hsplit, -⟩ := List.lookup_eq_some_iff.1 h
    exact hcontrols (c, e) (hsplit ▸ List.mem_append_right _ List.mem_cons_self)
  · cases h

/-- An escaped byte is a backslash with a sign that stands for the byte, or the byte alone, which is
no double quote then. -/
theorem escapeByte_cases (b : UInt8) :
    (∃ sign, escapeByte b = [Byte.backslash, sign] ∧ meaning
      ((Byte.doubleQuote, Byte.doubleQuote) :: controls) Byte.backslash sign = some b) ∨
      escapeByte b = [b] ∧ b ≠ Byte.doubleQuote := by
  unfold escapeByte
  split
  · next h => subst h; exact .inl ⟨'n'.toUInt8, by decide +kernel, rfl⟩
  split
  · next h => subst h; exact .inl ⟨'r'.toUInt8, by decide +kernel, rfl⟩
  split
  · next h => subst h; exact .inl ⟨'t'.toUInt8, by decide +kernel, rfl⟩
  split
  · next h => subst h; exact .inl ⟨Byte.doubleQuote, by decide +kernel, rfl⟩
  · next h => exact .inr ⟨rfl, h⟩

theorem escape_cons (b : UInt8) (s : Bytes) : escape (b :: s) = escapeByte b ++ escape s := rfl

/-- An escaped byte is read as this byte, if it spells nothing out with the byte after it. -/
theorem unescape_escape_cons {b : UInt8} {s : Bytes}
    (h : ∀ c ∈ s.head?, meaning controls b c = none) :
    unescape (escape (b :: s)) = b :: unescape (escape s) := by
  rw [escape_cons]
  rcases escapeByte_cases b with ⟨sign, hb, hsign⟩ | ⟨hb, -⟩
  · rw [hb]
    exact respell_of_some hsign _
  · rw [hb]
    refine respell_of_none ?_
    cases s with
    | nil => simp [escape]
    | cons c s =>
      rw [escape_cons]
      -- What follows starts with a backslash, or with a byte that is no quote and stands as it is.
      rcases escapeByte_cases c with ⟨sign, hc, -⟩ | ⟨hc, hquote⟩
      · have hbackslash : meaning ((Byte.doubleQuote, Byte.doubleQuote) :: controls) b
            Byte.backslash = none := by
          unfold meaning
          split <;> rfl
        simpa [hc] using hbackslash
      · simpa [hc, meaning_cons_of_ne hquote] using h c rfl

/-- Reading an escaped text finds the text, with control characters in place of their spellings. -/
theorem unescape_escape (s : Bytes) : unescape (escape s) = unspell s := by
  unfold unspell
  fun_induction respell controls s with
  | case1 => rfl
  | case2 b => exact unescape_escape_cons (by simp)
  | case3 b c rest e h ih =>
    -- The two bytes pass the escaping as they are, and are read as one byte afterwards.
    obtain ⟨-, hstay, hquote⟩ := escapeByte_of_meaning h
    have hescape : escape (b :: c :: rest) = b :: c :: escape rest :=
      (List.flatMap_append : escape ([b, c] ++ rest) = escape [b, c] ++ escape rest).trans
        (congrArg (· ++ escape rest) hstay)
    rw [hescape, ← ih]
    exact respell_of_some ((meaning_cons_of_ne hquote b).trans h) _
  | case4 b c rest h ih =>
    rw [unescape_escape_cons (by simpa using h), ih]

/-- A text is escaped as it is with control characters in place of their spellings. -/
theorem escape_unspell (s : Bytes) : escape (unspell s) = escape s := by
  unfold unspell
  fun_induction respell controls s with
  | case1 => rfl
  | case2 b => rfl
  | case3 b c rest e h ih =>
    obtain ⟨he, hstay, -⟩ := escapeByte_of_meaning h
    rw [escape_cons, ih, he, ← hstay]
    exact List.flatMap_append.symm
  | case4 b c rest h ih =>
    rw [escape_cons, ih, escape_cons b]

/-- Two texts are escaped alike exactly if they are the same with control characters in place of
their spellings. -/
theorem escape_eq_iff {s t : Bytes} : escape s = escape t ↔ unspell s = unspell t := by
  constructor
  · intro h
    rw [← unescape_escape, ← unescape_escape, h]
  · intro h
    rw [← escape_unspell, h, escape_unspell]

end Outline

open Outline

/-! ## Texts of nodes -/

/-- The text of markup, or the code that is embedded. -/
def Label.content? (l : Label) : Option Bytes :=
  match l.kind with
  | .markup => some l.text
  | .embedded _ code => some code
  | _ => none

/-- The label with another text, or with other code. -/
def Label.withContent (s : Bytes) (l : Label) : Label :=
  match l.kind with
  | .markup => { l with fragments := [s] }
  | .embedded form _ => { l with kind := .embedded form s }
  | _ => l

/-- The document with another text, or with other code, in a node. -/
def Document.withContent (d : Document) (id : NodeId) (s : Bytes) : Document :=
  d.modify id fun n => { n with toLabel := n.toLabel.withContent s }

/-- The lines with their line feeds. -/
def Outline.ended (lines : List Bytes) : Bytes := lines.flatMap (· ++ [Byte.lineFeed])

@[simp] theorem Outline.ended_append (lines lines' : List Bytes) :
    ended (lines ++ lines') = ended lines ++ ended lines' := List.flatMap_append

/-- What the outline says of a node has its text escaped in one place. -/
theorem Label.exists_headline_withContent {l : Label} {s : Bytes} (h : l.content? = some s) :
    ∃ before after, l.headline = before ++ (escape s ++ after) ∧
      ∀ t, (l.withContent t).headline = before ++ (escape t ++ after) := by
  unfold content? at h
  cases hk : l.kind with
  | markup =>
    obtain rfl : l.text = s := by simpa [hk] using h
    exact ⟨utf8 "markup \"", utf8 "\"", by simp [headline, hk],
      fun t => by simp [headline, withContent, hk, Label.text]⟩
  | embedded form code =>
    obtain rfl : code = s := by simpa [hk] using h
    exact ⟨form.word ++ utf8 " \x7b", utf8 "\x7d", by simp [headline, hk],
      fun t => by simp [headline, withContent, hk]⟩
  | _ => simp [hk] at h

theorem Label.diagnostics_withContent (t : Bytes) (l : Label) :
    (l.withContent t).diagnostics = l.diagnostics := by
  unfold withContent
  split <;> rfl

/-- The lines about a node have its text escaped in one place. -/
theorem Label.exists_ended_outline {l : Label} {s : Bytes} (h : l.content? = some s) (level : Nat) :
    ∃ before after, ended (l.outline level) = before ++ (escape s ++ after) ∧
      ∀ t, ended ((l.withContent t).outline level) = before ++ (escape t ++ after) := by
  obtain ⟨before, after, hself, hother⟩ := exists_headline_withContent h
  refine ⟨indent level before, after ++ (Byte.lineFeed ::
    ended (l.diagnostics.map fun g => indent (level + 1) (diagnosticLine g))), ?_, fun t => ?_⟩
  · simp [outline, hself, ended, indent]
  · simp [outline, hother, diagnostics_withContent, ended, indent]

/-! ## Texts of forests -/

namespace Forest

/-- The text of an outline depends on what the lines about the nodes are. -/
theorem ended_outline_congr {label label' : NodeId → Label}
    (h : ∀ i level, ended ((label i).outline level) = ended ((label' i).outline level)) (f : Forest)
    (level : Nat) :
    ended ((f.relabel label).outline level) = ended ((f.relabel label').outline level) := by
  induction f generalizing level with
  | nil => rfl
  | cons i old children siblings ihc ihs => simp [relabel, outline, h, ihc, ihs]

section

variable {label : NodeId → Label} {id : NodeId} {s : Bytes}

/-- The labels with another text in one node. -/
def retext (label : NodeId → Label) (id : NodeId) (t : Bytes) : NodeId → Label :=
  Function.update label id ((label id).withContent t)

theorem retext_self (label : NodeId → Label) (id : NodeId) (t : Bytes) :
    retext label id t id = (label id).withContent t := Function.update_self ..

theorem retext_of_ne {i : NodeId} (h : i ≠ id) (t : Bytes) : retext label id t i = label i :=
  Function.update_of_ne h ..

variable (hs : (label id).content? = some s)
include hs

/-- An outline grows with the text of a node, once for each time that the node is met. -/
theorem exists_length_outline (f : Forest) (level : Nat) : ∃ base, ∀ t,
    (ended ((f.relabel (retext label id t)).outline level)).length =
      base + f.preorder.count id * (escape t).length := by
  induction f generalizing level with
  | nil => exact ⟨0, fun t => by simp [relabel, outline, ended, preorder]⟩
  | cons i old children siblings ihc ihs =>
    obtain ⟨base, hbase⟩ := ihc (level + 1)
    obtain ⟨base', hbase'⟩ := ihs level
    by_cases hi : i = id
    · subst hi
      obtain ⟨before, after, -, hline⟩ := Label.exists_ended_outline hs level
      refine ⟨before.length + after.length + base + base', fun t => ?_⟩
      simp only [relabel, outline, preorder, ended_append, List.length_append, hbase, hbase',
        retext_self, hline, List.count_cons_self, List.count_append]
      ring
    · refine ⟨(ended ((label i).outline level)).length + base + base', fun t => ?_⟩
      simp only [relabel, outline, preorder, ended_append, List.length_append, hbase, hbase',
        retext_of_ne hi, List.count_cons_of_ne hi, List.count_append]
      ring

/-- What stands in an outline before the first line about a node does not depend on its text. -/
theorem exists_outline_eq {f : Forest} (hid : id ∈ f.preorder) (level : Nat) : ∃ before, ∀ t,
    ∃ after, ended ((f.relabel (retext label id t)).outline level) =
      before ++ (escape t ++ after) := by
  -- What comes behind may hold the node again, so `after` depends on the text.
  induction f generalizing level with
  | nil => exact absurd hid List.not_mem_nil
  | cons i old children siblings ihc ihs =>
    by_cases hi : i = id
    · subst hi
      obtain ⟨before, after, -, hline⟩ := Label.exists_ended_outline hs level
      refine ⟨before, fun t => ⟨after ++
        (ended ((children.relabel (retext label i t)).outline (level + 1)) ++
          ended ((siblings.relabel (retext label i t)).outline level)), ?_⟩⟩
      simp only [relabel, outline, ended_append, retext_self, hline, List.append_assoc]
    · by_cases hchild : id ∈ children.preorder
      · obtain ⟨before, hbefore⟩ := ihc hchild (level + 1)
        refine ⟨ended ((label i).outline level) ++ before, fun t => ?_⟩
        obtain ⟨after, hafter⟩ := hbefore t
        refine ⟨after ++ ended ((siblings.relabel (retext label id t)).outline level), ?_⟩
        simp only [relabel, outline, ended_append, retext_of_ne hi, hafter, List.append_assoc]
      · -- The node is met after the children, and these are as they are.
        have hsibling : id ∈ siblings.preorder := by
          simpa [preorder, Ne.symm hi, hchild] using hid
        obtain ⟨before, hbefore⟩ := ihs hsibling level
        refine ⟨ended ((label i).outline level) ++
          (ended ((children.relabel label).outline (level + 1)) ++ before), fun t => ?_⟩
        obtain ⟨after, hafter⟩ := hbefore t
        have hchildren : children.relabel (retext label id t) = children.relabel label :=
          relabel_congr fun c hc => retext_of_ne (ne_of_mem_of_not_mem hc hchild) t
        refine ⟨after, ?_⟩
        simp only [relabel, outline, ended_append, retext_of_ne hi, hchildren, hafter,
          List.append_assoc]

/-- The outline shows a change of a text unless both texts are escaped alike. -/
theorem outline_retext_eq_iff {f : Forest} (hid : id ∈ f.preorder) (level : Nat) (t : Bytes) :
    ended ((f.relabel (retext label id t)).outline level) =
      ended ((f.relabel label).outline level) ↔ escape t = escape s := by
  have hself : ended ((f.relabel label).outline level) =
      ended ((f.relabel (retext label id s)).outline level) := by
    refine ended_outline_congr (fun i level => ?_) f level
    by_cases hi : i = id
    · subst hi
      obtain ⟨before, after, hline, hline'⟩ := Label.exists_ended_outline hs level
      rw [retext_self, hline, hline']
    · rw [retext_of_ne hi]
  rw [hself]
  constructor
  · intro h
    obtain ⟨base, hlength⟩ := exists_length_outline hs f level
    obtain ⟨before, hbefore⟩ := exists_outline_eq hs hid level
    -- Both outlines are of one length, so the two escaped texts are, and they stand in one place.
    have hequal : (escape t).length = (escape s).length := by
      have hsum := congrArg List.length h
      rw [hlength, hlength, Nat.add_left_cancel_iff] at hsum
      exact Nat.eq_of_mul_eq_mul_left (List.count_pos_iff.2 hid) hsum
    obtain ⟨after, hafter⟩ := hbefore t
    obtain ⟨after', hafter'⟩ := hbefore s
    rw [hafter, hafter', List.append_cancel_left_eq] at h
    exact (List.append_inj h hequal).1
  · intro h
    refine ended_outline_congr (fun i level => ?_) f level
    by_cases hi : i = id
    · subst hi
      obtain ⟨before, after, -, hline⟩ := Label.exists_ended_outline hs level
      rw [retext_self, retext_self, hline, hline, h]
    · rw [retext_of_ne hi, retext_of_ne hi]

end

end Forest

/-! ## Documents -/

namespace Document

variable {d d' : Document} {id : NodeId}

/-- Nodes with the same children are unfolded alike. -/
theorem unfold_relabel (h : ∀ i, d'.children i = d.children i) (depth : Nat) (ids : List NodeId) :
    d'.unfold depth ids = (d.unfold depth ids).relabel d'.label := by
  induction depth generalizing ids with
  | zero => rfl
  | succ depth ihd =>
    induction ids with
    | nil => rfl
    | cons i ids ihs => rw [unfold_cons, unfold_cons, Forest.relabel, ihs, h i, ihd]

/-- If the walk from the root comes to an end, it meets all nodes that are reached. -/
theorem mem_preorder_of_reached (hends : d.Exhibits d.tree) (hid : d.Reached id) :
    id ∈ d.tree.preorder := by
  obtain ⟨place, hplace⟩ := hid
  exact mem_preorder_of_standsAt hends.shows d.roots_tree hplace

theorem tree_withContent (hlt : id < d.size) (t : Bytes) :
    (d.withContent id t).tree = d.tree.relabel (Forest.retext d.label id t) := by
  have hlabel : (d.withContent id t).label = Forest.retext d.label id t := by
    funext i
    rw [label, withContent, node_modify d _ hlt]
    by_cases hi : i = id
    · subst hi
      rw [if_pos rfl, Forest.retext_self, label]
    · rw [if_neg hi, Forest.retext_of_ne hi, label]
  have hchildren : ∀ i, (d.withContent id t).children i = d.children i := fun i =>
    children_modify fun n => rfl
  rw [tree, unfold_relabel hchildren, hlabel, tree, withContent, size_modify]

/-- The outline shows every change of a text or of code, but that of control characters into their
spellings or back. The walk from the root has to come to an end, but it may meet the node at any
number of places. -/
theorem outline_withContent_eq_iff (hends : d.Exhibits d.tree) (hid : d.Reached id)
    (hlt : id < d.size) {s : Bytes} (hs : (d.label id).content? = some s) (t : Bytes) :
    (d.withContent id t).outline = d.outline ↔ unspell t = unspell s := by
  have htree : d.tree = d.tree.relabel d.label := unfold_relabel (fun _ => rfl) _ _
  have houtline : d.outline = ended ((d.tree.relabel d.label).outline 0) := by
    rw [← htree]
    rfl
  have houtline' : (d.withContent id t).outline =
      ended ((d.tree.relabel (Forest.retext d.label id t)).outline 0) := by
    rw [← tree_withContent hlt]
    rfl
  rw [houtline, houtline', ← escape_eq_iff]
  exact Forest.outline_retext_eq_iff hs (mem_preorder_of_reached hends hid) 0 t

/-- A backslash and a letter in two pieces of one text, which is met twice. -/
def twicePieced : Document :=
  ⟨#[{ kind := .document, children := [1, 2] },
    { kind := .markup, fragments := [utf8 "\\", utf8 "n"] },
    { kind := .element, name := utf8 "p", children := [1] }], by decide⟩

/-- A line feed in place of its spelling is not shown, but a further backslash is. -/
theorem twicePieced_withContent :
    twicePieced.Exhibits twicePieced.tree ∧ twicePieced.Reached 1 ∧ 1 < twicePieced.size ∧
    (twicePieced.label 1).content? = some (utf8 "\\n") ∧
    (twicePieced.withContent 1 [Byte.lineFeed]).outline = twicePieced.outline ∧
    (twicePieced.withContent 1 (utf8 "\\\\n")).outline ≠ twicePieced.outline := by
  have hends : twicePieced.Exhibits twicePieced.tree := by decide +kernel
  have hid : twicePieced.Reached 1 := ⟨.child root 0, .child .root rfl⟩
  have hs : (twicePieced.label 1).content? = some (utf8 "\\n") := by decide +kernel
  have hiff := outline_withContent_eq_iff hends hid (by decide) hs
  refine ⟨hends, hid, by decide, hs, (hiff _).2 (by decide +kernel), fun h => ?_⟩
  exact absurd ((hiff _).1 h) (by decide +kernel)

/-- A text of one line feed. -/
def blankLine : Document :=
  ⟨#[{ kind := .document, children := [1] },
    { kind := .markup, fragments := [[Byte.lineFeed]] }], by decide⟩

/-- The outline does not tell a line feed from a backslash and the letter for it. -/
theorem blankLine_withContent : blankLine.Exhibits blankLine.tree ∧ blankLine.Reached 1 ∧
    (blankLine.label 1).content? = some [Byte.lineFeed] ∧ utf8 "\\n" ≠ [Byte.lineFeed] ∧
    (blankLine.withContent 1 (utf8 "\\n")).outline = blankLine.outline :=
  ⟨by decide +kernel, ⟨.child root 0, .child .root rfl⟩, by decide +kernel, by decide +kernel,
    by decide +kernel⟩

end Document

end MarkupTemplate
