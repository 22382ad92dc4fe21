import Mathlib.Data.List.Chain
import MarkupTemplate.Proofs.Compilation
import MarkupTemplate.Proofs.Pieces
import MarkupTemplate.Template.Read

/-!
# The reader accounts for the template

The children of the root are the segments of the template, and every byte of the template is in the
stretch of one of them or in a comment. What a segment says can be read off its stretch alone: the
code that is embedded there, or the markup, in which comments are left out and `@@` stands for `@`.

## Main definitions

* `markupOf`: the markup that a stretch of a template stands for
* `SegmentContent.Tells`: what a segment says of its stretch
* `Tiles`: how a text falls into segments and comments
* `Accounts`: the segments of a template account for the template
* `segmentsFrom`: the segments of a template from an offset on

## Main results

* `tiles_pieces`: the pieces of a text gather to segments that tile it
* `Tiles.accounts`: segments that tile a template account for it
* `readTemplate_accounts`: the reader accounts for the template
-/

namespace MarkupTemplate

/-! ## Markup -/

/-- The markup that a stretch of a template stands for, read from left to right. Comments stand for
nothing, even without their end, and a doubled `@` for one. From a bracket after `@` that is not
closed on, everything stands for itself. -/
def markupOf : Bytes → Bytes
  | [] => []
  | b :: rest =>
    if b ≠ Byte.atSign then b :: markupOf rest
    else match rest with
      | [] => [b]
      | next :: more =>
        if next = Byte.atSign then b :: markupOf more
        else if next = Byte.asterisk then
          match _h : Bytes.splitAtFirst? (utf8 "*@") more with
          | some (_, after) => markupOf after
          | none => []
        else if (next = Byte.openParen ∧ Bracket.paren.closing? (next :: more) = none) ∨
            (next = Byte.openBrace ∧ Bracket.brace.closing? (next :: more) = none) then
          b :: next :: more
        else b :: markupOf (next :: more)
termination_by s => s.length
decreasing_by
  · exact Nat.lt_succ_self _
  · exact Nat.lt_succ_of_lt (Nat.lt_succ_self _)
  · have := congrArg List.length (Bytes.eq_of_splitAtFirst? _h)
    simp only [List.length_append, List.length_cons] at this ⊢
    omega
  · exact Nat.lt_succ_self _

@[simp] theorem markupOf_nil : markupOf [] = [] := by rw [markupOf]

theorem markupOf_cons_of_ne {b : UInt8} {rest : Bytes} (h : b ≠ Byte.atSign) :
    markupOf (b :: rest) = b :: markupOf rest := by
  rw [markupOf.eq_def]
  simp [h]

theorem markupOf_escape (rest : Bytes) :
    markupOf (Byte.atSign :: Byte.atSign :: rest) = Byte.atSign :: markupOf rest := by
  rw [markupOf.eq_def]
  simp

theorem markupOf_sign {rest : Bytes} (h : ∀ next ∈ rest.head?,
    next ∉ [Byte.atSign, Byte.asterisk, Byte.openParen, Byte.openBrace]) :
    markupOf (Byte.atSign :: rest) = Byte.atSign :: markupOf rest := by
  rw [markupOf.eq_def]
  cases rest with
  | nil => simp
  | cons next more =>
    have hnext := h next rfl
    simp only [List.mem_cons, List.not_mem_nil, or_false, not_or] at hnext
    simp [hnext]

theorem markupOf_asterisk (rest : Bytes) : markupOf (Byte.atSign :: Byte.asterisk :: rest) =
    ((Bytes.splitAtFirst? (utf8 "*@") rest).map fun parts => markupOf parts.2).getD [] := by
  have hne : Byte.asterisk ≠ Byte.atSign := by decide
  rw [markupOf.eq_def]
  simp only [ne_eq, not_true_eq_false, if_false, if_neg hne, if_true]
  split <;> next h => rw [h]; rfl

/-- Code whose brackets are not closed is left as it is. -/
theorem markupOf_unclosed_code {form : Form} {s : Bytes} (h : (Construct.code form).Unclosed s) :
    markupOf s = s := by
  cases h with
  | @code _ bracket inner hform hinner =>
    have hopening : (bracket.opening = Byte.openParen ∧
          Bracket.paren.closing? (bracket.opening :: inner) = none) ∨
        (bracket.opening = Byte.openBrace ∧
          Bracket.brace.closing? (bracket.opening :: inner) = none) := by
      rcases Form.bracket?_eq_some_iff.1 hform with ⟨-, rfl⟩ | ⟨-, rfl⟩
      · exact .inl ⟨rfl, hinner⟩
      · exact .inr ⟨rfl, hinner⟩
    have hsign : bracket.opening ≠ Byte.atSign := by cases bracket <;> decide
    have hasterisk : bracket.opening ≠ Byte.asterisk := by cases bracket <;> decide
    rw [markupOf.eq_def]
    simp only [ne_eq, not_true_eq_false, if_false, if_neg hsign, if_neg hasterisk,
      if_pos hopening]

/-- A comment without its end leaves nothing. -/
theorem markupOf_unclosed_comment {s : Bytes} (h : Construct.comment.Unclosed s) :
    markupOf s = [] := by
  cases h with
  | comment hinner =>
    rw [utf8_commentStart, List.cons_append, List.cons_append, List.nil_append, markupOf_asterisk,
      (Bytes.splitAtFirst?_eq_none_iff (by decide)).2 hinner]
    rfl

/-- A comment adds nothing to the markup. -/
theorem markupOf_comment_append {s : Bytes} (hs : IsComment s) (rest : Bytes) :
    markupOf (s ++ rest) = markupOf rest := by
  obtain ⟨inner, rfl, hinner⟩ := hs
  have hsplit : Bytes.splitAtFirst? (utf8 "*@") (inner ++ utf8 "*@" ++ rest) =
      some (inner, rest) :=
    (Bytes.splitAtFirst?_eq_some_iff (by decide)).2 ⟨rfl, hinner⟩
  have hassoc : utf8 "@*" ++ inner ++ utf8 "*@" ++ rest =
      Byte.atSign :: Byte.asterisk :: (inner ++ utf8 "*@" ++ rest) := by
    simp [utf8_commentStart]
  rw [hassoc, markupOf_asterisk, hsplit]
  rfl

/-- A piece of text adds what it says to the markup, if the stretch goes on as the template does. -/
theorem Means.markupOf_append {s after data t : Bytes} (h : Means s after (.text data))
    (ht : t <+: after) : markupOf (s ++ t) = data ++ markupOf t := by
  cases h with
  | byte hb => exact markupOf_cons_of_ne hb
  | escape => exact markupOf_escape t
  | sign hafter =>
    refine markupOf_sign fun next hnext => hafter next ?_
    obtain ⟨more, rfl⟩ := ht
    have hnext : t.head? = some next := hnext
    rw [List.head?_append, hnext]
    rfl

example : markupOf (utf8 "a@@b@*c*@d@\x7b") = utf8 "a@bd@\x7b" := by cbv

/-! ## Tiling -/

/-- The content of a run of markup. -/
def SegmentContent.IsMarkup : SegmentContent → Prop
  | .markup _ => True
  | .embedded .. => False

instance : DecidablePred SegmentContent.IsMarkup
  | .markup _ => .isTrue trivial
  | .embedded .. => .isFalse id

/-- What a segment says is what its stretch of the template stands for. -/
def SegmentContent.Tells (s : Bytes) : SegmentContent → Prop
  | .markup text => text ≠ [] ∧ text = markupOf s
  | .embedded form code => Embeds s form code

/-- The text at an offset falls into segments and comments, up to a construct without its end. A
comment in a run of markup is a part of the run. -/
inductive Tiles : Nat → Bytes → List Segment → Option (Construct × Nat) → Prop
  /-- The end of the text. -/
  | done {offset : Nat} : Tiles offset [] [] none
  /-- A comment without its end. -/
  | openComment {offset : Nat} {s : Bytes} (hs : Construct.comment.Unclosed s) :
      Tiles offset s [] (some (.comment, offset))
  /-- A comment outside the runs of markup. -/
  | comment {offset : Nat} {s rest : Bytes} {parts : List Segment}
      {open? : Option (Construct × Nat)} (hs : IsComment s)
      (hrest : Tiles (offset + s.length) rest parts open?) :
      Tiles offset (s ++ rest) parts open?
  /-- Embedded code. -/
  | embedded {offset : Nat} {s rest code : Bytes} {form : Form} {parts : List Segment}
      {open? : Option (Construct × Nat)} (hs : Embeds s form code)
      (hrest : Tiles (offset + s.length) rest parts open?) :
      Tiles offset (s ++ rest) (⟨offset, offset + s.length, .embedded form code⟩ :: parts) open?
  /-- A run of markup. -/
  | markup {offset : Nat} {s rest : Bytes} {parts : List Segment} {open? : Option (Construct × Nat)}
      (hs : markupOf s ≠ []) (hnext : ∀ next ∈ parts.head?, ¬ next.content.IsMarkup)
      (hrest : Tiles (offset + s.length) rest parts open?) :
      Tiles offset (s ++ rest) (⟨offset, offset + s.length, .markup (markupOf s)⟩ :: parts) open?
  /-- A run of markup that ends with a construct without its end. -/
  | openMarkup {offset : Nat} {s rest : Bytes} {construct : Construct}
      (hs : markupOf (s ++ rest) ≠ []) (hrest : construct.Unclosed rest) :
      Tiles offset (s ++ rest)
        [⟨offset, offset + (s ++ rest).length, .markup (markupOf (s ++ rest))⟩]
        (some (construct, offset + s.length))

/-- Text at the head of a template joins the run of markup after it, or starts one. -/
theorem Tiles.prependText {offset start : Nat} {s rest data : Bytes} {parts : List Segment}
    {open? : Option (Construct × Nat)} (h : Tiles start rest parts open?)
    (hstart : start = offset + s.length) (hdata : data ≠ [])
    (hread : ∀ t, t <+: rest → markupOf (s ++ t) = data ++ markupOf t) :
    Tiles offset (s ++ rest)
      (prependText (offset + (s ++ rest).length) offset data parts) open? := by
  -- Comments that follow go to the stretch `s`, and leave the text `data` as it is. The prefixes
  -- `t` are the stretches with which the run can end.
  induction h generalizing s with
  | done =>
    have hs : markupOf s = data := by simpa using hread [] List.nil_prefix
    subst hs hstart
    rw [List.append_nil]
    have htiles : Tiles offset (s ++ []) _ _ := .markup hdata (by simp) .done
    rwa [List.append_nil] at htiles
  | @openComment start rest hrest =>
    have hs : markupOf (s ++ rest) = data := by
      rw [hread rest (List.prefix_refl rest), markupOf_unclosed_comment hrest, List.append_nil]
    subst hs hstart
    exact .openMarkup hdata hrest
  | @comment start c rest parts open? hc hrest ih =>
    have hskip : ∀ t, t <+: rest → markupOf (s ++ c ++ t) = data ++ markupOf t := by
      intro t ht
      rw [List.append_assoc, hread _ ((List.prefix_append_right_inj c).2 ht),
        markupOf_comment_append hc]
    have htiles := ih (by rw [hstart, List.length_append, Nat.add_assoc]) hskip
    rwa [List.append_assoc] at htiles
  | embedded hcode hrest ih =>
    -- The run ends where the code starts.
    have hs : markupOf s = data := by simpa using hread [] List.nil_prefix
    subst hs hstart
    exact .markup hdata (by simp [SegmentContent.IsMarkup]) (.embedded hcode hrest)
  | @markup start s' rest parts open? hs' hnext hrest ih =>
    have hs : markupOf (s ++ s') = data ++ markupOf s' := hread s' (List.prefix_append s' rest)
    subst hstart
    rw [MarkupTemplate.prependText, ← hs, ← List.append_assoc, Nat.add_assoc,
      ← List.length_append]
    rw [Nat.add_assoc, ← List.length_append] at hrest
    exact .markup (hs ▸ List.append_ne_nil_of_left_ne_nil hdata _) hnext hrest
  | @openMarkup start s' rest construct hs' hrest =>
    have hs : markupOf (s ++ s' ++ rest) = data ++ markupOf (s' ++ rest) := by
      rw [List.append_assoc]
      exact hread _ (List.prefix_refl _)
    subst hstart
    have htiles : Tiles offset (s ++ s' ++ rest) _ _ :=
      .openMarkup (hs ▸ List.append_ne_nil_of_left_ne_nil hdata _) hrest
    rw [MarkupTemplate.prependText, Nat.add_assoc, Nat.add_assoc, ← List.length_append,
      ← List.length_append, ← hs, ← List.append_assoc]
    exact htiles

/-- The pieces of a text gather to segments that tile it. -/
theorem tiles_pieces (previous : Option UInt8) (offset : Nat) (text : Bytes) :
    Tiles offset text (segments (offset + text.length) offset (pieces previous text))
      (unterminated? offset (pieces previous text)) := by
  match text with
  | [] => simpa [pieces, segments, unterminated?] using Tiles.done
  | b :: rest =>
    obtain ⟨s, after, content, previous', heq, hmeans, hpieces⟩ := exists_means previous b rest
    -- Every piece takes a byte, and there is less text for the pieces after it.
    have hshorter : after.length < (b :: rest).length := by
      rw [heq, List.length_append]
      exact Nat.lt_add_of_pos_left (List.length_pos_iff.2 hmeans.ne_nil)
    have hafter := tiles_pieces previous' (offset + s.length) after
    rw [Nat.add_assoc, ← List.length_append] at hafter
    rw [hpieces, heq]
    cases content with
    | text data =>
      have hdata : data ≠ [] := by cases hmeans <;> simp
      exact hafter.prependText rfl hdata fun t ht => hmeans.markupOf_append ht
    | comment =>
      cases hmeans with
      | comment hs => exact .comment hs hafter
    | embedded form code =>
      cases hmeans with
      | embedded hs => exact .embedded hs hafter
    | unterminated construct data =>
      have hs : s ≠ [] := hmeans.ne_nil
      -- Nothing is left after such a piece.
      cases hmeans with
      | openComment hopen =>
        simpa [segments, unterminated?, pieces] using Tiles.openComment hopen
      | openCode hopen =>
        have hread : markupOf s = s := markupOf_unclosed_code hopen
        have htiles : Tiles offset ([] ++ s) _ _ := .openMarkup (hread.symm ▸ hs) hopen
        simpa [segments, unterminated?, pieces, prependText, hs, hread] using htiles
termination_by text.length
decreasing_by exact hshorter

/-! ## Accounting for a template -/

/-- A complete comment between two offsets of a template, apart from the segments. -/
def CommentBetween (source : Bytes) (parts : List Segment) (start stop : Nat) : Prop :=
  stop ≤ source.length ∧ IsComment (source.extract start stop) ∧
    ∀ part ∈ parts, stop ≤ part.start ∨ part.stop ≤ start

/-- The segments of a template account for it from an offset on, with the construct that has no end
and the place where it starts. -/
structure Accounts (source : Bytes) (offset : Nat) (parts : List Segment)
    (open? : Option (Construct × Nat)) : Prop where
  /-- The stretches are not empty, and are in the template. -/
  inside : ∀ part ∈ parts,
    offset ≤ part.start ∧ part.start < part.stop ∧ part.stop ≤ source.length
  /-- The stretches are in order and apart. -/
  inOrder : parts.Pairwise fun part later => part.stop ≤ later.start
  /-- A run of markup is one segment. -/
  maximal : parts.IsChain fun part next => ¬ (part.content.IsMarkup ∧ next.content.IsMarkup)
  /-- A segment says what its stretch stands for. -/
  tells : ∀ part ∈ parts, part.content.Tells (source.extract part.start part.stop)
  /-- A byte in no stretch is in a complete comment or in the comment without its end. -/
  outside : ∀ i, offset ≤ i → i < source.length →
    (∀ part ∈ parts, i < part.start ∨ part.stop ≤ i) →
    (∃ start stop, offset ≤ start ∧ start ≤ i ∧ i < stop ∧
      CommentBetween source parts start stop) ∨
      ∃ start, open? = some (.comment, start) ∧ start ≤ i
  /-- The construct that has no end goes on to the end of the template. -/
  unclosed : ∀ construct start, open? = some (construct, start) →
    construct.Unclosed (source.drop start)

namespace Accounts

variable {source : Bytes} {offset stop : Nat} {parts : List Segment}
  {open? : Option (Construct × Nat)}

/-- At the end of a template there is nothing left to account for. -/
theorem done (hoffset : source.length ≤ offset) (hopen : ∀ construct start,
    open? = some (construct, start) → construct.Unclosed (source.drop start)) :
    Accounts source offset [] open? where
  inside := by simp
  inOrder := .nil
  maximal := .nil
  tells := by simp
  outside := fun i hi hlt => absurd (Nat.lt_of_lt_of_le hlt hoffset) (Nat.not_lt.2 hi)
  unclosed := hopen

/-- A comment without its end accounts for everything after its start. -/
theorem openComment (hs : Construct.comment.Unclosed (source.drop offset)) :
    Accounts source offset [] (some (.comment, offset)) where
  inside := by simp
  inOrder := .nil
  maximal := .nil
  tells := by simp
  outside := fun i hi _ _ => .inr ⟨offset, rfl, hi⟩
  unclosed := by
    rintro construct start ⟨⟩
    exact hs

/-- A comment accounts for its own bytes. -/
theorem comment (h : Accounts source stop parts open?) (hle : offset ≤ stop)
    (hstop : stop ≤ source.length) (hs : IsComment (source.extract offset stop)) :
    Accounts source offset parts open? where
  inside := fun part hpart => ⟨hle.trans (h.inside part hpart).1, (h.inside part hpart).2⟩
  inOrder := h.inOrder
  maximal := h.maximal
  tells := h.tells
  outside := fun i hi hlt hout => by
    by_cases hhere : i < stop
    · exact .inl ⟨offset, stop, Nat.le_refl _, hi, hhere, hstop, hs,
        fun part hpart => .inl (h.inside part hpart).1⟩
    · refine (h.outside i (Nat.not_lt.1 hhere) hlt hout).imp_left ?_
      exact fun ⟨start, stop', hstart, h⟩ => ⟨start, stop', hle.trans hstart, h⟩
  unclosed := h.unclosed

/-- A segment accounts for its stretch. -/
theorem cons {content : SegmentContent} (h : Accounts source stop parts open?)
    (hlt : offset < stop) (hstop : stop ≤ source.length)
    (hnext : ∀ next ∈ parts.head?, ¬ (content.IsMarkup ∧ next.content.IsMarkup))
    (htells : content.Tells (source.extract offset stop)) :
    Accounts source offset (⟨offset, stop, content⟩ :: parts) open? where
  inside := List.forall_mem_cons.2 ⟨⟨Nat.le_refl _, hlt, hstop⟩,
    fun later hlater => ⟨hlt.le.trans (h.inside later hlater).1, (h.inside later hlater).2⟩⟩
  inOrder := List.pairwise_cons.2 ⟨fun later hlater => (h.inside later hlater).1, h.inOrder⟩
  maximal := List.isChain_cons.2 ⟨hnext, h.maximal⟩
  tells := List.forall_mem_cons.2 ⟨htells, h.tells⟩
  outside := fun i hi hlt' hout => by
    obtain ⟨hhere, hout⟩ := List.forall_mem_cons.1 hout
    refine (h.outside i (hhere.resolve_left (Nat.not_lt.2 hi)) hlt' hout).imp_left ?_
    rintro ⟨start, stop', hstart, hi, hi', hle, hs, hapart⟩
    exact ⟨start, stop', hlt.le.trans hstart, hi, hi', hle, hs,
      List.forall_mem_cons.2 ⟨.inr hstart, hapart⟩⟩
  unclosed := h.unclosed

end Accounts

/-- The stretch of a template at the head of what is left of it. -/
theorem stretch_of_drop {source s rest : Bytes} {offset : Nat} (h : source.drop offset = s ++ rest)
    (hs : s ≠ []) : source.extract offset (offset + s.length) = s ∧
      source.drop (offset + s.length) = rest ∧
      offset < offset + s.length ∧ offset + s.length ≤ source.length := by
  have hpos := List.length_pos_iff.2 hs
  have hlength := congrArg List.length h
  rw [List.length_drop, List.length_append] at hlength
  refine ⟨?_, ?_, Nat.lt_add_of_pos_right hpos, by omega⟩
  · rw [List.extract_eq_take_drop, h, Nat.add_sub_cancel_left, List.take_left]
  · rw [← List.drop_drop, h, List.drop_left]

/-- Segments that tile a template from an offset on account for it. -/
theorem Tiles.accounts {source s : Bytes} {offset : Nat} {parts : List Segment}
    {open? : Option (Construct × Nat)} (h : Tiles offset s parts open?)
    (hdrop : source.drop offset = s) : Accounts source offset parts open? := by
  induction h with
  | done => exact .done (List.drop_eq_nil_iff.1 hdrop) (by simp)
  | openComment hs => exact .openComment (hdrop ▸ hs)
  | comment hs hrest ih =>
    obtain ⟨hextract, hdrop', hlt, hle⟩ := stretch_of_drop hdrop hs.ne_nil
    exact (ih hdrop').comment hlt.le hle (hextract.symm ▸ hs)
  | @embedded offset s rest code form parts open? hs hrest ih =>
    obtain ⟨hextract, hdrop', hlt, hle⟩ := stretch_of_drop hdrop hs.ne_nil
    refine .cons (ih hdrop') hlt hle (by simp [SegmentContent.IsMarkup]) ?_
    rw [hextract]
    exact hs
  | markup hs hnext hrest ih =>
    obtain ⟨hextract, hdrop', hlt, hle⟩ :=
      stretch_of_drop hdrop fun h => hs (h ▸ markupOf_nil)
    refine .cons (ih hdrop') hlt hle (fun next h hboth => hnext next h hboth.2) ?_
    rw [hextract]
    exact ⟨hs, rfl⟩
  | @openMarkup offset s rest construct hs hrest =>
    have hdrop' : source.drop offset = s ++ rest ++ [] := by rw [hdrop, List.append_nil]
    obtain ⟨hextract, hend, hlt, hle⟩ := stretch_of_drop hdrop' fun h => hs (h ▸ markupOf_nil)
    have hstart : source.drop (offset + s.length) = rest := by
      rw [← List.drop_drop, hdrop, List.drop_left]
    refine .cons (.done (List.drop_eq_nil_iff.1 hend) ?_) hlt hle (by simp) ?_
    · rintro _ _ ⟨⟩
      rwa [hstart]
    · rw [hextract]
      exact ⟨hs, rfl⟩

/-! ## Reading -/

namespace Document

/-- The nodes of the children of the root. -/
def leaves (d : Document) : List Node := (d.children root).map d.node

/-- A further leaf under the root of a flat document is the last one. -/
theorem Flat.leaves_add {d : Document} (h : d.Flat) (n : Node) :
    (under root (d.addNode n)).1.leaves = d.leaves ++ [n] := by
  have hroot : root < d.size := d.size_pos
  have hroot' : root < (d.add n).size := by
    rw [size_add]
    exact Nat.lt_succ_of_lt hroot
  have hnode : ∀ id : Nat, 0 < id → ((d.add n).appendChild root d.size).node id =
      (d.add n).node id := fun id hpos => by
    have hne : id ≠ root := Nat.ne_of_gt hpos
    rw [appendChild, node_modify_of_ne hne]
  have hold : ∀ id ∈ d.children root, ((d.add n).appendChild root d.size).node id = d.node id :=
    fun id hid => by
      obtain ⟨hpos, hlt⟩ := h.mem_children_root hid
      rw [hnode id hpos, node_add_of_lt d n hlt]
  simp only [leaves, under, addNode]
  rw [children_appendChild hroot', if_pos rfl, children_add_of_lt n hroot, List.map_append,
    List.map_congr_left hold, List.map_singleton, hnode d.size d.size_pos, node_add_size]

end Document

/-- The segments of a template from an offset on. Of what is before, only the last byte matters. -/
def segmentsFrom (source : Bytes) (offset : Nat) : List Segment :=
  segments source.length offset (pieces (source.take offset).getLast? (source.drop offset))

theorem segmentsFrom_zero (source : Bytes) :
    segmentsFrom source 0 = segments source.length 0 (pieces none source) := rfl

/-- The segments of a template account for it. -/
theorem accounts_segmentsFrom (source : Bytes) :
    Accounts source 0 (segmentsFrom source 0) (unterminated? 0 (pieces none source)) := by
  have htiles := tiles_pieces none 0 source
  rw [Nat.zero_add] at htiles
  exact htiles.accounts rfl

/-- The leaves of what is read are the segments of the template. -/
theorem leaves_readTemplate (source name : Bytes) : (readTemplate source name).document.leaves =
    (segmentsFrom source 0).map (Segment.node source) := by
  have hfold : ∀ (parts : List Segment) (d : Document), d.Flat →
      (parts.foldl (fun d s => (Document.under Document.root (d.addNode (s.node source))).1)
        d).leaves = d.leaves ++ parts.map (Segment.node source) := by
    intro parts
    induction parts with
    | nil => exact fun d _ => (List.append_nil _).symm
    | cons part parts ih =>
      intro d h
      rw [List.foldl_cons, ih _ (h.addSegment source part), h.leaves_add, List.append_assoc]
      rfl
  exact hfold _ _ .empty

/-- The reader accounts for the template. The children of the root are leaves, the segments of the
template, and the one thing that can be wrong is a construct without its end, from its `@` on. -/
theorem readTemplate_accounts (source name : Bytes) :
    let parts := segmentsFrom source 0
    let open? := unterminated? 0 (pieces none source)
    Accounts source 0 parts open? ∧
      (readTemplate source name).document.Flat ∧
      (readTemplate source name).document.leaves = parts.map (Segment.node source) ∧
      (readTemplate source name).diagnostics = open?.toList.map fun (construct, start) =>
        .unterminated construct.title name (.between source start source.length) := by
  intro parts open?
  exact ⟨accounts_segmentsFrom source, flat_readTemplate source name,
    leaves_readTemplate source name, rfl⟩

end MarkupTemplate
