import Mathlib.Data.List.Induction
import MarkupTemplate.Proofs.Growth
import MarkupTemplate.Proofs.Reading
import MarkupTemplate.Proofs.View

/-!
# Where the holes that wait have arrived

A hole waits because it came while a tag was cut off, or because it is an attribute. Of the first
sort, its place is the length of what was carried on when it came. Until the tag is complete, what
is carried on only gets longer, so the place stays what it was, and no element is opened or closed.

## Main definitions

* `Document.taken`: the state of structuring a container after some of its children
* `Document.ArrivedIn`: where a hole came
* `Document.Arrivals`: where all holes that wait have come, in order

## Main results

* `Structuring.Regular.waiting_takeMarkup`: no hole changes its place
* `Document.regular_taken`: structuring comes to regular states only
* `Document.Arrivals.foldl_apply`: what is known of the holes after some tokens
* `Document.arrivals_taken`: where the holes have come that wait after some children
-/

namespace MarkupTemplate

open Markup

namespace Structuring

variable {d : Document} {container : NodeId} {s : Structuring}

/-- A hole without a place stays as it is. -/
theorem rebase_of_not_isPositional {hole : Hole} (h : hole.isPositional = false) (stop : Nat) :
    rebase stop hole = hole := by
  obtain ⟨node, _ | place⟩ := hole
  · rfl
  · cases h

/-- Tokens let no further hole wait, and only holes without a place wait after a token. -/
theorem Regular.waiting_foldl_apply (hs : Regular d container s) (hcontainer : container < d.size)
    (span : Option Span) (ts : List Token) :
    (ts.foldl (Structuring.apply container span) s).waiting.Sublist s.waiting ∧
      (ts ≠ [] → ∀ hole ∈ (ts.foldl (Structuring.apply container span) s).waiting,
        hole.isPositional = false) := by
  obtain ⟨arrived, a, hmirrors, haccount, -⟩ := hs
  rw [(hmirrors.foldl_apply hcontainer haccount span ts).waiting, hmirrors.waiting]
  refine ⟨Assembly.waiting_foldl_apply ts, fun hts hole hmem => ?_⟩
  have hnone := Assembly.inText_foldl_apply (a := a) hts
  rw [Assembly.inText, List.map_eq_nil_iff, List.filter_eq_nil_iff] at hnone
  exact Bool.eq_false_iff.2 (hnone hole hmem)

/-- Where a hole that has a place still waits after the tokens of a text, nothing of the text was
read. -/
theorem Regular.stop_eq_zero (hs : Regular d container s) (hcontainer : container < d.size)
    (span : Option Span) {text : Bytes} {hole : Hole}
    (hhole : hole ∈ ((scan text).tokens.foldl (Structuring.apply container span) s).waiting)
    (hplace : hole.isPositional = true) : (scan text).stop.offset = 0 := by
  have htokens : (scan text).tokens = [] := by
    by_contra hne
    have hnone := (hs.waiting_foldl_apply hcontainer span (scan text).tokens).2 hne hole hhole
    rw [hplace] at hnone
    cases hnone
  rw [show (scan text).stop = .start text from Cursor.tokens_snd_of_fst_eq_nil htokens]
  rfl

/-- So the places of the holes stay what they are. -/
theorem Regular.map_rebase (hs : Regular d container s) (hcontainer : container < d.size)
    (span : Option Span) (text : Bytes) :
    let s' := (scan text).tokens.foldl (Structuring.apply container span) s
    s'.waiting.map (rebase (scan text).stop.offset) = s'.waiting := by
  refine (List.map_congr_left fun hole hmem => ?_).trans (List.map_id _)
  cases hplace : hole.isPositional with
  | false => exact rebase_of_not_isPositional hplace _
  | true => rw [hs.stop_eq_zero hcontainer span hmem hplace, rebase_zero, id]

/-- A piece of markup lets those holes wait that are left after its tokens, at their places. -/
theorem Regular.waiting_takeMarkup (hs : Regular d container s) (hcontainer : container < d.size)
    (child : NodeId) :
    (s.takeMarkup container child).waiting =
      ((scan (s.carried ++ (s.document.label child).text)).tokens.foldl
        (Structuring.apply container (s.document.label child).span) s).waiting := by
  simp only [Structuring.takeMarkup]
  split
  · rfl
  · exact hs.map_rebase hcontainer _ _

end Structuring

namespace Document

variable {d : Document} {container top top' : NodeId} {before : List NodeId} {text text' : Bytes}
  {waiting waiting' : List Hole} {hole : Hole}

/-- The state of structuring a container after some of its children. -/
def taken (d : Document) (container : NodeId) (children : List NodeId) : Structuring :=
  children.foldl (Structuring.take container) { document := d.setChildren container [] }

theorem taken_append (before after : List NodeId) :
    d.taken container (before ++ after) =
      after.foldl (Structuring.take container) (d.taken container before) :=
  List.foldl_append

theorem regular_taken (hcontainer : container < d.size)
    (hbefore : ∀ child ∈ before, child < d.size) :
    Structuring.Regular d container (d.taken container before) :=
  List.foldlRecOn (motive := Structuring.Regular d container) _ _ (.start hcontainer)
    fun _ hs child hmem => hs.take hcontainer (hbefore child hmem)

/-- Structuring keeps what the nodes say that were there before. -/
theorem undiagnosed_taken (hcontainer : container < d.size)
    (hbefore : ∀ child ∈ before, child < d.size) {id : NodeId} (hid : id < d.size) :
    ((d.taken container before).document.label id).undiagnosed = (d.label id).undiagnosed := by
  have hgrows := (Structuring.Regular.start hcontainer).grows_foldl_take hcontainer
    (Nat.zero_le _) hbefore
  rw [taken, hgrows.label id (by simpa using hid), label_setChildren]

/-- The hole came as one of the children. An attribute has no place. Any other node came when a part
of the text was carried on, and stands behind this part; the innermost open element was the given
one. -/
def ArrivedIn (d : Document) (container : NodeId) (before : List NodeId) (text : Bytes)
    (top : NodeId) (hole : Hole) : Prop :=
  ∃ early late, before = early ++ hole.node :: late ∧
    if d.kind hole.node = .attribute then hole.offset = none
    else
      let s := d.taken container early
      hole.offset = some s.carried.length ∧ s.carried ≠ [] ∧ s.carried <+: text ∧
        s.top container = top

/-- More children and more of the text make no difference to where the hole came. -/
theorem ArrivedIn.mono (h : d.ArrivedIn container before text top hole) (more : List NodeId)
    (hplace : hole.isPositional = true → text <+: text' ∧ top = top') :
    d.ArrivedIn container (before ++ more) text' top' hole := by
  obtain ⟨early, late, rfl, h⟩ := h
  refine ⟨early, late ++ more, by simp, ?_⟩
  split at h
  · next hkind => rwa [if_pos hkind]
  · next hkind =>
    obtain ⟨hoffset, hne, hprefix, htop⟩ := h
    obtain ⟨htext, rfl⟩ := hplace (by rw [Hole.isPositional, hoffset]; rfl)
    rw [if_neg hkind]
    exact ⟨hoffset, hne, hprefix.trans htext, htop⟩

/-- The place of a hole is in the text. -/
theorem ArrivedIn.offset_le (h : d.ArrivedIn container before text top hole) :
    ∀ i ∈ hole.offset, i ≤ text.length := by
  obtain ⟨early, late, -, h⟩ := h
  intro i hi
  split at h
  · rw [h] at hi
    cases hi
  · rw [h.1] at hi
    obtain rfl : _ = i := Option.some.inj hi
    exact h.2.2.1.length_le

/-- The holes came as children, in the order in which they wait, which is the order of their places
too. -/
structure Arrivals (d : Document) (container : NodeId) (before : List NodeId) (text : Bytes)
    (top : NodeId) (waiting : List Hole) : Prop where
  sublist : (waiting.map Hole.node).Sublist before
  arrived : ∀ hole ∈ waiting, d.ArrivedIn container before text top hole
  sorted : waiting.Pairwise Hole.NotAfter

namespace Arrivals

theorem mono (h : d.Arrivals container before text top waiting) (more : List NodeId)
    (hsub : waiting'.Sublist waiting)
    (hplace : (∀ hole ∈ waiting', hole.isPositional = false) ∨ text <+: text' ∧ top = top') :
    d.Arrivals container (before ++ more) text' top' waiting' := by
  refine ⟨((hsub.map _).trans h.sublist).trans (List.sublist_append_left _ _),
    fun hole hmem => (h.arrived hole (hsub.subset hmem)).mono more fun hpositional => ?_,
    h.sorted.sublist hsub⟩
  rcases hplace with hnone | hplace
  · exact absurd hpositional (by simp [hnone hole hmem])
  · exact hplace

/-- One more hole, which has no place or the last one. -/
theorem arrive (h : d.Arrivals container before text top waiting) {child : NodeId}
    (place : Option Nat)
    (hhole : d.ArrivedIn container (before ++ [child]) text top ⟨child, place⟩)
    (hlast : ∀ i ∈ place, text.length ≤ i) :
    d.Arrivals container (before ++ [child]) text top (waiting ++ [⟨child, place⟩]) := by
  have hmore := h.mono [child] (.refl _) (.inr ⟨List.prefix_rfl, rfl⟩)
  refine ⟨?_, ?_, ?_⟩
  · rw [List.map_append]
    exact h.sublist.append_right _
  · simpa [or_imp, forall_and] using ⟨hmore.arrived, hhole⟩
  · refine List.pairwise_append.2 ⟨h.sorted, List.pairwise_singleton _ _, ?_⟩
    intro first hfirst last hlast' i hi j hj
    obtain rfl := List.mem_singleton.1 hlast'
    exact Nat.le_trans ((h.arrived first hfirst).offset_le i hi) (hlast j hj)

/-- After some tokens of a text that starts with what was carried on. -/
theorem foldl_apply {s : Structuring}
    (h : d.Arrivals container before s.carried (s.top container) s.waiting)
    (hs : Structuring.Regular d container s) (hcontainer : container < d.size)
    (span : Option Span) (ts : List Token) (htext : s.carried <+: text) :
    let s' := ts.foldl (Structuring.apply container span) s
    d.Arrivals container before text (s'.top container) s'.waiting := by
  obtain ⟨hsub, hnone⟩ := hs.waiting_foldl_apply hcontainer span ts
  rw [← List.append_nil before]
  refine h.mono [] hsub ?_
  -- The first token already takes all holes that have a place.
  cases ts with
  | nil => exact .inr ⟨htext, rfl⟩
  | cons t ts => exact .inl (hnone (List.cons_ne_nil _ _))

/-- After a piece of markup. -/
theorem takeMarkup {s : Structuring}
    (h : d.Arrivals container before s.carried (s.top container) s.waiting)
    (hs : Structuring.Regular d container s) (hcontainer : container < d.size) (child : NodeId) :
    let s' := s.takeMarkup container child
    d.Arrivals container (before ++ [child]) s'.carried (s'.top container) s'.waiting := by
  have hnone := (hs.waiting_foldl_apply hcontainer (s.document.label child).span
    (scan (s.carried ++ (s.document.label child).text)).tokens).2
  have hfold := h.foldl_apply hs hcontainer (s.document.label child).span
    (scan (s.carried ++ (s.document.label child).text)).tokens
    (List.prefix_append _ (s.document.label child).text)
  have hwaiting := hs.waiting_takeMarkup hcontainer child
  simp only [Structuring.takeMarkup] at hwaiting ⊢
  generalize s.carried ++ (s.document.label child).text = text at *
  generalize (scan text).tokens.foldl
    (Structuring.apply container (s.document.label child).span) s = s' at *
  -- Without a token all of the text is carried on, and after a token no hole has a place.
  have hrest : d.Arrivals container (before ++ [child]) (scan text).remainder (s'.top container)
      s'.waiting := by
    by_cases htokens : (scan text).tokens = []
    · have hstop : (scan text).stop = .start text := Cursor.tokens_snd_of_fst_eq_nil htokens
      rw [Scan.remainder, hstop]
      exact hfold.mono [child] (.refl _) (.inr ⟨List.prefix_rfl, rfl⟩)
    · exact hfold.mono [child] (.refl _) (.inl (hnone htokens))
  rw [hwaiting]
  split
  · next hempty => exact List.isEmpty_iff.1 hempty ▸ hrest
  · exact hrest

end Arrivals

/-- Where the holes have come that wait after some children. -/
theorem arrivals_taken (hcontainer : container < d.size)
    (hbefore : ∀ child ∈ before, child < d.size) :
    let s := d.taken container before
    d.Arrivals container before s.carried (s.top container) s.waiting := by
  induction before using List.reverseRecOn with
  | nil => exact ⟨.refl _, by simp [taken], .nil⟩
  | append_singleton before child ih =>
    have hbefore' : ∀ child ∈ before, child < d.size := fun child hmem =>
      hbefore child (List.mem_append_left _ hmem)
    have hs := regular_taken hcontainer hbefore'
    have h := ih hbefore'
    have hkind := hs.kind_eq (hbefore child (by simp))
    have htaken : d.taken container (before ++ [child]) =
        (d.taken container before).take container child := taken_append before [child]
    rw [htaken]
    simp only [Structuring.take]
    split
    · exact h.takeMarkup hs hcontainer child
    · next hattribute =>
      refine h.arrive none ⟨before, [], rfl, ?_⟩ (by simp)
      rw [if_pos (hkind ▸ hattribute)]
    · next hnot =>
      split
      · exact h.mono [child] (.refl _) (.inr ⟨List.prefix_rfl, rfl⟩)
      · next hcarried =>
        refine h.arrive (some _) ⟨before, [], rfl, ?_⟩ (by simp)
        rw [if_neg (hkind ▸ hnot)]
        exact ⟨rfl, by simpa using hcarried, List.prefix_rfl, rfl⟩

end Document

end MarkupTemplate
