import MarkupTemplate.Proofs.BehindSign
import MarkupTemplate.Proofs.Completion
import MarkupTemplate.Proofs.FirstTag

/-!
# How long a hole waits

A hole that has a place waits for the tag or comment that was cut off before it, and no longer. What
is carried on is the start of this tag, so the next piece of markup either completes it, and then it
is the first token and takes every hole that has a place, or it leaves it cut off as a whole, and
then no place changes. For this reason no hole is ever moved to another place.

## Main definitions

* `Structuring.Held`: what is known of the holes while they wait
* `Structuring.Places`: a token takes the holes that have a place to where they stand
* `Structuring.Meets`: what a piece of markup does to the holes that wait

## Main results

* `Document.held_taken`: the holes that wait have places in what is carried on, in order
* `Structuring.Regular.places_apply`: a token takes every hole that has a place
* `Document.held_until_complete`: holes wait until the tag is complete, in every run
-/

namespace MarkupTemplate

open Markup

namespace Markup

/-- What texts in a row leave over is nothing or cut off. -/
theorem cutOff_remainderOf {carried : Bytes} (hcarried : carried ≠ [] → CutOff carried)
    (texts : List Bytes) (h : remainderOf carried texts ≠ []) :
    CutOff (remainderOf carried texts) := by
  induction texts generalizing carried with
  | nil => exact hcarried h
  | cons text texts ih => exact ih cutOff_remainder h

/-- No hole is in the values of two attributes of a tag. -/
theorem pairwise_apart_of_mem_tokens {text : Bytes} {t : Token} {name : Slice}
    {attributes : List Attribute} {selfClosing : Bool} (ht : t ∈ (scan text).tokens)
    (hcontent : t.content = .startTag name attributes selfClosing) :
    attributes.Pairwise Attribute.Apart := by
  have hreads := (Cursor.cover_tokens (.refl (.start text))).2 t ht
  rw [hcontent] at hreads
  exact hreads.2.pairwise

end Markup

namespace Structuring

variable {d : Document} {container : NodeId} {s : Structuring}

/-! ## What a token does to the holes -/

/-- A token takes the holes that have a place to where they stand. A start tag takes a hole into the
value of an attribute that it is in, and otherwise before the element; any other token puts the
holes under the innermost open element, in order and before all that it adds. -/
def Places (d : Document) (container : NodeId) (s : Structuring) (t : Token) (d₁ : Document) :
    Prop :=
  match t.content with
  | .startTag name attributes _ =>
    Spliced d container s name.text attributes d₁ ∧
      ∀ hole ∈ s.waiting, hole.isPositional = true →
        (∃ a ∈ attributes, hole.isIn a = true ∧
          d₁.InValue d.size s.waiting s.document.size a hole.node) ∨
        (∀ a ∈ attributes, hole.isIn a = false) ∧
          d₁.StandsBefore (s.top container) s.document.size s.waiting hole
  | .endTag _ | .text _ | .comment _ =>
    ∃ more, d₁.children (s.top container) = s.document.children (s.top container) ++
      (s.waiting.filter Hole.isPositional).map Hole.node ++ more

/-- Holes that are released become the last children of the innermost open element. -/
theorem children_release (htop : s.top container < s.document.size) (p : Hole → Bool) :
    (s.release container p).document.children (s.top container) =
      s.document.children (s.top container) ++ (s.waiting.filter p).map Hole.node := by
  rw [Structuring.release, document_foldl_append]
  generalize s.top container = parent at *
  generalize s.document = d₁ at *
  induction (s.waiting.filter p) generalizing d₁ with
  | nil => simp
  | cons hole holes ih =>
    rw [List.map_cons, List.foldl_cons, ih _ (by simpa using htop),
      Document.children_appendChild htop, if_pos rfl, List.append_assoc]
    rfl

/-- A start tag takes the holes to their places, and closing the element at once leaves them
there. -/
theorem Regular.spliced_apply (hs : Regular d container s) (hcontainer : container < d.size)
    (hsorted : s.waiting.Pairwise Hole.NotAfter) (span : Option Span) {t : Token} {name : Slice}
    {attributes : List Attribute} {selfClosing : Bool}
    (hcontent : t.content = .startTag name attributes selfClosing)
    (hapart : attributes.Pairwise Attribute.Apart) :
    Spliced d container s name.text attributes (s.apply container span t).document := by
  have hopen := hs.spliced_openElement hcontainer hsorted hapart name.text span
  have hsize := (hs.grows_openElement (n := 0) hcontainer (Nat.zero_le _) span name.text
    attributes).size_le
  exact hopen.grows (grows_apply_startTag hcontent span) hcontainer
    (Nat.lt_of_lt_of_le (hs.top_lt hcontainer) hsize)

/-- A token of a text takes every hole that has a place. -/
theorem Regular.places_apply (hs : Regular d container s) (hcontainer : container < d.size)
    (hsorted : s.waiting.Pairwise Hole.NotAfter) (span : Option Span) {text : Bytes} {t : Token}
    (ht : t ∈ (scan text).tokens) :
    Places d container s t (s.apply container span t).document := by
  have htop := hs.top_lt hcontainer
  have hrelease := children_release htop Hole.isPositional
  have hgrows := hs.grows_release (Nat.zero_le _) (p := Hole.isPositional) fun _ h => h
  have hs' := hs.release hcontainer (p := Hole.isPositional) fun _ h => h
  -- The holes are released first, and what the token adds then comes after them.
  have hmore : ∀ {d₁ : Document}, (s.release container Hole.isPositional).document.Grows
      (s.release container Hole.isPositional).document.size container d₁ →
      ∃ more, d₁.children (s.top container) = s.document.children (s.top container) ++
        (s.waiting.filter Hole.isPositional).map Hole.node ++ more := by
    intro d₁ h
    obtain ⟨more, hmore, -⟩ := h.children _ (Nat.lt_of_lt_of_le htop hgrows.size_le)
    exact ⟨more, by rw [hmore, hrelease]⟩
  unfold Places
  split
  · next name attributes selfClosing hcontent =>
    have hspliced := hs.spliced_apply hcontainer hsorted span hcontent
      (pairwise_apart_of_mem_tokens ht hcontent)
    refine ⟨hspliced, fun hole hhole hplace => ?_⟩
    by_cases hin : ∃ a ∈ attributes, hole.isIn a = true
    · obtain ⟨a, ha, hin⟩ := hin
      exact .inl ⟨a, ha, hin, hspliced.inValue hhole ha hin⟩
    · have hnone : ∀ a ∈ attributes, hole.isIn a = false := by simpa using hin
      exact .inr ⟨hnone, hspliced.standsBefore hhole hplace hnone⟩
  · next name hcontent =>
    rw [Structuring.apply, hcontent]
    exact hmore (grows_closeElement (Nat.le_refl _) _)
  · next data hcontent =>
    rw [Structuring.apply, hcontent]
    exact hmore (hs'.grows_addText hcontainer (Nat.le_refl _) data)
  · next data hcontent =>
    rw [Structuring.apply, hcontent]
    exact hmore (.refl (Nat.le_refl _))

/-! ## What a piece of markup does to the holes -/

/-- What is known of the holes while they wait: they are in the order of their places, no place is
behind what is carried on, and as long as a hole has a place, this is a tag or comment that is cut
off. -/
structure Held (s : Structuring) : Prop where
  sorted : s.waiting.Pairwise Hole.NotAfter
  inside : ∀ hole ∈ s.waiting, ∀ i ∈ hole.offset, i ≤ s.carried.length
  cutOff : ∀ hole ∈ s.waiting, hole.isPositional = true → CutOff s.carried

/-- What a piece of markup does to the holes that wait. If one of them has a place, the tag or
comment that is cut off either is the first token, it ends behind what was carried on, and it takes
all holes that have a place; or it is still cut off, nothing is read and all holes go on waiting as
they are. And in any case a hole that has a place goes on waiting only if nothing is done with, so
that its place does not change. -/
structure Meets (d : Document) (container markup : NodeId) (s : Structuring) : Prop where
  settled : (∃ hole ∈ s.waiting, hole.isPositional = true) →
    let text := s.carried ++ (d.label markup).text
    (∃ t ts, (scan text).tokens = t :: ts ∧ t.offset = 0 ∧ t.isText = false ∧
      s.carried.length < t.length ∧
        let s₁ := s.apply container (d.label markup).span t
        (∀ hole ∈ s₁.waiting, hole.isPositional = false) ∧ Places d container s t s₁.document) ∨
    (scan text).tokens = [] ∧ (scan text).stop.offset = 0 ∧
      (s.take container markup).waiting = s.waiting
  unmoved :
    let text := s.carried ++ (d.label markup).text
    let s₁ := (scan text).tokens.foldl (Structuring.apply container (d.label markup).span) s
    (s.take container markup).waiting = s₁.waiting ∧
      ∀ hole ∈ s₁.waiting, hole.isPositional = true → (scan text).stop.offset = 0

/-- Holes that are held meet with the next piece of markup. -/
theorem Regular.meets (hs : Regular d container s) (hcontainer : container < d.size) (hheld : s.Held)
    {markup : NodeId} (hkind : s.document.kind markup = .markup)
    (htext : (s.document.label markup).text = (d.label markup).text)
    (hspan : (s.document.label markup).span = (d.label markup).span) :
    Meets d container markup s := by
  have hwaiting := hs.waiting_takeMarkup hcontainer markup
  have htake : s.take container markup = s.takeMarkup container markup := by
    rw [Structuring.take, hkind]
  rw [← htake, htext, hspan] at hwaiting
  refine ⟨?_, hwaiting, fun hole hhole hplace => hs.stop_eq_zero hcontainer _ hhole hplace⟩
  rintro ⟨hole, hhole, hplace⟩
  obtain ⟨t, ts, htokens, hoffset, htext, hlength⟩ | ⟨htokens, hstop⟩ :=
    scan_append_of_cutOff (hheld.cutOff hole hhole hplace) (d.label markup).text
  · refine .inl ⟨t, ts, htokens, hoffset, htext, hlength, ?_, ?_⟩
    · exact (hs.waiting_foldl_apply hcontainer _ [t]).2 (List.cons_ne_nil _ _)
    · exact hs.places_apply hcontainer hheld.sorted _ (htokens ▸ List.mem_cons_self)
  · refine .inr ⟨htokens, congrArg Cursor.offset hstop, ?_⟩
    rw [hwaiting, htokens, List.foldl_nil]

end Structuring

namespace Document

variable {d : Document} {container : NodeId} {before : List NodeId}

/-- The holes that wait after some children are held. -/
theorem held_taken (hcontainer : container < d.size)
    (hbefore : ∀ child ∈ before, child < d.size) : (d.taken container before).Held := by
  have harrivals := arrivals_taken hcontainer hbefore
  have harrived := harrivals.arrived
  refine ⟨harrivals.sorted, fun hole hhole => (harrived hole hhole).offset_le, ?_⟩
  intro hole hhole hplace
  -- When the hole came, the start of a tag was carried on, and it still is.
  have hne : (d.taken container before).carried ≠ [] := by
    obtain ⟨early, late, -, harrived⟩ := harrived hole hhole
    split at harrived
    · rw [Hole.isPositional, harrived] at hplace
      cases hplace
    · exact fun hnil => harrived.2.1 (List.prefix_nil.1 (hnil ▸ harrived.2.2.1))
  rw [carried_taken hcontainer hbefore] at hne ⊢
  exact cutOff_remainderOf (by simp) _ hne

/-- Holes wait until the tag is complete and no longer, at every moment of structuring a
container. The children are split into those that are taken and those to come. The holes that wait
are held, and if the next child is markup, the tag or comment that is cut off either is complete
now and takes all holes that have a place, or none of them changes its place. -/
theorem held_until_complete (hcontainer : container < d.size)
    (hchildren : ∀ child ∈ d.children container, child < d.size) :
    ∀ before after, d.children container = before ++ after →
      let s := d.taken container before
      s.Held ∧ ∀ markup rest, after = markup :: rest → d.kind markup = .markup →
        Structuring.Meets d container markup s := by
  intro before after hsplit s
  have hbefore : ∀ child ∈ before, child < d.size := fun child hmem =>
    hchildren child (by simp [hsplit, hmem])
  have hheld : s.Held := held_taken hcontainer hbefore
  refine ⟨hheld, ?_⟩
  rintro markup rest rfl hkind
  have hlabel := undiagnosed_taken hcontainer hbefore
    (hchildren markup (by simp [hsplit]))
  refine (regular_taken hcontainer hbefore).meets hcontainer hheld ?_ ?_ ?_
  · exact (congrArg Label.kind hlabel).trans hkind
  · simpa using congrArg Label.text hlabel
  · simpa using congrArg Label.span hlabel

theorem heldMarkup_held :
    (root < heldMarkup.size ∧ (∀ child ∈ heldMarkup.children root, child < heldMarkup.size) ∧
      heldMarkup.children root = [1, 2, 3, 4, 5, 6] ++ [7] ∧ heldMarkup.kind 7 = .markup) ∧
    let s := heldMarkup.taken root [1, 2, 3, 4, 5, 6]
    s.waiting = [⟨2, some 7⟩, ⟨3, some 7⟩, ⟨5, none⟩, ⟨6, some 10⟩] ∧ s.Held ∧
      Structuring.Meets heldMarkup root 7 s := by
  have hroot : root < heldMarkup.size := by decide
  have hchildren : ∀ child ∈ heldMarkup.children root, child < heldMarkup.size := by decide
  have hsplit : heldMarkup.children root = [1, 2, 3, 4, 5, 6] ++ [7] := by decide
  have hkind : heldMarkup.kind 7 = .markup := by decide
  obtain ⟨hheld, hmeets⟩ := held_until_complete hroot hchildren _ _ hsplit
  exact ⟨⟨hroot, hchildren, hsplit, hkind⟩, by decide +kernel, hheld, hmeets 7 [] rfl hkind⟩

end Document

end MarkupTemplate
