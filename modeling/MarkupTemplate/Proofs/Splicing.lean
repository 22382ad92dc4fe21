import MarkupTemplate.Proofs.Arrival
import MarkupTemplate.Proofs.Tiling

/-!
# Holes in a start tag

A start tag may be cut off in several places, and at each of them holes may arrive. When the tag is
complete, each hole goes to its place: a hole in the value of an attribute splits the value where it
arrived, a hole between the attributes comes before the element, and a child that is an attribute
itself comes after the attributes that are written in the tag.

## Main definitions

* `Markup.Attribute.SplitBy`: the parts of a value with holes in it
* `Document.Spells`: a node is what an attribute of a tag makes, with the holes in its value
* `Structuring.Spliced`: an element is what a start tag makes of the state before it
* `Document.StartTag`: a start tag that is completed while a container is structured

## Main results

* `Markup.Attribute.splitBy_parts`: the holes in a value split it where they arrived
* `Structuring.Regular.spliced_openElement`: a start tag takes each hole to its place
* `Document.StartTag.spliced`: both of this for every start tag, in the document that structuring
  ends with
-/

namespace MarkupTemplate

open Markup

/-! ## The parts of a value -/

/-- The holes stand in a value from an offset on, in the order of their places. -/
structure Slice.Splits (value : Slice) (offset : Nat) (holes : List Hole) : Prop where
  sorted : holes.Pairwise Hole.NotAfter
  places : ∀ hole ∈ holes, ∃ i, hole.offset = some i ∧ offset ≤ i ∧ i ≤ value.stop

theorem Slice.Splits.tail {value : Slice} {offset i : Nat} {hole : Hole} {holes : List Hole}
    (h : value.Splits offset (hole :: holes)) (hi : hole.offset = some i) :
    value.Splits i holes := by
  obtain ⟨hfirst, hrest⟩ := List.pairwise_cons.1 h.sorted
  refine ⟨hrest, fun hole' hmem => ?_⟩
  obtain ⟨j, hj, -, hstop⟩ := h.places hole' (List.mem_cons_of_mem _ hmem)
  exact ⟨j, hj, hfirst hole' hmem i hi j hj, hstop⟩

/-- Each hole stands behind as much text as its place says. -/
theorem placedFrom_spliceFrom {value : Slice} {offset : Nat} {holes : List Hole}
    (hoffset : value.offset ≤ offset) (h : value.Splits offset holes) :
    placedFrom offset (spliceFrom value offset holes) = holes := by
  induction holes generalizing offset with
  | nil =>
    rw [spliceFrom]
    split <;> rfl
  | cons hole holes ih =>
    obtain ⟨i, hi, hle, hstop⟩ := h.places hole List.mem_cons_self
    have hrest := ih (Nat.le_trans hoffset hle) (h.tail hi)
    have hhole : (⟨hole.node, some i⟩ : Hole) = hole := by rw [← hi]
    have hlength : ((value.text.drop (offset - value.offset)).take (i - offset)).length =
        i - offset := by
      rw [Slice.stop] at hstop
      rw [List.length_take, List.length_drop]
      omega
    simp only [spliceFrom, hi, Option.getD_some]
    split
    · rw [List.singleton_append, placedFrom, hlength, Nat.add_sub_of_le hle, placedFrom, hrest,
        hhole]
    · obtain rfl : offset = i := by omega
      rw [List.nil_append, placedFrom, hrest, hhole]

/-- No text between the holes, before them or behind them is empty. -/
theorem literal_nil_not_mem_spliceFrom {value : Slice} {offset : Nat} {holes : List Hole}
    (hoffset : value.offset ≤ offset) (h : value.Splits offset holes) :
    .literal [] ∉ spliceFrom value offset holes := by
  -- A text is added only if it has at least one byte, and the value has these bytes.
  have hne : ∀ place length, value.offset ≤ place → 0 < length → place + length ≤ value.stop →
      ((value.text.drop (place - value.offset)).take length) ≠ [] := by
    intro place length hplace hpos hstop
    rw [Slice.stop] at hstop
    rw [← List.length_pos_iff, List.length_take, List.length_drop]
    omega
  induction holes generalizing offset with
  | nil =>
    rw [spliceFrom]
    split
    · next hlt =>
      have hrest := hne offset (value.stop - offset) hoffset (by omega) (by omega)
      simp only [List.mem_singleton, ValuePart.literal.injEq]
      exact fun he => hrest (by rw [← he, List.take_nil])
    · exact List.not_mem_nil
  | cons hole holes ih =>
    obtain ⟨i, hi, hle, hstop⟩ := h.places hole List.mem_cons_self
    have hrest := ih (Nat.le_trans hoffset hle) (h.tail hi)
    simp only [spliceFrom, hi, Option.getD_some]
    split
    · have hbefore := hne offset (i - offset) hoffset (by omega) (by omega)
      simpa [hrest] using hbefore.symm
    · simpa using hrest

namespace Markup

/-- The parts of the value of an attribute in a tag in which holes wait: the texts make up the
value, each hole in the value stands behind as much of the text as was there when it arrived, and no
text is empty in a value with holes. A bare attribute has no parts. -/
structure Attribute.SplitBy (a : Attribute) (waiting : List Hole) (parts : List ValuePart) : Prop
    where
  bare : a.value = none → parts = []
  text : ∀ v ∈ a.value, literalText parts = v.text
  placed : ∀ v ∈ a.value, placedFrom v.offset parts = waiting.filter (·.isIn a)
  nonempty : .literal [] ∈ parts → waiting.filter (·.isIn a) = []

/-- No hole is in the values of both attributes. -/
def Attribute.Apart (a b : Attribute) : Prop := ∀ hole : Hole, hole.isIn a → hole.isIn b = false

/-- A hole in a value stands between its two ends. -/
theorem isIn_iff {hole : Hole} {a : Attribute} :
    hole.isIn a = true ↔
      ∃ i ∈ hole.offset, ∃ v ∈ a.value, v.offset ≤ i ∧ i ≤ v.stop := by
  simp [Hole.isIn, Attribute.valueHolds, Option.any_eq_true]

theorem Attribute.splits_filter {a : Attribute} {waiting : List Hole}
    (hsorted : waiting.Pairwise Hole.NotAfter) {v : Slice} (hv : a.value = some v) :
    v.Splits v.offset (waiting.filter (·.isIn a)) := by
  refine ⟨hsorted.filter _, fun hole hmem => ?_⟩
  obtain ⟨i, hi, w, hw, hbounds⟩ := isIn_iff.1 (List.mem_filter.1 hmem).2
  obtain rfl : v = w := Option.some.inj (hv.symm.trans hw)
  exact ⟨i, hi, hbounds⟩

/-- The holes in a value split it where they arrived. -/
theorem Attribute.splitBy_parts {a : Attribute} {waiting : List Hole}
    (hsorted : waiting.Pairwise Hole.NotAfter) :
    a.SplitBy waiting (a.parts (waiting.filter (·.isIn a))) := by
  have htext := @literalText_parts a waiting hsorted
  refine ⟨fun hnone => by simp [Attribute.parts, hnone], fun v hv => ?_, fun v hv => ?_, ?_⟩
  · rw [htext, hv, Option.elim_some]
  · simp only [Attribute.parts, Option.mem_def.1 hv, Option.elim_some, splice]
    split
    · next hempty => rw [List.isEmpty_iff.1 hempty]; rfl
    · exact placedFrom_spliceFrom (Nat.le_refl _) (splits_filter hsorted hv)
  · intro hmem
    cases hv : a.value with
    | none => simp [Attribute.parts, hv] at hmem
    | some v =>
      simp only [Attribute.parts, hv, Option.elim_some, splice] at hmem
      split at hmem
      · next hempty => exact List.isEmpty_iff.1 hempty
      · exact absurd hmem
          (literal_nil_not_mem_spliceFrom (Nat.le_refl _) (splits_filter hsorted hv))

/-- Every attribute stands where the ones before it have ended. -/
theorem InTurn.lies {text : Bytes} {start stop : Nat} {entries : List Attribute}
    (h : InTurn text start stop entries) :
    ∀ a ∈ entries, ∃ begins, start ≤ begins ∧ a.Lies text begins stop := by
  induction entries generalizing start with
  | nil => simp
  | cons a entries ih =>
    obtain ⟨hlies, hrest⟩ := h
    have hstart := Nat.lt_trans hlies.start_lt hlies.name_lt
    refine List.forall_mem_cons.2 ⟨⟨start, Nat.le_refl _, hlies⟩, fun b hb => ?_⟩
    obtain ⟨begins, hfrom, hb⟩ := ih hrest b hb
    exact ⟨begins, Nat.le_trans (Nat.le_trans hstart.le hlies.value_le) hfrom, hb⟩

/-- No value reaches the name of an attribute that is written after it. -/
theorem InTurn.pairwise_lt {text : Bytes} {start stop : Nat} {entries : List Attribute}
    (h : InTurn text start stop entries) :
    entries.Pairwise fun a b => a.valueStop < b.name.offset := by
  induction entries generalizing start with
  | nil => exact .nil
  | cons a entries ih =>
    refine List.pairwise_cons.2 ⟨fun b hb => ?_, ih h.2⟩
    obtain ⟨begins, hfrom, hlies⟩ := h.2.lies b hb
    exact Nat.lt_of_le_of_lt hfrom hlies.start_lt

/-- No value reaches into the attribute that is written next, so a hole is in one value at most. -/
theorem InTurn.pairwise {text : Bytes} {start stop : Nat} {entries : List Attribute}
    (h : InTurn text start stop entries) :
    entries.Pairwise Attribute.Apart := by
  refine h.pairwise_lt.imp_of_mem fun {a b} _ hb hlt hole hin => ?_
  obtain ⟨_, -, hlies⟩ := h.lies b hb
  have hname := hlies.name_lt
  rw [Bool.eq_false_iff]
  intro hin'
  obtain ⟨i, hi, v, hv, -, hle⟩ := isIn_iff.1 hin
  obtain ⟨j, hj, w, hw, hle', -⟩ := isIn_iff.1 hin'
  obtain rfl : i = j := Option.some.inj (hi.symm.trans hj)
  simp only [Attribute.valueStart, Attribute.valueStop, Option.mem_def.1 hv, Option.mem_def.1 hw,
    Option.elim_some] at hlt hname
  omega

end Markup

/-! ## The attributes of a tag in a document -/

namespace Document

variable {n next : Nat} {container : NodeId} {d d₁ : Document} {waiting : List Hole}

/-- What a part of a value is in a document: a text is a node of its own. -/
def IsPart (d : Document) : ValuePart → NodeId → Prop
  | .literal text, id => d.kind id = .markup ∧ (d.label id).text = text
  | .hole node, id => id = node

/-- The node is what an attribute of a start tag makes, where the given holes wait: a new attribute
of the name that is written, with one value, which has the parts that the holes split it into. -/
structure Spells (d : Document) (n : Nat) (waiting : List Hole) (a : Attribute) (id : NodeId) :
    Prop where
  le : n ≤ id
  kind : d.kind id = .attribute
  name : (d.label id).name = a.name.text
  value : ∃ value, n ≤ value ∧ d.children id = [value] ∧ d.kind value = .attributeValue ∧
    ∃ parts, a.SplitBy waiting parts ∧ List.Forall₂ d.IsPart parts (d.children value)

/-- A node that says what it is is in the document. -/
theorem lt_size_of_kind_ne {id : NodeId} (h : d.kind id ≠ default) : id < d.size := by
  refine Decidable.byContradiction fun hlt => h ?_
  rw [kind, node_of_size_le d (Nat.not_lt.1 hlt)]
  rfl

theorem Grows.isPart (h : Grows n container d d₁) {part : ValuePart} {id : NodeId}
    (hpart : d.IsPart part id) : d₁.IsPart part id := by
  cases part with
  | literal text =>
    obtain ⟨hkind, htext⟩ := hpart
    have hlt : id < d.size := lt_size_of_kind_ne (by rw [hkind]; decide)
    exact ⟨(h.kind_eq hlt).trans hkind, (h.text_eq hlt).trans htext⟩
  | hole node => exact hpart

/-- An attribute of a tag stays what it is. -/
theorem Grows.spells (h : Grows d.size container d d₁) (hcontainer : container < n) {a : Attribute}
    {id : NodeId} (hid : d.Spells n waiting a id) : d₁.Spells n waiting a id := by
  obtain ⟨hle, hkind, hname, value, hle', hchildren, hvalue, parts, hsplit, hparts⟩ := hid
  have hlt : id < d.size := lt_size_of_kind_ne (by rw [hkind]; decide)
  have hlt' : value < d.size := lt_size_of_kind_ne (by rw [hvalue]; decide)
  refine ⟨hle, (h.kind_eq hlt).trans hkind, (h.name_eq hlt).trans hname, value, hle', ?_,
    (h.kind_eq hlt').trans hvalue, parts, hsplit, ?_⟩
  · have hne := Nat.ne_of_gt (Nat.lt_of_lt_of_le hcontainer hle)
    rw [h.children_eq hlt hne (by rw [hkind]; decide), hchildren]
  · have hne := Nat.ne_of_gt (Nat.lt_of_lt_of_le hcontainer hle')
    rw [h.children_eq hlt' hne (by rw [hvalue]; decide)]
    exact hparts.imp fun _ _ => h.isPart

/-- The nodes of a value are its parts. -/
theorem forall₂_isPart (hnext : n ≤ next) {parts : List ValuePart}
    (h : d.Holds n (valueForest next parts)) :
    List.Forall₂ d.IsPart parts (valueForest next parts).roots := by
  induction parts generalizing next with
  | nil => exact .nil
  | cons part parts ih =>
    cases part with
    | literal text =>
      obtain ⟨hid, -, hrest⟩ := h
      have hlabel := (hid hnext).1
      refine .cons ⟨?_, ?_⟩ (ih (Nat.le_succ_of_le hnext) hrest)
      · simpa [label_kind] using congrArg Label.kind hlabel
      · have htext := congrArg Label.text hlabel
        rwa [Label.plain_text, Label.text, Label.text, List.flatten_singleton] at htext
    | hole node =>
      obtain ⟨-, -, hrest⟩ := h
      exact .cons rfl (ih hnext hrest)

/-- The nodes of an attribute are what the attribute makes. -/
theorem spells_of_holds (hnext : n ≤ next) {a : Attribute} {parts : List ValuePart}
    (hsplit : a.SplitBy waiting parts)
    (h : d.Holds n (attributeForest next a.name.text parts)) : d.Spells n waiting a next := by
  obtain ⟨hid, ⟨hvalue, hparts, -⟩, -⟩ := h
  obtain ⟨hlabel, hchildren⟩ := hid hnext
  obtain ⟨hlabel', hchildren'⟩ := hvalue (Nat.le_succ_of_le hnext)
  have hkind := congrArg Label.kind hlabel
  have hname := congrArg Label.name hlabel
  have hkind' := congrArg Label.kind hlabel'
  refine ⟨hnext, hkind, hname, next + 1, Nat.le_succ_of_le hnext, hchildren, hkind', parts, hsplit,
    ?_⟩
  rw [hchildren']
  exact forall₂_isPart (by omega) hparts

/-- Only the holes in the value of an attribute count for it. -/
theorem Spells.congr {waiting' : List Hole} {a : Attribute} {id : NodeId}
    (h : d.Spells n waiting a id)
    (hwaiting : waiting'.filter (·.isIn a) = waiting.filter (·.isIn a)) :
    d.Spells n waiting' a id := by
  obtain ⟨value, hle, hchildren, hkind, parts, hsplit, hparts⟩ := h.value
  refine ⟨h.le, h.kind, h.name, value, hle, hchildren, hkind, parts, ⟨hsplit.bare, hsplit.text, ?_,
    ?_⟩, hparts⟩
  · rw [hwaiting]
    exact hsplit.placed
  · rw [hwaiting]
    exact hsplit.nonempty

/-- The innermost open element has the children that the path says. -/
theorem HoldsPath.children_pathTop {ids : List NodeId} {path : List OpenBranch}
    (h : d.HoldsPath n container ids path) : d.children (pathTop container path) = ids := by
  cases path with
  | nil => exact h
  | cons branch path => exact h.1.2

end Document

/-! ## The element of a tag in a document -/

namespace Assembly

variable {n : Nat} {d : Document} {a : Assembly}

theorem path_foldl_attach (entries : List Attribute) (a : Assembly) :
    (entries.foldl attach a).path = a.path := by
  induction entries generalizing a with
  | nil => rfl
  | cons entry entries ih => exact ih (a.attach entry)

/-- The attributes take the holes in their values. -/
theorem waiting_foldl_attach (entries : List Attribute) (a : Assembly) :
    (entries.foldl attach a).waiting = a.waiting.filter fun hole => !entries.any hole.isIn := by
  induction entries generalizing a with
  | nil => simp
  | cons entry entries ih =>
    rw [List.foldl_cons, ih, attach, List.filter_filter]
    simp only [List.any_cons, Bool.not_or, Bool.and_comm]

/-- The attributes of a tag come one after another, each with the holes in its value. -/
theorem spells_foldl_attach (hle : n ≤ a.next) (hsorted : a.Sorted) {entries : List Attribute}
    (hapart : entries.Pairwise Attribute.Apart)
    (h : d.Holds n (entries.foldl attach a).content) :
    d.Holds n a.content ∧ ∃ ids, (entries.foldl attach a).content.roots = a.content.roots ++ ids ∧
      List.Forall₂ (d.Spells n a.waiting) entries ids := by
  induction entries generalizing a with
  | nil => exact ⟨h, [], (List.append_nil _).symm, .nil⟩
  | cons entry entries ih =>
    obtain ⟨hfirst, hrest⟩ := List.pairwise_cons.1 hapart
    obtain ⟨hholds, ids, hroots, hspells⟩ := ih (a := a.attach entry)
      (by simp only [attach]; omega) (hsorted.filter _) hrest h
    obtain ⟨hcontent, hentry⟩ := Document.holds_append.1 hholds
    refine ⟨hcontent, a.next :: ids, ?_, .cons ?_ ?_⟩
    · rw [List.foldl_cons, hroots, attach, Forest.roots_append, List.append_assoc]
      rfl
    · exact Document.spells_of_holds hle (Attribute.splitBy_parts hsorted) hentry
    · -- A hole in the first value is in none of the others.
      refine ((List.forall₂_and_left _ _).2 ⟨hfirst, hspells⟩).imp fun e id h => h.2.congr ?_
      rw [attach, List.filter_filter]
      refine List.filter_congr fun hole _ => ?_
      cases hin : hole.isIn entry with
      | false => simp
      | true => simp [h.1 hole hin]

end Assembly

namespace Structuring

variable {d d₁ d₂ : Document} {container : NodeId} {s : Structuring} {name : Bytes}
  {attributes : List Attribute}

/-- The document has the element that a start tag makes of a state of structuring. The holes between
the attributes stand under the element that was open, directly before the new one. Under the new
element come the attributes that are written in the tag, then those that waited for it, and then
what is no attribute. -/
structure Spliced (d : Document) (container : NodeId) (s : Structuring) (name : Bytes)
    (attributes : List Attribute) (d₁ : Document) : Prop where
  kind : d₁.kind s.document.size = .element
  name : (d₁.label s.document.size).name = name
  place : ∃ more, d₁.children (s.top container) = s.document.children (s.top container) ++
    (s.waiting.filter (Assembly.isBetween attributes)).map Hole.node ++
      s.document.size :: more
  content : ∃ entries more, d₁.children s.document.size =
      entries ++ (s.waiting.map Hole.node).filter (fun id => d.kind id = .attribute) ++ more ∧
    List.Forall₂ (d₁.Spells d.size s.waiting) attributes entries ∧
      ∀ id ∈ more, id < d₁.size ∧ d₁.kind id ≠ .attribute

/-- Further children change nothing of it. -/
theorem Spliced.grows (h : Spliced d container s name attributes d₁)
    (hgrows : d₁.Grows d₁.size container d₂) (hcontainer : container < d.size)
    (htop : s.top container < d₁.size) : Spliced d container s name attributes d₂ := by
  have hlt : s.document.size < d₁.size :=
    Document.lt_size_of_kind_ne (by rw [h.kind]; decide)
  obtain ⟨more, hplace⟩ := h.place
  obtain ⟨entries, more', hcontent, hspells, hkinds⟩ := h.content
  obtain ⟨added, hadded, -⟩ := hgrows.children _ htop
  obtain ⟨added', hadded', hkinds', -⟩ := hgrows.children _ hlt
  refine ⟨(hgrows.kind_eq hlt).trans h.kind, (hgrows.name_eq hlt).trans h.name, ⟨more ++ added, ?_⟩,
    entries, more' ++ added', ?_, hspells.imp fun _ _ => hgrows.spells hcontainer, ?_⟩
  · rw [hadded, hplace, List.append_assoc, List.cons_append]
  · rw [hadded', hcontent, List.append_assoc]
  · intro id hid
    rcases List.mem_append.1 hid with hid | hid
    · obtain ⟨hid, hkind⟩ := hkinds id hid
      exact ⟨Nat.lt_of_lt_of_le hid hgrows.size_le, by rwa [hgrows.kind_eq hid]⟩
    · exact hkinds' id hid

/-- The holes that are left after the attributes of a tag are attributes themselves. -/
theorem filter_left {kind : NodeId → NodeKind} {waiting : List Hole}
    (hwaiting : ∀ hole ∈ waiting, hole.isPositional = true ↔ kind hole.node ≠ .attribute) :
    ((waiting.filter fun hole => !Assembly.isBetween attributes hole).filter
        fun hole => !attributes.any hole.isIn).map Hole.node =
      (waiting.map Hole.node).filter fun id => kind id = .attribute := by
  rw [List.filter_map, List.filter_filter]
  refine congrArg (List.map Hole.node) (List.filter_congr fun hole hmem => ?_)
  have hkind := hwaiting hole hmem
  have hany : attributes.any hole.isIn = true → hole.isPositional = true := by
    rw [List.any_eq_true]
    rintro ⟨e, -, hin⟩
    obtain ⟨i, hi, -⟩ := isIn_iff.1 hin
    rw [Hole.isPositional, Option.mem_def.1 hi]
    rfl
  by_cases h : kind hole.node = .attribute
  · have hnot : hole.isPositional = false := by simpa [h] using hkind
    have hnone : attributes.any hole.isIn = false := by simpa [hnot] using hany
    simp [Assembly.isBetween, hnot, hnone, h]
  · simp [Assembly.isBetween, hkind.2 h, h]

/-- The holes between the attributes are in no value. -/
theorem filter_isIn {waiting : List Hole} {e : Attribute} (he : e ∈ attributes) :
    (waiting.filter fun hole => !Assembly.isBetween attributes hole).filter (·.isIn e) =
      waiting.filter (·.isIn e) := by
  rw [List.filter_filter]
  refine List.filter_congr fun hole _ => ?_
  cases hin : hole.isIn e with
  | false => simp
  | true =>
    have hany : attributes.any hole.isIn = true := List.any_eq_true.2 ⟨e, he, hin⟩
    simp [Assembly.isBetween, hany]

/-- A start tag takes each hole that waits to its place. -/
theorem Regular.spliced_openElement (hs : Regular d container s) (hcontainer : container < d.size)
    (hsorted : s.waiting.Pairwise Hole.NotAfter)
    (hapart : attributes.Pairwise Attribute.Apart) (name : Bytes) (span : Option Span) :
    Spliced d container s name attributes
      (s.openElement container span name attributes).document := by
  have hwaiting := fun hole hmem => (hs.waiting hole hmem).2
  obtain ⟨arrived, a, hmirrors, haccount, -⟩ := hs
  have hopen := (hmirrors.openElement hcontainer haccount span name attributes).stored
  have hsize : s.document.size = a.next := hmirrors.stored.size
  have htop : s.document.children (a.top container) = a.content.roots :=
    hmirrors.stored.path.children_pathTop
  rw [hmirrors.waiting] at hsorted hwaiting
  generalize (s.openElement container span name attributes).document = d₁ at hopen ⊢
  -- The assembly has the element as its innermost branch, with the attributes as its content.
  let b := (a.release (Assembly.isBetween attributes)).enter name
  have hassembly : a.openElement name attributes =
      (attributes.foldl Assembly.attach b).release fun _ => true := rfl
  have hpath := hopen.path
  have hcontent := hopen.content
  rw [hassembly] at hpath hcontent
  simp only [Assembly.release, Assembly.path_foldl_attach] at hpath hcontent
  obtain ⟨⟨hlabel, hchildren⟩, -, houter⟩ := hpath
  obtain ⟨entries, hroots, hspells⟩ := (Assembly.spells_foldl_attach (a := b)
    (Nat.le_succ_of_le haccount.le) (hsorted.filter _) hapart
    (Document.holds_append.1 hcontent).1).2
  have hkind := congrArg Label.kind hlabel
  have hname := congrArg Label.name hlabel
  have hbefore := houter.children_pathTop
  rw [Forest.roots_append, Forest.roots_leaves, hroots, Assembly.waiting_foldl_attach,
    List.filter_true] at hchildren
  refine ⟨?_, ?_, ⟨[], ?_⟩, entries, [], ?_, ?_, by simp⟩
  · rw [hsize]
    exact hkind
  · rw [hsize]
    exact hname
  · rw [hmirrors.top_eq, hmirrors.waiting, hsize, htop]
    refine hbefore.trans ?_
    simp [Assembly.release]
  · rw [hsize, hmirrors.waiting, List.append_nil]
    refine hchildren.trans ?_
    exact congrArg (entries ++ ·) (filter_left hwaiting)
  · rw [hmirrors.waiting]
    have hspells' := (List.forall₂_and_left _ _).2 ⟨fun e (he : e ∈ attributes) => he, hspells⟩
    exact hspells'.imp fun e id h => h.2.congr (filter_isIn h.1).symm

/-- A start tag opens an element, and closing it at once changes little. -/
theorem grows_apply_startTag {t : Token} {name : Slice} {selfClosing : Bool}
    (hcontent : t.content = .startTag name attributes selfClosing) (span : Option Span) :
    let d₁ := (s.openElement container span name.text attributes).document
    d₁.Grows d₁.size container (s.apply container span t).document := by
  rw [Structuring.apply, hcontent]
  dsimp only
  split
  · exact grows_closeElement (Nat.le_refl _) _
  · exact .refl (Nat.le_refl _)

end Structuring

/-! ## Every start tag -/

namespace Document

variable {d : Document} {container : NodeId}

/-- A start tag that is completed while a container is structured. -/
structure StartTag (d : Document) (container : NodeId) where
  /-- The children before the piece of markup in which the tag ends. -/
  before : List NodeId
  /-- The piece of markup in which the tag ends. -/
  markup : NodeId
  /-- The children after it. -/
  after : List NodeId
  children : d.children container = before ++ markup :: after
  kind : d.kind markup = .markup
  /-- The tokens before the tag in what was carried on and the piece of markup. -/
  earlier : List Token
  /-- The tag. -/
  token : Token
  /-- The tokens after the tag. -/
  later : List Token
  tokens : (scan ((d.taken container before).carried ++ (d.label markup).text)).tokens =
    earlier ++ token :: later
  /-- The name of the tag. -/
  name : Slice
  /-- The attributes that are written in the tag. -/
  attributes : List Attribute
  /-- Whether the tag ends with a slash. -/
  selfClosing : Bool
  content : token.content = .startTag name attributes selfClosing

namespace StartTag

/-- The text in which the tag is scanned: what was carried on, and the piece of markup. -/
def text (t : d.StartTag container) : Bytes :=
  (d.taken container t.before).carried ++ (d.label t.markup).text

/-- The state of structuring just before the tag. -/
def state (t : d.StartTag container) : Structuring :=
  t.earlier.foldl (Structuring.apply container (d.label t.markup).span)
    (d.taken container t.before)

/-- A container without a node has no children, and so no tag in them. -/
theorem container_lt (t : d.StartTag container) : container < d.size := by
  refine Decidable.byContradiction fun hlt => ?_
  have hchildren := t.children
  rw [Document.children, node_of_size_le d (Nat.not_lt.1 hlt)] at hchildren
  exact List.append_ne_nil_of_right_ne_nil _ (List.cons_ne_nil _ _) hchildren.symm

/-- The attributes stand in the text of the tag where they say. -/
theorem inTurn_attributes (t : d.StartTag container) :
    InTurn t.text t.name.stop (t.token.offset + t.token.length) t.attributes := by
  have htokens : (Cursor.start t.text).tokens.1 = t.earlier ++ t.token :: t.later := t.tokens
  have hreads := (Cursor.cover_tokens (.refl (.start t.text))).2 t.token (by simp [htokens])
  rw [t.content] at hreads
  exact hreads.2

section

variable (t : d.StartTag container) (hchildren : ∀ child ∈ d.children container, child < d.size)
include hchildren

theorem lt_of_mem_before : ∀ child ∈ t.before, child < d.size := fun child hmem =>
  hchildren child (by simp [t.children, hmem])

theorem regular_taken_before : Structuring.Regular d container (d.taken container t.before) :=
  regular_taken t.container_lt (t.lt_of_mem_before hchildren)

theorem regular_state : Structuring.Regular d container t.state :=
  (t.regular_taken_before hchildren).foldl_apply t.container_lt _ _

/-- The piece of markup in which the tag ends is taken by its tokens, the tag among them. -/
theorem document_take_markup :
    ((d.taken container t.before).take container t.markup).document =
      (t.later.foldl (Structuring.apply container (d.label t.markup).span)
        (t.state.apply container (d.label t.markup).span t.token)).document := by
  have hlabel := undiagnosed_taken t.container_lt (t.lt_of_mem_before hchildren)
    (hchildren t.markup (by simp [t.children]))
  have htext : ((d.taken container t.before).document.label t.markup).text =
      (d.label t.markup).text := by simpa using congrArg Label.text hlabel
  have hspan : ((d.taken container t.before).document.label t.markup).span =
      (d.label t.markup).span := by simpa using congrArg Label.span hlabel
  have hkind : (d.taken container t.before).document.kind t.markup = .markup :=
    (congrArg Label.kind hlabel).trans t.kind
  rw [Structuring.take, hkind]
  simp only [Structuring.takeMarkup, htext, hspan, t.tokens, List.foldl_append, List.foldl_cons]
  split <;> rfl

/-- What comes after a start tag only lets the document grow. -/
theorem grows_structureChildren :
    let d₁ := (t.state.openElement container (d.label t.markup).span t.name.text
      t.attributes).document
    d₁.Grows d₁.size container (d.structureChildren container).document := by
  intro d₁
  -- The tag may be closed at once; then the tokens and the children follow that come after it.
  have hclose : d₁.Grows d₁.size container
      (t.state.apply container (d.label t.markup).span t.token).document :=
    Structuring.grows_apply_startTag t.content _
  have hs := (t.regular_state hchildren).apply t.container_lt (d.label t.markup).span t.token
  have hlater := hclose.trans (hs.grows_foldl_apply t.container_lt hclose.size_le
    (d.label t.markup).span t.later)
  rw [← t.document_take_markup hchildren] at hlater
  have hmarkup := (t.regular_taken_before hchildren).take t.container_lt
    (hchildren t.markup (by simp [t.children]))
  have hrun : (d.structureChildren container).document = (t.after.foldl (Structuring.take container)
      ((d.taken container t.before).take container t.markup)).document := by
    rw [structureChildren, t.children, List.foldl_append, List.foldl_cons]
    rfl
  rw [hrun]
  exact hlater.trans (hmarkup.grows_foldl_take t.container_lt hlater.size_le fun child hmem =>
    hchildren child (by simp [t.children, hmem]))

/-- Any start tag that is completed while a container is structured, whatever holes wait for it. The
holes are children that came before, in the order in which they wait: an attribute without a place,
any other node at the end of what was carried on when it came, under the element that is still the
innermost one. The attributes stand in the text in turn, and a hole is in one value at most. When
structuring ends, whether it is complete or not, the tag has made an element: its attributes are
those that are written, each with its value split by the holes in it where they stand, and after
them those that waited; and the holes between the attributes stand directly before the element. -/
theorem spliced :
    d.Arrivals container t.before t.text (t.state.top container) t.state.waiting ∧
      InTurn t.text t.name.stop (t.token.offset + t.token.length) t.attributes ∧
      t.attributes.Pairwise Attribute.Apart ∧
      Structuring.Spliced d container t.state t.name.text t.attributes
        (d.structureChildren container).document := by
  have hs := t.regular_state hchildren
  have harrivals := (arrivals_taken t.container_lt (t.lt_of_mem_before hchildren)).foldl_apply
    (t.regular_taken_before hchildren) t.container_lt (d.label t.markup).span t.earlier
    (List.prefix_append _ (d.label t.markup).text)
  have hturn := t.inTurn_attributes
  have hopen := hs.spliced_openElement t.container_lt harrivals.sorted hturn.pairwise t.name.text
    (d.label t.markup).span
  have htop := hs.grows_openElement (n := 0) t.container_lt (Nat.zero_le _)
    (d.label t.markup).span t.name.text t.attributes
  exact ⟨harrivals, hturn, hturn.pairwise, hopen.grows (t.grows_structureChildren hchildren)
    t.container_lt (Nat.lt_of_lt_of_le (hs.top_lt t.container_lt) htop.size_le)⟩

end

end StartTag

/-- While a tag is cut off come two holes in a value, an attribute and a hole between attributes. -/
def heldMarkup : Document :=
  ⟨#[{ kind := .document, children := [1, 2, 3, 4, 5, 6, 7] },
    { kind := .markup, fragments := [utf8 "<p>x<a b=\"1"] },
    { kind := .embedded .expression (utf8 "v") },
    { kind := .embedded .expression (utf8 "w") },
    { kind := .markup, fragments := [utf8 "2\" "] },
    { kind := .attribute, name := utf8 "id" },
    { kind := .embedded .expression (utf8 "u") },
    { kind := .markup, fragments := [utf8 "c='' d>y</a></p>"] }], by decide⟩

/-- The tag in which the holes wait. -/
def heldTag : heldMarkup.StartTag root where
  before := [1, 2, 3, 4, 5, 6]
  markup := 7
  after := []
  children := by decide
  kind := by decide
  earlier := []
  token := ⟨0, 17, .startTag ⟨1, utf8 "a"⟩
    [⟨⟨3, utf8 "b"⟩, some ⟨6, utf8 "12"⟩⟩, ⟨⟨10, utf8 "c"⟩, some ⟨13, []⟩⟩,
      ⟨⟨15, utf8 "d"⟩, none⟩] false⟩
  later := [⟨17, 1, .text (utf8 "y")⟩, ⟨18, 4, .endTag ⟨20, utf8 "a"⟩⟩,
    ⟨22, 4, .endTag ⟨24, utf8 "p"⟩⟩]
  tokens := by decide +kernel
  name := ⟨1, utf8 "a"⟩
  attributes := [⟨⟨3, utf8 "b"⟩, some ⟨6, utf8 "12"⟩⟩, ⟨⟨10, utf8 "c"⟩, some ⟨13, []⟩⟩,
    ⟨⟨15, utf8 "d"⟩, none⟩]
  selfClosing := false
  content := rfl

theorem heldTag_spliced :
    (∀ child ∈ heldMarkup.children root, child < heldMarkup.size) ∧
      heldTag.state.waiting = [⟨2, some 7⟩, ⟨3, some 7⟩, ⟨5, none⟩, ⟨6, some 10⟩] ∧
      Structuring.Spliced heldMarkup root heldTag.state heldTag.name.text heldTag.attributes
        (heldMarkup.structureChildren root).document := by
  have hchildren : ∀ child ∈ heldMarkup.children root, child < heldMarkup.size := by decide
  exact ⟨hchildren, by decide +kernel, (heldTag.spliced hchildren).2.2.2⟩

end Document

end MarkupTemplate
