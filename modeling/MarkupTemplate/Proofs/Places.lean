import MarkupTemplate.Proofs.Closing
import MarkupTemplate.Proofs.Coverage

/-!
# Places are where they say

The place at an offset is looked up: a binary search in the table of the line starts finds the line,
and the line start gives the column. Both say what can be counted in the text before the offset, as
long as the numbers fit into 32 bits. So the spans of a template are right, and the order of places
by line and column is their order in the text.

## Main definitions

* `lastLine`: what follows the last line feed of a text
* `Location.Names`: a place names an offset of a text by its line and column
* `Location.Before`: a place comes before another one, by offset as by line and column
* `Reading.spans`: the spans of the nodes of a template, and of what is wrong with it

## Main results

* `upperBound_eq`: the binary search finds the last number that is not too great
* `inLines_lineStarts`: what the look-up gives can be counted in the text
* `Location.Names.before`: places that are named right are ordered as their offsets
* `spans_readTemplate`: the spans of a template are right
-/

namespace MarkupTemplate

/-! ## The binary search -/

/-- The binary search finds where the numbers begin to be greater than the bound, if this place is
in the part that it searches. -/
theorem upperBound_eq {low high : List Nat} {bound : Nat} (hlow : ∀ n ∈ low, n ≤ bound)
    (hhigh : ∀ n ∈ high, bound < n) {first count : Nat} (hfirst : first ≤ low.length)
    (hlast : low.length ≤ first + count) (hcount : first + count ≤ (low ++ high).length) :
    upperBound (low ++ high).toArray bound first count = low.length := by
  induction count using Nat.strongRecOn generalizing first with
  | ind count ih =>
    rw [upperBound]
    by_cases hzero : count = 0
    · rw [if_pos hzero]
      omega
    · rw [if_neg hzero]
      have hhalf : count / 2 < count := Nat.div_lt_self (Nat.pos_of_ne_zero hzero) (by decide)
      have hmid : first + count / 2 < (low ++ high).length := by omega
      have hmember : (low ++ high).toArray.getD (first + count / 2) 0 =
          (low ++ high)[first + count / 2] := by
        simp [Array.getD_eq_getD_getElem?, List.getElem?_eq_getElem hmid]
      dsimp only
      rw [hmember]
      -- The middle is before the place that is looked for, or behind it.
      split
      · next hgreater =>
        have hle : low.length ≤ first + count / 2 := by
          refine Nat.not_lt.1 fun hlt => Nat.not_le.2 hgreater ?_
          rw [List.getElem_append_left hlt]
          exact hlow _ (List.getElem_mem _)
        exact ih (count / 2) hhalf hfirst hle (by omega)
      · next hnot =>
        have hlt : first + count / 2 < low.length := by
          refine Nat.not_le.1 fun hle => hnot ?_
          rw [List.getElem_append_right hle]
          exact hhigh _ (List.getElem_mem _)
        exact ih (count - count / 2 - 1) (by omega) (by omega) (by omega) (by omega)

/-! ## The line starts -/

/-- What follows the last line feed of a text, or all of it. -/
def lastLine (text : Bytes) : Bytes := (text.reverse.takeWhile (· != Byte.lineFeed)).reverse

theorem lastLine_concat (text : Bytes) (b : UInt8) :
    lastLine (text ++ [b]) = if b = Byte.lineFeed then [] else lastLine text ++ [b] := by
  by_cases h : b = Byte.lineFeed <;> simp [lastLine, h]

/-- Without a line feed the last line goes on. -/
theorem lastLine_append_of_notMem {text more : Bytes} (h : Byte.lineFeed ∉ more) :
    lastLine (text ++ more) = lastLine text ++ more := by
  induction more using List.reverseRecOn with
  | nil => simp
  | append_singleton more b ih =>
    rw [List.mem_append, List.mem_singleton, not_or] at h
    rw [← List.append_assoc, lastLine_concat, if_neg (Ne.symm h.2), ih h.1, List.append_assoc]

/-- The offsets just behind the line feeds of a text that stands at an offset of a longer one. -/
def lineBreaks (offset : Nat) (text : Bytes) : List Nat :=
  ((text.zipIdx offset).filter fun (b, _) => b == Byte.lineFeed).map fun (_, i) => i + 1

theorem lineBreaks_append (offset : Nat) (s t : Bytes) :
    lineBreaks offset (s ++ t) = lineBreaks offset s ++ lineBreaks (offset + s.length) t := by
  simp [lineBreaks, List.zipIdx_append]

theorem length_lineBreaks (offset : Nat) (text : Bytes) :
    (lineBreaks offset text).length = text.count Byte.lineFeed := by
  induction text generalizing offset with
  | nil => rfl
  | cons b rest ih =>
    have hrest := ih (offset + 1)
    rw [lineBreaks, List.length_map] at hrest ⊢
    by_cases h : b = Byte.lineFeed <;> simp [h, hrest]

theorem mem_lineBreaks {offset n : Nat} {text : Bytes} (h : n ∈ lineBreaks offset text) :
    offset < n ∧ n ≤ offset + text.length := by
  simp only [lineBreaks, List.mem_map, List.mem_filter, Prod.exists] at h
  obtain ⟨b, i, ⟨hmem, -⟩, rfl⟩ := h
  obtain ⟨hle, hlt, -⟩ := List.mem_zipIdx hmem
  omega

/-- The last line starts where the last line feed says. -/
theorem getLastD_lineBreaks (text : Bytes) :
    (lineBreaks 0 text).getLastD 0 + (lastLine text).length = text.length := by
  induction text using List.reverseRecOn with
  | nil => rfl
  | append_singleton text b ih =>
    rw [lineBreaks_append, lastLine_concat]
    by_cases h : b = Byte.lineFeed
    · simp [h, lineBreaks]
    · simp only [lineBreaks, List.zipIdx_singleton, List.filter_cons, beq_iff_eq, h, if_false,
        List.filter_nil, List.map_nil, List.append_nil, List.length_append] at ih ⊢
      omega

/-- The line of an offset and its start, as they are looked up, can be counted in the text before
the offset. -/
theorem inLines_lineStarts {text : Bytes} {offset : Nat} (h : offset ≤ text.length) :
    let before := text.take offset
    let starts := lineStarts text
    let line := upperBound starts offset 0 starts.size - 1
    line = before.count Byte.lineFeed ∧
      starts.getD line 0 + (lastLine before).length = offset := by
  intro before starts line
  have hbefore : before.length = offset := List.length_take_of_le h
  -- The lines that start before the offset or at it are those of the text before it.
  have hstarts : starts =
      (0 :: lineBreaks 0 before ++ lineBreaks offset (text.drop offset)).toArray := by
    have happend := lineBreaks_append 0 before (text.drop offset)
    rw [List.take_append_drop, hbefore, Nat.zero_add] at happend
    rw [List.cons_append, ← happend]
    rfl
  have hsearch : upperBound starts offset 0 starts.size = before.count Byte.lineFeed + 1 := by
    rw [hstarts, upperBound_eq]
    · rw [List.length_cons, length_lineBreaks]
    · intro n hn
      rcases List.mem_cons.1 hn with rfl | hn
      · exact Nat.zero_le _
      · have := (mem_lineBreaks hn).2
        omega
    · exact fun n hn => (mem_lineBreaks hn).1
    · exact Nat.zero_le _
    · simp
    · simp
  have hline : line = before.count Byte.lineFeed := by
    rw [show line = upperBound starts offset 0 starts.size - 1 from rfl, hsearch]
    rfl
  refine ⟨hline, ?_⟩
  have hlast : starts.getD line 0 = (lineBreaks 0 before).getLastD 0 := by
    rw [hline, hstarts, ← length_lineBreaks 0 before, List.getLastD_eq_getLast?]
    cases hbreaks : lineBreaks 0 before using List.reverseRecOn with
    | nil => rfl
    | append_singleton breaks last => simp [Array.getD_eq_getD_getElem?]
  rw [hlast, getLastD_lineBreaks, hbefore]

/-! ## Places by line and column -/

theorem narrow_of_lt {n : Nat} (h : n < 4294967296) : narrow n = n := by
  rw [narrow, UInt32.toNat_ofNat']
  exact Nat.mod_eq_of_lt h

namespace Location

/-- The place names an offset of a text: its line is one more than the number of line feeds before
the offset, and its column one more than the number of bytes between the last of them, or the start
of the text, and the offset. -/
structure Names (text : Bytes) (l : Location) : Prop where
  offset_le : l.offset ≤ text.length
  line : l.line = 1 + (text.take l.offset).count Byte.lineFeed
  column : l.column = 1 + (lastLine (text.take l.offset)).length

/-- The place comes before another one: its offset is less, and it is in an earlier line or in the
same line in an earlier column. -/
structure Before (l l' : Location) : Prop where
  offset : l.offset < l'.offset
  lineColumn : l.line < l'.line ∨ l.line = l'.line ∧ l.column < l'.column

/-- The place that is looked up for an offset names this offset, if the text is short enough for
numbers of 32 bits. -/
theorem names_ofOffset {text : Bytes} {offset : Nat} (h : offset ≤ text.length)
    (htext : text.length < 4294967295) :
    (ofOffset text offset).offset = offset ∧ (ofOffset text offset).Names text := by
  obtain ⟨hline, hcolumn⟩ := inLines_lineStarts h
  have hcount : (text.take offset).count Byte.lineFeed ≤ offset :=
    List.count_le_length.trans (List.length_take_le _ _)
  have hoffset : (ofOffset text offset).offset = offset := by
    rw [ofOffset, inLines, narrow_of_lt (by omega)]
  refine ⟨hoffset, ?_⟩
  constructor
  · rw [hoffset]
    exact h
  · rw [hoffset]
    simp only [ofOffset, inLines, hline]
    rw [narrow_of_lt (n := (text.take offset).count Byte.lineFeed) (by omega),
      narrow_of_lt (by omega), Nat.add_comm]
  · -- The line starts at the offset or before it, so the difference is no less than zero.
    have hsub : offset - (lineStarts text).getD (upperBound (lineStarts text) offset 0
        (lineStarts text).size - 1) 0 = (lastLine (text.take offset)).length := by omega
    rw [hoffset]
    simp only [ofOffset, inLines, hsub]
    rw [narrow_of_lt (n := (lastLine (text.take offset)).length) (by omega),
      narrow_of_lt (by omega), Nat.add_comm]

/-- Lines and columns order the places of a text as their offsets do. -/
theorem Names.before {text : Bytes} {l l' : Location} (h : l.Names text) (h' : l'.Names text)
    (hlt : l.offset < l'.offset) : l.Before l' := by
  refine ⟨hlt, ?_⟩
  obtain ⟨hle, hline, hcolumn⟩ := h
  obtain ⟨hle', hline', hcolumn'⟩ := h'
  -- The text before the later place goes on from the earlier one.
  let between := (text.take l'.offset).drop l.offset
  have htake : text.take l'.offset = text.take l.offset ++ between := by
    have hprefix : (text.take l'.offset).take l.offset = text.take l.offset := by
      rw [List.take_take, Nat.min_eq_left hlt.le]
    rw [← hprefix, List.take_append_drop]
  have hlength : between.length = l'.offset - l.offset := by
    rw [List.length_drop, List.length_take_of_le hle']
  rw [htake, List.count_append] at hline'
  by_cases hfeed : Byte.lineFeed ∈ between
  · have hpos := List.count_pos_iff.2 hfeed
    omega
  · rw [htake, lastLine_append_of_notMem hfeed, List.length_append] at hcolumn'
    rw [List.count_eq_zero_of_not_mem hfeed] at hline'
    omega

end Location

/-! ## The spans of a template -/

/-- The span is that of a stretch of a text that is not empty, and both of its ends are named as the
text says. -/
structure Span.Marks (text : Bytes) (span : Span) : Prop where
  start : span.start.Names text
  stop : span.stop.Names text
  before : span.start.Before span.stop

theorem Span.marks_between {text : Bytes} {start stop : Nat} (hlt : start < stop)
    (hle : stop ≤ text.length) (htext : text.length < 4294967295) :
    (Span.between text start stop).Marks text := by
  obtain ⟨hstart, hnames⟩ := Location.names_ofOffset (hlt.le.trans hle) htext
  obtain ⟨hstop, hnames'⟩ := Location.names_ofOffset hle htext
  refine ⟨hnames, hnames', hnames.before hnames' ?_⟩
  rw [Span.between, hstart, hstop]
  exact hlt

/-- The spans that reading a template gives: those of the nodes, those of the reports on them, and
those of what is wrong with the template. -/
def Reading.spans (r : Reading) : List Span :=
  r.document.nodes.toList.flatMap (fun n => n.span.toList ++ n.diagnostics.filterMap (·.span)) ++
    r.diagnostics.filterMap (·.span)

/-- The span of a node of a template is that of a segment. -/
theorem span_readTemplate (source name : Bytes) (id : NodeId) :
    ∀ span ∈ ((readTemplate source name).document.label id).span,
      ∃ part ∈ segments source.length 0 (pieces none source),
        span = .between source part.start part.stop := by
  refine List.foldlRecOn (motive := fun d : Document => ∀ id, ∀ span ∈ (d.label id).span,
    ∃ part ∈ segments source.length 0 (pieces none source),
      span = .between source part.start part.stop)
    _ _ (fun id => ?_) (fun d h part hpart id => ?_) id
  · have hnone : (Document.empty.label id).span = none := by
      cases id with
      | zero => rfl
      | succ id =>
        rw [Document.label, Document.node_of_size_le _ (Nat.succ_le_succ (Nat.zero_le id))]
        rfl
    simp [hnone]
  · simp only [Document.under, Document.addNode, Document.label_appendChild]
    rcases Nat.lt_trichotomy id d.size with hlt | rfl | hlt
    · rw [Document.label_add_of_lt _ hlt]
      exact h id
    · rw [Document.label_add_size]
      intro span hspan
      refine ⟨part, hpart, ?_⟩
      unfold Segment.node at hspan
      split at hspan <;> exact (Option.some.inj hspan).symm
    · rw [Document.label, Document.node_of_size_le _ (by rw [Document.size_add]; exact hlt)]
      exact fun span hspan => absurd hspan (Option.not_mem_none span)

/-- A construct without its end starts with `@`. -/
theorem Construct.Unclosed.ne_nil {construct : Construct} {s : Bytes} (h : construct.Unclosed s) :
    s ≠ [] := by
  cases h with
  | comment => simp [utf8_commentStart]
  | code => simp

/-- The spans that reading a template gives are stretches of the template, and their ends are named
by the lines and columns that can be counted in it. -/
theorem spans_readTemplate (source name : Bytes) (hsource : source.length < 4294967295) :
    ∀ span ∈ (readTemplate source name).spans, span.Marks source := by
  have haccounts := accounts_segmentsFrom source
  intro span hspan
  rcases List.mem_append.1 hspan with hspan | hspan
  · obtain ⟨n, hn, hspan⟩ := List.mem_flatMap.1 hspan
    obtain ⟨id, hid, rfl⟩ := List.getElem_of_mem hn
    have hnode : (readTemplate source name).document.node id =
        (readTemplate source name).document.nodes.toList[id] := by
      rw [Document.node]
      simp at hid ⊢
      simp [hid]
    rw [← hnode] at hspan
    have hdiagnostics := diagnostics_readTemplate source name id
    rw [Document.label] at hdiagnostics
    rw [hdiagnostics, List.filterMap_nil, List.append_nil, Option.mem_toList] at hspan
    obtain ⟨part, hpart, rfl⟩ := span_readTemplate source name id span hspan
    obtain ⟨-, hlt, hle⟩ := haccounts.inside part hpart
    exact Span.marks_between hlt hle hsource
  · -- What is wrong is a construct without its end, and it goes on to the end of the template.
    obtain ⟨g, hg, hspan⟩ := List.mem_filterMap.1 hspan
    obtain ⟨⟨construct, start⟩, hopen, rfl⟩ := List.mem_map.1 hg
    obtain rfl : _ = span := Option.some.inj hspan
    have hunclosed := haccounts.unclosed construct start (Option.mem_toList.1 hopen)
    have hlt : start < source.length := by
      refine Nat.not_le.1 fun hle => hunclosed.ne_nil ?_
      exact List.drop_eq_nil_of_le hle
    exact Span.marks_between hlt (Nat.le_refl _) hsource

/-- A template with an empty line, embedded code at the start of a line, and a bracket that is not
closed. -/
def brokenLines : Bytes := utf8 "ab\n\n@c d\n@(e"

theorem brokenLines_spans :
    brokenLines.length < 4294967295 ∧
      (readTemplate brokenLines []).spans =
        [⟨⟨0, 1, 1⟩, ⟨4, 3, 1⟩⟩, ⟨⟨4, 3, 1⟩, ⟨6, 3, 3⟩⟩, ⟨⟨6, 3, 3⟩, ⟨12, 4, 4⟩⟩,
          ⟨⟨9, 4, 1⟩, ⟨12, 4, 4⟩⟩] ∧
      ∀ span ∈ (readTemplate brokenLines []).spans, span.Marks brokenLines := by
  have hlength : brokenLines.length < 4294967295 := by decide +kernel
  exact ⟨hlength, by decide +kernel, spans_readTemplate brokenLines [] hlength⟩

end MarkupTemplate
