import MarkupTemplate.Proofs.Reading

/-!
# Scanning written tags

The tags of a fragment are scanned as they are written, whatever follows them. Each attribute is
found where it stands, and the holes in its value are those that stand between its quotes, so the
value is put together from the parts that it was written with.

## Main definitions

* `Entry.scanned`, `scannedEntries`: attributes as the scan of a start tag finds them

## Main results

* `Cursor.attributes?_written`: the attributes of a start tag
* `Cursor.next?_startTag`, `Cursor.next?_endTag`, `Cursor.next?_text`: the tokens of a fragment
* `splice_placedFrom`: the holes in a value divide its text into the parts that it was written with
-/

namespace MarkupTemplate

open Markup

/-! ## Attributes where they stand -/

/-- An attribute as it is found in a text, if it is written at an offset. -/
def Entry.scanned (offset : Nat) (e : Entry) : Attribute :=
  ⟨⟨offset + 1, e.name⟩,
    e.value.map fun parts => ⟨offset + 1 + e.name.length + 2, literalText parts⟩⟩

/-- The text that is written for a value, with its quotes. -/
def Entry.valueText (e : Entry) : Bytes :=
  e.value.elim [] fun parts =>
    Byte.equals :: Byte.doubleQuote :: (literalText parts ++ [Byte.doubleQuote])

/-- The number of bytes that are written for an attribute. -/
def Entry.length (e : Entry) : Nat := 1 + e.name.length + e.valueText.length

/-- Attributes as they are found in a text, if they are written from an offset on. -/
def scannedEntries (offset : Nat) : List Entry → List Attribute
  | [] => []
  | e :: entries => e.scanned offset :: scannedEntries (offset + e.length) entries

theorem literalText_written (e : Entry) :
    literalText e.written = Byte.space :: (e.name ++ e.valueText) := by
  obtain ⟨name, value⟩ := e
  cases value <;> simp [Entry.written, Entry.valueText, literalText, literalText_append]

theorem length_written (e : Entry) : (literalText e.written).length = e.length := by
  rw [literalText_written, Entry.length]
  simp only [List.length_cons, List.length_append]
  omega

theorem literalText_writtenEntries_cons (e : Entry) (entries : List Entry) :
    literalText (writtenEntries (e :: entries)) =
      literalText e.written ++ literalText (writtenEntries entries) := by
  rw [writtenEntries, List.flatMap_cons, literalText_append, writtenEntries]

namespace Cursor

section

variable {p : UInt8 → Bool} {s rest : Bytes}

/-- A run of bytes ends where a byte of another sort follows. -/
theorem run_append (hs : ∀ b ∈ s, p b = true) (hrest : ∀ b ∈ rest.head?, p b = false)
    (offset : Nat) : run p ⟨offset, s ++ rest⟩ = ⟨offset, s⟩ := by
  have hstop : rest.takeWhile p = [] := by
    cases rest with
    | nil => rfl
    | cons b rest => rw [List.takeWhile_cons_of_neg (by simp [hrest b rfl])]
  rw [run, List.takeWhile_append_of_pos hs, hstop, List.append_nil]

theorem skipWhile_append (hs : ∀ b ∈ s, p b = true) (hrest : ∀ b ∈ rest.head?, p b = false)
    (offset : Nat) : skipWhile p ⟨offset, s ++ rest⟩ = ⟨offset + s.length, rest⟩ := by
  rw [← advance_length_run, run_append hs hrest]
  simp [advance]

end

/-- Where no blank stands there is none to skip. -/
theorem skipBlanks_of_not_isBlank {c : Cursor} (h : ∀ b ∈ c.rest.head?, Byte.isBlank b = false) :
    c.skipBlanks = c :=
  skipWhile_append (s := []) (by simp) h c.offset

theorem skipBlanks_cons {b : UInt8} {rest : Bytes} {offset : Nat} (h : Byte.isBlank b = false) :
    skipBlanks ⟨offset, b :: rest⟩ = ⟨offset, b :: rest⟩ := by
  refine skipBlanks_of_not_isBlank fun b' hb' => ?_
  obtain rfl : b = b' := Option.some.inj hb'
  exact h

theorem skipBlanks_skipBlanks (c : Cursor) : c.skipBlanks.skipBlanks = c.skipBlanks := by
  refine skipBlanks_of_not_isBlank fun b hb => ?_
  have hhead := List.head?_dropWhile_not Byte.isBlank c.rest
  rw [skipBlanks, rest_skipWhile, Option.mem_def] at hb
  simpa [hb] using hhead

/-- Blanks before the attributes of a start tag have no effect. -/
theorem attributes?_skipBlanks (c : Cursor) : c.skipBlanks.attributes? = c.attributes? := by
  -- Each case looks at the text after the blanks only.
  have hsame := skipBlanks_skipBlanks c
  fun_cases attributes? c with
  | case1 hr => exact attributes?_of_cut (.inl (by rwa [hsame]))
  | case2 rest hr => rw [attributes?_of_greaterThan (by rwa [hsame]), hsame]
  | case3 _ hr => exact attributes?_of_cut (.inr (by rwa [hsame]))
  | case4 rest _ hr => rw [attributes?_of_selfClosing (by rwa [hsame]), hsame]
  | case5 d rest hd _ hr => rw [attributes?_of_slash (by rwa [hsame]) hd, hsame]
  | case6 b rest hr hne hne' ha =>
    exact attributes?_of_attribute_none (by rwa [hsame]) hne hne' (by rwa [hsame])
  | case7 b rest hr hne hne' a d ha =>
    exact attributes?_of_attribute (by rwa [hsame]) hne hne' (by rwa [hsame])

variable {name rest : Bytes} {offset : Nat}

/-- An attribute goes on after its name. -/
theorem attribute?_append (hne : name ≠ []) (hname : ∀ b ∈ name, isAttributeNamePart b = true)
    (hrest : ∀ b ∈ rest.head?, isAttributeNamePart b = false) (offset : Nat) :
    attribute? ⟨offset, name ++ rest⟩ =
      let c := skipBlanks ⟨offset + name.length, rest⟩
      c.rest.head?.bind fun next =>
        if next = Byte.equals then
          (c.advance 1).skipBlanks.attributeValue?.map fun (value, c') =>
            (⟨⟨offset, name⟩, some value⟩, c')
        else some (⟨⟨offset, name⟩, none⟩, c) := by
  obtain ⟨first, tail, rfl⟩ := List.exists_cons_of_ne_nil hne
  have htail : ∀ b ∈ tail, isAttributeNamePart b = true :=
    fun b hb => hname b (List.mem_cons_of_mem _ hb)
  have hrun : run isAttributeNamePart ⟨offset + 1, tail ++ rest⟩ = ⟨offset + 1, tail⟩ :=
    run_append htail hrest (offset + 1)
  simp only [attribute?, List.cons_append, List.head?_cons, Option.bind_eq_bind, Option.bind_some,
    advance, List.drop_succ_cons, List.drop_zero, hrun, List.length_cons, List.drop_left]
  rfl

/-- The value of an attribute is what stands between its quotes. -/
theorem attributeValue?_quoted {text : Bytes} (htext : Byte.doubleQuote ∉ text) :
    attributeValue? ⟨offset, Byte.doubleQuote :: (text ++ Byte.doubleQuote :: rest)⟩ =
      some (⟨offset + 1, text⟩, ⟨offset + 1 + text.length + 1, rest⟩) := by
  have hquote : ∀ b ∈ text, (b != Byte.doubleQuote) = true := by
    intro b hb
    rw [bne_iff_ne]
    rintro rfl
    exact htext hb
  have hstop : ∀ b ∈ (Byte.doubleQuote :: rest).head?, (b != Byte.doubleQuote) = false := by simp
  simp only [attributeValue?, List.head?_cons, Option.bind_eq_bind, Option.bind_some, true_or,
    if_true, advance, List.drop_succ_cons, List.drop_zero, run_append hquote hstop,
    skipWhile_append hquote hstop]
  rfl

end Cursor

/-! ## The attributes of a start tag -/

/-- The byte after a name in a start tag. -/
theorem head?_writtenEntries (entries : List Entry) (rest : Bytes) :
    ∀ b ∈ (literalText (writtenEntries entries) ++ Byte.greaterThan :: rest).head?,
      b = Byte.space ∨ b = Byte.greaterThan := by
  intro b hb
  cases entries with
  | nil => exact .inr (Option.some.inj hb).symm
  | cons e entries =>
    rw [literalText_writtenEntries_cons, literalText_written] at hb
    exact .inl (Option.some.inj hb).symm

/-- No blank and no mark of a tag is a part of the name of an attribute. -/
theorem isAttributeNamePart_iff {b : UInt8} : isAttributeNamePart b = true ↔
    Byte.isBlank b = false ∧ b ≠ Byte.slash ∧ b ≠ Byte.greaterThan ∧ b ≠ Byte.equals := by
  simp [isAttributeNamePart, isTagNamePart, and_assoc]

namespace Entry

variable {e : Entry}

theorem name_ne_nil (h : e.isWritable = true) : e.name ≠ [] := by
  simp only [isWritable, Bool.and_eq_true] at h
  simpa using h.1.1

theorem isAttributeNamePart_of_mem_name (h : e.isWritable = true) :
    ∀ b ∈ e.name, isAttributeNamePart b = true := by
  simp only [isWritable, Bool.and_eq_true] at h
  exact List.all_eq_true.1 h.1.2

/-- The name of an attribute starts with a part of a name. -/
theorem exists_first (h : e.isWritable = true) :
    ∃ first tail, e.name = first :: tail ∧ isAttributeNamePart first = true := by
  obtain ⟨first, tail, hname⟩ := List.exists_cons_of_ne_nil (name_ne_nil h)
  exact ⟨first, tail, hname, isAttributeNamePart_of_mem_name h first (by simp [hname])⟩

theorem isValue_of_mem (h : e.isWritable = true) : ∀ parts ∈ e.value, isValue parts = true := by
  simp only [isWritable, Bool.and_eq_true] at h
  exact (Option.all_eq_true _ _).1 h.2

end Entry

theorem doubleQuote_not_mem_of_isValue {parts : List ValuePart} (h : isValue parts = true) :
    Byte.doubleQuote ∉ literalText parts := by
  simp only [isValue, Bool.and_eq_true, Bool.not_eq_true'] at h
  simpa using h.2

namespace Cursor

variable {e : Entry}

/-- The name of an attribute stands after the space before it. -/
theorem skipBlanks_written (h : e.isWritable = true) (offset : Nat) (rest : Bytes) :
    skipBlanks ⟨offset, literalText e.written ++ rest⟩ =
      ⟨offset + 1, e.name ++ (e.valueText ++ rest)⟩ := by
  have hhead : ∀ b ∈ (e.name ++ (e.valueText ++ rest)).head?, Byte.isBlank b = false := by
    intro b hb
    obtain ⟨first, tail, hname, hfirst⟩ := Entry.exists_first h
    rw [hname] at hb
    obtain rfl : first = b := Option.some.inj hb
    exact (isAttributeNamePart_iff.1 hfirst).1
  have hspace : ∀ b ∈ [Byte.space], Byte.isBlank b = true := by
    intro b hb
    obtain rfl := List.mem_singleton.1 hb
    rfl
  have hskip := skipWhile_append hspace hhead offset
  rw [literalText_written]
  simpa [skipBlanks] using hskip

/-- After a bare attribute comes no `=`. -/
theorem exists_head?_skipBlanks_writtenEntries {entries : List Entry}
    (h : ∀ e ∈ entries, e.isWritable = true) (offset : Nat) (rest : Bytes) :
    ∃ b, (skipBlanks ⟨offset, literalText (writtenEntries entries) ++
      Byte.greaterThan :: rest⟩).rest.head? = some b ∧ b ≠ Byte.equals := by
  cases entries with
  | nil =>
    have hskip : skipBlanks ⟨offset, Byte.greaterThan :: rest⟩ =
        ⟨offset, Byte.greaterThan :: rest⟩ := skipBlanks_cons (by decide)
    exact ⟨Byte.greaterThan, congrArg (·.rest.head?) hskip, by decide⟩
  | cons e entries =>
    have he := h e (by simp)
    obtain ⟨first, tail, hname, hfirst⟩ := Entry.exists_first he
    refine ⟨first, ?_, (isAttributeNamePart_iff.1 hfirst).2.2.2⟩
    rw [literalText_writtenEntries_cons, List.append_assoc, skipBlanks_written he, hname]
    rfl

/-- An attribute is scanned as it is written. -/
theorem attribute?_written (h : e.isWritable = true) {offset : Nat} {rest : Bytes}
    (hrest : ∀ b ∈ rest.head?, b = Byte.space ∨ b = Byte.greaterThan)
    (hnext : ∃ b, (skipBlanks ⟨offset + e.length, rest⟩).rest.head? = some b ∧
      b ≠ Byte.equals) :
    ∃ c : Cursor, attribute? ⟨offset + 1, e.name ++ (e.valueText ++ rest)⟩ =
        some (e.scanned offset, c) ∧
      c.attributes? = attributes? ⟨offset + e.length, rest⟩ := by
  have hne := Entry.name_ne_nil h
  have hname := Entry.isAttributeNamePart_of_mem_name h
  have hvalue := Entry.isValue_of_mem h
  obtain ⟨name, value⟩ := e
  cases value with
  | none =>
    have hstop : ∀ b ∈ rest.head?, isAttributeNamePart b = false := by
      intro b hb
      rcases hrest b hb with rfl | rfl <;> decide
    have hplace : offset + 1 + name.length = offset + Entry.length ⟨name, none⟩ := by
      simp [Entry.length, Entry.valueText, Nat.add_assoc]
    -- The next byte is no `=`, so the attribute ends with its name.
    obtain ⟨b, hb, hequals⟩ := hnext
    refine ⟨skipBlanks ⟨offset + Entry.length ⟨name, none⟩, rest⟩, ?_, attributes?_skipBlanks _⟩
    have hscan := attribute?_append hne hname hstop (offset + 1)
    simp only [hplace, hb, Option.bind_some, hequals, if_false] at hscan
    exact hscan
  | some parts =>
    have hquote := doubleQuote_not_mem_of_isValue (hvalue parts rfl)
    have hstop : ∀ b ∈ (Byte.equals :: Byte.doubleQuote ::
        (literalText parts ++ Byte.doubleQuote :: rest)).head?, isAttributeNamePart b = false := by
      rintro b hb
      obtain rfl : Byte.equals = b := Option.some.inj hb
      decide
    -- There is no blank around the `=`.
    have hscan := attribute?_append hne hname hstop (offset + 1)
    rw [skipBlanks_cons (by decide)] at hscan
    simp only [List.head?_cons, Option.bind_some, if_true, advance, List.drop_succ_cons,
      List.drop_zero] at hscan
    rw [skipBlanks_cons (by decide), attributeValue?_quoted hquote] at hscan
    have hplace : offset + 1 + name.length + 1 + 1 + (literalText parts).length + 1 =
        offset + Entry.length ⟨name, some parts⟩ := by
      simp only [Entry.length, Entry.valueText, Option.elim_some, List.length_cons,
        List.length_append, List.length_nil]
      omega
    rw [hplace] at hscan
    refine ⟨⟨offset + Entry.length ⟨name, some parts⟩, rest⟩, ?_, rfl⟩
    simpa [Entry.valueText, Entry.scanned] using hscan

/-- The attributes of a start tag are scanned as they are written, up to the end of the tag. -/
theorem attributes?_written {entries : List Entry} (h : ∀ e ∈ entries, e.isWritable = true)
    (offset : Nat) (rest : Bytes) :
    attributes? ⟨offset, literalText (writtenEntries entries) ++ Byte.greaterThan :: rest⟩ =
      some (scannedEntries offset entries, false,
        ⟨offset + (literalText (writtenEntries entries)).length + 1, rest⟩) := by
  induction entries generalizing offset with
  | nil =>
    have hskip : skipBlanks ⟨offset, Byte.greaterThan :: rest⟩ =
        ⟨offset, Byte.greaterThan :: rest⟩ := skipBlanks_cons (by decide)
    have hend := attributes?_of_greaterThan (congrArg Cursor.rest hskip)
    rw [hskip] at hend
    exact hend
  | cons e entries ih =>
    have he := h e (by simp)
    have hentries : ∀ e ∈ entries, e.isWritable = true :=
      fun e he => h e (List.mem_cons_of_mem _ he)
    obtain ⟨c, hc, hattributes⟩ := attribute?_written he
      (head?_writtenEntries entries rest)
      (exists_head?_skipBlanks_writtenEntries hentries (offset + e.length) rest)
    have hskip := skipBlanks_written he offset
      (literalText (writtenEntries entries) ++ Byte.greaterThan :: rest)
    obtain ⟨first, tail, hname, hfirst⟩ := Entry.exists_first he
    obtain ⟨-, hslash, hgreater, -⟩ := isAttributeNamePart_iff.1 hfirst
    rw [literalText_writtenEntries_cons, List.append_assoc,
      attributes?_of_attribute (by rw [hskip, hname]; rfl) hgreater hslash (by rw [hskip, hc]),
      hattributes, ih hentries, List.length_append, length_written, ← Nat.add_assoc]
    rfl

end Cursor

/-! ## The tags of a fragment -/

/-- The text of a start tag. -/
def startTagText (name : Bytes) (entries : List Entry) : Bytes :=
  Byte.lessThan :: name ++ literalText (writtenEntries entries) ++ [Byte.greaterThan]

theorem isTagNamePart_of_mem_name {name : Bytes} (h : isTagName name = true) :
    ∀ b ∈ name, isTagNamePart b = true := by
  simp only [isTagName, Bool.and_eq_true] at h
  exact List.all_eq_true.1 h.2

/-- A tag name starts with a letter. -/
theorem exists_letter_of_isTagName {name : Bytes} (h : isTagName name = true) :
    ∃ first tail, name = first :: tail ∧ Byte.isLetter first = true := by
  simp only [isTagName, Bool.and_eq_true] at h
  cases name with
  | nil => simp at h
  | cons first tail => exact ⟨first, tail, rfl, by simpa using h.1⟩

namespace Cursor

variable {name : Bytes}

theorem markup?_of_startTag {c : Cursor} {a b : UInt8} {r : Bytes} (h : c.rest = a :: b :: r)
    (hexclamation : b ≠ Byte.exclamation) (hslash : b ≠ Byte.slash) : c.markup? = c.startTag? := by
  simp [markup?, h, hexclamation, hslash]

theorem markup?_of_endTag {c : Cursor} {a : UInt8} {r : Bytes} (h : c.rest = a :: Byte.slash :: r) :
    c.markup? = c.endTag? := by
  have hne : Byte.slash ≠ Byte.exclamation := by decide
  simp [markup?, h, hne]

/-- A start tag is scanned as it is written, whatever follows it. -/
theorem markup?_startTag (hname : isTagName name = true) {entries : List Entry}
    (h : ∀ e ∈ entries, e.isWritable = true) (rest : Bytes) :
    markup? (start (startTagText name entries ++ rest)) =
      some (.startTag ⟨1, name⟩ (scannedEntries (1 + name.length) entries) false,
        ⟨(startTagText name entries).length, rest⟩) := by
  obtain ⟨first, tail, rfl, hletter⟩ := exists_letter_of_isTagName hname
  have hexclamation : first ≠ Byte.exclamation := by
    rintro rfl
    exact absurd hletter (by decide)
  have hslash : first ≠ Byte.slash := by
    rintro rfl
    exact absurd hletter (by decide)
  have hstop : ∀ b ∈ (literalText (writtenEntries entries) ++ Byte.greaterThan :: rest).head?,
      isTagNamePart b = false := by
    intro b hb
    rcases head?_writtenEntries entries rest b hb with rfl | rfl <;> decide
  have hpart := isTagNamePart_of_mem_name hname
  have hinner : (start (startTagText (first :: tail) entries ++ rest)).advance 1 =
      ⟨1, first :: tail ++
        (literalText (writtenEntries entries) ++ Byte.greaterThan :: rest)⟩ := by
    simp [advance, start, startTagText]
  have hlength : 1 + (first :: tail).length + (literalText (writtenEntries entries)).length + 1 =
      (startTagText (first :: tail) entries).length := by
    simp only [startTagText, List.length_append, List.length_cons, List.length_nil]
    omega
  rw [markup?_of_startTag (by rfl) hexclamation hslash, startTag?, hinner,
    skipWhile_append hpart hstop, run_append hpart hstop, attributes?_written h, hlength]
  rfl

/-- An end tag is scanned as it is written, whatever follows it. -/
theorem markup?_endTag (hname : isTagName name = true) (rest : Bytes) :
    markup? (start (endTagText name ++ rest)) =
      some (.endTag ⟨2, name⟩, ⟨(endTagText name).length, rest⟩) := by
  have hstop : ∀ b ∈ (Byte.greaterThan :: rest).head?, isTagNamePart b = false := by
    intro b hb
    obtain rfl : Byte.greaterThan = b := Option.some.inj hb
    decide
  have hpart := isTagNamePart_of_mem_name hname
  have hinner : (start (endTagText name ++ rest)).advance 2 =
      ⟨2, name ++ Byte.greaterThan :: rest⟩ := by
    simp [advance, start, endTagText]
  have hclose : skipWhile (· != Byte.greaterThan) ⟨2 + name.length, Byte.greaterThan :: rest⟩ =
      ⟨2 + name.length, Byte.greaterThan :: rest⟩ :=
    skipWhile_append (s := []) (by simp) (by simp) (2 + name.length)
  have hlength : 2 + name.length + 1 = (endTagText name).length := by
    simp only [endTagText, List.length_cons, List.length_append, List.length_nil]
    omega
  rw [markup?_of_endTag (by rfl), endTag?, hinner, skipWhile_append hpart hstop,
    run_append hpart hstop, hclose, ← hlength]
  rfl

theorem startsMarkup_lessThan_name (hname : isTagName name = true) (rest : Bytes) :
    startsMarkup (Byte.lessThan :: (name ++ rest)) = true := by
  obtain ⟨first, tail, rfl, hletter⟩ := exists_letter_of_isTagName hname
  simp [startsMarkup, hletter]

theorem startsMarkup_endTagText (hname : isTagName name = true) (rest : Bytes) :
    startsMarkup (endTagText name ++ rest) = true := by
  obtain ⟨first, tail, rfl, hletter⟩ := exists_letter_of_isTagName hname
  simp [endTagText, startsMarkup, hletter]

theorem next?_startTag (hname : isTagName name = true) {entries : List Entry}
    (h : ∀ e ∈ entries, e.isWritable = true) (rest : Bytes) :
    (start (startTagText name entries ++ rest)).next? =
      some (⟨0, (startTagText name entries).length,
          .startTag ⟨1, name⟩ (scannedEntries (1 + name.length) entries) false⟩,
        ⟨(startTagText name entries).length, rest⟩) := by
  have hstarts : startsMarkup (start (startTagText name entries ++ rest)).rest = true := by
    rw [rest_start, startTagText, List.cons_append, List.cons_append, List.cons_append,
      List.append_assoc, List.append_assoc]
    exact startsMarkup_lessThan_name hname _
  rw [next?_of_startsMarkup hstarts, markup?_startTag hname h]
  rfl

theorem next?_endTag (hname : isTagName name = true) (rest : Bytes) :
    (start (endTagText name ++ rest)).next? =
      some (⟨0, (endTagText name).length, .endTag ⟨2, name⟩⟩,
        ⟨(endTagText name).length, rest⟩) := by
  rw [next?_of_startsMarkup (startsMarkup_endTagText hname rest), markup?_endTag hname]
  rfl

end Cursor

/-! ## Texts -/

theorem beforeMarkup_of_isPlain {text : Bytes} (h : isPlain text = true) :
    beforeMarkup text = text := by
  induction text with
  | nil => rfl
  | cons b rest ih =>
    simp only [isPlain, Bool.and_eq_true, Bool.not_eq_true'] at h
    rw [beforeMarkup, h.1, ih h.2]
    rfl

theorem startsMarkup_of_isPlain {text : Bytes} (h : isPlain text = true) :
    startsMarkup text = false := by
  cases text with
  | nil => rfl
  | cons b rest =>
    simp only [isPlain, Bool.and_eq_true, Bool.not_eq_true'] at h
    exact h.1

/-- Markup follows, or nothing. -/
def Opens (text : Bytes) : Prop := text = [] ∨ startsMarkup text = true

namespace Opens

variable {text more : Bytes}

theorem beforeMarkup_eq (h : Opens text) : beforeMarkup text = [] := by
  rcases h with rfl | h
  · rfl
  · exact beforeMarkup_of_startsMarkup h

/-- A text before markup may be cut off from it: markup starts with `<`. -/
theorem cutsCleanly (h : Opens more) (text : Bytes) : CutsCleanly text more := by
  rcases h with rfl | h
  · exact .nil text
  · match more, h with
    | a :: b :: rest, h =>
      simp only [startsMarkup, Bool.and_eq_true, beq_iff_eq] at h
      obtain ⟨rfl, -⟩ := h
      exact .lessThan text (b :: rest)

end Opens

/-- A text is scanned as it is written, up to the markup that follows it. -/
theorem Cursor.next?_text {text more : Bytes} (hne : text ≠ []) (htext : isPlain text = true)
    (hmore : Opens more) :
    (Cursor.start (text ++ more)).next? =
      some (⟨0, text.length, .text text⟩, ⟨text.length, more⟩) := by
  have hcut := hmore.cutsCleanly text
  have hbefore : beforeMarkup (text ++ more) = text := by
    rw [beforeMarkup_append hcut, if_pos (beforeMarkup_of_isPlain htext), hmore.beforeMarkup_eq,
      List.append_nil]
  have hstarts : startsMarkup (text ++ more) = false := by
    rw [hcut text List.suffix_rfl hne, startsMarkup_of_isPlain htext]
  rw [Cursor.next?_of_text (by simp [hne]) hstarts, Cursor.rest_start, hbefore]
  simp [Cursor.advance, Cursor.start]

/-! ## Values -/

/-- A text in front of a value makes a part of its own, unless it is empty. -/
theorem isAlternating_cons_literal {text : Bytes} {parts : List ValuePart}
    (h : isAlternating (.literal text :: parts) = true) :
    text ≠ [] ∧ isAlternating parts = true ∧ ∀ more, parts.head? ≠ some (.literal more) := by
  cases parts with
  | nil => simpa [isAlternating] using h
  | cons part parts =>
    cases part with
    | literal more => simp [isAlternating] at h
    | hole node => simpa [isAlternating] using h

/-- From each place on, the holes divide the text into the parts that were written. -/
theorem spliceFrom_placedFrom {value : Slice} {offset : Nat} {parts : List ValuePart}
    (hparts : isAlternating parts = true) (hoffset : value.offset ≤ offset)
    (hrest : value.text.drop (offset - value.offset) = literalText parts) :
    spliceFrom value offset (placedFrom offset parts) = parts := by
  induction parts generalizing offset with
  | nil =>
    have hend := List.drop_eq_nil_iff.1 hrest
    rw [placedFrom, spliceFrom, if_neg (by rw [Slice.stop]; omega)]
  | cons part parts ih =>
    cases part with
    | hole node =>
      have hafter := ih hparts hoffset hrest
      rw [placedFrom, spliceFrom]
      simp [hafter]
    | literal text =>
      obtain ⟨hne, hparts', hhead⟩ := isAlternating_cons_literal hparts
      have hpos := List.length_pos_iff.2 hne
      have hdrop : value.text.drop (offset + text.length - value.offset) = literalText parts := by
        rw [show offset + text.length - value.offset = (offset - value.offset) + text.length by
          omega, ← List.drop_drop, hrest, literalText, List.drop_left]
      have hafter := ih hparts' (by omega) hdrop
      cases parts with
      | nil =>
        have hlength := congrArg List.length hrest
        simp only [List.length_drop, literalText, List.append_nil] at hlength
        rw [placedFrom, placedFrom, spliceFrom, if_pos (by rw [Slice.stop]; omega), hrest,
          literalText, literalText, List.append_nil]
      | cons part parts =>
        cases part with
        | literal more => exact absurd rfl (hhead more)
        | hole node =>
          -- The text before the hole is what it was written after.
          rw [placedFrom, spliceFrom] at hafter
          simp only [Option.getD_some, Nat.lt_irrefl, if_false, List.nil_append] at hafter
          rw [placedFrom, placedFrom, spliceFrom]
          simp [hpos, hrest, literalText, hafter]

theorem placedFrom_eq_nil {offset : Nat} {parts : List ValuePart}
    (hparts : isAlternating parts = true) (hne : parts ≠ []) (h : placedFrom offset parts = []) :
    ∃ text, parts = [.literal text] := by
  cases parts with
  | nil => exact absurd rfl hne
  | cons part parts =>
    cases part with
    | hole node => simp [placedFrom] at h
    | literal text =>
      obtain ⟨-, -, hhead⟩ := isAlternating_cons_literal hparts
      cases parts with
      | nil => exact ⟨text, rfl⟩
      | cons part parts =>
        cases part with
        | literal more => exact absurd rfl (hhead more)
        | hole node => simp [placedFrom] at h

/-- The holes in a value divide its text into the parts that it was written with. -/
theorem splice_placedFrom {parts : List ValuePart} (h : isValue parts = true) (offset : Nat) :
    splice ⟨offset, literalText parts⟩ (placedFrom offset parts) = parts := by
  simp only [isValue, Bool.and_eq_true, Bool.or_eq_true, beq_iff_eq, Bool.not_eq_true'] at h
  rcases h.1 with rfl | ⟨hne, hparts⟩
  · rfl
  · rw [splice]
    split
    · next hempty =>
      obtain ⟨text, rfl⟩ := placedFrom_eq_nil hparts (by simpa using hne)
        (List.isEmpty_iff.1 hempty)
      simp [literalText]
    · exact spliceFrom_placedFrom hparts (Nat.le_refl _) (by simp)

end MarkupTemplate
