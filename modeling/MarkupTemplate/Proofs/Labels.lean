import MarkupTemplate.Proofs.Compilation
import MarkupTemplate.Proofs.Tiling

/-!
# Labels of compiled documents

Names come from tags, where every name ends at a blank, so a name stays on one line. Structuring
puts names into its messages, and it reports errors only. All this is kept step by step, since a
step adds nodes, children and diagnostics and takes nothing over from the text but names and texts.

## Main definitions

* `Bytes.IsLine`: a text that stays on one line
* `Diagnostic.Neat`, `Label.Neat`, `Document.Neat`: errors and names that stay on one line

## Main results

* `Cursor.neat_of_mem_tokens`: the names in a token stay on one line
* `Structuring.neat_take`: structuring keeps a document neat
* `neat_compileTemplate`: compiled documents are neat
-/

namespace MarkupTemplate

open Markup

/-! ## Texts on one line -/

/-- The text stays on one line. -/
def Bytes.IsLine (s : Bytes) : Prop := Byte.lineFeed ∉ s

instance (s : Bytes) : Decidable s.IsLine := inferInstanceAs (Decidable (Byte.lineFeed ∉ s))

theorem Bytes.isLine_append {s t : Bytes} : (s ++ t).IsLine ↔ s.IsLine ∧ t.IsLine := by
  simp [IsLine, not_or]

/-! ## Names in tokens -/

namespace Markup

/-- The names that a token holds stay on one line. -/
def Token.Neat (t : Token) : Prop :=
  match t.content with
  | .startTag name attributes _ => name.text.IsLine ∧ ∀ a ∈ attributes, a.name.text.IsLine
  | .endTag name => name.text.IsLine
  | .text _ | .comment _ => True

theorem isTagNamePart_lineFeed : isTagNamePart Byte.lineFeed = false := by decide

theorem isAttributeNamePart_lineFeed : isAttributeNamePart Byte.lineFeed = false := by decide

end Markup

namespace Cursor

variable {c c' : Cursor}

/-- A run of bytes that are no line feeds stays on one line. -/
theorem isLine_run {p : UInt8 → Bool} (hp : p Byte.lineFeed = false) (c : Cursor) :
    (c.run p).text.IsLine := by
  intro hmem
  have hp' : p Byte.lineFeed = true := List.all_eq_true.1 List.all_takeWhile _ hmem
  rw [hp] at hp'
  exact absurd hp' (by decide)

/-- An attribute that does not start with a line feed has a name on one line. -/
theorem isLine_of_attribute? {a : Attribute} (hfirst : ∀ b ∈ c.rest.head?, b ≠ Byte.lineFeed)
    (h : c.attribute? = some (a, c')) : a.name.text.IsLine := by
  simp only [attribute?, Option.bind_eq_bind, Option.bind_eq_some_iff] at h
  obtain ⟨first, hhead, next, -, h⟩ := h
  have hname : Bytes.IsLine (first :: ((c.advance 1).run isAttributeNamePart).text) := by
    intro hmem
    rcases List.mem_cons.1 hmem with he | hmem
    · exact hfirst first hhead he.symm
    · exact isLine_run isAttributeNamePart_lineFeed _ hmem
  split at h
  · obtain ⟨⟨v, d⟩, -, he⟩ := Option.map_eq_some_iff.1 h
    obtain ⟨rfl, -⟩ := Prod.mk.inj he
    exact hname
  · obtain ⟨rfl, -⟩ := Prod.mk.inj (Option.some.inj h)
    exact hname

/-- Blanks before an attribute are skipped, so no name starts with a line feed. -/
theorem isLine_of_attributes? {as : List Attribute} {selfClosing : Bool}
    (h : c.attributes? = some (as, selfClosing, c')) : ∀ a ∈ as, a.name.text.IsLine := by
  fun_induction attributes? c generalizing as selfClosing with
  | case1 | case3 | case6 => simp at h
  | case2 | case4 =>
    obtain ⟨rfl, -, -⟩ := by simpa using h
    simp
  | case5 _ _ _ _ _ _ _ ih => exact ih h
  | case7 c _ _ _ _ _ _ _ ha ih =>
    obtain ⟨⟨as', s', d⟩, h', he⟩ := Option.map_eq_some_iff.1 h
    simp only [Prod.mk.injEq] at he
    obtain ⟨rfl, -, rfl⟩ := he
    refine List.forall_mem_cons.2 ⟨isLine_of_attribute? (fun b hb => ?_) ha, ih h'⟩
    rintro rfl
    exact absurd (not_head?_skipWhile Byte.isBlank c Byte.lineFeed hb) (by decide)

/-- The names in a tag or comment stay on one line. -/
theorem neat_of_markup? {content : Content} (h : c.markup? = some (content, c'))
    (offset length : Nat) : Token.Neat ⟨offset, length, content⟩ := by
  unfold markup? at h
  split at h
  · split at h
    · obtain ⟨⟨data, d⟩, -, he⟩ := Option.map_eq_some_iff.1 h
      obtain ⟨rfl, -⟩ := Prod.mk.inj he
      trivial
    · split at h
      · obtain ⟨d, -, he⟩ := Option.map_eq_some_iff.1 h
        obtain ⟨rfl, -⟩ := Prod.mk.inj he
        exact isLine_run isTagNamePart_lineFeed _
      · obtain ⟨⟨as, s, d⟩, hd, he⟩ := Option.map_eq_some_iff.1 h
        obtain ⟨rfl, -⟩ := Prod.mk.inj he
        exact ⟨isLine_run isTagNamePart_lineFeed _, isLine_of_attributes? hd⟩
  · simp at h

/-- The names in the tokens of a text stay on one line. -/
theorem neat_of_mem_tokens {t : Token} (ht : t ∈ c.tokens.1) : t.Neat := by
  refine forall_mem_tokens (fun c t c' h => ?_) t ht
  obtain ⟨-, content, hd, rfl⟩ | ⟨-, -, rfl, -⟩ := next?_cases h
  · exact neat_of_markup? hd _ _
  · trivial

end Cursor

/-! ## Neat documents -/

/-- The diagnostic is an error that is told on one line. -/
structure Diagnostic.Neat (g : Diagnostic) : Prop where
  isError : g.isWarning = false
  code : g.code.IsLine
  message : g.message.IsLine

theorem Diagnostic.neat_mismatchedClosingTag {found expected : Bytes} (hfound : found.IsLine)
    (hexpected : expected.IsLine) (span : Option Span) :
    (mismatchedClosingTag found expected span).Neat := by
  have hcode : (utf8 "STENCIL-E2001").IsLine := by decide
  refine ⟨rfl, hcode, ?_⟩
  simp only [mismatchedClosingTag, Bytes.isLine_append]
  exact ⟨⟨⟨⟨by decide, hfound⟩, by decide⟩, hexpected⟩, by decide⟩

theorem Diagnostic.neat_unexpectedClosingTag {name : Bytes} (hname : name.IsLine)
    (span : Option Span) : (unexpectedClosingTag name span).Neat := by
  have hcode : (utf8 "STENCIL-E2003").IsLine := by decide
  refine ⟨rfl, hcode, ?_⟩
  simp only [unexpectedClosingTag, Bytes.isLine_append]
  exact ⟨⟨by decide, hname⟩, by decide⟩

/-- The names of a node stay on one line, and what is wrong with it is told in errors of one line.
-/
structure Label.Neat (l : Label) : Prop where
  name : l.name.IsLine
  descriptors : ∀ s ∈ l.descriptors, Bytes.IsLine s
  diagnostics : ∀ g ∈ l.diagnostics, g.Neat

/-- A label that names nothing and reports nothing. -/
theorem Label.neat_of_name_eq_nil {l : Label} (hname : l.name = [])
    (hdescriptors : l.descriptors = []) (hdiagnostics : l.diagnostics = []) : l.Neat := by
  refine ⟨?_, ?_, ?_⟩
  · rw [hname]
    exact List.not_mem_nil
  · simp [hdescriptors]
  · simp [hdiagnostics]

namespace Document

variable {d : Document}

/-- All labels of the document are neat. -/
def Neat (d : Document) : Prop := ∀ id, (d.label id).Neat

namespace Neat

theorem add (h : d.Neat) {n : Node} (hn : n.toLabel.Neat) : (d.add n).Neat := by
  intro id
  rcases Nat.lt_trichotomy id d.size with hlt | rfl | hlt
  · rw [label_add_of_lt n hlt]
    exact h id
  · rw [label_add_size]
    exact hn
  · rw [label, node_of_size_le _ (by rw [size_add]; exact hlt)]
    exact Label.neat_of_name_eq_nil rfl rfl rfl

theorem appendChild (h : d.Neat) (parent child : NodeId) : (d.appendChild parent child).Neat :=
  fun id => by
    rw [label_appendChild]
    exact h id

theorem setChildren (h : d.Neat) (parent : NodeId) (ids : List NodeId) :
    (d.setChildren parent ids).Neat := fun id => by
  rw [label_setChildren]
  exact h id

theorem addDiagnostic (h : d.Neat) (id : NodeId) {g : Diagnostic} (hg : g.Neat) :
    (d.addDiagnostic id g).Neat := by
  intro id'
  rcases Nat.lt_or_ge id d.size with hlt | hge
  · rw [label_addDiagnostic g hlt]
    split
    · refine ⟨(h id).name, (h id).descriptors, fun g' hg' => ?_⟩
      rcases List.mem_append.1 hg' with hg' | hg'
      · exact (h id).diagnostics g' hg'
      · exact List.mem_singleton.1 hg' ▸ hg
    · exact h id'
  · rw [label, Document.addDiagnostic, node_modify_of_size_le hge]
    exact h id'

/-- What is wrong with a neat document is told in errors of one line. -/
theorem diagnostics_unfold (h : d.Neat) (depth : Nat) (ids : List NodeId) :
    ∀ g ∈ (d.unfold depth ids).diagnostics, g.Neat := by
  induction depth generalizing ids with
  | zero => simp [unfold, Forest.diagnostics]
  | succ depth ihd =>
    induction ids with
    | nil => simp [Forest.diagnostics]
    | cons id ids ihs =>
      simp only [unfold_cons, Forest.diagnostics, List.mem_append]
      rintro g (hg | hg | hg)
      · exact (h id).diagnostics g hg
      · exact ihd _ g hg
      · exact ihs g hg

end Neat

end Document

/-! ## Structuring keeps documents neat -/

namespace Structuring

variable {container : NodeId} {s : Structuring}

theorem neat_release (h : s.document.Neat) (p : Hole → Bool) :
    (s.release container p).document.Neat :=
  List.foldlRecOn (motive := fun s : Structuring => s.document.Neat) _ _ h
    fun _ h _ _ => h.appendChild _ _

theorem neat_addPart {d : Document} (h : d.Neat) (value : NodeId) (part : ValuePart) :
    (addPart value d part).Neat := by
  cases part with
  | literal text => exact (h.add (Label.neat_of_name_eq_nil rfl rfl rfl)).appendChild _ _
  | hole node => exact h.appendChild _ _

theorem neat_attach (h : s.document.Neat) (element : NodeId) {a : Attribute}
    (ha : a.name.text.IsLine) : (s.attach element a).document.Neat := by
  have hadd : (s.document.addAttribute a.name.text).1.Neat :=
    (h.add ⟨ha, by simp, by simp⟩).add (Label.neat_of_name_eq_nil rfl rfl rfl)
  exact Document.Neat.appendChild (List.foldlRecOn _ _ hadd fun _ h part _ =>
    neat_addPart h _ part) _ _

theorem neat_openElement (container : NodeId) (h : s.document.Neat) (span : Option Span)
    {name : Bytes} (hname : name.IsLine) {attributes : List Attribute}
    (hattributes : ∀ a ∈ attributes, a.name.text.IsLine) :
    (s.openElement container span name attributes).document.Neat := by
  refine neat_release (List.foldlRecOn (motive := fun s : Structuring => s.document.Neat) _ _ ?_
    fun _ h a ha => neat_attach h _ (hattributes a ha)) _
  exact ((neat_release h _).add ⟨hname, by simp, by simp⟩).appendChild _ _

theorem neat_closeElement (h : s.document.Neat) {name : Bytes} (hname : name.IsLine) :
    (s.closeElement container name).document.Neat := by
  unfold closeElement
  split
  · exact h.addDiagnostic _ (Diagnostic.neat_unexpectedClosingTag hname _)
  · next element _ _ =>
    dsimp only
    split
    · exact h
    · exact h.addDiagnostic _ (Diagnostic.neat_mismatchedClosingTag hname (h element).name _)

theorem neat_addText (h : s.document.Neat) (data : Bytes) :
    (s.addText container data).document.Neat := by
  unfold addText
  split
  · exact h
  · exact (h.add (Label.neat_of_name_eq_nil rfl rfl rfl)).appendChild _ _

theorem neat_apply (h : s.document.Neat) (span : Option Span) {t : Token} (ht : t.Neat) :
    (s.apply container span t).document.Neat := by
  obtain ⟨offset, length, content⟩ := t
  cases content with
  | startTag name attributes selfClosing =>
    have hopen := neat_openElement container h span ht.1 ht.2
    simp only [apply]
    split
    · exact neat_closeElement hopen ht.1
    · exact hopen
  | endTag name => exact neat_closeElement (neat_release h _) ht
  | text data => exact neat_addText (neat_release h _) data
  | comment data => exact neat_release h _

theorem neat_takeMarkup (h : s.document.Neat) (markup : NodeId) :
    (s.takeMarkup container markup).document.Neat := by
  have hall := List.foldlRecOn (motive := fun s : Structuring => s.document.Neat)
    (scan (s.carried ++ (s.document.label markup).text)).tokens
    (apply container (s.document.label markup).span) h
    fun _ h t ht => neat_apply h _ (Cursor.neat_of_mem_tokens ht)
  simp only [takeMarkup]
  split
  · exact hall
  · exact hall

/-- The next child of a container leaves the document neat. -/
theorem neat_take (h : s.document.Neat) (child : NodeId) :
    (s.take container child).document.Neat := by
  unfold take
  split
  · exact neat_takeMarkup h child
  · exact h
  · split
    · exact h.appendChild _ _
    · exact h

end Structuring

namespace Document

variable {d : Document}

theorem Neat.structureChildren (h : d.Neat) (container : NodeId) :
    (d.structureChildren container).document.Neat :=
  List.foldlRecOn (motive := fun s : Structuring => s.document.Neat) _ _
    (h.setChildren container []) fun _ h child _ => Structuring.neat_take h child

/-- A flat document stays neat when it is structured. -/
theorem Flat.neat_structured (hflat : d.Flat) (h : d.Neat) : d.structured.document.Neat := by
  rw [hflat.structured_eq]
  split
  · exact h.structureChildren root
  · exact h

end Document

/-! ## Compiling -/

/-- The nodes of a template name nothing and report nothing. -/
theorem neat_readTemplate (source name : Bytes) : (readTemplate source name).document.Neat := by
  have hsegment : ∀ s : Segment, (s.node source).toLabel.Neat := by
    intro s
    unfold Segment.node
    split <;> exact Label.neat_of_name_eq_nil rfl rfl rfl
  refine List.foldlRecOn (motive := Document.Neat) _ _ (fun id => ?_)
    fun _ h s _ => (h.add (hsegment s)).appendChild _ _
  cases id with
  | zero => exact Label.neat_of_name_eq_nil rfl rfl rfl
  | succ id =>
    rw [Document.label, Document.node_of_size_le _ (Nat.succ_le_succ (Nat.zero_le id))]
    exact Label.neat_of_name_eq_nil rfl rfl rfl

/-- In a compiled document names stay on one line, and so does what is reported. -/
theorem neat_compileTemplate (source name : Bytes) (components : Components) (verify : Bool) :
    (compileTemplate source name components verify).document.Neat := by
  rw [compileTemplate_eq]
  exact (flat_readTemplate source name).neat_structured (neat_readTemplate source name)

/-- Whatever is wrong with a template is an error. -/
theorem isWarning_of_mem_diagnostics {source name : Bytes} {components : Components} {verify : Bool}
    {g : Diagnostic} (hg : g ∈ (compileTemplate source name components verify).diagnostics) :
    g.isWarning = false := by
  have hneat := neat_compileTemplate source name components verify
  rw [compileTemplate_eq] at hg hneat
  rcases List.mem_append.1 hg with hg | hg
  · -- The reader reports constructs without their end, which are errors.
    obtain ⟨found, -, rfl⟩ := List.mem_map.1 hg
    rfl
  · split at hg
    · exact (hneat.diagnostics_unfold _ _ g hg).isError
    · simp at hg

end MarkupTemplate
