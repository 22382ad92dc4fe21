import MarkupTemplate.Proofs.AttributeOrder

/-!
# What structuring leaves as it is

While the children of a container are taken, every node that is there keeps what it says. Of the
nodes that were there at some moment, only the container and the elements get further children from
then on; these come behind the others, and none of them is an attribute. So an attribute that was
made for a tag is finished with the tag, and so are the attributes of an element.

## Main definitions

* `Label.undiagnosed`: what a label says, apart from what is wrong with the node
* `Document.Grows`: the first nodes of a document stay, apart from further children
* `Structuring.Regular`: a state that structuring a container comes to

## Main results

* `Structuring.Regular.grows_apply`, `Structuring.Regular.grows_take`: tokens and children only let
  the document grow
* `Structuring.Regular.grows_foldl_take`: the same for all children that are left
-/

namespace MarkupTemplate

open Markup

/-- What a label says, apart from what is wrong with the node. -/
def Label.undiagnosed (l : Label) : Label := { l with diagnostics := [] }

@[simp] theorem Label.undiagnosed_kind (l : Label) : l.undiagnosed.kind = l.kind := rfl

@[simp] theorem Label.undiagnosed_name (l : Label) : l.undiagnosed.name = l.name := rfl

@[simp] theorem Label.undiagnosed_span (l : Label) : l.undiagnosed.span = l.span := rfl

@[simp] theorem Label.undiagnosed_text (l : Label) : l.undiagnosed.text = l.text := rfl

namespace Document

variable {n : Nat} {container parent child : NodeId} {d d₁ d₂ : Document}

/-- The document `d₁` has all nodes of `d`, with what they say. Of the first `n` nodes only the
container and the elements have further children, which come last and are no attributes. -/
structure Grows (n : Nat) (container : NodeId) (d d₁ : Document) : Prop where
  le : n ≤ d.size
  size_le : d.size ≤ d₁.size
  label : ∀ id < d.size, (d₁.label id).undiagnosed = (d.label id).undiagnosed
  children : ∀ id < n, ∃ more, d₁.children id = d.children id ++ more ∧
    (∀ child ∈ more, child < d₁.size ∧ d₁.kind child ≠ .attribute) ∧
      (id ≠ container → d.kind id ≠ .element → more = [])

theorem label_kind (d : Document) (id : NodeId) : (d.label id).kind = d.kind id := rfl

theorem kind_appendChild (id : NodeId) : (d.appendChild parent child).kind id = d.kind id := by
  rw [← label_kind, label_appendChild, label_kind]

namespace Grows

theorem kind_eq (h : Grows n container d d₁) {id : NodeId} (hid : id < d.size) :
    d₁.kind id = d.kind id := by
  simpa [label_kind] using congrArg Label.kind (h.label id hid)

theorem name_eq (h : Grows n container d d₁) {id : NodeId} (hid : id < d.size) :
    (d₁.label id).name = (d.label id).name := by
  simpa using congrArg Label.name (h.label id hid)

theorem text_eq (h : Grows n container d d₁) {id : NodeId} (hid : id < d.size) :
    (d₁.label id).text = (d.label id).text := by
  simpa using congrArg Label.text (h.label id hid)

/-- A node that is neither the container nor an element keeps its children. -/
theorem children_eq (h : Grows n container d d₁) {id : NodeId} (hid : id < n)
    (hne : id ≠ container) (hkind : d.kind id ≠ .element) : d₁.children id = d.children id := by
  obtain ⟨more, hmore, -, hnil⟩ := h.children id hid
  rw [hmore, hnil hne hkind, List.append_nil]

theorem refl (h : n ≤ d.size) : Grows n container d d :=
  ⟨h, Nat.le_refl _, fun _ _ => rfl, fun _ _ => ⟨[], by simp, by simp, fun _ _ => rfl⟩⟩

theorem trans (h : Grows n container d d₁) (h' : Grows n container d₁ d₂) :
    Grows n container d d₂ := by
  refine ⟨h.le, Nat.le_trans h.size_le h'.size_le, fun id hid => ?_, fun id hid => ?_⟩
  · rw [h'.label id (Nat.lt_of_lt_of_le hid h.size_le), h.label id hid]
  · obtain ⟨more, hchildren, hkinds, hnil⟩ := h.children id hid
    obtain ⟨more', hchildren', hkinds', hnil'⟩ := h'.children id hid
    refine ⟨more ++ more', by rw [hchildren', hchildren, List.append_assoc], ?_, ?_⟩
    · intro child hchild
      rcases List.mem_append.1 hchild with hchild | hchild
      · obtain ⟨hlt, hkind⟩ := hkinds child hchild
        exact ⟨Nat.lt_of_lt_of_le hlt h'.size_le, by rwa [h'.kind_eq hlt]⟩
      · exact hkinds' child hchild
    · intro hne hkind
      have hkind' : d₁.kind id ≠ .element := by rwa [h.kind_eq (Nat.lt_of_lt_of_le hid h.le)]
      rw [hnil hne hkind, hnil' hne hkind', List.append_nil]

/-- A change of no label and of no children of the first nodes. -/
theorem of_same (h : n ≤ d.size) (hsize : d.size ≤ d₁.size)
    (hlabel : ∀ id < d.size, (d₁.label id).undiagnosed = (d.label id).undiagnosed)
    (hchildren : ∀ id < n, d₁.children id = d.children id) : Grows n container d d₁ :=
  ⟨h, hsize, hlabel, fun id hid => ⟨[], by simp [hchildren id hid], by simp, fun _ _ => rfl⟩⟩

protected theorem add (h : n ≤ d.size) (node : Node) : Grows n container d (d.add node) :=
  of_same h (by simp) (fun _ hid => by rw [label_add_of_lt node hid])
    fun _ hid => children_add_of_lt node (Nat.lt_of_lt_of_le hid h)

protected theorem addDiagnostic (h : n ≤ d.size) (id : NodeId) (g : Diagnostic) :
    Grows n container d (d.addDiagnostic id g) := by
  refine of_same h (by simp) (fun id' _ => ?_) fun _ _ => children_addDiagnostic ..
  rcases Nat.lt_or_ge id d.size with hid | hid
  · rw [label_addDiagnostic g hid]
    split
    · next he => rw [he]; rfl
    · rfl
  · have hsame : (d.addDiagnostic id g).node id' = d.node id' := node_modify_of_size_le hid id'
    rw [label_eq_of_node_eq hsame]

/-- A further child under a node that came later, whatever the child is. -/
theorem appendChild_of_le (h : n ≤ d.size) (hparent : n ≤ parent) (child : NodeId) :
    Grows n container d (d.appendChild parent child) :=
  of_same h (by simp) (fun _ _ => by rw [label_appendChild])
    fun _ hid => children_appendChild_of_ne (Nat.ne_of_lt (Nat.lt_of_lt_of_le hid hparent))

/-- A further child that is no attribute, under the container or an element. -/
protected theorem appendChild (h : n ≤ d.size)
    (hparent : parent = container ∨ d.kind parent = .element) (hchild : child < d.size)
    (hkind : d.kind child ≠ .attribute) : Grows n container d (d.appendChild parent child) := by
  refine ⟨h, by simp, fun _ _ => by rw [label_appendChild], fun id hid => ?_⟩
  by_cases he : id = parent
  · subst he
    refine ⟨[child], ?_, ?_, fun hne hkind' => ?_⟩
    · rw [children_appendChild (Nat.lt_of_lt_of_le hid h), if_pos rfl]
    · rw [List.forall_mem_singleton, size_appendChild]
      exact ⟨hchild, by rwa [kind_appendChild]⟩
    · exact absurd (hparent.resolve_left hne) hkind'
  · exact ⟨[], by simp [children_appendChild_of_ne he], by simp, fun _ _ => rfl⟩

/-- Further children under one node. -/
theorem foldl_appendChild {ids : List NodeId} (h : n ≤ d.size)
    (hids : n ≤ parent ∨ (parent = container ∨ d.kind parent = .element) ∧
      ∀ id ∈ ids, id < d.size ∧ d.kind id ≠ .attribute) :
    Grows n container d (ids.foldl (fun d id => d.appendChild parent id) d) := by
  induction ids generalizing d with
  | nil => exact refl h
  | cons id ids ih =>
    have hfirst : Grows n container d (d.appendChild parent id) := by
      rcases hids with hle | ⟨hparent, hids⟩
      · exact appendChild_of_le h hle id
      · obtain ⟨hlt, hkind⟩ := hids id List.mem_cons_self
        exact .appendChild h hparent hlt hkind
    refine hfirst.trans (ih (by simpa using h) (hids.imp_right ?_))
    simp only [kind_appendChild, size_appendChild]
    exact fun h => ⟨h.1, fun id hid => h.2 id (List.mem_cons_of_mem _ hid)⟩

end Grows

end Document

namespace Structuring

variable {d : Document} {n : Nat} {container : NodeId} {s : Structuring}

/-! ## The states of structuring -/

/-- A state that structuring a container comes to: it says what an assembly says in which every node
is accounted for and the attributes come first. -/
def Regular (d : Document) (container : NodeId) (s : Structuring) : Prop :=
  ∃ (arrived : List NodeId) (a : Assembly),
    Mirrors d container s a ∧ a.Accounted d.size arrived ∧ a.Ordered d.kind d.size

namespace Regular

theorem start (hcontainer : container < d.size) :
    Regular d container { document := d.setChildren container [] } :=
  ⟨[], { next := d.size }, Document.mirrors_start hcontainer, .start _, .start _ _⟩

theorem apply (h : Regular d container s) (hcontainer : container < d.size) (span : Option Span)
    (t : Token) : Regular d container (s.apply container span t) := by
  obtain ⟨arrived, a, hmirrors, haccount, hordered⟩ := h
  exact ⟨arrived, a.apply t, hmirrors.apply hcontainer haccount span t, haccount.apply t,
    hordered.apply haccount t⟩

theorem foldl_apply (h : Regular d container s) (hcontainer : container < d.size)
    (span : Option Span) (ts : List Token) :
    Regular d container (ts.foldl (Structuring.apply container span) s) :=
  List.foldlRecOn (motive := Regular d container) _ _ h fun _ hs t _ => hs.apply hcontainer span t

theorem take (h : Regular d container s) (hcontainer : container < d.size) {child : NodeId}
    (hchild : child < d.size) : Regular d container (s.take container child) := by
  obtain ⟨arrived, a, hmirrors, haccount, hordered⟩ := h
  have hitem : ∀ id ∈ (d.item child).node?, id < d.size := fun id hid =>
    Document.node?_item_eq hid ▸ hchild
  exact ⟨_, a.take (d.item child), hmirrors.take hcontainer haccount hchild, haccount.take hitem,
    hordered.take haccount hitem (d.sorted_item child)⟩

theorem size_le (h : Regular d container s) : d.size ≤ s.document.size := by
  obtain ⟨-, a, hmirrors, -, -⟩ := h
  exact hmirrors.stored.le

/-- The nodes that were there before keep their kinds. -/
theorem kind_eq (h : Regular d container s) {id : NodeId} (hid : id < d.size) :
    s.document.kind id = d.kind id := by
  obtain ⟨-, a, hmirrors, -, -⟩ := h
  by_cases he : id = container
  · subst he
    simpa [Document.label_kind] using congrArg Label.kind hmirrors.stored.label
  · rw [← Document.label_kind, ← Document.label_kind,
      Document.label_eq_of_node_eq (hmirrors.stored.kept id hid he)]

/-- Further children come under the container or under an element. -/
theorem kind_top (h : Regular d container s) :
    s.top container = container ∨ s.document.kind (s.top container) = .element := by
  obtain ⟨-, a, hmirrors, -, hordered⟩ := h
  rw [hmirrors.top_eq]
  cases hpath : a.path with
  | nil => exact .inl (by simp [Assembly.top, Document.pathTop, hpath])
  | cons branch path =>
    refine .inr ?_
    have hholds := hmirrors.stored.path
    rw [hpath] at hholds
    have hkind := congrArg Label.kind hholds.1.1
    rw [Label.plain_kind, Document.label_kind, hordered.path branch (by simp [hpath])] at hkind
    simpa [Assembly.top, Document.pathTop, hpath] using hkind

/-- The holes that wait were there before, and those in the text of a tag are no attributes. -/
theorem waiting (h : Regular d container s) : ∀ hole ∈ s.waiting,
    hole.node < d.size ∧ (hole.isPositional = true ↔ d.kind hole.node ≠ .attribute) := by
  obtain ⟨_, a, hmirrors, haccount, hordered⟩ := h
  intro hole hmem
  rw [hmirrors.waiting] at hmem
  exact ⟨haccount.waiting_lt hole hmem, hordered.waiting hole hmem⟩

end Regular

/-! ## Steps that let the document grow -/

/-- A new element is open and has no children yet. -/
def enter (container : NodeId) (span : Option Span) (name : Bytes) (s : Structuring) :
    Structuring :=
  { s with
    document := (Document.under (s.top container)
      (s.document.addNode { kind := .element, name := name, span := span })).1
    openElements := s.document.size :: s.openElements }

theorem openElement_eq (span : Option Span) (name : Bytes) (attributes : List Attribute)
    (s : Structuring) :
    s.openElement container span name attributes =
      let s' := s.release container (Assembly.isBetween attributes)
      (attributes.foldl (Structuring.attach s'.document.size)
        (s'.enter container span name)).release container fun _ => true := rfl

/-- Holes that go under the innermost open element go there one after another. -/
theorem document_foldl_append (holes : List Hole) (s : Structuring) :
    (holes.foldl (fun s hole => s.append container hole.node) s).document =
      (holes.map Hole.node).foldl (fun d id => d.appendChild (s.top container) id) s.document := by
  induction holes generalizing s with
  | nil => rfl
  | cons hole holes ih => exact ih (s.append container hole.node)

theorem grows_addPart {d : Document} (h : n ≤ d.size) {value : NodeId} (hvalue : n ≤ value)
    (part : ValuePart) : d.Grows n container (addPart value d part) := by
  cases part with
  | literal text =>
    exact (Document.Grows.add h _).trans (.appendChild_of_le (by simp; omega) hvalue _)
  | hole node => exact .appendChild_of_le h hvalue node

/-- An attribute under a node that came later. -/
theorem grows_attach (h : n ≤ s.document.size) {element : NodeId} (helement : n ≤ element)
    (entry : Attribute) :
    s.document.Grows n container (s.attach element entry).document := by
  have hadd : s.document.Grows n container (s.document.addAttribute entry.name.text).1 :=
    (Document.Grows.add h _).trans (.add (by simp; omega) _)
  have hparts : s.document.Grows n container
      ((entry.parts (s.waiting.filter (·.isIn entry))).foldl (addPart (s.document.size + 1))
        (s.document.addAttribute entry.name.text).1) := by
    refine List.foldlRecOn (motive := fun d' => s.document.Grows n container d') _ _ hadd ?_
    exact fun d' hd' part _ =>
      hd'.trans (grows_addPart (Nat.le_trans h hd'.size_le) (Nat.le_succ_of_le h) part)
  exact hparts.trans (.appendChild_of_le (Nat.le_trans h hparts.size_le) helement _)

theorem openElements_foldl_attach (element : NodeId) (entries : List Attribute)
    (s : Structuring) :
    (entries.foldl (Structuring.attach element) s).openElements = s.openElements := by
  induction entries generalizing s with
  | nil => rfl
  | cons entry entries ih => exact ih (s.attach element entry)

theorem grows_foldl_attach (h : n ≤ s.document.size) {element : NodeId} (helement : n ≤ element)
    (entries : List Attribute) :
    s.document.Grows n container (entries.foldl (Structuring.attach element) s).document :=
  List.foldlRecOn (motive := fun s' : Structuring => s.document.Grows n container s'.document) _ _
    (.refl h) fun _ hs' entry _ =>
      hs'.trans (grows_attach (Nat.le_trans h hs'.size_le) helement entry)

theorem grows_closeElement (h : n ≤ s.document.size) (name : Bytes) :
    s.document.Grows n container (s.closeElement container name).document := by
  unfold closeElement
  split
  · exact .addDiagnostic h _ _
  · dsimp only
    split
    · exact .refl h
    · exact .addDiagnostic h _ _

namespace Regular

theorem top_lt (h : Regular d container s) (hcontainer : container < d.size) :
    s.top container < s.document.size := by
  obtain ⟨_, a, hmirrors, haccount, -⟩ := h
  rw [hmirrors.top_eq]
  exact hmirrors.stored.top_lt hcontainer haccount.fresh

theorem release (h : Regular d container s) (hcontainer : container < d.size) {p : Hole → Bool}
    (hp : ∀ hole, p hole → hole.isPositional) : Regular d container (s.release container p) := by
  obtain ⟨arrived, a, hmirrors, haccount, hordered⟩ := h
  exact ⟨arrived, a.release p, hmirrors.release hcontainer haccount p, haccount.release p,
    hordered.release haccount hp⟩

/-- Holes in the text of a tag go under the innermost open element. -/
theorem grows_release (hs : Regular d container s) (h : n ≤ s.document.size) {p : Hole → Bool}
    (hp : ∀ hole, p hole → hole.isPositional) :
    s.document.Grows n container (s.release container p).document := by
  rw [Structuring.release, document_foldl_append]
  refine .foldl_appendChild h (.inr ⟨hs.kind_top, ?_⟩)
  simp only [List.mem_map, List.mem_filter]
  rintro id ⟨hole, ⟨hmem, hpositional⟩, rfl⟩
  obtain ⟨hlt, hkind⟩ := hs.waiting hole hmem
  refine ⟨Nat.lt_of_lt_of_le hlt hs.size_le, ?_⟩
  rw [hs.kind_eq hlt]
  exact hkind.1 (hp hole hpositional)

/-- A new node that is no attribute, under the innermost open element. -/
theorem grows_add (hs : Regular d container s) (hcontainer : container < d.size)
    (h : n ≤ s.document.size) {node : Node} (hkind : node.kind ≠ .attribute) :
    s.document.Grows n container
      ((s.document.add node).appendChild (s.top container) s.document.size) := by
  have hadd : s.document.Grows n container (s.document.add node) := .add h node
  refine hadd.trans (.appendChild (Nat.le_trans h hadd.size_le) ?_ (by simp) ?_)
  · rw [hadd.kind_eq (hs.top_lt hcontainer)]
    exact hs.kind_top
  · rwa [Document.kind, Document.node_add_size]

/-- A start tag adds to the nodes that are there one element, and before it the holes between the
attributes. -/
theorem grows_openElement (hs : Regular d container s) (hcontainer : container < d.size)
    (h : n ≤ s.document.size) (span : Option Span) (name : Bytes) (attributes : List Attribute) :
    s.document.Grows n container (s.openElement container span name attributes).document := by
  have hp : ∀ hole, Assembly.isBetween attributes hole → hole.isPositional :=
    fun hole hbetween => (Bool.and_eq_true _ _ ▸ hbetween).1
  have hrelease := hs.grows_release h hp
  have hle := Nat.le_trans h hrelease.size_le
  have henter : s.document.Grows n container ((s.release container
      (Assembly.isBetween attributes)).enter container span name).document :=
    hrelease.trans ((hs.release hcontainer hp).grows_add hcontainer hle (by simp))
  have hattach := henter.trans (grows_foldl_attach (Nat.le_trans h henter.size_le) hle attributes)
  -- Under the element itself everything is new.
  rw [openElement_eq, Structuring.release, document_foldl_append]
  refine hattach.trans (.foldl_appendChild (Nat.le_trans h hattach.size_le) (.inl ?_))
  rw [top, openElements_foldl_attach]
  exact hle

theorem grows_addText (hs : Regular d container s) (hcontainer : container < d.size)
    (h : n ≤ s.document.size) (data : Bytes) :
    s.document.Grows n container (s.addText container data).document := by
  unfold addText
  split
  · exact .refl h
  · have hkind : ({ kind := .markup, fragments := [data] } : Node).kind ≠ .attribute := by simp
    exact hs.grows_add hcontainer h hkind

/-- A token lets the document grow. -/
theorem grows_apply (hs : Regular d container s) (hcontainer : container < d.size)
    (h : n ≤ s.document.size) (span : Option Span) (t : Token) :
    s.document.Grows n container (s.apply container span t).document := by
  have hrelease := hs.grows_release h (p := Hole.isPositional) fun _ hole => hole
  have hs' := hs.release hcontainer (p := Hole.isPositional) fun _ hole => hole
  have hle := Nat.le_trans h hrelease.size_le
  obtain ⟨offset, length, content⟩ := t
  cases content with
  | startTag name attributes selfClosing =>
    have hopen := hs.grows_openElement hcontainer h span name.text attributes
    simp only [Structuring.apply]
    split
    · exact hopen.trans (grows_closeElement (Nat.le_trans h hopen.size_le) name.text)
    · exact hopen
  | endTag name => exact hrelease.trans (grows_closeElement hle name.text)
  | text data => exact hrelease.trans (hs'.grows_addText hcontainer hle data)
  | comment data => exact hrelease

theorem grows_foldl_apply (hs : Regular d container s) (hcontainer : container < d.size)
    (h : n ≤ s.document.size) (span : Option Span) (ts : List Token) :
    s.document.Grows n container (ts.foldl (Structuring.apply container span) s).document := by
  induction ts generalizing s with
  | nil => exact .refl h
  | cons t ts ih =>
    have hfirst := hs.grows_apply hcontainer h span t
    exact hfirst.trans (ih (hs.apply hcontainer span t) (Nat.le_trans h hfirst.size_le))

/-- The next child lets the document grow. -/
theorem grows_take (hs : Regular d container s) (hcontainer : container < d.size)
    (h : n ≤ s.document.size) {child : NodeId} (hchild : child < d.size) :
    s.document.Grows n container (s.take container child).document := by
  rw [Structuring.take]
  split
  · have hfold := hs.grows_foldl_apply hcontainer h (s.document.label child).span
      (scan (s.carried ++ (s.document.label child).text)).tokens
    simp only [takeMarkup]
    split <;> exact hfold
  · exact .refl h
  · next hkind =>
    split
    · exact .appendChild h hs.kind_top (Nat.lt_of_lt_of_le hchild hs.size_le) hkind
    · exact .refl h

theorem grows_foldl_take (hs : Regular d container s) (hcontainer : container < d.size)
    (h : n ≤ s.document.size) {children : List NodeId}
    (hchildren : ∀ child ∈ children, child < d.size) :
    s.document.Grows n container (children.foldl (Structuring.take container) s).document := by
  induction children generalizing s with
  | nil => exact .refl h
  | cons child children ih =>
    have hchild := hchildren child List.mem_cons_self
    have hfirst := hs.grows_take hcontainer h hchild
    exact hfirst.trans (ih (hs.take hcontainer hchild) (Nat.le_trans h hfirst.size_le)
      fun id hid => hchildren id (List.mem_cons_of_mem _ hid))

end Regular

end Structuring

end MarkupTemplate
