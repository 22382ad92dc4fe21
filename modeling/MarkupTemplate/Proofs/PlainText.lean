import MarkupTemplate.Proofs.Building
import MarkupTemplate.Proofs.Preservation
import MarkupTemplate.Proofs.Tag

/-!
# What is left as text

Structuring leaves markup in values only. Everywhere else what is left is a text in which nowhere a
tag or a comment starts, so scanning it again gives this one text. A container is structured after
all that is under it; so long as it is not, its own markup is still there, but under its other
children none is left. Nothing else has to be known of the document than that it is a tree.

## Main definitions

* `Forest.outsideValues`: the nodes that are not below an attribute
* `Forest.Plain`: all markup outside of values is plain text
* `Forest.PlainBelow`: so it is below all roots that are no markup

## Main results

* `Document.remakes_structureFrom`, `Document.remakes_rewriteEach`: structuring leaves plain text
* `Document.scan_structured`: scanning what is left gives it back
-/

namespace MarkupTemplate

open Markup

/-- A plain text is scanned as one token. -/
theorem scan_of_isPlain {text : Bytes} (hne : text ≠ []) (h : isPlain text = true) :
    scan text = ⟨[⟨0, text.length, .text text⟩], ⟨text.length, []⟩⟩ := by
  have hnext := Cursor.next?_text hne h (.inl rfl)
  rw [List.append_nil] at hnext
  have hend : (⟨text.length, []⟩ : Cursor).tokens = ([], ⟨text.length, []⟩) :=
    Cursor.tokens_of_next?_eq_none (Cursor.next?_of_rest_eq_nil rfl)
  rw [scan, Cursor.tokens_of_next?_eq_some hnext, hend]

/-! ## Plain forests -/

namespace Forest

variable {f g b : Forest} {label : NodeId → Label}

/-- The nodes that are not below an attribute. -/
def outsideValues : Forest → List NodeId
  | nil => []
  | cons id label children siblings =>
    id :: ((if Document.holdsValue label.kind then [] else children.outsideValues) ++
      siblings.outsideValues)

/-- Outside of values all markup is plain text, without children. -/
def Plain : Forest → Prop
  | nil => True
  | cons _ label children siblings =>
    (label.kind = .markup → children = nil ∧ label.text ≠ [] ∧ isPlain label.text = true) ∧
      (Document.holdsValue label.kind = false → children.Plain) ∧ siblings.Plain

/-- Below all roots that are no markup, all markup outside of values is plain text. -/
def PlainBelow : Forest → Prop
  | nil => True
  | cons _ label children siblings =>
    (label.kind ≠ .markup → Document.holdsValue label.kind = false → children.Plain) ∧
      siblings.PlainBelow

theorem plain_append : (f ++ g).Plain ↔ f.Plain ∧ g.Plain := by
  induction f with
  | nil => simp [Plain]
  | cons id label children siblings _ ih => simp only [cons_append, Plain, ih, and_assoc]

theorem plainBelow_append : (f ++ g).PlainBelow ↔ f.PlainBelow ∧ g.PlainBelow := by
  induction f with
  | nil => simp [PlainBelow]
  | cons id label children siblings _ ih => simp only [cons_append, PlainBelow, ih, and_assoc]

theorem relabel_append (f g : Forest) :
    (f ++ g).relabel label = f.relabel label ++ g.relabel label := by
  induction f with
  | nil => rfl
  | cons id old children siblings _ ih => simp only [cons_append, relabel, ih]

/-- If no root is markup, all is plain. -/
theorem PlainBelow.plain (h : (f.relabel label).PlainBelow)
    (hroots : ∀ id ∈ f.roots, (label id).kind ≠ .markup) : (f.relabel label).Plain := by
  induction f with
  | nil => trivial
  | cons id old children siblings _ ih =>
    rw [roots, List.forall_mem_cons] at hroots
    exact ⟨fun hkind => absurd hkind hroots.1, h.1 hroots.1, ih h.2 hroots.2⟩

/-- So it is under a single root that is no markup. -/
theorem PlainBelow.under {id : NodeId} (h : (b.relabel label).PlainBelow) (hid : id ∈ b.roots)
    (hkind : (label id).kind ≠ .markup) (hvalue : Document.holdsValue (label id).kind = false) :
    ((b.under id).relabel label).Plain := by
  induction b with
  | nil => exact absurd hid List.not_mem_nil
  | cons i old children siblings _ ih =>
    by_cases he : i = id
    · subst he
      rw [Forest.under, if_pos rfl]
      exact h.1 hkind hvalue
    · rw [under_cons_of_ne he]
      exact ih h.2 ((List.mem_cons.1 hid).resolve_left fun hid => he hid.symm)

/-- What is built of the pieces of an assembly is plain. -/
theorem buildable_plain : Forest.Buildable fun _ => Plain where
  nil _ := trivial
  append hf hg := plain_append.2 ⟨hf, hg⟩
  hole _ _ := ⟨nofun, fun _ => trivial, trivial⟩
  text _ _ _ hne hplain := by
    refine ⟨fun _ => ⟨rfl, ?_, ?_⟩, fun _ => trivial, trivial⟩
    · simpa [Label.text] using hne
    · simpa [Label.text] using hplain
  attributes _ _ _ := ⟨nofun, nofun, trivial⟩
  element _ hkind hchildren :=
    ⟨fun hmarkup => by simp [hkind] at hmarkup, fun _ => hchildren, trivial⟩

end Forest

namespace Document

variable {d d' : Document} {f b below : Forest} {id : NodeId} {label : Label} {n : Nat}

/-- What was assembled is plain with the trees in its holes, if these are. -/
theorem plain_graft (hholds : d.Holds n f) (hplain : f.Plain)
    (hbelow : (b.relabel d.label).PlainBelow)
    (hholes : ∀ id ∈ f.holes n, id ∈ b.roots ∧ d.kind id ≠ .markup) :
    ((Forest.graft n b f).relabel d.label).Plain := by
  induction f with
  | nil => trivial
  | cons id label children siblings ihc ihs =>
    obtain ⟨hid, hchildren, hsiblings⟩ := hholds
    obtain ⟨hmarkup, hplainc, hplains⟩ := hplain
    rw [Forest.graft, Forest.relabel]
    by_cases hlt : id < n
    · rw [Forest.holes_cons_of_lt hlt, List.forall_mem_cons] at hholes
      obtain ⟨⟨hroot, hkind⟩, hholes⟩ := hholes
      rw [if_pos hlt]
      refine ⟨fun hmarkup => absurd hmarkup hkind, fun hvalue => hbelow.under hroot hkind hvalue,
        ihs hsiblings hplains fun i hi => hholes i (List.mem_append_right _ hi)⟩
    · have hle := Nat.not_lt.1 hlt
      rw [Forest.holes_cons_of_le hle] at hholes
      rw [if_neg hlt]
      -- The document has the label that was assembled, apart from places in the template.
      have hlabel := (hid hle).1
      have hkind : (d.label id).kind = label.kind := by rw [← hlabel, Label.plain_kind]
      have htext : (d.label id).text = label.text := by rw [← hlabel, Label.plain_text]
      rw [Forest.Plain, hkind, htext]
      refine ⟨fun hk => ?_, fun hvalue => ihc hchildren (hplainc hvalue) fun i hi =>
        hholes i (List.mem_append_left _ hi), ihs hsiblings hplains fun i hi =>
        hholes i (List.mem_append_right _ hi)⟩
      obtain ⟨rfl, hplain⟩ := hmarkup hk
      exact ⟨rfl, hplain⟩

/-! ## All containers -/

/-- A container with markup is structured into something plain, if all is plain below its other
children. -/
theorem plain_structureChildren (h : d.Stands (.cons id label below .nil))
    (hbelow : (below.relabel d.label).PlainBelow) (hok : (d.structureChildren id).ok) :
    ((Forest.graft d.size below (d.assembly id).content).relabel
      (d.structureChildren id).document.label).Plain := by
  obtain ⟨hid, hchildren⟩ := lt_size_children h
  have hsame : ∀ i ∈ below.preorder,
      d.label i = (d.structureChildren id).document.label i := fun i hi =>
    (label_eq_of_node_eq (node_structureChildren h hi)).symm
  refine plain_graft (stored_structureChildren hid hchildren).content
    (Assembly.built_run Forest.buildable_plain d.size (d.items id)).content
    (Forest.relabel_congr hsame ▸ hbelow) fun i hi => ?_
  obtain ⟨hroot, hkind⟩ := List.mem_filter.1 ((perm_holes_below h hok).mem_iff.1 hi)
  refine ⟨hroot, ?_⟩
  rw [(kind_structureChildren h (h.down.lt_size i (Forest.mem_preorder_of_mem_roots hroot))).1]
  simpa using hkind

/-- A container is left with plain text once this is so below its children. -/
theorem remakes_structureFrom {depth : Nat} (h : d.Stands (.cons id label below .nil))
    (hbelow : (d.rewriteEach (structureChild depth) below.roots).ok →
      ∃ g, let d' := (d.rewriteEach (structureChild depth) below.roots).document
        Remakes d d' below g ∧ (g.relabel d'.label).PlainBelow)
    (hok : (structureFrom (depth + 1) d id).ok) :
    ∃ g, let d' := (structureFrom (depth + 1) d id).document
      Remakes d d' (.cons id label below .nil) (.cons id label g .nil) ∧
        (g.relabel d'.label).Plain := by
  have hroots : d.children id = below.roots := h.shows.1
  rw [structureFrom_succ, hroots] at hok ⊢
  have hfirst := Rewrite.ok_of_ok_andThen hok
  obtain ⟨g, hg, hplain⟩ := hbelow hfirst
  rw [Rewrite.andThen_of_ok hfirst] at hok ⊢
  have hchange := hg.under h
  generalize (d.rewriteEach (structureChild depth) below.roots).document = d₁ at *
  split at hok
  · next hany =>
    rw [if_pos hany]
    have hstands := hchange.stands h
    exact ⟨_, hchange.trans (remakes_structureChildren hstands hok),
      plain_structureChildren hstands hplain hok⟩
  · next hany =>
    rw [if_neg hany]
    refine ⟨g, hchange, hplain.plain fun i hi hkind => hany ?_⟩
    exact List.any_eq_true.2 ⟨i, hg.roots ▸ hi, beq_iff_eq.2 hkind⟩

/-- Below the roots of a forest plain text is left, if no branch is too deep to be structured. -/
theorem remakes_rewriteEach (h : d.Stands f) {depth : Nat} (hheight : f.height ≤ depth)
    (hok : (d.rewriteEach (structureChild depth) f.roots).ok) :
    ∃ g, let d' := (d.rewriteEach (structureChild depth) f.roots).document
      Remakes d d' f g ∧ (g.relabel d'.label).PlainBelow := by
  induction f generalizing d depth with
  | nil => exact ⟨.nil, .refl h, trivial⟩
  | cons id label below siblings ihb ihs =>
    obtain ⟨hbelow, hsiblings⟩ := Nat.max_le.1 hheight
    rw [Forest.roots, rewriteEach_cons] at hok ⊢
    have hfirst := Rewrite.ok_of_ok_andThen hok
    rw [Rewrite.andThen_of_ok hfirst] at hok ⊢
    have htree : ∃ g, let d' := (structureChild depth d id).document
        Remakes d d' (.cons id label below .nil) g ∧ (g.relabel d'.label).PlainBelow := by
      unfold structureChild at hfirst ⊢
      split
      · next hskip =>
        refine ⟨_, .refl h.head, fun hmarkup hvalue => ?_, trivial⟩
        exact absurd hskip (not_or.2 ⟨hmarkup, Bool.eq_false_iff.1 hvalue⟩)
      · next hnot =>
        rw [if_neg hnot] at hfirst
        obtain ⟨k, rfl⟩ := Nat.exists_eq_add_one_of_ne_zero (Nat.ne_zero_of_lt hbelow)
        obtain ⟨g, hg, hplain⟩ := remakes_structureFrom h.head
          (ihb h.down (Nat.le_of_succ_le_succ hbelow)) hfirst
        exact ⟨_, hg, fun _ _ => hplain, trivial⟩
    obtain ⟨g, hg, hplain⟩ := htree
    have hnext := hg.stands_of_disjoint h.next h.disjoint
    obtain ⟨g', hg', hplain'⟩ := ihs hnext hsiblings hok
    refine ⟨g ++ g', hg.append hg' h.head h.next h.disjoint, ?_⟩
    rw [Forest.relabel_append, Forest.plainBelow_append]
    -- The first tree is not touched any more, so its labels are the same.
    have hsame := hg.node_eq_of_next hg' h.head h.next h.disjoint
    exact ⟨Forest.relabel_congr (fun i hi => (label_eq_of_node_eq (hsame i hi)).symm) ▸ hplain,
      hplain'⟩

/-! ## Whole documents -/

/-- Markup outside of values has no children and is plain text. -/
theorem isPlain_of_mem_outsideValues (hf : d.Exhibits f) (hplain : f.Plain)
    (hid : id ∈ f.outsideValues) (hkind : d.kind id = .markup) :
    d.children id = [] ∧ (d.label id).text ≠ [] ∧ isPlain (d.label id).text = true := by
  induction f with
  | nil => exact absurd hid List.not_mem_nil
  | cons i label children siblings ihc ihs =>
    obtain ⟨⟨rfl, hchildren⟩, hbelow, hsiblings⟩ := hf
    obtain ⟨hmarkup, hplainc, hplains⟩ := hplain
    rw [Forest.outsideValues, List.mem_cons, List.mem_append] at hid
    rcases hid with rfl | hid | hid
    · obtain ⟨rfl, htext⟩ := hmarkup hkind
      exact ⟨hchildren, htext⟩
    · split at hid
      · exact absurd hid List.not_mem_nil
      · next hvalue => exact ihc hbelow (hplainc (Bool.eq_false_iff.2 hvalue)) hid
    · exact ihs hsiblings hplains hid

/-- Structuring a tree gives a tree, and all markup that is left in it outside of values is text
without children: scanned again, it is one text token, with no tag, no comment and nothing cut off.
-/
theorem scan_structured (h : d.IsTree) (hok : d.structured.ok) :
    let d' := d.structured.document
    d'.IsTree ∧ ∀ id ∈ (d'.forestBelow root).outsideValues, d'.kind id = .markup →
      let text := (d'.label id).text
      d'.children id = [] ∧ (scan text).tokens = [⟨0, text.length, .text text⟩] ∧
        (scan text).remainder = [] := by
  have hstands : d.Stands (.cons root (d.label root) (d.forestBelow root) .nil) :=
    h.tree_eq ▸ h.stands
  have hheight := height_le_size hstands.nodup hstands.lt_size
  rw [Forest.height, Forest.height, Nat.max_zero] at hheight
  unfold structured at hok ⊢
  obtain ⟨k, hk⟩ := Nat.exists_eq_add_one_of_ne_zero (n := d.size + d.markupLength) (by omega)
  rw [hk] at hok ⊢
  obtain ⟨g, hg, hplain⟩ := remakes_structureFrom hstands
    (remakes_rewriteEach hstands.down (by omega)) hok
  generalize (structureFrom (k + 1) d root).document = d' at hg hplain ⊢
  -- The tree of the new document is the forest that was made, with the labels that it has now.
  have hoccurs := (hg.stands hstands).occurs
  have hforest : d'.forestBelow root = g.relabel d'.label :=
    hoccurs.down.forestBelow_eq hoccurs.exhibits.1.2
  refine ⟨hoccurs.isTree (by simp [Forest.roots]), fun id hid hkind => ?_⟩
  rw [hforest] at hid
  obtain ⟨hchildren, hne, hplain⟩ :=
    isPlain_of_mem_outsideValues hoccurs.down.exhibits hplain hid hkind
  simpa [scan_of_isPlain hne hplain, Scan.remainder] using hchildren

/-- A construct without a body that has markup of its own. Some markup has a child, a text has a
`<` that starts no tag, and an attribute has markup in its value. -/
def looseMarkup : Document :=
  ⟨#[{ kind := .document, children := [1, 2, 3, 4] },
    { kind := .markup, fragments := [utf8 "<p title=\"<b>"] },
    { kind := .embedded .expression (utf8 "a") },
    { kind := .markup, fragments := [utf8 "\">x < y</p>"] },
    { kind := .construct, name := utf8 "Card", children := [5, 7, 9] },
    { kind := .markup, fragments := [utf8 "<b>z"], children := [6] },
    { kind := .markup, fragments := [utf8 "<u>"] },
    { kind := .constructAttribute, name := utf8 "id", children := [8] },
    { kind := .markup, fragments := [utf8 "<i>"] },
    { kind := .markup, fragments := [utf8 "</b>"] }], by decide⟩

theorem looseMarkup_scanned :
    looseMarkup.IsTree ∧ looseMarkup.structured.ok ∧
      let d := looseMarkup.structured.document
      (d.forestBelow root).outsideValues = [12, 13, 16, 4, 10, 11, 7] ∧ d.kind 16 = .markup ∧
        d.children 16 = [] ∧ (d.label 16).text = utf8 "x < y" ∧
        (scan (utf8 "x < y")).tokens = [⟨0, 5, .text (utf8 "x < y")⟩] := by
  have htree : looseMarkup.IsTree := by decide +kernel
  have hok : looseMarkup.structured.ok := by decide +kernel
  have hids : (looseMarkup.structured.document.forestBelow root).outsideValues =
      [12, 13, 16, 4, 10, 11, 7] := by decide +kernel
  have hkind : looseMarkup.structured.document.kind 16 = .markup := by decide +kernel
  have htext : (looseMarkup.structured.document.label 16).text = utf8 "x < y" := by
    decide +kernel
  obtain ⟨hchildren, htokens, -⟩ := (scan_structured htree hok).2 16 (by simp [hids]) hkind
  rw [htext] at htokens
  exact ⟨htree, hok, hids, hkind, hchildren, htext, htokens⟩

end Document

end MarkupTemplate
