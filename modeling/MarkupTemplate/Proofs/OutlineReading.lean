import MarkupTemplate.Document.Outline
import MarkupTemplate.Proofs.Labels
import MarkupTemplate.Proofs.Reachability

/-!
# Reading outlines

Every line of an outline tells how deep it stands, and whether it is about a node or a diagnostic.
So the tree can be read back from the text, from the last line to the first: a node takes the trees
one level deeper that were read last, and stands before those on its own level. This needs that no
line feed gets into a line but at its end, and that what is indented starts with no space.

## Main definitions

* `Outline.Shape`, `Forest.shape`: a tree without its numbers, with the lines about its nodes
* `Outline.read`: the tree that is read from a text
* `Document.AtDepth`: how deep a node stands
* `Forest.nodesFrom`: the nodes of a forest with their depths, in document order
* `Document.Outlined`: the outline of a document shows its exact shape

## Main results

* `Outline.read_outline`: what is read from an outline is the tree
* `outlined_compileTemplate`: the outline of a compiled template shows its exact shape
-/

namespace MarkupTemplate

namespace Outline

/-! ## Lines -/

/-- The text starts with a byte that is no space and no exclamation mark. -/
def StartsHeadline (s : Bytes) : Prop :=
  ∃ b ∈ s.head?, b ≠ Byte.space ∧ b ≠ Byte.exclamation

instance (s : Bytes) : Decidable (StartsHeadline s) :=
  inferInstanceAs (Decidable (∃ b ∈ s.head?, b ≠ Byte.space ∧ b ≠ Byte.exclamation))

theorem StartsHeadline.append {s : Bytes} (h : StartsHeadline s) (t : Bytes) :
    StartsHeadline (s ++ t) := by
  obtain ⟨b, hb, hne⟩ := h
  exact ⟨b, by simp [List.head?_append, Option.mem_def.1 hb], hne⟩

theorem isLine_escapeByte (b : UInt8) : (escapeByte b).IsLine := by
  unfold escapeByte
  by_cases h : b = Byte.lineFeed
  · rw [if_pos h]
    decide +kernel
  · rw [if_neg h]
    split
    · decide +kernel
    split
    · decide +kernel
    split
    · decide +kernel
    · exact fun hmem => h (List.mem_singleton.1 hmem).symm

/-- An escaped text stays on one line, whatever the text is. -/
theorem isLine_escape (s : Bytes) : (escape s).IsLine := by
  intro hmem
  obtain ⟨b, -, hb⟩ := List.mem_flatMap.1 hmem
  exact isLine_escapeByte b hb

theorem isLine_indent {s : Bytes} (h : s.IsLine) (level : Nat) : (indent level s).IsLine := by
  refine Bytes.isLine_append.2 ⟨fun hmem => ?_, h⟩
  exact absurd (List.eq_of_mem_replicate hmem) (by decide)

end Outline

open Outline

theorem isLine_intercalate {separator : Bytes} (hseparator : separator.IsLine)
    {texts : List Bytes} (h : ∀ s ∈ texts, Bytes.IsLine s) :
    Bytes.IsLine (separator.intercalate texts) := by
  induction texts with
  | nil => exact List.not_mem_nil
  | cons s texts ih =>
    obtain ⟨hs, htexts⟩ := List.forall_mem_cons.1 h
    cases texts with
    | nil => simpa using hs
    | cons s' texts =>
      rw [List.intercalate_cons_cons, Bytes.isLine_append, Bytes.isLine_append]
      exact ⟨⟨hs, hseparator⟩, ih htexts⟩

/-- What the outline says of a node starts with a letter. -/
theorem Label.startsHeadline_headline (l : Label) : StartsHeadline l.headline := by
  have hmarkup : StartsHeadline (utf8 "markup \"") := by decide +kernel
  have helement : StartsHeadline (utf8 "element <") := by decide +kernel
  have hconstruct : StartsHeadline (utf8 "construct <") := by decide +kernel
  have hword : ∀ form : Form, StartsHeadline form.word := by
    intro form
    cases form <;> decide +kernel
  have htitle : ∀ kind : NodeKind, StartsHeadline kind.title := by
    intro kind
    cases kind with
    | embedded form code => exact (show StartsHeadline (utf8 "Opaque") by decide +kernel)
    | _ => decide +kernel
  unfold headline
  cases l.kind with
  | markup => exact (hmarkup.append _).append _
  | element => exact (helement.append _).append _
  | construct => exact ((hconstruct.append _).append _).append _
  | «attribute» | constructAttribute => exact ((htitle _).append _).append _
  | embedded form code => exact (((hword form).append _).append _).append _
  | document | attributeValue | constructBody => exact htitle _

theorem Label.Neat.isLine_headline {l : Label} (h : l.Neat) : l.headline.IsLine := by
  have hword : ∀ form : Form, form.word.IsLine := by
    intro form
    cases form <;> decide +kernel
  have htitle : ∀ kind : NodeKind, kind.title.IsLine := by
    intro kind
    cases kind with
    | embedded form code => exact (show (utf8 "Opaque").IsLine by decide +kernel)
    | _ => decide +kernel
  unfold headline
  cases l.kind with
  | markup =>
    simp only [Bytes.isLine_append]
    exact ⟨⟨by decide +kernel, isLine_escape _⟩, by decide +kernel⟩
  | element =>
    simp only [Bytes.isLine_append]
    exact ⟨⟨by decide +kernel, h.name⟩, by decide +kernel⟩
  | «attribute» | constructAttribute =>
    simp only [Bytes.isLine_append]
    exact ⟨⟨htitle _, by decide +kernel⟩, h.name⟩
  | embedded form code =>
    simp only [Bytes.isLine_append]
    exact ⟨⟨⟨hword form, by decide +kernel⟩, isLine_escape _⟩, by decide +kernel⟩
  | document | attributeValue | constructBody => exact htitle _
  | construct =>
    simp only [Bytes.isLine_append]
    refine ⟨⟨⟨by decide +kernel, h.name⟩, by decide +kernel⟩, ?_⟩
    split
    · exact List.not_mem_nil
    · have hcomma : (utf8 ", ").IsLine := by decide +kernel
      simp only [Bytes.isLine_append]
      exact ⟨⟨by decide +kernel, isLine_intercalate hcomma h.descriptors⟩,
        by decide +kernel⟩

theorem Diagnostic.Neat.isLine_diagnosticLine {g : Diagnostic} (h : g.Neat) :
    (diagnosticLine g).IsLine := by
  simp only [diagnosticLine, Bytes.isLine_append]
  exact ⟨⟨⟨by decide +kernel, h.code⟩, by decide +kernel⟩, h.message⟩

/-- What the outline says of a node and of its diagnostics, which stand one level deeper. -/
def Label.items (level : Nat) (l : Label) : List (Nat × Bytes) :=
  (level, l.headline) :: l.diagnostics.map fun g => (level + 1, diagnosticLine g)

theorem Label.outline_eq (level : Nat) (l : Label) :
    l.outline level = (l.items level).map fun item => indent item.1 item.2 := by
  simp [outline, items]

/-- Everything that is said stays on one line and does not start with a space. -/
theorem Label.Neat.of_mem_items {l : Label} (h : l.Neat) {level : Nat} {item : Nat × Bytes}
    (hitem : item ∈ l.items level) :
    item.2.IsLine ∧ ∃ b ∈ item.2.head?, b ≠ Byte.space := by
  rcases List.mem_cons.1 hitem with rfl | hitem
  · obtain ⟨b, hb, hspace, -⟩ := l.startsHeadline_headline
    exact ⟨h.isLine_headline, b, hb, hspace⟩
  · obtain ⟨g, hg, rfl⟩ := List.mem_map.1 hitem
    exact ⟨(h.diagnostics g hg).isLine_diagnosticLine, Byte.exclamation, rfl, by decide⟩

/-! ## Reading -/

namespace Outline

/-- A list of trees without the numbers of their nodes: of the first node the headline and the notes
on it, the trees under it, and the trees after it. -/
inductive Shape where
  /-- No tree. -/
  | nil
  /-- A tree and the trees after it. -/
  | cons (headline : Bytes) (notes : List Bytes) (children siblings : Shape)
deriving DecidableEq, Repr, Inhabited

/-- The trees of one list before those of another. -/
def Shape.append : Shape → Shape → Shape
  | nil, t => t
  | cons headline notes children siblings, t => cons headline notes children (siblings.append t)

@[simp] theorem Shape.append_nil (s : Shape) : s.append nil = s := by
  induction s with
  | nil => rfl
  | cons headline notes children siblings _ ih => rw [append, ih]

/-- What has been read of the end of an outline: the notes on a node that is still to come, and for
every level the trees that wait there for their parent. -/
structure Reading where
  /-- The notes. -/
  notes : List Bytes
  /-- The trees. -/
  trees : Nat → Shape

/-- The waiting trees when there are others on a level, and none below it any more. -/
def place (level : Nat) (s : Shape) (trees : Nat → Shape) : Nat → Shape := fun k =>
  if k < level then trees k else if k = level then s else .nil

section

variable {level : Nat} {s t : Shape} {trees : Nat → Shape}

theorem place_self (level : Nat) (s : Shape) (trees : Nat → Shape) :
    place level s trees level = s := by simp [place]

theorem place_of_lt {k : Nat} (h : k < level) : place level s trees k = trees k := by
  simp [place, h]

/-- Nothing waits below. -/
theorem place_below : place (level + 1) .nil (place level s trees) = place level s trees := by
  funext k
  simp only [place]
  grind

/-- What is placed on a level or below it is forgotten. -/
theorem place_place {k : Nat} (h : level ≤ k) :
    place level t (place k s trees) = place level t trees := by
  funext j
  simp only [place]
  grind

end

/-- The line before those that have been read. -/
def readLine (line : Bytes) (r : Reading) : Reading :=
  let level := (line.takeWhile (· == Byte.space)).length / 2
  let text := line.dropWhile (· == Byte.space)
  if text.head? = some Byte.exclamation then { r with notes := text :: r.notes }
  else ⟨[], place level (.cons text r.notes (r.trees (level + 1)) (r.trees level)) r.trees⟩

/-- The trees that a text is the outline of. -/
def read (text : Bytes) : Shape :=
  ((text.splitOn Byte.lineFeed).dropLast.foldr readLine ⟨[], fun _ => .nil⟩).trees 0

/-- The indentation of a line that starts with no space. -/
theorem takeWhile_indent {s : Bytes} (h : s.head? ≠ some Byte.space) (level : Nat) :
    (indent level s).takeWhile (· == Byte.space) = List.replicate (2 * level) Byte.space ∧
      (indent level s).dropWhile (· == Byte.space) = s := by
  have hall : ∀ b ∈ List.replicate (2 * level) Byte.space, (b == Byte.space) = true :=
    fun b hb => beq_iff_eq.2 (List.eq_of_mem_replicate hb)
  rw [indent, List.takeWhile_append_of_pos hall, List.dropWhile_append_of_pos hall]
  cases s with
  | nil => simp
  | cons b rest =>
    have hb : b ≠ Byte.space := by simpa using h
    simp [hb]

theorem readLine_headline {s : Bytes} (h : StartsHeadline s) (level : Nat) (r : Reading) :
    readLine (indent level s) r =
      ⟨[], place level (.cons s r.notes (r.trees (level + 1)) (r.trees level)) r.trees⟩ := by
  obtain ⟨b, hb, hspace, hmark⟩ := h
  have hhead : s.head? = some b := hb
  obtain ⟨htake, hdrop⟩ := takeWhile_indent (s := s) (by simpa [hhead] using hspace) level
  have hlevel : 2 * level / 2 = level := Nat.mul_div_cancel_left level (by decide)
  simp [readLine, htake, hdrop, hhead, hmark, hlevel]

theorem readLine_diagnostic (g : Diagnostic) (level : Nat) (r : Reading) :
    readLine (indent level (diagnosticLine g)) r =
      { r with notes := diagnosticLine g :: r.notes } := by
  have hhead : (diagnosticLine g).head? = some Byte.exclamation := rfl
  obtain ⟨-, hdrop⟩ := takeWhile_indent (by rw [hhead]; decide) level
  simp [readLine, hdrop, hhead]

end Outline

/-- The forest without the numbers of its nodes. -/
def Forest.shape : Forest → Shape
  | .nil => .nil
  | .cons _ label children siblings =>
    .cons label.headline (label.diagnostics.map diagnosticLine) children.shape siblings.shape

namespace Outline

/-- The lines about one node are read when the trees under it have been. -/
theorem foldr_readLine_label (l : Label) (level : Nat) (trees : Nat → Shape) :
    (l.outline level).foldr readLine ⟨[], trees⟩ =
      ⟨[], place level (.cons l.headline (l.diagnostics.map diagnosticLine) (trees (level + 1))
        (trees level)) trees⟩ := by
  have hnotes : ∀ gs : List Diagnostic, (gs.map fun g => indent (level + 1)
      (diagnosticLine g)).foldr readLine ⟨[], trees⟩ = ⟨gs.map diagnosticLine, trees⟩ := by
    intro gs
    induction gs with
    | nil => rfl
    | cons g gs ih => rw [List.map_cons, List.foldr_cons, ih, readLine_diagnostic, List.map_cons]
  rw [Label.outline, List.foldr_cons, hnotes, readLine_headline l.startsHeadline_headline]

/-- What is read from the outline of a forest stands before the trees that were read on its level,
where nothing waits below. -/
theorem foldr_readLine_outline (f : Forest) (level : Nat) (s : Shape) (trees : Nat → Shape) :
    (f.outline level).foldr readLine ⟨[], place level s trees⟩ =
      ⟨[], place level (f.shape.append s) trees⟩ := by
  induction f generalizing level s trees with
  | nil => rfl
  | cons id label children siblings ihc ihs =>
    -- The trees under the node wait alone on their level.
    rw [Forest.outline, List.foldr_append, List.foldr_append, ihs, ← place_below, ihc,
      foldr_readLine_label, Shape.append_nil]
    rw [place_self, place_of_lt (Nat.lt_succ_self level), place_self,
      place_place (Nat.le_succ level), place_place (Nat.le_refl level)]
    rfl

/-- A text is split where its lines end. -/
theorem splitOn_lines {lines : List Bytes} (h : ∀ line ∈ lines, Bytes.IsLine line) :
    (lines.flatMap (· ++ [Byte.lineFeed])).splitOn Byte.lineFeed = lines ++ [[]] := by
  induction lines with
  | nil => rfl
  | cons line lines ih =>
    obtain ⟨hline, hlines⟩ := List.forall_mem_cons.1 h
    rw [List.flatMap_cons, List.append_assoc, List.singleton_append,
      List.splitOn_append_cons_self_of_not_mem hline, ih hlines, List.cons_append]

/-- What is read from an outline of which all lines are lines is the forest. -/
theorem read_outline {f : Forest} (h : ∀ line ∈ f.outline 0, Bytes.IsLine line) :
    read ((f.outline 0).flatMap (· ++ [Byte.lineFeed])) = f.shape := by
  have hnothing : (fun _ => .nil : Nat → Shape) = place 0 .nil fun _ => .nil := by
    funext k
    simp [place]
  rw [read, splitOn_lines h, List.dropLast_concat, hnothing, foldr_readLine_outline,
    Shape.append_nil]
  exact place_self 0 f.shape fun _ => .nil

end Outline

/-! ## Depths -/

/-- The node stands at the depth: the root at none, and a child one deeper than its parent. -/
inductive Document.AtDepth (d : Document) : Nat → NodeId → Prop
  | root : AtDepth d 0 Document.root
  | child {depth : Nat} {parent id : NodeId} : AtDepth d depth parent →
    id ∈ d.children parent → AtDepth d (depth + 1) id

/-- The nodes of a forest with their depths, in document order. -/
def Forest.nodesFrom (depth : Nat) : Forest → List (Nat × NodeId)
  | .nil => []
  | .cons id _ children siblings =>
    (depth, id) :: (children.nodesFrom (depth + 1) ++ siblings.nodesFrom depth)

theorem Forest.map_snd_nodesFrom (f : Forest) (depth : Nat) :
    (f.nodesFrom depth).map Prod.snd = f.preorder := by
  induction f generalizing depth with
  | nil => rfl
  | cons id label children siblings ihc ihs => simp [nodesFrom, preorder, ihc, ihs]

namespace Document

variable {d : Document} {f : Forest}

theorem AtDepth.reached {depth : Nat} {id : NodeId} (h : d.AtDepth depth id) : d.Reached id := by
  induction h with
  | root => exact d.reached_root
  | child _ hid ih => exact ih.child hid

/-- The depths are those in the document. -/
theorem atDepth_nodesFrom (h : d.Exhibits f) {depth : Nat}
    (hroots : ∀ id ∈ f.roots, d.AtDepth depth id) :
    ∀ n ∈ f.nodesFrom depth, d.AtDepth n.1 n.2 := by
  induction f generalizing depth with
  | nil => simp [Forest.nodesFrom]
  | cons id label children siblings ihc ihs =>
    obtain ⟨⟨-, hid⟩, hchildren, hsiblings⟩ := h
    obtain ⟨hroot, hroots⟩ := List.forall_mem_cons.1 hroots
    rintro n hn
    rcases List.mem_cons.1 hn with rfl | hn
    · exact hroot
    · rcases List.mem_append.1 hn with hn | hn
      · exact ihc hchildren (fun i hi => hroot.child (hid ▸ hi)) n hn
      · exact ihs hsiblings hroots n hn

/-- The outline goes through the nodes. -/
theorem outline_eq_of_exhibits (h : d.Exhibits f) (level : Nat) : f.outline level =
    ((f.nodesFrom level).flatMap fun n => (d.label n.2).items n.1).map
      fun item => indent item.1 item.2 := by
  induction f generalizing level with
  | nil => rfl
  | cons id label children siblings ihc ihs =>
    obtain ⟨⟨hlabel, -⟩, hchildren, hsiblings⟩ := h
    rw [Forest.outline, Forest.nodesFrom, List.flatMap_cons, List.flatMap_append, List.map_append,
      List.map_append, ← ihc hchildren, ← ihs hsiblings, hlabel, Label.outline_eq]

/-- The outline of the document shows its exact shape. -/
structure Outlined (d : Document) : Prop where
  /-- The tree has the labels of the nodes, and their children in order. -/
  exhibits : d.Exhibits d.tree
  /-- In document order every node comes once. -/
  nodup : d.tree.preorder.Nodup
  /-- The nodes that come are those that are reached. -/
  mem_preorder_iff : ∀ id, id ∈ d.tree.preorder ↔ d.Reached id
  /-- Every node has a line, and then every diagnostic on it, one level deeper. A line is indented
  by two spaces for each level, starts with no space after them, and ends where the next one starts.
  -/
  lines : ∃ nodes : List (Nat × NodeId), nodes.map Prod.snd = d.tree.preorder ∧
    (∀ n ∈ nodes, d.AtDepth n.1 n.2) ∧
    let items := nodes.flatMap fun n => (d.label n.2).items n.1
    d.outline = (items.flatMap fun item =>
      List.replicate (2 * item.1) Byte.space ++ item.2 ++ [Byte.lineFeed]) ∧
    ∀ item ∈ items, item.2.IsLine ∧ ∃ b ∈ item.2.head?, b ≠ Byte.space
  /-- The tree is read from the text alone. -/
  read_outline : Outline.read d.outline = d.tree.shape

/-- The outline of a well-formed document with neat labels shows its exact shape. -/
theorem outlined_of_verify (h : d.verify) (hneat : d.Neat) : d.Outlined := by
  obtain ⟨htree, -⟩ := isTree_of_verify h
  have hitems : ∀ item ∈ (d.tree.nodesFrom 0).flatMap fun n => (d.label n.2).items n.1,
      item.2.IsLine ∧ ∃ b ∈ item.2.head?, b ≠ Byte.space := by
    intro item hitem
    obtain ⟨n, -, hitem⟩ := List.mem_flatMap.1 hitem
    exact (hneat n.2).of_mem_items hitem
  have hlines := outline_eq_of_exhibits htree.exhibits 0
  have hroots : ∀ id ∈ d.tree.roots, d.AtDepth 0 id := by
    rw [roots_tree]
    exact fun id hid => List.mem_singleton.1 hid ▸ .root
  have hdepths := atDepth_nodesFrom htree.exhibits hroots
  refine ⟨htree.exhibits, htree.nodup, fun id => ⟨fun hid => ?_, fun hid => ?_⟩,
    ⟨d.tree.nodesFrom 0, Forest.map_snd_nodesFrom _ _, hdepths, ?_, hitems⟩, ?_⟩
  · rw [← Forest.map_snd_nodesFrom _ 0] at hid
    obtain ⟨n, hn, rfl⟩ := List.mem_map.1 hid
    exact (hdepths n hn).reached
  · exact (place_unique_of_shows htree.stands.shows d.roots_tree htree.nodup).1 id hid
  · rw [outline, hlines, List.flatMap_map]
    rfl
  · refine read_outline fun line hline => ?_
    rw [hlines] at hline
    obtain ⟨item, hitem, rfl⟩ := List.mem_map.1 hline
    exact isLine_indent (hitems item hitem).1 _

end Document

/-- The outline of a template that can be used shows the exact shape of its document. -/
theorem outlined_compileTemplate (source name : Bytes) (components : Components) (verify : Bool)
    (husable : (compileTemplate source name components verify).usable) :
    (compileTemplate source name components verify).document.Outlined := by
  refine Document.outlined_of_verify ?_ (neat_compileTemplate source name components verify)
  rw [compileTemplate_eq] at husable ⊢
  exact ((flat_readTemplate source name).structured husable).1

/-- A template with an attribute, an expression, and a closing tag too many. -/
def strayTagTemplate : Bytes := utf8 "<p a=\"b\">@x</p></q>"

/-- The outline of the template. -/
def strayTagOutline : Bytes := utf8 <|
  "Document\n" ++
  "  ! STENCIL-E2003 Unexpected closing tag '</q>' with no open element.\n" ++
  "  element <p>\n" ++
  "    Attribute a\n" ++
  "      AttributeValue\n" ++
  "        markup \"b\"\n" ++
  "    expression \x7bx\x7d\n"

theorem strayTag_read :
    (compileTemplate strayTagTemplate [] [] true).usable ∧
      Outline.read strayTagOutline =
        (compileTemplate strayTagTemplate [] [] true).document.tree.shape := by
  have husable : (compileTemplate strayTagTemplate [] [] true).usable := by decide +kernel
  have houtline : (compileTemplate strayTagTemplate [] [] true).document.outline =
      strayTagOutline := by decide +kernel
  have hread := (outlined_compileTemplate strayTagTemplate [] [] true husable).read_outline
  exact ⟨husable, houtline ▸ hread⟩

end MarkupTemplate
