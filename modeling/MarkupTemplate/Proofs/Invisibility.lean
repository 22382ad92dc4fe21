import MarkupTemplate.Proofs.Displacement
import MarkupTemplate.Proofs.Verification
import MarkupTemplate.Proofs.View

/-!
# Holes are invisible to markup

The markup of a container means the same with the holes in it and without them, in one piece and in
many. A piece may be cut anywhere, inside a tag, a value or a comment, but not after `<` or `</`,
where the text before the cut cannot tell whether a tag starts.

## Main definitions

* `View.read`: what is seen after a further text of markup
* `Forest.unshown`: the nodes that a skeleton does not show
* `Document.joined`: the document with the markup of a container in one piece, without the holes

## Main results

* `View.read_append`: a text in two parts is read as one
* `Assembly.view_foldl_take`: what is seen of a container is its markup in one piece
* `Document.unshown_structureChildren`: of a structured container, the skeleton leaves out the holes
  and nothing else
* `Document.structureChildren_joined`: structuring a container and structuring its markup in one
  piece succeed together and give the same skeleton
-/

namespace MarkupTemplate

open Markup

/-! ## Reading markup without holes -/

namespace View

/-- What is seen after a text of markup; what it cuts off has no effect yet. -/
def read (v : View) (text : Bytes) : View := (scan text).tokens.foldl apply v

/-- The place of a token has no meaning where there are no holes. -/
theorem apply_shift (v : View) (k : Nat) (t : Token) : v.apply (t.shift k) = v.apply t := by
  obtain ⟨offset, length, content⟩ := t
  cases content with
  | startTag name attributes selfClosing =>
    have hopen : v.openElement name.text (attributes.map (Attribute.shift k)) =
        v.openElement name.text attributes := by
      rw [openElement, List.foldl_map, openElement]
      congr 1
      funext w entry
      obtain ⟨entryName, value⟩ := entry
      cases value <;> rfl
    simp only [apply, Token.shift, Content.shift, Slice.shift]
    exact congrArg (fun w : View =>
      if selfClosing || isVoid name.text then w.closeElement name.text else w) hopen
  | _ => rfl

theorem foldl_apply_shift (v : View) (k : Nat) (ts : List Token) :
    (ts.map (Token.shift k)).foldl apply v = ts.foldl apply v := by
  rw [List.foldl_map]
  congr 1
  funext w t
  exact apply_shift w k t

theorem foldl_joinTo (v : View) (t : Token) (us : List Token) :
    (t.joinTo us).foldl apply v = us.foldl apply (v.apply t) := by
  cases us with
  | nil => rfl
  | cons u us =>
    obtain ⟨offset, length, content⟩ := t
    obtain ⟨offset', length', content'⟩ := u
    cases content with
    | text data =>
      cases content' with
      | text data' =>
        simp only [Token.joinTo, List.foldl_cons, apply, Skeleton.text_append, add_append]
      | _ => rfl
    | _ => rfl

/-- Joined tokens mean what they mean one after another. -/
theorem foldl_joinTokens (v : View) (ts us : List Token) :
    (joinTokens ts us).foldl apply v = us.foldl apply (ts.foldl apply v) := by
  induction ts generalizing v with
  | nil => rfl
  | cons t ts ih =>
    cases ts with
    | nil => exact foldl_joinTo v t us
    | cons t' ts => exact ih (v.apply t)

/-- A text in two parts is read as one, with what the first part cuts off before the second. -/
theorem read_append (v : View) {x y : Bytes} (h : CutsCleanly x y) :
    v.read (x ++ y) = (v.read x).read ((scan x).remainder ++ y) := by
  rw [read, (scan_append h).1, foldl_joinTokens, foldl_apply_shift, read, read]

end View

/-! ## The markup of a container -/

/-- The markup that arrives with a child. -/
def Item.text : Item → Bytes
  | .markup text => text
  | .attribute _ | .hole _ => []

/-- A child that is no attribute; a text does not end where a tag may have started. -/
def Item.Tidy : Item → Prop
  | .markup text => endsInTagStart text = false
  | .attribute _ => False
  | .hole _ => True

theorem lessThan_suffix_append {x y : Bytes} (h : [Byte.lessThan] <:+ x ++ y) :
    [Byte.lessThan] <:+ y ∨ y = [] ∧ [Byte.lessThan] <:+ x := by
  -- The last byte is that of the second text, if it has one.
  rcases List.eq_nil_or_concat y with rfl | ⟨y, b, rfl⟩
  · exact .inr ⟨rfl, by simpa using h⟩
  · left
    rw [List.concat_eq_append, ← List.append_assoc, List.suffix_concat_iff] at h
    rw [List.concat_eq_append, List.suffix_concat_iff]
    rcases h with h | ⟨t, ht, -⟩
    · exact .inl h
    · obtain ⟨rfl, rfl⟩ : t = [] ∧ b = Byte.lessThan := by
        cases t <;> simp_all
      exact .inr ⟨[], rfl, List.nil_suffix⟩

/-- Where two texts meet, no tag may start. -/
theorem endsInTagStart_append {x y : Bytes} (hx : endsInTagStart x = false)
    (hy : endsInTagStart y = false) : endsInTagStart (x ++ y) = false := by
  rw [endsInTagStart_eq_false] at hx hy ⊢
  refine ⟨fun h => ?_, fun h => ?_⟩
  · rcases lessThan_suffix_append h with h | ⟨-, h⟩
    · exact hy.1 h
    · exact hx.1 h
  · rcases List.eq_nil_or_concat y with rfl | ⟨y, b, rfl⟩
    · exact hx.2 (by simpa using h)
    · rw [List.concat_eq_append, ← List.append_assoc, List.suffix_concat_iff] at h
      rw [List.concat_eq_append, List.suffix_concat_iff] at hy
      rcases h with h | ⟨t, ht, hsuffix⟩
      · simp at h
      · obtain ⟨rfl, rfl⟩ : t = [Byte.lessThan] ∧ b = Byte.slash := by
          rcases t with _ | ⟨c, _ | ⟨c', t⟩⟩ <;> simp_all
        rcases lessThan_suffix_append hsuffix with h | ⟨rfl, h⟩
        · exact hy.2 (by simpa using (List.suffix_concat_iff.2 (.inr ⟨[Byte.lessThan], rfl, h⟩)))
        · exact hx.1 h

namespace Assembly

variable {n : Nat} {arrived : List NodeId} {a : Assembly}

/-- The holes that wait stand in the text of the tag that is cut off, in the order of their places.
-/
structure InTag (a : Assembly) : Prop where
  sorted : a.Sorted
  place : ∀ hole ∈ a.waiting, ∃ i, hole.offset = some i ∧ i ≤ a.carried.length

namespace InTag

theorem eq_nil_of_inText (hplace : ∀ hole ∈ a.waiting, hole.isPositional) (h : a.inText = []) :
    a.waiting = [] := by
  rw [inText, List.map_eq_nil_iff, List.filter_eq_nil_iff] at h
  rw [List.eq_nil_iff_forall_not_mem]
  exact fun hole hmem => h hole hmem (hplace hole hmem)

/-- Without a tag that is cut off no hole waits. -/
theorem waiting_eq_nil (h : a.InTag) (hidle : a.Idle) (hcarried : a.carried = []) :
    a.waiting = [] := by
  refine eq_nil_of_inText (fun hole hmem => ?_) (hidle hcarried)
  obtain ⟨i, hi, -⟩ := h.place hole hmem
  rw [Hole.isPositional, hi]
  rfl

theorem takeMarkup (h : a.InTag) (hidle : a.Idle) (text : Bytes) : (a.takeMarkup text).InTag := by
  have hsub := waiting_foldl_apply (a := a) (scan (a.carried ++ text)).tokens
  have hidle' := hidle.takeMarkup text
  have hlength := (Cursor.reaches_tokens (.start (a.carried ++ text))).offset_add_length
  simp only [Assembly.takeMarkup] at hidle' ⊢
  generalize (scan (a.carried ++ text)).tokens.foldl Assembly.apply a = b at *
  by_cases hempty : (scan (a.carried ++ text)).remainder.isEmpty
  · rw [if_pos hempty] at hidle' ⊢
    -- Nothing is cut off, so no hole is left inside a tag.
    have hnil : b.waiting = [] := by
      refine eq_nil_of_inText (fun hole hmem => ?_) (hidle' rfl)
      obtain ⟨i, hi, -⟩ := h.place hole (hsub.subset hmem)
      rw [Hole.isPositional, hi]
      rfl
    exact ⟨by rw [Sorted, hnil]; exact .nil, by simp [hnil]⟩
  · rw [if_neg hempty]
    -- What was read is taken off all places alike, and the places stay inside the rest.
    refine ⟨List.pairwise_map.2 ((h.sorted.sublist hsub).imp ?_), fun hole hmem => ?_⟩
    · intro hole hole' hle i hi j hj
      simp only [Structuring.rebase, Option.mem_def, Option.map_eq_some_iff] at hi hj
      obtain ⟨i, hi, rfl⟩ := hi
      obtain ⟨j, hj, rfl⟩ := hj
      exact Nat.sub_le_sub_right (hle i hi j hj) _
    · obtain ⟨hole, hmem', rfl⟩ := List.mem_map.1 hmem
      obtain ⟨i, hi, hle⟩ := h.place hole (hsub.subset hmem')
      refine ⟨i - (scan (a.carried ++ text)).stop.offset, by simp [Structuring.rebase, hi], ?_⟩
      simp only [Cursor.offset_start, Cursor.rest_start, List.length_append] at hlength
      simp only [Scan.remainder, scan]
      omega

theorem take (h : a.InTag) (hidle : a.Idle) {item : Item} (hitem : item.Tidy) :
    (a.take item).InTag := by
  cases item with
  | markup text => exact h.takeMarkup hidle text
  | «attribute» node => exact hitem.elim
  | hole node =>
    simp only [Assembly.take]
    split
    · exact ⟨h.sorted, h.place⟩
    · refine ⟨List.pairwise_append.2 ⟨h.sorted, List.pairwise_singleton _ _, ?_⟩,
        fun hole hmem => ?_⟩
      · intro hole hmem hole' hmem' i hi j hj
        obtain ⟨k, hk, hle⟩ := h.place hole hmem
        obtain rfl := List.mem_singleton.1 hmem'
        simp only [hk, Option.mem_def, Option.some.injEq] at hi hj
        omega
      · rcases List.mem_append.1 hmem with hmem | hmem
        · exact h.place hole hmem
        · obtain rfl := List.mem_singleton.1 hmem
          exact ⟨_, rfl, Nat.le_refl _⟩

end InTag

theorem view_takeMarkup (haccount : Accounted n arrived a) (hshaped : a.Shaped n)
    (hsorted : a.Sorted) (text : Bytes) :
    (a.takeMarkup text).view n = (a.view n).read (a.carried ++ text) ∧
      (a.takeMarkup text).carried = (scan (a.carried ++ text)).remainder := by
  have hview : ((scan (a.carried ++ text)).tokens.foldl apply a).view n =
      (a.view n).read (a.carried ++ text) :=
    view_foldl_apply haccount hshaped hsorted fun t ht => Cursor.named_of_mem_tokens ht
  simp only [takeMarkup]
  split
  · next hempty => exact ⟨hview, (List.isEmpty_iff.1 hempty).symm⟩
  · exact ⟨hview, rfl⟩

/-- The next child is seen as its markup, after the markup before it. -/
theorem view_take (haccount : Accounted n arrived a) (hshaped : a.Shaped n) (hintag : a.InTag)
    {v : View} {x : Bytes} (hx : endsInTagStart x = false) (hview : a.view n = v.read x)
    (hcarried : a.carried = (scan x).remainder) {item : Item} (hitem : item.Tidy)
    (hnode : ∀ id ∈ item.node?, id < n) :
    (a.take item).view n = v.read (x ++ item.text) ∧
      (a.take item).carried = (scan (x ++ item.text)).remainder := by
  cases item with
  | markup text =>
    have hcut : CutsCleanly x text := .of_not_endsInTagStart hx
    obtain ⟨hview', hcarried'⟩ := view_takeMarkup haccount hshaped hintag.sorted text
    rw [hview, hcarried] at hview'
    rw [hcarried] at hcarried'
    exact ⟨hview'.trans (v.read_append hcut).symm, hcarried'.trans (remainder_append hcut).symm⟩
  | «attribute» node => exact hitem.elim
  | hole node =>
    rw [Item.text, List.append_nil]
    simp only [take]
    split
    · have hleaf : ∀ id ∈ [node], id < n := by simpa using hnode node rfl
      refine ⟨?_, hcarried⟩
      rw [view_add, Forest.skeleton_leaves hleaf, View.add_nil, hview]
    · exact ⟨hview, hcarried⟩

/-- What is seen of all children is their markup in one piece. -/
theorem view_foldl_take (haccount : Accounted n arrived a) (hshaped : a.Shaped n)
    (hidle : a.Idle) (hintag : a.InTag) {v : View} {x : Bytes} (hx : endsInTagStart x = false)
    (hview : a.view n = v.read x) (hcarried : a.carried = (scan x).remainder) {items : List Item}
    (hitems : ∀ item ∈ items, item.Tidy ∧ ∀ id ∈ item.node?, id < n) :
    let b := items.foldl take a
    b.view n = v.read (x ++ items.flatMap Item.text) ∧
      b.carried = (scan (x ++ items.flatMap Item.text)).remainder ∧ b.Idle ∧ b.InTag := by
  induction items generalizing arrived a x with
  | nil => simpa using ⟨hview, hcarried, hidle, hintag⟩
  | cons item items ih =>
    obtain ⟨htidy, hnode⟩ := hitems item (by simp)
    obtain ⟨hview', hcarried'⟩ := view_take haccount hshaped hintag hx hview hcarried htidy hnode
    have hx' : endsInTagStart (x ++ item.text) = false := by
      cases item with
      | markup text => exact endsInTagStart_append hx htidy
      | «attribute» node => exact htidy.elim
      | hole node => rwa [Item.text, List.append_nil]
    rw [List.flatMap_cons, ← List.append_assoc]
    exact ih (haccount.take hnode) (hshaped.take haccount hnode) (hidle.take item)
      (hintag.take hidle htidy) hx' hview' hcarried' fun i hi => hitems i (by simp [hi])

/-- What is seen of a whole container, and what is left open. -/
theorem view_run {items : List Item}
    (hitems : ∀ item ∈ items, item.Tidy ∧ ∀ id ∈ item.node?, id < n) :
    (run n items).view n = (View.container .nil []).read (items.flatMap Item.text) ∧
      (run n items).carried = (scan (items.flatMap Item.text)).remainder ∧
      ((run n items).Complete ↔ (run n items).path = [] ∧ (run n items).carried = []) := by
  have hscan : scan [] = ⟨[], .start []⟩ := by
    have hnone : (Cursor.start []).next? = none := Cursor.next?_of_rest_eq_nil rfl
    rw [scan, Cursor.tokens_of_next?_eq_none hnone]
  have hread : (View.container .nil []).read [] = .container .nil [] := by
    rw [View.read, hscan]
    rfl
  obtain ⟨hview, hcarried, hidle, hintag⟩ := view_foldl_take (a := { next := n }) (x := [])
    (v := .container .nil []) (.start n) (.start n) (fun _ => rfl) ⟨.nil, by simp⟩ (by decide)
    (by rw [hread]; rfl) (by rw [hscan]; rfl) hitems
  refine ⟨hview, hcarried, fun h => ⟨h.1, h.2.1⟩, fun h => ⟨h.1, h.2, ?_⟩⟩
  exact hintag.waiting_eq_nil hidle h.2

/-- Whether an element is open can be seen. -/
theorem path_eq_nil_iff :
    a.path = [] ↔ ∃ body diagnostics, a.view n = .container body diagnostics := by
  rw [view]
  cases a.path with
  | nil => simp [viewPath]
  | cons branch path => simp [viewPath]

theorem view_of_path_eq_nil (h : a.path = []) :
    a.view n = .container (a.content.skeleton n).trimmed a.diagnostics := by
  rw [view, h]
  rfl

end Assembly

theorem endsInTagStart_flatMap {items : List Item} (h : ∀ item ∈ items, item.Tidy) :
    endsInTagStart (items.flatMap Item.text) = false := by
  induction items with
  | nil => rfl
  | cons item items ih =>
    rw [List.flatMap_cons]
    refine endsInTagStart_append ?_ (ih fun i hi => h i (List.mem_cons_of_mem _ hi))
    have hitem := h item (by simp)
    cases item with
    | markup text => exact hitem
    | _ => rfl

/-! ## The skeleton of a structured container -/

theorem Label.plain_plain (l : Label) : l.plain.plain = l.plain := by
  simp [Label.plain, Diagnostic.plain]

/-- The nodes below the number `n` that the skeleton of a forest leaves out, with all that stands
under them. -/
def Forest.unshown (n : Nat) : Forest → List NodeId
  | nil => []
  | cons id _ children siblings =>
    if id < n then id :: siblings.unshown n else children.unshown n ++ siblings.unshown n

theorem Forest.unshown_cons_of_lt {n : Nat} {id : NodeId} (h : id < n) (label : Label)
    (children siblings : Forest) :
    (cons id label children siblings).unshown n = id :: siblings.unshown n := if_pos h

theorem Forest.unshown_cons_of_le {n : Nat} {id : NodeId} (h : n ≤ id) (label : Label)
    (children siblings : Forest) :
    (cons id label children siblings).unshown n = children.unshown n ++ siblings.unshown n :=
  if_neg (Nat.not_lt.2 h)

namespace Document

variable {d : Document} {n : Nat} {f : Forest} {container : NodeId}

/-- A document that holds a forest has its skeleton, however it is unfolded. -/
theorem skeleton_unfold (hholds : d.Holds n f) {depth : Nat} (hheight : f.height ≤ depth) :
    (d.unfold depth f.roots).skeleton n = f.skeleton n := by
  induction f generalizing depth with
  | nil => rw [Forest.roots, unfold_nil]
  | cons id label children siblings ihc ihs =>
    obtain ⟨hid, hchildren, hsiblings⟩ := hholds
    simp only [Forest.height, Nat.max_le] at hheight
    obtain ⟨depth, rfl⟩ := Nat.exists_eq_add_one_of_ne_zero (n := depth) (by omega)
    have hs := ihs hsiblings hheight.2
    rw [Forest.roots, unfold_cons]
    -- What is under a hole is not seen, whatever the document has there.
    by_cases hlt : id < n
    · rw [Forest.skeleton_cons_of_lt hlt, Forest.skeleton_cons_of_lt hlt, hs]
    · obtain ⟨hlabel, hroots⟩ := hid (Nat.not_lt.1 hlt)
      have hkind : (d.label id).kind = label.kind := by rw [← hlabel, Label.plain_kind]
      have htext : (d.label id).text = label.text := by rw [← hlabel, Label.plain_text]
      have hplain : (d.label id).plain = label.plain := by rw [← hlabel, Label.plain_plain]
      simp only [Forest.skeleton, if_neg hlt, hs, hkind, htext, hplain, hroots,
        ihc hchildren (Nat.le_of_succ_le_succ hheight.1)]

/-- Of a forest in which holes are leaves, the skeleton leaves out the holes alone, however it is
unfolded. -/
theorem unshown_unfold {arrived : List NodeId} (hholds : d.Holds n f) (hin : f.InOrder n arrived)
    {depth : Nat} (hheight : f.height ≤ depth) :
    (d.unfold depth f.roots).unshown n = f.holes n := by
  induction f generalizing depth with
  | nil => rw [Forest.roots, unfold_nil, Forest.unshown, Forest.holes_nil]
  | cons id label children siblings ihc ihs =>
    obtain ⟨hid, hchildren, hsiblings⟩ := hholds
    obtain ⟨hleaf, hin⟩ := hin
    simp only [Forest.height, Nat.max_le] at hheight
    obtain ⟨depth, rfl⟩ := Nat.exists_eq_add_one_of_ne_zero (n := depth) (by omega)
    have hs := ihs hsiblings hin hheight.2
    rw [Forest.roots, unfold_cons]
    by_cases hlt : id < n
    · -- A hole has nothing under it in the forest, and what the document has there is not seen.
      rw [if_neg (Nat.not_le.2 hlt)] at hleaf
      subst hleaf
      rw [Forest.unshown_cons_of_lt hlt, Forest.holes_cons_of_lt hlt, hs, Forest.holes_nil,
        List.nil_append]
    · have hle := Nat.not_lt.1 hlt
      rw [if_pos hle] at hleaf
      have hc := ihc hchildren hleaf.2 (Nat.le_of_succ_le_succ hheight.1)
      rw [Forest.unshown_cons_of_le hle, Forest.holes_cons_of_le hle, hs, (hid hle).2, hc]

/-- No branch is longer than the nodes that were made, with one hole at its end. -/
theorem height_le_of_inOrder {arrived : List NodeId} (h : f.InOrder n arrived) :
    f.height ≤ (f.created n).length + 1 := by
  induction f with
  | nil => exact Nat.zero_le _
  | cons id label children siblings ihc ihs =>
    obtain ⟨hleaf, hsiblings⟩ := h
    have hs := ihs hsiblings
    split at hleaf
    · next hle =>
      have hc := ihc hleaf.2
      rw [Forest.created_cons_of_le hle]
      simp only [Forest.height, List.length_cons, List.length_append]
      omega
    · next hlt =>
      subst hleaf
      rw [Forest.created_cons_of_lt (Nat.not_le.1 hlt)]
      simp only [Forest.height, Forest.created_nil, List.nil_append]
      omega

section

variable (hcontainer : container < d.size)
  (hchildren : ∀ child ∈ d.children container, child < d.size)
  (hpath : (d.assembly container).path = [])
include hcontainer hchildren hpath

/-- Under a structured container stands its assembly, with no branch longer than the document has
nodes. -/
theorem roots_structureChildren :
    (d.structureChildren container).document.children container =
        (d.assembly container).content.roots ∧
      (d.assembly container).content.height ≤ (d.structureChildren container).document.size := by
  obtain ⟨-, hin⟩ := (inOrder_children hchildren).frames _ (Assembly.content_mem_frames _)
  refine ⟨children_structureChildren hcontainer hchildren hpath,
    Nat.le_trans (height_le_of_inOrder hin) ?_⟩
  have hlength := (perm_created hcontainer hchildren hpath).length_eq
  rw [added, List.length_range'] at hlength
  have hle := (stored_structureChildren hcontainer hchildren).le
  have hpos : 0 < d.size := d.size_pos
  omega

/-- The skeleton under a structured container is that of its assembly. -/
theorem skeleton_structureChildren :
    ((d.structureChildren container).document.forestBelow container).skeleton d.size =
      (d.assembly container).content.skeleton d.size := by
  obtain ⟨hroots, hheight⟩ := roots_structureChildren hcontainer hchildren hpath
  rw [forestBelow, hroots]
  exact skeleton_unfold (stored_structureChildren hcontainer hchildren).content hheight

omit hpath in
/-- Of a structured container, the skeleton leaves out the children that are no markup, each of them
once, and nothing else. -/
theorem unshown_structureChildren (hok : (d.structureChildren container).ok) :
    (((d.structureChildren container).document.forestBelow container).unshown d.size).Perm
      ((d.children container).filter fun child => d.kind child != .markup) := by
  have hcomplete := (ok_structureChildren_iff hcontainer hchildren).1 hok
  obtain ⟨hroots, hheight⟩ := roots_structureChildren hcontainer hchildren hcomplete.1
  obtain ⟨-, hin⟩ := (inOrder_children hchildren).frames _ (Assembly.content_mem_frames _)
  rw [forestBelow, hroots, unshown_unfold
    (stored_structureChildren hcontainer hchildren).content hin hheight]
  exact perm_holes hchildren hcomplete

end

/-! ## Markup in one piece -/

/-- The markup among the children of a container. -/
def markupBelow (d : Document) (container : NodeId) : Bytes :=
  ((d.children container).filter fun child => d.kind child == .markup).flatMap fun child =>
    (d.label child).text

/-- The document in which the container holds its markup in one piece and nothing else. -/
def joined (d : Document) (container : NodeId) : Document :=
  (d.add { kind := .markup, fragments := [d.markupBelow container] }).setChildren container [d.size]

theorem markupBelow_eq (d : Document) (container : NodeId) :
    d.markupBelow container = (d.items container).flatMap Item.text := by
  rw [markupBelow, items]
  induction d.children container with
  | nil => rfl
  | cons child children ih =>
    rw [List.map_cons, List.flatMap_cons, List.filter_cons, ← ih]
    cases hkind : d.kind child <;> simp [item, hkind, Item.text]

theorem size_joined (d : Document) (container : NodeId) :
    (d.joined container).size = d.size + 1 := by
  rw [joined, size_setChildren, size_add]

theorem children_joined (hcontainer : container < d.size) :
    (d.joined container).children container = [d.size] := by
  rw [joined, children_setChildren _ (by rw [size_add]; exact Nat.lt_succ_of_lt hcontainer),
    if_pos rfl]

theorem label_joined_size (d : Document) (container : NodeId) : (d.joined container).label d.size =
    { kind := .markup, fragments := [d.markupBelow container] } := by
  rw [joined, label_setChildren, label_add_size]

theorem kind_joined_size (d : Document) (container : NodeId) :
    (d.joined container).kind d.size = .markup := congrArg Label.kind (label_joined_size d container)

theorem items_joined (hcontainer : container < d.size) :
    (d.joined container).items container = [.markup (d.markupBelow container)] := by
  rw [items, children_joined hcontainer, List.map_singleton, item, kind_joined_size,
    label_joined_size]
  simp [Label.text]

/-- The diagnostics on a structured container: those that it had and those of its markup. -/
theorem diagnostics_structureChildren (hcontainer : container < d.size)
    (hchildren : ∀ child ∈ d.children container, child < d.size) :
    ((d.structureChildren container).document.label container).plain.diagnostics =
      (d.label container).plain.diagnostics ++ (d.assembly container).diagnostics := by
  rw [(stored_structureChildren hcontainer hchildren).label]

theorem markupBelow_joined (hcontainer : container < d.size) :
    (d.joined container).markupBelow container = d.markupBelow container := by
  rw [markupBelow_eq, items_joined hcontainer]
  simp [Item.text]

/-- What is seen of a container is its markup in one piece, and so is whether it can be structured.
-/
theorem view_assembly (hcontainer : container < d.size)
    (hchildren : ∀ child ∈ d.children container, child < d.size)
    (htidy : ∀ item ∈ d.items container, item.Tidy) :
    (d.assembly container).view d.size =
        (View.container .nil []).read (d.markupBelow container) ∧
      (d.assembly container).carried = (scan (d.markupBelow container)).remainder ∧
      ((d.structureChildren container).ok ↔
        (d.assembly container).path = [] ∧ (d.assembly container).carried = []) := by
  have hitems : ∀ item ∈ d.items container, item.Tidy ∧ ∀ id ∈ item.node?, id < d.size := by
    intro item hitem
    exact ⟨htidy item hitem, node_lt_of_mem_items hchildren item hitem⟩
  obtain ⟨hview, hcarried, hcomplete⟩ := Assembly.view_run hitems
  rw [markupBelow_eq]
  exact ⟨hview, hcarried, (ok_structureChildren_iff hcontainer hchildren).trans hcomplete⟩

/-- The markup in one piece has no holes. -/
theorem unshown_joined (hcontainer : container < d.size)
    (hok : ((d.joined container).structureChildren container).ok) :
    (((d.joined container).structureChildren container).document.forestBelow container).unshown
      (d.joined container).size = [] := by
  have hcontainer' : container < (d.joined container).size := by
    rw [size_joined]
    exact Nat.lt_succ_of_lt hcontainer
  have hperm := unshown_structureChildren hcontainer'
    (by rw [children_joined hcontainer, size_joined]; simp) hok
  rw [children_joined hcontainer] at hperm
  simpa [kind_joined_size] using hperm

/-- Holes are invisible to markup: a container can be structured if its markup can in one piece, and
then both have the same skeleton and the same diagnostics, white space and holes under the container
and places in the template apart. The skeleton of the container leaves out its children that are no
markup, each of them once, and the skeleton of the markup in one piece leaves out nothing. -/
theorem structureChildren_joined (hcontainer : container < d.size)
    (hchildren : ∀ child ∈ d.children container, child < d.size)
    (hattributes : ∀ child ∈ d.children container, d.kind child ≠ .attribute)
    (hcut : ∀ child ∈ d.children container, d.kind child = .markup →
      endsInTagStart (d.label child).text = false) :
    let r := d.structureChildren container
    let r' := (d.joined container).structureChildren container
    (r.ok ↔ r'.ok) ∧
      (r.ok → r'.ok →
        ((r.document.forestBelow container).skeleton d.size).trimmed =
            ((r'.document.forestBelow container).skeleton (d.joined container).size).trimmed ∧
          (r.document.label container).plain.diagnostics =
            (r'.document.label container).plain.diagnostics ∧
          ((r.document.forestBelow container).unshown d.size).Perm
            ((d.children container).filter fun child => d.kind child != .markup) ∧
          (r'.document.forestBelow container).unshown (d.joined container).size = []) := by
  have htidy : ∀ item ∈ d.items container, item.Tidy := by
    intro item hitem
    obtain ⟨child, hchild, rfl⟩ := List.mem_map.1 hitem
    have hattribute := hattributes child hchild
    have htext := hcut child hchild
    cases hkind : d.kind child <;> simp_all [item, Item.Tidy]
  -- The joined document has one piece of markup, which is tidy as all pieces are.
  have hcontainer' : container < (d.joined container).size := by
    rw [size_joined]
    exact Nat.lt_succ_of_lt hcontainer
  have hchildren' : ∀ child ∈ (d.joined container).children container,
      child < (d.joined container).size := by
    rw [children_joined hcontainer, size_joined]
    simp
  have htidy' : ∀ item ∈ (d.joined container).items container, item.Tidy := by
    rw [items_joined hcontainer, markupBelow_eq]
    intro item hitem
    obtain rfl := List.mem_singleton.1 hitem
    exact endsInTagStart_flatMap htidy
  obtain ⟨hview, hcarried, hok⟩ := view_assembly hcontainer hchildren htidy
  obtain ⟨hview', hcarried', hok'⟩ := view_assembly hcontainer' hchildren' htidy'
  rw [markupBelow_joined hcontainer, ← hview] at hview'
  rw [markupBelow_joined hcontainer, ← hcarried] at hcarried'
  refine ⟨?_, fun h h' => ?_⟩
  · rw [hok, hok', hcarried', Assembly.path_eq_nil_iff (n := d.size),
      Assembly.path_eq_nil_iff (n := (d.joined container).size), hview']
  · obtain ⟨hpath, -⟩ := hok.1 h
    obtain ⟨hpath', -⟩ := hok'.1 h'
    rw [Assembly.view_of_path_eq_nil hpath, Assembly.view_of_path_eq_nil hpath'] at hview'
    obtain ⟨hbody, hdiagnostics⟩ := View.container.inj hview'
    have hlabel : (d.joined container).label container = d.label container := by
      rw [joined, label_setChildren, label_add_of_lt _ hcontainer]
    rw [skeleton_structureChildren hcontainer hchildren hpath,
      skeleton_structureChildren hcontainer' hchildren' hpath',
      diagnostics_structureChildren hcontainer hchildren,
      diagnostics_structureChildren hcontainer' hchildren', hlabel, hdiagnostics]
    exact ⟨hbody.symm, rfl, unshown_structureChildren hcontainer hchildren h,
      unshown_joined hcontainer h'⟩

/-- A container in which holes split the name of a tag, a value, a comment and an end tag. -/
def splitMarkup : Document :=
  ⟨#[{ kind := .document, children := [1, 2, 3, 4, 5, 6, 7, 8, 9] },
    { kind := .markup, fragments := [utf8 " <d"] },
    { kind := .embedded .expression (utf8 "v") },
    { kind := .markup, fragments := [utf8 "iv b=\"x"] },
    { kind := .embedded .expression (utf8 "w") },
    { kind := .markup, fragments := [utf8 "y\">t<!-- c"] },
    { kind := .embedded .codeBlock (utf8 "x") },
    { kind := .markup, fragments := [utf8 " -->u</d"] },
    { kind := .embedded .expression (utf8 "y") },
    { kind := .markup, fragments := [utf8 "iv></p>"] }], by decide⟩

theorem splitMarkup_joined :
    (splitMarkup.structureChildren root).ok ∧
      (((splitMarkup.structureChildren root).document.forestBelow root).skeleton
          splitMarkup.size).trimmed =
        ((((splitMarkup.joined root).structureChildren root).document.forestBelow root).skeleton
          (splitMarkup.joined root).size).trimmed := by
  have hok : (splitMarkup.structureChildren root).ok := by decide +kernel
  have hroot : root < splitMarkup.size := by decide
  obtain ⟨hiff, hsame⟩ := structureChildren_joined hroot (by decide) (by decide)
    (by decide +kernel)
  exact ⟨hok, (hsame hok (hiff.1 hok)).1⟩

end Document

end MarkupTemplate
