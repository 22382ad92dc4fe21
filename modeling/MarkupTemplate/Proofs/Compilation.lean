import MarkupTemplate.Compile
import MarkupTemplate.Proofs.Verification

/-!
# Compiled templates are well-formed

The reader makes a flat document: a root with leaves of markup and embedded code. Structuring such a
document gives a well-formed one without constructs, so nothing is lowered and verification has
nothing to report.

## Main definitions

* `Document.Flat`: all nodes but the root are leaves under the root

## Main results

* `flat_readTemplate`: the document of a template is flat
* `Document.Flat.verify_structured`: a flat document is well-formed once it is structured
* `compileTemplate_wellFormed`: compiling reports no fault but those of structuring, and
  verification changes nothing
-/

namespace MarkupTemplate

namespace Document

variable {d : Document}

/-- All nodes but the root are markup or embedded code, and they are the children of the root in
order. -/
structure Flat (d : Document) : Prop where
  kind_root : d.kind root = .document
  children_root : d.children root = List.range' 1 (d.size - 1)
  leaf : ∀ id : Nat, 0 < id → id < d.size →
    d.children id = [] ∧ (d.kind id = .markup ∨ (d.kind id).bare = default)

/-! ## Reading -/

/-- The document without content is flat. -/
theorem Flat.empty : Document.empty.Flat :=
  ⟨rfl, rfl, fun _ hid hlt => absurd hlt (Nat.not_lt.2 hid)⟩

/-- A flat document stays flat with a further leaf under the root. -/
theorem Flat.add (h : d.Flat) {n : Node} (hchildren : n.children = [])
    (hkind : n.kind = .markup ∨ n.kind.bare = default) :
    Flat (under root (d.addNode n)).1 := by
  have hroot : root < d.size := d.size_pos
  have hlabel : ∀ id, (under root (d.addNode n)).1.label id = (d.add n).label id :=
    fun id => label_appendChild
  refine ⟨?_, ?_, fun id hid hlt => ?_⟩
  · have hkeep : (under root (d.addNode n)).1.label root = d.label root :=
      (hlabel root).trans (label_add_of_lt n hroot)
    exact (congrArg Label.kind hkeep).trans h.kind_root
  · -- The new node has the next number, and the range of children goes on with it.
    have hsize : d.size - 1 + 1 = d.size := Nat.sub_add_cancel hroot
    simp only [under, addNode]
    rw [children_appendChild (by rw [size_add]; exact Nat.lt_succ_of_lt hroot), if_pos rfl,
      children_add_of_lt n hroot, h.children_root, size_appendChild, size_add,
      Nat.add_sub_cancel]
    conv => rhs; rw [← hsize, List.range'_concat]
    rw [Nat.one_mul, Nat.add_comm 1, hsize]
  · have hsame : (under root (d.addNode n)).1.children id = (d.add n).children id :=
      children_appendChild_of_ne (Nat.ne_of_gt hid)
    have hkeep : (under root (d.addNode n)).1.kind id = ((d.add n).label id).kind :=
      congrArg Label.kind (hlabel id)
    rw [hsame, hkeep]
    -- A leaf is one of those before, or the new one.
    rcases Nat.lt_succ_iff_lt_or_eq.1 (by simpa [under, addNode] using hlt) with hlt | rfl
    · rw [children_add_of_lt n hlt, label_add_of_lt n hlt]
      exact h.leaf id hid hlt
    · rw [children_add_size, label_add_size]
      exact ⟨hchildren, hkind⟩

end Document

/-- A flat document stays flat with a segment of a template under the root. -/
theorem Document.Flat.addSegment {d : Document} (h : d.Flat) (source : Bytes) (s : Segment) :
    Flat (under root (d.addNode (s.node source))).1 := by
  -- Every segment is markup or embedded code, and its node has no children.
  refine h.add ?_ ?_
  · unfold Segment.node
    split <;> rfl
  · unfold Segment.node
    split
    · exact .inl rfl
    · exact .inr rfl

/-- The document of a template is flat. -/
theorem flat_readTemplate (source name : Bytes) : (readTemplate source name).document.Flat := by
  have hfold : ∀ (segments : List Segment) (d : Document), d.Flat →
      (segments.foldl (fun d s => (Document.under Document.root (d.addNode (s.node source))).1)
        d).Flat := by
    intro segments
    induction segments with
    | nil => exact fun _ h => h
    | cons s segments ih => exact fun d h => ih _ (h.addSegment source s)
  exact hfold _ _ .empty

/-! ## Structuring -/

/-- What is left open at the end of a container is all that structuring reports. -/
theorem Structuring.code_of_mem_faults {s : Structuring} {container : NodeId} {fault : Fault}
    (h : fault ∈ s.faults container) :
    fault.code ∈ [utf8 "STENCIL-I5001", utf8 "STENCIL-I5002", utf8 "STENCIL-I5003"] := by
  simp only [faults, List.mem_append] at h
  rcases h with (h | h) | h
  · split at h
    · simp at h
    · rw [List.mem_singleton.1 h]
      exact List.mem_cons_self
  · split at h
    · simp at h
    · rw [List.mem_singleton.1 h]
      exact List.mem_cons_of_mem _ List.mem_cons_self
  · split at h
    · simp at h
    · rw [List.mem_singleton.1 h]
      exact List.mem_cons_of_mem _ (List.mem_cons_of_mem _ List.mem_cons_self)

namespace Document

variable {d : Document}

/-- Rewrites that change nothing. -/
theorem rewriteEach_of_unchanged {α : Type} {f : Document → α → Rewrite} {items : List α}
    (h : ∀ item ∈ items, f d item = ⟨d, []⟩) : d.rewriteEach f items = ⟨d, []⟩ := by
  unfold rewriteEach
  induction items with
  | nil => rfl
  | cons item items ih =>
    rw [List.foldl_cons, Rewrite.andThen_of_ok rfl, h item (by simp)]
    exact ih fun i hi => h i (List.mem_cons_of_mem _ hi)

theorem structureFrom_of_leaf {id : NodeId} (depth : Nat) (h : d.children id = []) :
    structureFrom depth d id = ⟨d, []⟩ := by
  cases depth with
  | zero => rfl
  | succ depth => simp [structureFrom, h, rewriteEach, Rewrite.andThen, Rewrite.ok]

namespace Flat

theorem mem_children_root (h : d.Flat) {id : Nat} (hid : id ∈ d.children root) :
    0 < id ∧ id < d.size := by
  rw [h.children_root, List.mem_range'_1] at hid
  have hroot : 0 < d.size := d.size_pos
  exact ⟨hid.1, by omega⟩

/-- In a flat document only the root holds markup. -/
theorem structured_eq (h : d.Flat) : d.structured =
    if (d.children root).any fun child => d.kind child == .markup then d.structureChildren root
    else ⟨d, []⟩ := by
  have hroot : 0 < d.size := d.size_pos
  obtain ⟨depth, hdepth⟩ : ∃ depth, d.size + d.markupLength = depth + 1 :=
    ⟨d.size - 1 + d.markupLength, by omega⟩
  -- Below the root there is nothing to structure.
  have hbelow : d.rewriteEach (fun d child =>
      if d.kind child = .markup ∨ holdsValue (d.kind child) then ⟨d, []⟩
      else structureFrom depth d child) (d.children root) = ⟨d, []⟩ :=
    rewriteEach_of_unchanged fun child hchild => by
      obtain ⟨hlt, hlt'⟩ := h.mem_children_root hchild
      simp only [structureFrom_of_leaf depth (h.leaf child hlt hlt').1, ite_self]
  rw [structured, hdepth, structureFrom, hbelow, Rewrite.andThen_of_ok rfl]

/-- A flat document shows its leaves. -/
theorem shows (h : d.Flat) : d.Shows (Forest.leaves (d.children root)) := by
  have hshows : ∀ ids : List NodeId, (∀ id ∈ ids, d.children id = []) →
      d.Shows (Forest.leaves ids) := by
    intro ids hids
    induction ids with
    | nil => trivial
    | cons id ids ih =>
      exact ⟨hids id (by simp), trivial, ih fun i hi => hids i (List.mem_cons_of_mem _ hi)⟩
  refine hshows _ fun id hid => ?_
  obtain ⟨hpos, hlt⟩ := h.mem_children_root hid
  exact (h.leaf id hpos hlt).1

/-- A flat document is well-formed. -/
theorem verify (h : d.Flat) : d.verify := by
  have hchild : ∀ id : Nat, id ∈ d.children root → 0 < id ∧ id < d.size :=
    fun _ hid => h.mem_children_root hid
  refine verify_of_shows (f := Forest.leaves (d.children root)) (by rw [Forest.roots_leaves])
    h.shows ?_ ?_
  · intro id hid
    rw [Forest.preorder_leaves] at hid
    rcases List.mem_cons.1 hid with rfl | hid
    · exact ⟨d.size_pos, by simp [wellShaped, h.kind_root]⟩
    · obtain ⟨hlt, hlt'⟩ := hchild id hid
      obtain ⟨hleaf, hkind⟩ := h.leaf id hlt hlt'
      refine ⟨hlt', ?_⟩
      rcases hkind with hkind | hkind
      · rw [wellShaped, hleaf, hkind]
        rfl
      · exact wellShaped_of_bare hkind
  · rw [Forest.preorder_leaves, h.children_root]
    refine List.nodup_cons.2 ⟨fun hmem => ?_, List.nodup_range' 1⟩
    exact absurd (List.mem_range'_1.1 hmem).1 (by decide)

/-- The document `d'` is the flat document `d` with a forest of shaped nodes under its root, in
which the holes are the leaves that were there before. -/
structure Becomes (d d' : Document) (f : Forest) : Prop where
  kind_root : d'.kind root = .document
  children_root : d'.children root = f.roots
  le : d.size ≤ d'.size
  old : ∀ id : Nat, 0 < id → id < d.size → d'.kind id = .markup ∨ (d'.kind id).bare = default
  holds : d'.Holds d.size f
  shaped : f.Shaped d.size
  shows : d'.Shows f
  created : ∀ id : Nat, id ∈ f.created d.size ↔ d.size ≤ id ∧ id < d'.size
  holes : ∀ id : Nat, id ∈ f.holes d.size → 0 < id ∧ id < d.size ∧ (d'.kind id).bare = default
  nodup : (f.created d.size).Nodup ∧ (f.holes d.size).Nodup

/-- The holes of what is assembled are the children of the root that are no markup. -/
theorem perm_holes (h : d.Flat) (hok : (d.structureChildren root).ok) :
    ((d.assembly root).content.holes d.size).Perm
      ((d.children root).filter fun child => d.kind child != .markup) := by
  have hroot : root < d.size := d.size_pos
  have hchildren : ∀ child ∈ d.children root, child < d.size :=
    fun child hchild => (h.mem_children_root hchild).2
  exact Document.perm_holes hchildren ((ok_structureChildren_iff hroot hchildren).1 hok)

/-- What structuring makes of a flat document. -/
theorem becomes (h : d.Flat) (hok : (d.structureChildren root).ok) :
    Becomes d (d.structureChildren root).document (d.assembly root).content := by
  have hroot : root < d.size := d.size_pos
  have hchildren : ∀ child ∈ d.children root, child < d.size :=
    fun child hchild => (h.mem_children_root hchild).2
  obtain ⟨hpath, -, -⟩ := (ok_structureChildren_iff hroot hchildren).1 hok
  have hstored := stored_structureChildren hroot hchildren
  have haccount := accounted_children hchildren
  have hholes := h.perm_holes hok
  obtain ⟨-, hin⟩ := (inOrder_children hchildren).frames _ (Assembly.content_mem_frames _)
  obtain ⟨hshaped, -⟩ := (shaped_children hchildren).frames _ (Assembly.content_mem_frames _)
  have hcreated : (d.assembly root).created d.size = (d.assembly root).content.created d.size := by
    simp [Assembly.created, hpath]
  have hroots := hstored.path
  simp only [hpath] at hroots
  -- The holes are leaves of embedded code, as they were before.
  have hhole : ∀ id : Nat, id ∈ (d.assembly root).content.holes d.size → 0 < id ∧ id < d.size ∧
      (d.structureChildren root).document.children id = [] ∧
        ((d.structureChildren root).document.kind id).bare = default := by
    intro id hid
    obtain ⟨hchild, hnot⟩ := List.mem_filter.1 (hholes.mem_iff.1 hid)
    obtain ⟨hpos, hlt⟩ := h.mem_children_root hchild
    obtain ⟨hleaf, hkind⟩ := h.leaf id hpos hlt
    have hkeep := hstored.kept id hlt (Nat.ne_of_gt hpos)
    rw [children_eq_of_node_eq hkeep, kind, hkeep]
    exact ⟨hpos, hlt, hleaf, hkind.resolve_left (by simpa using hnot)⟩
  exact
    { kind_root := (congrArg Label.kind hstored.label).trans h.kind_root
      children_root := hroots
      le := hstored.le
      old := fun id hpos hlt => by
        rw [kind, hstored.kept id hlt (Nat.ne_of_gt hpos)]
        exact (h.leaf id hpos hlt).2
      holds := hstored.content
      shaped := hshaped
      shows := shows_of_holds hstored.content hin fun id hid => (hhole id hid).2.2.1
      created := fun id => by
        rw [← hcreated, hstored.size]
        exact haccount.mem_created
      holes := fun id hid => ⟨(hhole id hid).1, (hhole id hid).2.1, (hhole id hid).2.2.2⟩
      nodup := by
        refine ⟨hcreated ▸ haccount.nodup, hholes.nodup_iff.2 ?_⟩
        rw [h.children_root]
        exact (List.nodup_range' 1).filter _ }

namespace Becomes

variable {d' : Document} {f : Forest}

theorem bare (h : Becomes d d' f) : ∀ id ∈ f.holes d.size, (d'.kind id).bare = default :=
  fun id hid => (h.holes id hid).2.2

/-- Every node comes once. -/
theorem nodup_preorder (h : Becomes d d' f) : (root :: f.preorder).Nodup := by
  refine List.nodup_cons.2 ⟨fun hid => ?_, ?_⟩
  · rcases List.mem_append.1 ((f.perm_created_holes d.size).mem_iff.2 hid) with hid | hid
    · exact Nat.not_lt.2 ((h.created root).1 hid).1 d.size_pos
    · exact Nat.lt_irrefl 0 (h.holes root hid).1
  · rw [← (f.perm_created_holes d.size).nodup_iff, List.nodup_append]
    refine ⟨h.nodup.1, h.nodup.2, fun i hi j hj => ?_⟩
    rintro rfl
    exact Nat.not_lt.2 ((h.created i).1 hi).1 (h.holes i hj).2.1

/-- The result is well-formed. -/
theorem verify (h : Becomes d d' f) : d'.verify := by
  refine verify_of_shows h.children_root h.shows (fun id hid => ?_) h.nodup_preorder
  rcases List.mem_cons.1 hid with rfl | hid
  · exact ⟨d'.size_pos, by simp [wellShaped, h.kind_root]⟩
  · -- A node was made by structuring, or it is a leaf that was there before.
    rcases List.mem_append.1 ((f.perm_created_holes d.size).mem_iff.2 hid) with hid | hid
    · exact ⟨((h.created id).1 hid).2, wellShaped_of_shaped h.holds h.shaped h.bare hid⟩
    · exact ⟨Nat.lt_of_lt_of_le (h.holes id hid).2.1 h.le, wellShaped_of_bare (h.bare id hid)⟩

/-- The result has no constructs. -/
theorem kind_ne_construct (h : Becomes d d' f) (id : Nat) : d'.kind id ≠ .construct := by
  intro hconstruct
  rcases Nat.eq_zero_or_pos id with rfl | hpos
  · exact absurd (hconstruct.symm.trans h.kind_root) (by decide)
  · rcases Nat.lt_or_ge id d.size with hlt | hge
    · have hold := h.old id hpos hlt
      rw [hconstruct] at hold
      exact absurd hold (by decide)
    · rcases Nat.lt_or_ge id d'.size with hlt | hge'
      · exact kind_ne_construct_of_shaped h.holds h.shaped h.bare ((h.created id).2 ⟨hge, hlt⟩)
          hconstruct
      · rw [kind, node_of_size_le d' hge'] at hconstruct
        exact absurd hconstruct (by decide)

end Becomes

theorem kind_ne_construct (h : d.Flat) (id : Nat) : d.kind id ≠ .construct := by
  intro hconstruct
  rcases Nat.eq_zero_or_pos id with rfl | hpos
  · exact absurd (hconstruct.symm.trans h.kind_root) (by decide)
  · rcases Nat.lt_or_ge id d.size with hlt | hge
    · have hkind := (h.leaf id hpos hlt).2
      rw [hconstruct] at hkind
      exact absurd hkind (by decide)
    · rw [kind, node_of_size_le d hge] at hconstruct
      exact absurd hconstruct (by decide)

/-- A flat document that is structured is well-formed and has no constructs. -/
theorem structured (h : d.Flat) (hok : d.structured.ok) :
    d.structured.document.verify ∧ ∀ id : Nat, d.structured.document.kind id ≠ .construct := by
  rw [h.structured_eq] at hok ⊢
  split at hok
  · next hmarkup =>
    rw [if_pos hmarkup]
    exact ⟨(h.becomes hok).verify, (h.becomes hok).kind_ne_construct⟩
  · next hmarkup =>
    rw [if_neg hmarkup]
    exact ⟨h.verify, h.kind_ne_construct⟩

/-- What structuring reports of a flat document. -/
theorem code_of_mem_faults (h : d.Flat) : ∀ fault ∈ d.structured.faults,
    fault.code ∈ [utf8 "STENCIL-I5001", utf8 "STENCIL-I5002", utf8 "STENCIL-I5003"] := by
  rw [h.structured_eq]
  split
  · exact fun fault hfault => Structuring.code_of_mem_faults hfault
  · simp

end Flat

/-! ## Lowering -/

theorem orphans_unfold {components : Components} (h : ∀ id : Nat, d.kind id ≠ .construct)
    (depth : Nat) (ids : List NodeId) (parent : NodeId) :
    (d.unfold depth ids).orphans components parent = [] := by
  induction depth generalizing ids parent with
  | zero => rfl
  | succ depth ihd =>
    induction ids with
    | nil => rfl
    | cons id ids ihs =>
      have hkind : (d.label id).isOrphan components = false := by
        have hne : (d.label id).kind ≠ .construct := h id
        simp [Label.isOrphan, hne]
      simp [unfold_cons, Forest.orphans, ihd, ihs, hkind]

/-- Without constructs there is nothing to lower. -/
theorem lowered_of_forall_kind_ne {components : Components}
    (h : ∀ id : Nat, d.kind id ≠ .construct) : d.lowered components = ⟨d, []⟩ := by
  have horphans : d.orphans components = [] := orphans_unfold h d.size _ root
  simp [lowered, horphans, firstRepeated, rewriteEach]

end Document

/-! ## Compiling -/

/-- Compiling is structuring: nothing is lowered, and verification finds nothing. -/
theorem compileTemplate_eq (source name : Bytes) (components : Components) (verify : Bool) :
    compileTemplate source name components verify =
      let reading := readTemplate source name
      let structured := reading.document.structured
      { document := structured.document
        diagnostics :=
          reading.diagnostics ++ (if structured.ok then structured.document.diagnostics else [])
        faults := structured.faults } := by
  have hflat := flat_readTemplate source name
  -- Lowering rewrites constructs only, and structuring makes none.
  have hlowered : ((readTemplate source name).document.structured.andThen fun d =>
      d.lowered components) = (readTemplate source name).document.structured :=
    Rewrite.andThen_of_unchanged fun hok =>
      Document.lowered_of_forall_kind_ne (hflat.structured hok).2
  have hverified : ((readTemplate source name).document.structured.andThen fun d =>
      d.verified name) = (readTemplate source name).document.structured :=
    Rewrite.andThen_of_unchanged fun hok => by
      rw [Document.verified, if_pos (hflat.structured hok).1]
  cases verify <;> simp [compileTemplate, hlowered, hverified]

/-- Compiling reports no fault of verification or of lowering, nor a token that structuring does not
know. If the markup can be structured, the document that comes out is well-formed, so verification
makes no difference. -/
theorem compileTemplate_wellFormed (source name : Bytes) (components : Components) :
    (∀ verify : Bool, ∀ fault ∈ (compileTemplate source name components verify).faults,
      fault.code ∉ [utf8 "STENCIL-I5401", utf8 "STENCIL-I5101", utf8 "STENCIL-I5102",
        utf8 "STENCIL-I5004"]) ∧
    ((readTemplate source name).document.structured.ok → ∀ verify : Bool,
      (compileTemplate source name components verify).document.verify) ∧
    compileTemplate source name components true = compileTemplate source name components false := by
  have hflat := flat_readTemplate source name
  refine ⟨fun verify fault hfault hcode => ?_, fun hok verify => ?_, ?_⟩
  · rw [compileTemplate_eq] at hfault
    -- The codes of structuring are none of these.
    have hdisjoint : ∀ code ∈ [utf8 "STENCIL-I5001", utf8 "STENCIL-I5002", utf8 "STENCIL-I5003"],
        code ∉ [utf8 "STENCIL-I5401", utf8 "STENCIL-I5101", utf8 "STENCIL-I5102",
          utf8 "STENCIL-I5004"] := by decide
    exact hdisjoint fault.code (hflat.code_of_mem_faults fault hfault) hcode
  · rw [compileTemplate_eq]
    exact (hflat.structured hok).1
  · rw [compileTemplate_eq, compileTemplate_eq]

/-- A template with embedded code in a value and between two tags. -/
def listTemplate : Bytes := utf8 "<ul><li class=\"a@(b)\">@c</li></ul>"

theorem listTemplate_wellFormed :
    (readTemplate listTemplate []).document.structured.ok ∧
      (compileTemplate listTemplate [] [] true).document.verify := by
  have hok : (readTemplate listTemplate []).document.structured.ok := by decide +kernel
  exact ⟨hok, (compileTemplate_wellFormed listTemplate [] []).2.1 hok true⟩

end MarkupTemplate
