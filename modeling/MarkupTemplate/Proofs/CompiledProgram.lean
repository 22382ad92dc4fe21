import MarkupTemplate.Proofs.Composition
import MarkupTemplate.Proofs.Rendering
import MarkupTemplate.Proofs.Unfolding

/-!
# Programs of compiled templates

Structuring a flat document gives a tree that is composed, with all embedded code of the flat
document in it. So a template that can be used is always written to its end, and what the reader
found embedded in it is in the program: every expression once, and every code block once unless it
stands in a value, where it is reported.

## Main definitions

* `Document.embeddedCode`: the embedded code of a form in a document
* `Document.Composes`: a document is composed and has the embedded code of another one

## Main results

* `Document.Flat.composes_structured`: a flat document that is structured is composed, and embedded
  code is neither lost nor doubled
* `compileTemplate_written`: the program of a template that can be used
-/

namespace MarkupTemplate

namespace Document

variable {d : Document} {f : Forest}

/-- A node with its code, if that is embedded in the given form. -/
def codeAt? (form : Form) (d : Document) (id : NodeId) : Option (NodeId × Bytes) :=
  codeOf? form (id, d.label id)

/-- The embedded code of a form, in the order of the nodes. -/
def embeddedCode (form : Form) (d : Document) : List (NodeId × Bytes) :=
  (List.range d.size).filterMap (d.codeAt? form)

theorem codeAt?_eq_none {form : Form} {id : NodeId} (h : (d.kind id).bare ≠ default) :
    d.codeAt? form id = none := by
  have hnone : (d.label id).code? form = none := Label.code?_eq_none h
  simp [codeAt?, codeOf?, hnone]

/-- No code is embedded in markup. -/
theorem filterMap_codeAt?_filter (form : Form) (ids : List NodeId) :
    (ids.filter fun child => d.kind child != .markup).filterMap (d.codeAt? form) =
      ids.filterMap (d.codeAt? form) := by
  rw [List.filterMap_filter]
  congr 1
  funext id
  split
  · rfl
  · next hkind =>
    refine (codeAt?_eq_none ?_).symm
    rw [show d.kind id = .markup by simpa using hkind]
    decide

/-- The document has the kinds of a forest that it holds, if the holes are embedded code. -/
theorem sameKinds_of_holds {n : Nat} (hholds : d.Holds n f) (hshaped : f.Shaped n)
    (hholes : ∀ id ∈ f.holes n, (d.kind id).bare = default) : f.SameKinds d.label := by
  induction f with
  | nil => trivial
  | cons id label children siblings ihc ihs =>
    obtain ⟨hid, hchildren, hsiblings⟩ := hholds
    obtain ⟨hlabel, hshapedc, hshapeds⟩ := hshaped
    simp only [Forest.holes, Forest.preorder, List.mem_filter, List.mem_cons,
      List.mem_append] at hholes
    refine ⟨?_, ihc hchildren hshapedc fun i hi => ?_, ihs hsiblings hshapeds fun i hi => ?_⟩
    · split at hlabel
      · next hle =>
        rw [← (hid hle).1]
        rfl
      · next hlt =>
        rw [hlabel]
        exact hholes id ⟨.inl rfl, by simpa using hlt⟩
    · exact hholes i ⟨.inr (.inl (List.mem_filter.1 hi).1), (List.mem_filter.1 hi).2⟩
    · exact hholes i ⟨.inr (.inr (List.mem_filter.1 hi).1), (List.mem_filter.1 hi).2⟩

/-- Structuring makes no embedded code. -/
theorem filterMap_codeAt?_created {n : Nat} (hholds : d.Holds n f) (hshaped : f.Shaped n)
    (hholes : ∀ id ∈ f.holes n, (d.kind id).bare = default) (form : Form) :
    (f.created n).filterMap (d.codeAt? form) = [] := by
  rw [List.filterMap_eq_nil_iff]
  intro id hid
  obtain ⟨children, -, -, hnode⟩ := exists_shapedNode hholds hshaped hholes hid
  rw [Forest.ShapedNode, show (d.label id).plain.kind = d.kind id from rfl] at hnode
  apply codeAt?_eq_none
  intro hkind
  -- What is made is markup, an element, an attribute or its value.
  cases hk : d.kind id with
  | embedded form' code => simp [hk] at hnode
  | _ => simp [hk, NodeKind.bare, default] at hkind

namespace Flat

theorem embeddedCode_eq (h : d.Flat) (form : Form) :
    d.embeddedCode form = (d.children root).filterMap (d.codeAt? form) := by
  have hsize : d.size = d.size - 1 + 1 := (Nat.sub_add_cancel d.size_pos).symm
  have hroot : d.codeAt? form 0 = none := codeAt?_eq_none (by
    rw [show d.kind 0 = .document from h.kind_root]
    decide)
  rw [embeddedCode, h.children_root, List.range_eq_range', hsize, List.range'_succ,
    List.filterMap_cons, hroot]
  simp

end Flat

/-- What the document `d'` has under its root is composed, and the embedded code in it is that of
`d`. -/
structure Composes (d d' : Document) : Prop where
  composed : (d'.forestBelow root).Composed false
  perm (form : Form) : ((d'.forestBelow root).embeddedCode form).Perm (d.embeddedCode form)

namespace Flat

theorem Becomes.forestBelow_eq {d' : Document} (h : Becomes d d' f) :
    d'.forestBelow root = f.relabel d'.label := by
  refine Occurs.forestBelow_eq ⟨h.shows.exhibits,
    by simpa using (List.nodup_cons.1 h.nodup_preorder).2, fun id hid => ?_⟩
    (by simpa using h.children_root)
  rw [Forest.preorder_relabel] at hid
  rcases List.mem_append.1 ((f.perm_created_holes d.size).mem_iff.2 hid) with hid | hid
  · exact ((h.created id).1 hid).2
  · exact Nat.lt_of_lt_of_le (h.holes id hid).2.1 h.le

/-- A flat document without markup is composed of its leaves. -/
theorem composes_self (h : d.Flat) (hmarkup : ∀ id ∈ d.children root, d.kind id ≠ .markup) :
    Composes d d := by
  have hpreorder : (Forest.leaves (d.children root)).preorder = d.children root := by simp
  have hforest : d.forestBelow root = (Forest.leaves (d.children root)).relabel d.label := by
    refine Occurs.forestBelow_eq ⟨h.shows.exhibits, ?_, ?_⟩ (by simp)
    · rw [Forest.preorder_relabel, hpreorder, h.children_root]
      exact List.nodup_range' 1
    · rw [Forest.preorder_relabel, hpreorder]
      exact fun id hid => (h.mem_children_root hid).2
  have hsame : ∀ ids : List NodeId, (∀ id ∈ ids, (d.kind id).bare = default) →
      (Forest.leaves ids).SameKinds d.label := by
    intro ids hids
    induction ids with
    | nil => trivial
    | cons id ids ih =>
      exact ⟨hids id (by simp), trivial, ih fun i hi => hids i (List.mem_cons_of_mem _ hi)⟩
  constructor
  · rw [hforest]
    refine (Forest.composed_leaves _).relabel (hsame _ fun id hid => ?_)
    obtain ⟨hpos, hlt⟩ := h.mem_children_root hid
    exact (h.leaf id hpos hlt).2.resolve_left (hmarkup id hid)
  · intro form
    rw [hforest, Forest.embeddedCode_relabel, hpreorder, h.embeddedCode_eq]
    exact .refl _

/-- What structuring makes of a flat document is composed, and the embedded code is all there. -/
theorem composes_structureChildren (h : d.Flat) (hok : (d.structureChildren root).ok) :
    Composes d (d.structureChildren root).document := by
  have hroot : root < d.size := d.size_pos
  have hchildren : ∀ child ∈ d.children root, child < d.size :=
    fun child hchild => (h.mem_children_root hchild).2
  obtain ⟨hpath, -, -⟩ := (ok_structureChildren_iff hroot hchildren).1 hok
  have hkept := (stored_structureChildren hroot hchildren).kept
  have hbecomes := h.becomes hok
  have hholes := h.perm_holes hok
  have hcomposed : (d.assembly root).content.Composed !(d.assembly root).path.isEmpty :=
    (Assembly.built_run Forest.buildable_composed d.size (d.items root)).content
  rw [hpath] at hcomposed
  generalize (d.structureChildren root).document = d' at hkept hbecomes ⊢
  generalize (d.assembly root).content = f at hbecomes hholes hcomposed
  constructor
  · rw [hbecomes.forestBelow_eq]
    exact hcomposed.relabel (sameKinds_of_holds hbecomes.holds hbecomes.shaped hbecomes.bare)
  · intro form
    -- The holes are embedded code as before, and the other children of the root were markup.
    have hold : (f.holes d.size).filterMap (d'.codeAt? form) =
        (f.holes d.size).filterMap (d.codeAt? form) := by
      have hmap : (f.holes d.size).map (d'.codeAt? form) =
          (f.holes d.size).map (d.codeAt? form) := by
        refine List.map_congr_left fun id hid => ?_
        obtain ⟨hpos, hlt, -⟩ := hbecomes.holes id hid
        rw [codeAt?, label_eq_of_node_eq (hkept id hlt (Nat.ne_of_gt hpos)), codeAt?]
      simpa [List.filterMap_map] using congrArg (List.filterMap id) hmap
    have hcreated := filterMap_codeAt?_created hbecomes.holds hbecomes.shaped hbecomes.bare form
    rw [hbecomes.forestBelow_eq, Forest.embeddedCode_relabel, h.embeddedCode_eq]
    have hsplit := (f.perm_created_holes d.size).symm.filterMap (d'.codeAt? form)
    rw [List.filterMap_append, hcreated, List.nil_append, hold] at hsplit
    exact hsplit.trans (filterMap_codeAt?_filter form (d.children root) ▸ hholes.filterMap _)

/-- A flat document that is structured is composed, and embedded code is neither lost nor doubled.
-/
theorem composes_structured (h : d.Flat) (hok : d.structured.ok) :
    Composes d d.structured.document := by
  rw [h.structured_eq] at hok ⊢
  split at hok
  · next hmarkup =>
    rw [if_pos hmarkup]
    exact h.composes_structureChildren hok
  · next hmarkup =>
    rw [if_neg hmarkup]
    exact h.composes_self (by simpa using hmarkup)

end Flat

end Document

/-! ## Compiling and writing -/

/-- A template that can be used is written to its end, for any target. Every expression is written
once, as content or as a part of a value; every code block is written once as a line of its own, or
it is reported once; and nothing else is reported. -/
theorem compileTemplate_written (source name : Bytes) (components : Components) (verify : Bool)
    (target : Bytes) (husable : (compileTemplate source name components verify).usable) :
    let reading := (readTemplate source name).document
    let document := (compileTemplate source name components verify).document
    let lines := (document.forestBelow Document.root).program 1 0
    let outcome := (Renderer.start target).write document
    outcome.1 = true ∧ outcome.2.faults = [] ∧
      outcome.2.output = lines.flatMap (Line.text target) ∧
      (lines.flatMap (Line.writes .expression)).Perm (reading.embeddedCode .expression) ∧
      (lines.flatMap (Line.writes .codeBlock) ++
        (lines.flatMap Line.reports).map fun g => (g.node, g.code)).Perm
          (reading.embeddedCode .codeBlock) ∧
      outcome.2.diagnostics = (lines.flatMap Line.reports).map Report.diagnostic ∧
      ∀ diagnostic ∈ outcome.2.diagnostics, diagnostic.code = utf8 "STENCIL-E2002" := by
  rw [compileTemplate_eq] at husable ⊢
  -- The document is flat as it is read, and what is compiled of it is only structured.
  obtain ⟨hcomposed, hperm⟩ := (flat_readTemplate source name).composes_structured husable
  obtain ⟨hwritten, hfaults, houtput, hdiagnostics⟩ :=
    Renderer.write_of_writable target hcomposed.writable
  have hsettled : ∀ form : Form, form ≠ .directive → ((((readTemplate source
      name).document.structured.document.forestBelow Document.root).program 1 0).flatMap
        (Line.settles form)).Perm ((readTemplate source name).document.embeddedCode form) :=
    fun form hform => hcomposed.settles_program hform 1 0 ▸ hperm form
  refine ⟨hwritten, hfaults, houtput, ?_, ?_, hdiagnostics, ?_⟩
  · rw [← settles_expression]
    exact hsettled .expression (by decide)
  · exact (perm_settles_codeBlock _).symm.trans (hsettled .codeBlock (by decide))
  · intro diagnostic hmem
    rw [hdiagnostics] at hmem
    obtain ⟨g, -, rfl⟩ := List.mem_map.1 hmem
    exact g.code_diagnostic

/-- A template with code in a value and as content, expressions and code blocks. -/
def calloutTemplate : Bytes := utf8 "<p class=\"@(a)@\x7bb\x7d\">@c</p>@\x7bd\x7d"

theorem calloutTemplate_written :
    (compileTemplate calloutTemplate [] [] true).usable ∧
      let document := (compileTemplate calloutTemplate [] [] true).document
      let lines := (document.forestBelow Document.root).program 1 0
      ((Renderer.start (utf8 "builder")).write document).1 = true ∧
        (lines.flatMap (Line.writes .expression)).Perm [(2, utf8 "a"), (5, utf8 "c")] ∧
        (lines.flatMap (Line.writes .codeBlock) ++
          (lines.flatMap Line.reports).map fun g => (g.node, g.code)).Perm
            [(3, utf8 "b"), (7, utf8 "d")] := by
  have husable : (compileTemplate calloutTemplate [] [] true).usable := by decide +kernel
  have hexpressions : (readTemplate calloutTemplate []).document.embeddedCode .expression =
      [(2, utf8 "a"), (5, utf8 "c")] := by decide +kernel
  have hcodeBlocks : (readTemplate calloutTemplate []).document.embeddedCode .codeBlock =
      [(3, utf8 "b"), (7, utf8 "d")] := by decide +kernel
  obtain ⟨hwritten, -, -, hwrites, hsettled, -⟩ :=
    compileTemplate_written calloutTemplate [] [] true (utf8 "builder") husable
  exact ⟨husable, hwritten, hexpressions ▸ hwrites, hcodeBlocks ▸ hsettled⟩

end MarkupTemplate
