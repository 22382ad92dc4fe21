import MarkupTemplate.Proofs.Building
import MarkupTemplate.Proofs.Compilation
import MarkupTemplate.Proofs.Program
import MarkupTemplate.Proofs.Unfolding

/-!
# What structuring composes

Structuring puts attributes under elements only, gives them values of leaves, and leaves everything
else where content can stand. A forest of this form has no component, it can be written as a
program, and its program has to do with every piece of embedded code in document order: expressions
are written, and code blocks are written or left out with a report.

## Main definitions

* `Forest.Composed`: elements, attributes with a value, and leaves, each where it can stand
* `Forest.embeddedCode`: the embedded code of a form in document order
* `Line.settles`: the embedded code that a line writes or leaves out

## Main results

* `Forest.Composed.writable`: what is composed can be written
* `Forest.Composed.settles_program`: a program settles the embedded code in document order
* `Forest.buildable_composed`: what is built of the pieces of an assembly is composed
-/

namespace MarkupTemplate

open Markup

theorem Label.code?_eq_none {form : Form} {label : Label} (h : label.kind.bare ≠ default) :
    label.code? form = none := by
  unfold code?
  cases hk : label.kind with
  | embedded form' code => exact absurd (by rw [hk]; rfl) h
  | _ => rfl

/-! ## Composed forests -/

namespace Forest

variable {f g : Forest} {inElement : Bool}

/-- The forest is a value: leaves that can be the parts of one. -/
def IsValue : Forest → Prop
  | nil => True
  | cons _ label children siblings => (label.isValuePart ∧ children = nil) ∧ siblings.IsValue

/-- The forest is the node of a value with its parts, and nothing else. -/
def HoldsValue : Forest → Prop
  | cons _ label parts nil => label.kind = .attributeValue ∧ parts.IsValue
  | _ => False

/-- The forest is made of elements, attributes and leaves. Attributes stand in elements only, and
have a value. -/
def Composed (inElement : Bool) : Forest → Prop
  | nil => True
  | cons _ label children siblings =>
    (match label.kind with
      | .markup | .embedded .. => children = nil
      | .element => children.Composed true
      | .attribute => inElement ∧ children.HoldsValue
      | _ => False) ∧ siblings.Composed inElement

@[simp] theorem composed_nil : (nil : Forest).Composed inElement := trivial

theorem composed_append :
    (f ++ g).Composed inElement ↔ f.Composed inElement ∧ g.Composed inElement := by
  induction f with
  | nil => simp
  | cons id label children siblings _ ih => simp only [cons_append, Composed, ih, and_assoc]

theorem composed_leaves (ids : List NodeId) : (leaves ids).Composed inElement := by
  induction ids with
  | nil => trivial
  | cons id ids ih => exact ⟨rfl, ih⟩

theorem HoldsValue.exists_eq (h : f.HoldsValue) :
    ∃ id label parts, f = cons id label parts nil ∧ label.kind = .attributeValue ∧
      parts.IsValue := by
  cases f with
  | nil => exact h.elim
  | cons id label parts siblings =>
    cases siblings with
    | nil => exact ⟨id, label, parts, rfl, h⟩
    | cons => exact h.elim

theorem IsValue.isValuePart (h : f.IsValue) : ∀ part ∈ f.labels, part.isValuePart := by
  induction f with
  | nil => simp [labels]
  | cons id label children siblings _ ih =>
    rw [labels, List.forall_mem_cons]
    exact ⟨h.1.1, ih h.2⟩

/-- What is composed can be written. -/
theorem Composed.writable (h : f.Composed inElement) : f.Writable inElement := by
  induction f generalizing inElement with
  | nil => trivial
  | cons id label children siblings ihc ihs =>
    obtain ⟨hnode, hsiblings⟩ := h
    refine ⟨?_, ihs hsiblings⟩
    cases hk : label.kind with
    | markup | embedded => trivial
    | element =>
      simp only [hk] at hnode
      exact ihc hnode
    | «attribute» =>
      simp only [hk] at hnode
      obtain ⟨_, _, parts, rfl, -, hparts⟩ := hnode.2.exists_eq
      exact ⟨hnode.1, by simpa [childLabels] using hparts.isValuePart⟩
    | _ => simp [hk] at hnode

/-! ## Embedded code -/

/-- The embedded code of a form in document order. -/
def embeddedCode (form : Form) : Forest → List (NodeId × Bytes)
  | nil => []
  | cons id label children siblings =>
    (codeOf? form (id, label)).toList ++
      (children.embeddedCode form ++ siblings.embeddedCode form)

theorem IsValue.embeddedCode_eq (h : f.IsValue) (form : Form) :
    f.embeddedCode form = f.items.filterMap (codeOf? form) := by
  induction f with
  | nil => rfl
  | cons id label children siblings _ ih =>
    obtain ⟨⟨-, rfl⟩, hsiblings⟩ := h
    rw [embeddedCode, ih hsiblings, items]
    cases hcode : codeOf? form (id, label) <;> simp [hcode, embeddedCode]

end Forest

/-! ## Programs of composed forests -/

/-- The embedded code of a form that a line settles: code that it writes, and code blocks that it
leaves out with a report. -/
def Line.settles (form : Form) (l : Line) : List (NodeId × Bytes) :=
  l.writes form ++ if form = .codeBlock then l.reports.map fun g => (g.node, g.code) else []

/-- Expressions are settled by being written. -/
theorem settles_expression (lines : List Line) :
    lines.flatMap (Line.settles .expression) = lines.flatMap (Line.writes .expression) := by
  congr 1
  funext l
  exact List.append_nil _

/-- Code blocks are settled by being written or by being reported. -/
theorem perm_settles_codeBlock (lines : List Line) :
    (lines.flatMap (Line.settles .codeBlock)).Perm (lines.flatMap (Line.writes .codeBlock) ++
      (lines.flatMap Line.reports).map fun g => (g.node, g.code)) := by
  induction lines with
  | nil => exact .refl _
  | cons l lines ih =>
    have hl : l.settles .codeBlock =
        l.writes .codeBlock ++ l.reports.map fun g => (g.node, g.code) := rfl
    rw [List.perm_iff_count] at ih ⊢
    intro item
    have := ih item
    simp only [List.flatMap_cons, hl, List.map_append, List.count_append] at this ⊢
    omega

/-- A line for an attribute settles what is embedded in the value. -/
theorem Line.settles_addAttribute (form : Form) (level target : Nat) (owner : Label)
    (parts : List (NodeId × Label)) :
    settles form ⟨level, target, .addAttribute owner parts⟩ =
      parts.filterMap (codeOf? form) := by
  simp only [settles, writes, reports, Statement.writes, Statement.reports]
  -- Code blocks are all left out, and the others are all written.
  by_cases hform : form = .codeBlock
  · subst hform
    rw [if_pos rfl, if_pos rfl, List.map_filterMap, List.nil_append]
    congr 1
    funext part
    simp [codeOf?, Function.comp_def]
  · rw [if_neg hform, if_neg hform, List.append_nil]

namespace Forest

variable {f : Forest} {inElement : Bool}

/-- The program of a composed forest settles the embedded code in document order. -/
theorem Composed.settles_program (h : f.Composed inElement) {form : Form}
    (hform : form ≠ .directive) (target level : Nat) :
    (f.program target level).flatMap (Line.settles form) = f.embeddedCode form := by
  induction f generalizing inElement with
  | nil => rfl
  | cons id label children siblings ihc ihs =>
    obtain ⟨hnode, hsiblings⟩ := h
    -- A line without embedded code settles nothing.
    have hplain : ∀ statement : Statement, statement.writes form = [] → statement.reports = [] →
        Line.settles form ⟨level, target, statement⟩ = [] := by
      intro statement hwrites hreports
      simp [Line.settles, Line.writes, Line.reports, hwrites, hreports]
    suffices hself : ((cons id label children nil).program target level).flatMap
        (Line.settles form) = (codeOf? form (id, label)).toList ++ children.embeddedCode form by
      rw [program_cons, List.flatMap_append, hself, ihs hsiblings, embeddedCode, List.append_assoc]
    rw [program, program, List.append_nil]
    cases hk : label.kind with
    | markup =>
      simp only [hk] at hnode
      subst hnode
      simp [hplain (.addText label.text) rfl rfl, codeOf?, Label.code?, hk, embeddedCode]
    | embedded form' code =>
      simp only [hk] at hnode
      subst hnode
      have hcode : Line.settles form ⟨level, target, .embedded id form' code⟩ =
          (codeOf? form (id, label)).toList := by
        by_cases hform' : form' = form <;>
          simp [Line.settles, Line.writes, Line.reports, Statement.writes, Statement.reports,
            codeOf?, Label.code?, hk, hform']
      cases form' with
      | directive => simp [codeOf?, Label.code?, hk, Ne.symm hform, embeddedCode]
      | _ => simpa [embeddedCode] using hcode
    | element =>
      simp only [hk] at hnode
      simp [hplain (.openElement label.name) rfl rfl, hplain .closeElement rfl rfl, ihc hnode,
        codeOf?, Label.code?, hk]
    | «attribute» =>
      simp only [hk] at hnode
      obtain ⟨value, label', parts, rfl, hk', hparts⟩ := hnode.2.exists_eq
      simp [Line.settles_addAttribute, childItems, embeddedCode, hparts.embeddedCode_eq,
        codeOf?, Label.code?, hk, hk']
    | _ => simp [hk] at hnode

end Forest

/-! ## Other labels -/

/-- Kinds that are no embedded code are told apart. -/
theorem NodeKind.eq_of_bare_eq {kind kind' : NodeKind} (h : kind.bare = kind'.bare)
    (hne : kind'.bare ≠ default) : kind = kind' := by
  cases kind with
  | embedded form code => exact absurd h.symm hne
  | _ =>
    cases kind' with
    | embedded form code => exact absurd rfl hne
    | _ => exact h

namespace Forest

variable {f : Forest} {inElement : Bool} {label : NodeId → Label}

/-- The other labels are of the same kinds, but for what is embedded. -/
def SameKinds (label : NodeId → Label) : Forest → Prop
  | nil => True
  | cons id old children siblings =>
    (label id).kind.bare = old.kind.bare ∧ children.SameKinds label ∧ siblings.SameKinds label

theorem IsValue.relabel (h : f.IsValue) (hsame : f.SameKinds label) :
    (f.relabel label).IsValue := by
  induction f with
  | nil => trivial
  | cons id old children siblings _ ih =>
    obtain ⟨⟨hpart, rfl⟩, hsiblings⟩ := h
    -- Markup stays markup, and embedded code stays embedded code.
    refine ⟨⟨?_, rfl⟩, ih hsiblings hsame.2.2⟩
    have hkind := hsame.1
    rw [Label.isValuePart] at hpart ⊢
    cases hk : old.kind with
    | embedded form code =>
      rw [hk] at hkind
      cases hk' : (label id).kind with
      | embedded form' code' => rfl
      | _ => simp [hk', NodeKind.bare, default] at hkind
    | markup =>
      rw [hk] at hkind
      rw [NodeKind.eq_of_bare_eq hkind (by decide)]
    | _ => simp [hk] at hpart

/-- A composed forest is composed with other labels of the same kinds, too. -/
theorem Composed.relabel (h : f.Composed inElement) (hsame : f.SameKinds label) :
    (f.relabel label).Composed inElement := by
  induction f generalizing inElement with
  | nil => trivial
  | cons id old children siblings ihc ihs =>
    obtain ⟨hnode, hsiblings⟩ := h
    obtain ⟨hkind, hsamec, hsames⟩ := hsame
    refine ⟨?_, ihs hsiblings hsames⟩
    cases hk : old.kind with
    | embedded form code =>
      simp only [hk] at hnode hkind
      subst hnode
      cases hk' : (label id).kind with
      | embedded form' code' => rfl
      | _ => simp [hk', NodeKind.bare, default] at hkind
    | markup =>
      simp only [hk] at hnode hkind
      subst hnode
      rw [NodeKind.eq_of_bare_eq hkind (by decide)]
      rfl
    | element =>
      simp only [hk] at hnode hkind
      rw [NodeKind.eq_of_bare_eq hkind (by decide)]
      exact ihc hnode hsamec
    | «attribute» =>
      simp only [hk] at hnode hkind
      obtain ⟨value, old', parts, rfl, hk', hparts⟩ := hnode.2.exists_eq
      obtain ⟨hkind', hsamep, -⟩ := hsamec
      rw [hk'] at hkind'
      rw [NodeKind.eq_of_bare_eq hkind (by decide)]
      exact ⟨hnode.1, NodeKind.eq_of_bare_eq hkind' (by decide), hparts.relabel hsamep⟩
    | _ => simp [hk] at hnode

/-- With other labels the embedded code is that in the other labels. -/
theorem embeddedCode_relabel (f : Forest) (form : Form) :
    (f.relabel label).embeddedCode form =
      f.preorder.filterMap fun id => codeOf? form (id, label id) := by
  induction f with
  | nil => rfl
  | cons id old children siblings ihc ihs =>
    rw [relabel, embeddedCode, ihc, ihs, preorder]
    cases hcode : codeOf? form (id, label id) <;> simp [hcode]

end Forest

/-! ## Assemblies -/

theorem isValue_valueForest (next : Nat) (parts : List ValuePart) :
    (valueForest next parts).IsValue := by
  induction parts generalizing next with
  | nil => trivial
  | cons part parts ih =>
    cases part with
    | literal text => exact ⟨⟨rfl, rfl⟩, ih (next + 1)⟩
    | hole node => exact ⟨⟨rfl, rfl⟩, ih next⟩

/-- What is built of the pieces of an assembly is composed. -/
theorem Forest.buildable_composed : Forest.Buildable Forest.Composed where
  nil _ := trivial
  append hf hg := composed_append.2 ⟨hf, hg⟩
  hole _ _ := ⟨rfl, trivial⟩
  text _ _ _ _ _ := ⟨rfl, trivial⟩
  attributes next _ parts := ⟨⟨rfl, rfl, isValue_valueForest (next + 2) parts⟩, trivial⟩
  element _ hkind hchildren := by
    refine ⟨?_, trivial⟩
    rw [hkind]
    exact hchildren

end MarkupTemplate
