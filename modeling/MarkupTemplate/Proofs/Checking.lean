import MarkupTemplate.Proofs.CompiledProgram
import MarkupTemplate.Proofs.Troubles
import Mathlib.Data.List.Perm.Basic

/-!
# Checking templates

A session that only checks templates compiles them and writes nothing. So it tells all that a real
session tells but for what is found while documents are written: a code block that is left out of a
value. Trees leave nothing out, and a document is always written to its end. This is so on every
lawful host, for two sessions that start in the same world.

## Main definitions

* `Forest.CodeInValue`: a code block stands in a value
* `Session.LeavesOut`: a session writes a program that leaves a code block out

## Main results

* `Options.parse_check`: `--check` changes nothing but what is written
* `Forest.Composed.reports_eq_nil_iff`: a program leaves nothing out if no value holds a code block
* `Session.checked_iff`: checking finds what a real session finds, unless something is left out
-/

namespace MarkupTemplate

/-! ## Options -/

namespace Options

/-- The options for a session that only checks. -/
def checking (o : Options) : Options := { o with check := true }

/-- Checking is not changed by further arguments. -/
theorem parseFrom_checking (o : Options) (arguments : List Bytes) :
    o.checking.parseFrom arguments = (o.parseFrom arguments).map checking := by
  fun_induction parseFrom o arguments with
  | case1 o hempty | case2 o hempty => simp [parseFrom, checking, hempty, Except.map]
  | case3 o _ _ _ hread | case4 o _ _ hread | case5 o _ _ hread | case12 o _ hread =>
    rw [parseFrom.eq_def]
    simp only [hread]
    rfl
  | case6 o _ _ _ hread ih | case7 o _ _ _ hread ih | case8 o _ _ _ hread ih
  | case9 o _ _ hread ih | case10 o _ _ hread ih | case11 o _ _ _ hread ih
  | case13 o _ hread _ _ ih | case14 o _ _ _ hread ih =>
    rw [← ih, parseFrom.eq_def]
    simp only [hread]
    rfl

/-- A session that is to check has the same options but for that. -/
theorem parse_check {arguments : List Bytes} {o : Options} (h : parse arguments = .ok o) :
    parse (utf8 "--check" :: arguments) = .ok o.checking := by
  have hread : Argument.read (utf8 "--check") = .ok .check := by decide +kernel
  have hparse := parseFrom_checking {} arguments
  rw [show parseFrom {} arguments = .ok o from h] at hparse
  rw [parse, parseFrom.eq_def]
  simp only [hread]
  exact hparse

end Options

/-! ## Values with code blocks -/

namespace Forest

variable {f : Forest} {inElement : Bool}

/-- A code block stands in a value. -/
def CodeInValue : Forest → Prop
  | nil => False
  | cons _ label children siblings =>
    (label.kind = .attributeValue ∧ ∃ part ∈ children.labels, part.code? .codeBlock ≠ none) ∨
      children.CodeInValue ∨ siblings.CodeInValue

theorem IsValue.not_codeInValue (h : f.IsValue) : ¬ f.CodeInValue := by
  induction f with
  | nil => exact id
  | cons id label children siblings _ ih =>
    obtain ⟨⟨hpart, rfl⟩, hsiblings⟩ := h
    rintro (⟨hkind, -⟩ | hcode | hcode)
    · simp [Label.isValuePart, hkind] at hpart
    · exact hcode
    · exact ih hsiblings hcode

/-- An attribute is reported if its value holds a code block. -/
theorem HoldsValue.reports_eq_nil_iff (h : f.HoldsValue) (level target : Nat) (owner : Label) :
    Line.reports ⟨level, target, .addAttribute owner f.childItems⟩ = [] ↔ ¬ f.CodeInValue := by
  obtain ⟨id, label, parts, rfl, hkind, hparts⟩ := h.exists_eq
  have hnone := hparts.not_codeInValue
  simp only [Line.reports, Statement.reports, childItems, List.append_nil,
    List.filterMap_eq_nil_iff, Option.map_eq_none_iff, CodeInValue, hkind, hnone, or_false,
    true_and, not_exists, not_and, ← map_snd_items, List.forall_mem_map, Decidable.not_not]

/-- The program leaves nothing out if no value holds a code block. -/
theorem Composed.reports_eq_nil_iff (h : f.Composed inElement) (target level : Nat) :
    (f.program target level).flatMap Line.reports = [] ↔ ¬ f.CodeInValue := by
  induction f generalizing inElement target level with
  | nil => simp [program, CodeInValue]
  | cons id label children siblings ihc ihs =>
    obtain ⟨hnode, hsiblings⟩ := h
    rw [program_cons, List.flatMap_append, List.append_eq_nil_iff, ihs hsiblings, CodeInValue,
      ← or_assoc, not_or]
    refine and_congr_left fun _ => ?_
    cases hk : label.kind with
    | embedded form code =>
      simp only [hk] at hnode
      subst hnode
      cases form <;> simp [program, hk, CodeInValue, Line.reports, Statement.reports]
    | markup =>
      simp only [hk] at hnode
      subst hnode
      simp [program, hk, CodeInValue, Line.reports, Statement.reports]
    | element =>
      simp only [hk] at hnode
      have hchildren := ihc hnode target level
      simp only [program, hk, List.append_nil, List.flatMap_cons, List.flatMap_append,
        List.flatMap_nil]
      simpa [Line.reports, Statement.reports] using hchildren
    | «attribute» =>
      simp only [hk] at hnode
      have hvalue := hnode.2.reports_eq_nil_iff level target label
      simpa [program, hk] using hvalue
    | _ => simp [hk] at hnode

end Forest

/-! ## Sessions -/

namespace Session

variable {o : Options} {files : Surroundings} {path : Bytes}

/-- The lines about what is left out of the program for the template at a path. -/
def leftOut (o : Options) (files : Surroundings) (path : Bytes) : List Bytes :=
  match files.read? path with
  | none => []
  | some source =>
    let compilation := compileTemplate source path o.components o.verify
    if compilation.usable ∧ o.check = false ∧ o.emit = .render then
      (((compilation.document.forestBelow Document.root).program 1 0).flatMap Line.reports).map
        fun report => report.diagnostic.line path
    else []

/-- The program for the template at a path is asked for, and a value of the template holds a code
block. -/
def LeavesOut (o : Options) (files : Surroundings) (path : Bytes) : Prop :=
  o.check = false ∧ o.emit = .render ∧ ∃ source, files.read? path = some source ∧
    (compileTemplate source path o.components o.verify).usable ∧
      ((compileTemplate source path o.components o.verify).document.forestBelow
        Document.root).CodeInValue

/-- The document of a usable template is composed. -/
theorem composed_compileTemplate {source name : Bytes} {components : Components} {verify : Bool}
    (husable : (compileTemplate source name components verify).usable) :
    ((compileTemplate source name components verify).document.forestBelow
      Document.root).Composed false := by
  rw [compileTemplate_eq] at husable ⊢
  exact ((flat_readTemplate source name).composes_structured husable).composed

/-- What is told about a program that is written is what is left out of it. -/
theorem emissionTroubles_of_composed {d : Document} (hemit : o.emit = .render)
    (h : (d.forestBelow Document.root).Composed false) : emissionTroubles o path d =
      (((d.forestBelow Document.root).program 1 0).flatMap Line.reports).map
        fun report => report.diagnostic.line path := by
  obtain ⟨hwritten, -, -, hdiagnostics⟩ := Renderer.write_of_writable o.builder h.writable
  simp only [emissionTroubles, hemit, hwritten, hdiagnostics, if_true, List.append_nil,
    List.map_map]
  rfl

theorem writeTroubles_of_opens {d : Document}
    (hopens : ∀ output ∈ o.output, files.opens output) :
    writeTroubles o files path d = emissionTroubles o path d := by
  unfold writeTroubles
  split
  · rfl
  · next output houtput => rw [if_pos (hopens output houtput)]

/-- A session tells what it tells when it only checks, and then what is left out. -/
theorem inputTroubles_eq (hopens : ∀ output ∈ o.output, files.opens output) :
    inputTroubles o files path =
      inputTroubles o.checking files path ++ leftOut o files path := by
  unfold inputTroubles leftOut
  cases files.read? path with
  | none => rfl
  | some source =>
    have hchecking : compileTemplate source path o.checking.components o.checking.verify =
      compileTemplate source path o.components o.verify := rfl
    simp only [hchecking, List.append_assoc]
    by_cases husable : (compileTemplate source path o.components o.verify).usable
    · cases hcheck : o.check with
      | true => simp [husable, Options.checking]
      | false =>
        simp only [husable, if_true, Options.checking, List.nil_append,
          writeTroubles_of_opens hopens]
        cases hemit : o.emit with
        | tree => simp [emissionTroubles, hemit]
        | render =>
          simp [emissionTroubles_of_composed hemit (composed_compileTemplate husable)]
    · simp [husable]

theorem leftOut_eq_nil_iff : leftOut o files path = [] ↔ ¬ LeavesOut o files path := by
  unfold leftOut LeavesOut
  cases files.read? path with
  | none => simp
  | some source =>
    by_cases husable : (compileTemplate source path o.components o.verify).usable
    · have hreports := (composed_compileTemplate husable).reports_eq_nil_iff 1 0
      by_cases hwrites : o.check = false ∧ o.emit = .render
      · simp [husable, hwrites, hreports]
      · simp only [husable, hwrites, and_false, if_false, true_iff]
        exact fun h => hwrites ⟨h.1, h.2.1⟩
    · simp [husable]

/-- Every line that is told about something left out ends. -/
theorem endsLine_of_mem_leftOut {line : Bytes} (h : line ∈ leftOut o files path) :
    EndsLine line := by
  unfold leftOut at h
  split at h
  · cases h
  · dsimp only at h
    split at h
    · obtain ⟨report, -, rfl⟩ := List.mem_map.1 h
      exact endsLine_diagnostic _ _
    · cases h

/-- The troubles of a session that compiles templates. -/
theorem troubles_of_parse {arguments : List Bytes} (hparse : Options.parse arguments = .ok o)
    (hmode : o.mode = .compile) : troubles files arguments = compileTroubles o files := by
  simp only [troubles, hparse, runTroubles, hmode]

section Checked

variable {arguments : List Bytes} (hparse : Options.parse arguments = .ok o)
  (hmode : o.mode = .compile) (hopens : ∀ output ∈ o.output, files.opens output)

include hparse hmode

/-- Several templates cannot be written to one place, and are not checked for it, either. -/
theorem troubles_checked_of_several (hseveral : o.output.isSome ∧ 1 < o.inputs.length) :
    troubles files (utf8 "--check" :: arguments) = troubles files arguments := by
  have hseveral' : o.checking.output.isSome ∧ 1 < o.checking.inputs.length := hseveral
  rw [troubles_of_parse hparse hmode, troubles_of_parse (Options.parse_check hparse) hmode,
    compileTroubles_of_several hseveral, compileTroubles_of_several hseveral']

theorem troubles_checked (files : Surroundings)
    (honce : ¬ (o.output.isSome ∧ 1 < o.inputs.length)) :
    troubles files (utf8 "--check" :: arguments) =
      o.inputs.flatMap (inputTroubles o.checking files) := by
  have honce' : ¬ (o.checking.output.isSome ∧ 1 < o.checking.inputs.length) := honce
  rw [troubles_of_parse (Options.parse_check hparse) hmode, compileTroubles_of_once honce']
  rfl

include hopens

theorem troubles_real (honce : ¬ (o.output.isSome ∧ 1 < o.inputs.length)) :
    troubles files arguments = o.inputs.flatMap fun path =>
      inputTroubles o.checking files path ++ leftOut o files path := by
  rw [troubles_of_parse hparse hmode, compileTroubles_of_once honce]
  exact List.flatMap_congr fun path _ => inputTroubles_eq hopens

/-- If the same text is told, nothing is left out. -/
theorem leftOut_eq_nil_of_flatten_eq (honce : ¬ (o.output.isSome ∧ 1 < o.inputs.length))
    (h : (troubles files (utf8 "--check" :: arguments)).flatten =
      (troubles files arguments).flatten) :
    ∀ path ∈ o.inputs, leftOut o files path = [] := by
  have hperm := (List.flatMap_append_perm o.inputs (inputTroubles o.checking files)
    (leftOut o files)).flatten.length_eq
  rw [← troubles_real hparse hmode hopens honce, ← h,
    troubles_checked hparse hmode files honce, List.flatten_append, List.length_append, Nat.add_eq_left, List.length_eq_zero_iff,
    List.flatten_eq_nil_iff] at hperm
  refine fun path hpath => List.eq_nil_iff_forall_not_mem.2 fun line hline => ?_
  exact (endsLine_of_mem_leftOut hline).ne_nil
    (hperm line (List.mem_flatMap.2 ⟨path, hpath, hline⟩))

end Checked

/-- Checking finds all that a real session finds, with the same exit code, unless a program leaves
a code block out of a value. What is left out is told by the real session only. -/
theorem checked_iff {m : Type → Type} [Monad m] [Host m] {W : Type} (host : LawfulHost m W) (w : W)
    {arguments : List Bytes} (hparse : Options.parse arguments = .ok o) (hmode : o.mode = .compile)
    (hopens : ∀ output ∈ o.output, (host.surroundings w).opens output) :
    let real := host.run (ofArguments arguments) w
    let checked := host.run (ofArguments (utf8 "--check" :: arguments)) w
    let files := host.surroundings w
    let once := ¬ (o.output.isSome ∧ 1 < o.inputs.length)
    ((checked.1 = real.1 ∧ host.errors checked.2 = host.errors real.2) ↔
      ¬ (once ∧ ∃ path ∈ o.inputs, LeavesOut o files path)) ∧
    ∀ line, Wrong files arguments line ↔
      Wrong files (utf8 "--check" :: arguments) line ∨
        once ∧ ∃ path ∈ o.inputs, line ∈ leftOut o files path := by
  intro real checked files once
  obtain ⟨hcode, herrors⟩ := run_ofArguments host w arguments
  obtain ⟨hcode', herrors'⟩ := run_ofArguments host w (utf8 "--check" :: arguments)
  simp only [real, checked, files, hcode, herrors, hcode', herrors', List.append_cancel_left_eq,
    ← mem_troubles_iff]
  by_cases honce : once
  · have hreal := troubles_real hparse hmode hopens honce
    have hchecked := troubles_checked hparse hmode (host.surroundings w) honce
    refine ⟨⟨fun h => ?_, fun h => ?_⟩, fun line => ?_⟩
    · rintro ⟨-, path, hpath, hleaves⟩
      have hnone := leftOut_eq_nil_of_flatten_eq hparse hmode hopens honce h.2 path hpath
      exact leftOut_eq_nil_iff.1 hnone hleaves
    · have hsame : troubles (host.surroundings w) (utf8 "--check" :: arguments) =
          troubles (host.surroundings w) arguments := by
        rw [hreal, hchecked]
        refine List.flatMap_congr fun path hpath => ?_
        rw [leftOut_eq_nil_iff.2 fun hleaves => h ⟨honce, path, hpath, hleaves⟩, List.append_nil]
      rw [hsame]
      exact ⟨rfl, rfl⟩
    · simp only [hreal, hchecked, List.mem_flatMap, List.mem_append, honce, true_and]
      constructor
      · rintro ⟨path, hpath, h | h⟩
        · exact .inl ⟨path, hpath, h⟩
        · exact .inr ⟨path, hpath, h⟩
      · rintro (⟨path, hpath, h⟩ | ⟨path, hpath, h⟩)
        · exact ⟨path, hpath, .inl h⟩
        · exact ⟨path, hpath, .inr h⟩
  · rw [troubles_checked_of_several hparse hmode (Decidable.not_not.1 honce)]
    simp [honce]

/-- A directory with one template, in which a value holds an expression and a tag is closed twice.
-/
def closedTwice : Directory := ⟨[(utf8 "t", utf8 "<p a=\"@(b)\">x</p></p>")]⟩

theorem closedTwice_checked :
    let arguments := [utf8 "--emit=render", utf8 "-oout", utf8 "t"]
    let real := inDirectory closedTwice arguments
    let checked := inDirectory closedTwice (utf8 "--check" :: arguments)
    checked.1 = real.1 ∧ checked.2.err = real.2.err ∧ real.1 = 1 := by
  have hparse : Options.parse [utf8 "--emit=render", utf8 "-oout", utf8 "t"] =
      .ok { inputs := [utf8 "t"], output := some (utf8 "out"), emit := .render } := by rfl
  have hopens : ∀ output ∈ some (utf8 "out"), closedTwice.surroundings.opens output := by
    intro output houtput
    obtain rfl := Option.mem_some_iff.1 houtput
    decide +kernel
  have hnothing : leftOut { inputs := [utf8 "t"], output := some (utf8 "out"), emit := .render }
      closedTwice.surroundings (utf8 "t") = [] := by decide +kernel
  have hiff := (checked_iff World.host { directory := closedTwice } hparse rfl hopens).1
  obtain ⟨hcode, herrors⟩ := hiff.2 fun h => by
    obtain ⟨-, path, hpath, hleaves⟩ := h
    obtain rfl := List.mem_singleton.1 hpath
    exact leftOut_eq_nil_iff.1 hnothing hleaves
  exact ⟨hcode, herrors, by decide +kernel⟩

/-- A directory with one template, of which a value holds a code block. -/
def blockInValue : Directory := ⟨[(utf8 "t", utf8 "<p a=\"@\x7bb\x7d\">x</p>")]⟩

/-- Checking does not find a code block in a value, which the real session reports. -/
theorem blockInValue_checked :
    let arguments := [utf8 "--emit=render", utf8 "t"]
    let real := inDirectory blockInValue arguments
    let checked := inDirectory blockInValue (utf8 "--check" :: arguments)
    checked.1 = 0 ∧ checked.2.err = [] ∧ real.1 = 1 ∧
      real.2.err = utf8 ("STENCIL-E2002 t L1:C7 -> Code blocks are not supported in attribute " ++
        "values: 'b'. Use an expression instead.\n") := by
  decide +kernel

end Session

end MarkupTemplate
