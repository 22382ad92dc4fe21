import MarkupTemplate.Proofs.Hosting
import MarkupTemplate.Proofs.Labels

/-!
# What a session tells

A session tells what is wrong on its standard error, line by line, and nothing else. The lines
follow from the arguments and the files alone, without the order in which streams and files are
touched: a session never reads what it has written, since several templates cannot be written to one
place. The exit code says whether there is such a line. All this holds on every lawful host, in
whatever world the session starts.

## Main definitions

* `Session.troubles`: the lines that a session tells
* `Session.Wrong`: what can be wrong with arguments, files, templates and documents, and its line

## Main results

* `Session.tells_ofArguments`: a session tells its troubles, and exits with 0 if it has none
* `Session.mem_troubles_iff`: the troubles are all that is wrong
* `Session.ofArguments_truthful`: the exit code tells the truth
-/

namespace MarkupTemplate

namespace Session

/-! ## Lines -/

/-- The line for a template that cannot be opened. -/
def unreadableLine (path : Bytes) : Bytes :=
  utf8 "STENCIL-E3000 InputReadFailed: unable to open '" ++ path ++ utf8 "'.\n"

/-- The line for a place that cannot be opened. -/
def unwritableLine (path : Bytes) : Bytes :=
  utf8 "STENCIL-E3001 OutputWriteFailed: unable to open '" ++ path ++ utf8 "'.\n"

/-- The line for several templates that are to be written to one place. -/
def severalInputsLine : Bytes :=
  utf8 "STENCIL-E3002 OutputSingleInput: -o requires a single input template.\n"

/-- The line for a template that had to be given up. -/
def abandonedLine (path : Bytes) : Bytes :=
  utf8 "STENCIL-E4000 InternalCompilerError: '" ++ path ++ utf8 "' was abandoned.\n"

/-- The text ends its line. -/
def EndsLine (s : Bytes) : Prop := s.getLast? = some Byte.lineFeed

instance (s : Bytes) : Decidable (EndsLine s) :=
  inferInstanceAs (Decidable (s.getLast? = some Byte.lineFeed))

theorem endsLine_append (s : Bytes) {t : Bytes} (h : EndsLine t) : EndsLine (s ++ t) := by
  rw [EndsLine, List.getLast?_append, show t.getLast? = _ from h]
  rfl

theorem EndsLine.ne_nil {s : Bytes} (h : EndsLine s) : s ≠ [] := by
  rintro rfl
  cases h

theorem endsLine_message (e : UsageError) : EndsLine e.message := by
  cases e with
  | unknownOption argument => exact endsLine_append _ (by decide)
  | unknownEmitKind word => exact endsLine_append _ (by decide)
  | missingOutput | missingInput | missingBuilderName | missingComponent => decide +kernel

theorem endsLine_diagnostic (path : Bytes) (g : Diagnostic) : EndsLine (g.line path) :=
  endsLine_append _ (by decide)

theorem endsLine_fault (fault : Fault) : EndsLine fault.line := endsLine_append _ (by decide)

/-! ## Sessions -/

/-- The lines about a document that is written. -/
def emissionTroubles (o : Options) (path : Bytes) (d : Document) : List Bytes :=
  match o.emit with
  | .tree => []
  | .render =>
    let (written, r) := (Renderer.start o.builder).write d
    r.diagnostics.map (Diagnostic.line path) ++
      if written then [] else abandonedLine path :: r.faults.map Fault.line

/-- The lines about a document and the place that it is written to. -/
def writeTroubles (o : Options) (files : Surroundings) (path : Bytes) (d : Document) :
    List Bytes :=
  match o.output with
  | none => emissionTroubles o path d
  | some output =>
    if files.opens output then emissionTroubles o path d else [unwritableLine output]

/-- The lines about the template at a path. -/
def inputTroubles (o : Options) (files : Surroundings) (path : Bytes) : List Bytes :=
  match files.read? path with
  | none => [unreadableLine path]
  | some source =>
    let compilation := compileTemplate source path o.components o.verify
    compilation.diagnostics.map (Diagnostic.line path) ++
      if compilation.usable then
        if o.check then [] else writeTroubles o files path compilation.document
      else abandonedLine path :: compilation.faults.map Fault.line

/-- The lines about the templates that options name. -/
def compileTroubles (o : Options) (files : Surroundings) : List Bytes :=
  if o.output.isSome && 1 < o.inputs.length then [severalInputsLine]
  else o.inputs.flatMap (inputTroubles o files)

theorem compileTroubles_of_several {o : Options} {files : Surroundings}
    (h : o.output.isSome ∧ 1 < o.inputs.length) :
    compileTroubles o files = [severalInputsLine] := by
  simp [compileTroubles, h]

theorem compileTroubles_of_once {o : Options} {files : Surroundings}
    (h : ¬ (o.output.isSome ∧ 1 < o.inputs.length)) :
    compileTroubles o files = o.inputs.flatMap (inputTroubles o files) := by
  simp [compileTroubles, h]

/-- The lines that a session for options tells. -/
def runTroubles (o : Options) (files : Surroundings) : List Bytes :=
  match o.mode with
  | .help | .version => []
  | .compile => compileTroubles o files

/-- The lines that a session tells. -/
def troubles (files : Surroundings) (arguments : List Bytes) : List Bytes :=
  match Options.parse arguments with
  | .error e => [e.message]
  | .ok o => runTroubles o files

theorem abandonedLines_eq (path : Bytes) (faults : List Fault) :
    abandonedLines path faults = (abandonedLine path :: faults.map Fault.line).flatten := by
  rw [List.flatten_cons, ← List.flatMap_def]
  rfl

/-- What is said about a document that is written, and whether all went well. -/
theorem emit_troubles (o : Options) (path : Bytes) (d : Document) :
    (emit o path d).warnings = (emissionTroubles o path d).flatten ∧
      (emit o path d).ok = (emissionTroubles o path d).isEmpty := by
  unfold emit emissionTroubles
  cases o.emit with
  | tree => exact ⟨rfl, rfl⟩
  | render =>
    dsimp only
    split
    · simp [diagnosticLines, List.flatMap_def]
    · simp [diagnosticLines, List.flatMap_def, abandonedLines_eq]

/-- A usable template is in order if nothing is reported of it. -/
theorem not_hasErrors_compileTemplate {source name : Bytes} {components : Components}
    {verify : Bool} (husable : (compileTemplate source name components verify).usable = true) :
    (!(compileTemplate source name components verify).hasErrors) =
      (compileTemplate source name components verify).diagnostics.isEmpty := by
  rw [Compilation.hasErrors, husable]
  cases hdiagnostics : (compileTemplate source name components verify).diagnostics with
  | nil => rfl
  | cons g diagnostics =>
    have herror : g.isWarning = false :=
      isWarning_of_mem_diagnostics (hdiagnostics ▸ List.mem_cons_self)
    simp [herror]

theorem isEmpty_append (lines lines' : List Bytes) :
    (lines ++ lines').isEmpty = (lines.isEmpty && lines'.isEmpty) := by
  cases lines <;> rfl

section Tells

variable {m : Type → Type} [Monad m] [Host m] {W : Type} (host : LawfulHost m W)

theorem tells_write (o : Options) (files : Surroundings) (path : Bytes) (d : Document) :
    host.Tells (write o path d) files (writeTroubles o files path d).isEmpty
      (writeTroubles o files path d).flatten fun left => o.output = none → left = files := by
  obtain ⟨hwarnings, hok⟩ := emit_troubles o path d
  cases houtput : o.output with
  | none =>
    simp only [write, writeTroubles, houtput, ← hwarnings, ← hok]
    refine (host.tells_print rfl _).next (forall_eq'.2 ?_)
    refine (host.tells_warn rfl _).last (forall_eq'.2 ?_)
    refine (host.tells_print rfl _).next (forall_eq'.2 ?_)
    exact host.tells_pure (fun _ => rfl) _
  | some output =>
    have hcreate := host.tells_createFile files output
    simp only [write, writeTroubles, houtput]
    -- From here on the files may be others, but they are not read any more.
    cases hopens : files.opens output with
    | true =>
      rw [hopens] at hcreate
      refine hcreate.next fun created _ => ?_
      simp only [if_pos, ← hwarnings, ← hok]
      refine (host.tells_warn rfl _).last (forall_eq'.2 ?_)
      refine (host.tells_writeFile _ _ _).next fun written _ => ?_
      cases (emit o path d).ok with
      | true =>
        refine (host.tells_print rfl _).next (forall_eq'.2 ?_)
        exact host.tells_pure nofun _
      | false => exact host.tells_pure nofun _
    | false =>
      rw [hopens] at hcreate
      refine hcreate.next fun created _ => ?_
      simp only [Bool.false_eq_true, if_false, List.flatten_singleton]
      refine (host.tells_warn rfl _).last (forall_eq'.2 ?_)
      exact host.tells_pure nofun _

theorem tells_compileInput (o : Options) (files : Surroundings) (path : Bytes) :
    host.Tells (compileInput o path) files (inputTroubles o files path).isEmpty
      (inputTroubles o files path).flatten fun left => o.output = none → left = files := by
  unfold compileInput inputTroubles
  have hread := host.tells_readFile? rfl path (P := (files = ·))
  refine (host.tells_print rfl _).next (forall_eq'.2 ?_)
  cases hsource : files.read? path with
  | none =>
    rw [hsource] at hread
    refine hread.next (forall_eq'.2 ?_)
    rw [List.flatten_singleton]
    refine (host.tells_warn rfl _).last (forall_eq'.2 ?_)
    exact host.tells_pure (fun _ => rfl) _
  | some source =>
    rw [hsource] at hread
    refine hread.next (forall_eq'.2 ?_)
    have hlines : ∀ diagnostics, (diagnostics.map (Diagnostic.line path)).flatten =
        diagnosticLines path diagnostics := fun _ => List.flatMap_def.symm
    simp only [List.flatten_append, isEmpty_append, List.isEmpty_map, hlines]
    refine (host.tells_warn rfl _).bind (forall_eq'.2 ?_)
    cases husable : (compileTemplate source path o.components o.verify).usable with
    | false =>
      simp only [Bool.false_eq_true, if_false, List.isEmpty_cons, Bool.and_false,
        ← abandonedLines_eq]
      refine (host.tells_warn rfl _).last (forall_eq'.2 ?_)
      exact host.tells_pure (fun _ => rfl) _
    | true =>
      -- All went well if nothing is told when it is written, and no diagnostic was told before.
      have hanswer : ∀ written : Bool,
          ((compileTemplate source path o.components o.verify).diagnostics.isEmpty && written) =
            (written && !(compileTemplate source path o.components o.verify).hasErrors) :=
        fun written => by rw [not_hasErrors_compileTemplate husable, Bool.and_comm]
      simp only [if_true, hanswer]
      refine (host.tells_print rfl _).next (forall_eq'.2 ?_)
      cases o.check with
      | true =>
        refine (host.tells_pure rfl _).next (forall_eq'.2 ?_)
        exact host.tells_pure (fun _ => rfl) _
      | false =>
        refine (tells_write host o files path _).last fun left hleft => ?_
        exact host.tells_pure hleft _

theorem tells_compileInputs (o : Options) (files : Surroundings) {paths : List Bytes}
    (honce : o.output = none ∨ paths.length ≤ 1) :
    host.Tells (compileInputs o paths) files (paths.flatMap (inputTroubles o files)).isEmpty
      (paths.flatMap (inputTroubles o files)).flatten fun _ => True := by
  induction paths with
  | nil => exact host.tells_pure trivial _
  | cons path paths ih =>
    rw [List.flatMap_cons, List.flatten_append, isEmpty_append]
    refine (tells_compileInput host o files path).bind fun left hleft => ?_
    -- The files are the same for the others, or there are none.
    have hothers : host.Tells (compileInputs o paths) left
        (paths.flatMap (inputTroubles o files)).isEmpty
        (paths.flatMap (inputTroubles o files)).flatten fun _ => True := by
      rcases honce with hnone | hlength
      · rw [hleft hnone]
        exact ih (.inl hnone)
      · obtain rfl := List.length_eq_zero_iff.1 (Nat.le_zero.1 (Nat.le_of_succ_le_succ hlength))
        exact host.tells_pure trivial _
    exact hothers.last fun _ _ => host.tells_pure trivial _

theorem tells_compile (o : Options) (files : Surroundings) :
    host.Tells (compile o) files (compileTroubles o files).isEmpty
      (compileTroubles o files).flatten fun _ => True := by
  unfold compile compileTroubles
  split
  · rw [List.flatten_singleton]
    exact (host.tells_warn rfl _).last (forall_eq'.2 (host.tells_pure trivial _))
  · next honce =>
    have honce : o.output = none ∨ o.inputs.length ≤ 1 := by
      cases houtput : o.output with
      | none => exact .inl rfl
      | some output => exact .inr (by simpa [houtput] using honce)
    exact (host.tells_print rfl _).next (forall_eq'.2 (tells_compileInputs host o files honce))

theorem tells_run (o : Options) (files : Surroundings) :
    host.Tells (run o) files (runTroubles o files).isEmpty (runTroubles o files).flatten
      fun _ => True := by
  unfold run runTroubles
  cases o.mode with
  | compile => exact tells_compile host o files
  | help | version =>
    exact (host.tells_print rfl _).next (forall_eq'.2 (host.tells_pure trivial _))

/-- A session tells its troubles, and exits with 0 if it has none. -/
theorem tells_ofArguments (files : Surroundings) (arguments : List Bytes) :
    host.Tells (ofArguments arguments) files (if (troubles files arguments).isEmpty then 0 else 1)
      (troubles files arguments).flatten fun _ => True := by
  unfold ofArguments troubles
  cases Options.parse arguments with
  | error e =>
    simp only [List.flatten_singleton]
    exact (host.tells_warn rfl _).last (forall_eq'.2 (host.tells_pure trivial _))
  | ok o => exact (tells_run host o files).last fun _ _ => host.tells_pure trivial _

/-- The exit code of a session, and what it adds to the standard error. -/
theorem run_ofArguments (w : W) (arguments : List Bytes) :
    (host.run (ofArguments arguments) w).1 =
      (if (troubles (host.surroundings w) arguments).isEmpty then 0 else 1) ∧
    host.errors (host.run (ofArguments arguments) w).2 =
      host.errors w ++ (troubles (host.surroundings w) arguments).flatten := by
  obtain ⟨hcode, herrors, -⟩ := tells_ofArguments host (host.surroundings w) arguments w rfl
  exact ⟨hcode, herrors⟩

end Tells

/-! ## What can be wrong -/

/-- What can be wrong with the program for a document, and the line for it. -/
inductive WrongProgram (o : Options) (path : Bytes) (d : Document) : Bytes → Prop where
  /-- Something is left out. -/
  | reported {g : Diagnostic} (hg : g ∈ ((Renderer.start o.builder).write d).2.diagnostics) :
    WrongProgram o path d (g.line path)
  /-- The program is not written to its end. -/
  | abandoned (hwritten : ((Renderer.start o.builder).write d).1 = false) :
    WrongProgram o path d (abandonedLine path)
  /-- There is a reason why the program is not written to its end. -/
  | faulty {fault : Fault} (hfault : fault ∈ ((Renderer.start o.builder).write d).2.faults) :
    WrongProgram o path d fault.line

/-- What can be wrong with the document of the template at a path, and the line for it. -/
inductive WrongDocument (o : Options) (files : Surroundings) (path : Bytes) (d : Document) :
    Bytes → Prop where
  /-- The place that it is written to cannot be opened. -/
  | unwritable {output : Bytes} (houtput : o.output = some output)
    (hopens : files.opens output = false) : WrongDocument o files path d (unwritableLine output)
  /-- Something is wrong with the program, which is asked for. -/
  | program (hopens : ∀ output ∈ o.output, files.opens output) (hemit : o.emit = .render)
    {line : Bytes} (h : WrongProgram o path d line) : WrongDocument o files path d line

/-- What can be wrong with the template at a path, and the line for it. -/
inductive WrongTemplate (o : Options) (files : Surroundings) (path : Bytes) : Bytes → Prop where
  /-- The template cannot be opened. -/
  | unreadable (hread : files.read? path = none) :
    WrongTemplate o files path (unreadableLine path)
  /-- The author is told something. -/
  | reported {source : Bytes} (hread : files.read? path = some source) {g : Diagnostic}
    (hg : g ∈ (compileTemplate source path o.components o.verify).diagnostics) :
    WrongTemplate o files path (g.line path)
  /-- The template has to be given up. -/
  | abandoned {source : Bytes} (hread : files.read? path = some source)
    (husable : (compileTemplate source path o.components o.verify).usable = false) :
    WrongTemplate o files path (abandonedLine path)
  /-- There is a reason why the template has to be given up. -/
  | faulty {source : Bytes} (hread : files.read? path = some source) {fault : Fault}
    (hfault : fault ∈ (compileTemplate source path o.components o.verify).faults) :
    WrongTemplate o files path fault.line
  /-- Something is wrong with the document, which is asked for. -/
  | document {source : Bytes} (hread : files.read? path = some source)
    (husable : (compileTemplate source path o.components o.verify).usable = true)
    (hcheck : o.check = false) {line : Bytes}
    (h : WrongDocument o files path (compileTemplate source path o.components o.verify).document line) :
    WrongTemplate o files path line

/-- What can be wrong in a session, and the line for it. -/
inductive Wrong (files : Surroundings) (arguments : List Bytes) : Bytes → Prop where
  /-- The arguments are refused. -/
  | refused {e : UsageError} (h : Options.parse arguments = .error e) :
    Wrong files arguments e.message
  /-- Several templates are to be written to one place. -/
  | severalInputs {o : Options} (h : Options.parse arguments = .ok o) (hmode : o.mode = .compile)
    (hseveral : o.output.isSome ∧ 1 < o.inputs.length) :
    Wrong files arguments severalInputsLine
  /-- Something is wrong with one of the templates. -/
  | template {o : Options} (h : Options.parse arguments = .ok o) (hmode : o.mode = .compile)
    (honce : ¬ (o.output.isSome ∧ 1 < o.inputs.length)) {path : Bytes} (hpath : path ∈ o.inputs)
    {line : Bytes} (hwrong : WrongTemplate o files path line) : Wrong files arguments line

/-- A program with a fault is not written to its end. -/
theorem faults_eq_nil_of_write {r : Renderer} {d : Document} (h : (r.write d).1 = true) :
    (r.write d).2.faults = [] :=
  List.isEmpty_iff.1 (Bool.and_eq_true_iff.1 h).2

section Iff

variable {o : Options} {files : Surroundings} {arguments : List Bytes} {path line : Bytes}
  {d : Document}

theorem mem_emissionTroubles_iff :
    line ∈ emissionTroubles o path d ↔ o.emit = .render ∧ WrongProgram o path d line := by
  unfold emissionTroubles
  cases o.emit with
  | tree => simp
  | render =>
    simp only [true_and, List.mem_append]
    constructor
    · rintro (h | h)
      · obtain ⟨g, hg, rfl⟩ := List.mem_map.1 h
        exact .reported hg
      · split at h
        · cases h
        · next hwritten =>
          rcases List.mem_cons.1 h with rfl | h
          · exact .abandoned (by simpa using hwritten)
          · obtain ⟨fault, hfault, rfl⟩ := List.mem_map.1 h
            exact .faulty hfault
    · intro h
      cases h with
      | reported hg => exact .inl (List.mem_map_of_mem hg)
      | abandoned hwritten => simp [hwritten]
      | faulty hfault =>
        have hwritten : ¬ ((Renderer.start o.builder).write d).1 = true := fun hwritten => by
          rw [faults_eq_nil_of_write hwritten] at hfault
          cases hfault
        rw [if_neg hwritten]
        exact .inr (List.mem_cons_of_mem _ (List.mem_map_of_mem hfault))

theorem mem_writeTroubles_iff : line ∈ writeTroubles o files path d ↔ WrongDocument o files path d line := by
  unfold writeTroubles
  constructor
  · intro h
    split at h
    · next houtput =>
      obtain ⟨hemit, h⟩ := mem_emissionTroubles_iff.1 h
      exact .program (by simp [houtput]) hemit h
    · next output houtput =>
      split at h
      · next hopens =>
        obtain ⟨hemit, h⟩ := mem_emissionTroubles_iff.1 h
        exact .program (by simpa [houtput] using hopens) hemit h
      · next hopens =>
        obtain rfl := List.mem_singleton.1 h
        exact .unwritable houtput (by simpa using hopens)
  · intro h
    cases h with
    | unwritable houtput hopens => simp [houtput, hopens]
    | program hopens hemit h =>
      have hmem := mem_emissionTroubles_iff.2 ⟨hemit, h⟩
      split
      · exact hmem
      · next output houtput =>
        rw [if_pos (hopens output houtput)]
        exact hmem

theorem mem_inputTroubles_iff :
    line ∈ inputTroubles o files path ↔ WrongTemplate o files path line := by
  unfold inputTroubles
  constructor
  · intro h
    split at h
    · next hread =>
      obtain rfl := List.mem_singleton.1 h
      exact .unreadable hread
    · next source hread =>
      rcases List.mem_append.1 h with h | h
      · obtain ⟨g, hg, rfl⟩ := List.mem_map.1 h
        exact .reported hread hg
      · split at h
        · next husable =>
          split at h
          · cases h
          · next hcheck =>
            exact .document hread husable (by simpa using hcheck) (mem_writeTroubles_iff.1 h)
        · next husable =>
          rcases List.mem_cons.1 h with rfl | h
          · exact .abandoned hread (by simpa using husable)
          · obtain ⟨fault, hfault, rfl⟩ := List.mem_map.1 h
            exact .faulty hread hfault
  · intro h
    cases h with
    | unreadable hread => simp [hread]
    | reported hread hg =>
      simp only [hread]
      exact List.mem_append_left _ (List.mem_map_of_mem hg)
    | abandoned hread husable => simp [hread, husable]
    | @faulty source hread fault hfault =>
      have husable : ¬ (compileTemplate source path o.components o.verify).usable = true :=
        fun husable => List.ne_nil_of_mem hfault (List.isEmpty_iff.1 husable)
      simp only [hread, if_neg husable]
      exact List.mem_append_right _ (List.mem_cons_of_mem _ (List.mem_map_of_mem hfault))
    | document hread husable hcheck h =>
      simp only [hread, husable, hcheck]
      exact List.mem_append_right _ (mem_writeTroubles_iff.2 h)

theorem mem_compileTroubles_iff : line ∈ compileTroubles o files ↔
    (o.output.isSome ∧ 1 < o.inputs.length) ∧ line = severalInputsLine ∨
      ¬ (o.output.isSome ∧ 1 < o.inputs.length) ∧
        ∃ path ∈ o.inputs, WrongTemplate o files path line := by
  by_cases hseveral : o.output.isSome ∧ 1 < o.inputs.length
  · simp [compileTroubles_of_several hseveral, hseveral]
  · simp [compileTroubles_of_once hseveral, hseveral, mem_inputTroubles_iff]

/-- The troubles of a session are all that is wrong. -/
theorem mem_troubles_iff :
    line ∈ troubles files arguments ↔ Wrong files arguments line := by
  unfold troubles runTroubles
  constructor
  · intro h
    split at h
    · next e hparse =>
      obtain rfl := List.mem_singleton.1 h
      exact .refused hparse
    · next o hparse =>
      split at h
      · cases h
      · cases h
      · next hmode =>
        obtain ⟨hseveral, rfl⟩ | ⟨honce, path, hpath, h⟩ := mem_compileTroubles_iff.1 h
        · exact .severalInputs hparse hmode hseveral
        · exact .template hparse hmode honce hpath h
  · intro h
    cases h with
    | refused hparse => simp [hparse]
    | severalInputs hparse hmode hseveral =>
      simp only [hparse, hmode]
      exact mem_compileTroubles_iff.2 (.inl ⟨hseveral, rfl⟩)
    | template hparse hmode honce hpath h =>
      simp only [hparse, hmode]
      exact mem_compileTroubles_iff.2 (.inr ⟨honce, _, hpath, h⟩)

/-! ## The exit code -/

theorem WrongProgram.endsLine (h : WrongProgram o path d line) : EndsLine line := by
  cases h with
  | reported => exact endsLine_diagnostic _ _
  | abandoned => exact endsLine_append _ (by decide)
  | faulty => exact endsLine_fault _

theorem WrongTemplate.endsLine (h : WrongTemplate o files path line) : EndsLine line := by
  cases h with
  | reported => exact endsLine_diagnostic _ _
  | unreadable | abandoned => exact endsLine_append _ (by decide)
  | faulty => exact endsLine_fault _
  | document _ _ _ h =>
    cases h with
    | unwritable => exact endsLine_append _ (by decide)
    | program _ _ h => exact h.endsLine

theorem Wrong.endsLine (h : Wrong files arguments line) : EndsLine line := by
  cases h with
  | refused => exact endsLine_message _
  | severalInputs => decide +kernel
  | template _ _ _ _ h => exact h.endsLine

/-- A template in which an error was found is told to be wrong, also if it has to be given up and
the error is not told. -/
theorem exists_wrongTemplate {source : Bytes} (hread : files.read? path = some source)
    (herror : (compileTemplate source path o.components o.verify).document.diagnostics ≠ []) :
    ∃ line, WrongTemplate o files path line := by
  cases husable : (compileTemplate source path o.components o.verify).usable with
  | false => exact ⟨_, .abandoned hread husable⟩
  | true =>
    obtain ⟨g, hg⟩ := List.exists_mem_of_ne_nil _ herror
    refine ⟨_, .reported hread (g := g) ?_⟩
    rw [compileTemplate_eq] at husable hg ⊢
    have hok : (readTemplate source path).document.structured.ok = true := husable
    simp only [hok, if_true]
    exact List.mem_append_right _ hg

end Iff

/-- The exit code tells the truth: it is 0 if nothing is told on the standard error, and 1
otherwise. What is told there are the lines for all that is wrong and no others, so one thing that
is wrong with any template settles the exit code. -/
theorem ofArguments_truthful {m : Type → Type} [Monad m] [Host m] {W : Type}
    (host : LawfulHost m W) (w : W) (arguments : List Bytes) :
    let outcome := host.run (ofArguments arguments) w
    let files := host.surroundings w
    ∃ told : Bytes, host.errors outcome.2 = host.errors w ++ told ∧
      (outcome.1 = 0 ↔ told = []) ∧ (outcome.1 = 0 ∨ outcome.1 = 1) ∧
      (∃ lines : List Bytes, told = lines.flatten ∧ (∀ line ∈ lines, EndsLine line) ∧
        ∀ line, line ∈ lines ↔ Wrong files arguments line) ∧
      (∀ line, Wrong files arguments line → outcome.1 = 1) ∧
      ∀ o path source, Options.parse arguments = .ok o → o.mode = .compile →
        ¬ (o.output.isSome ∧ 1 < o.inputs.length) → path ∈ o.inputs →
        files.read? path = some source →
        (compileTemplate source path o.components o.verify).document.diagnostics ≠ [] →
          outcome.1 = 1 := by
  intro outcome files
  obtain ⟨hcode, herrors⟩ := run_ofArguments host w arguments
  have hends : ∀ line ∈ troubles files arguments, EndsLine line :=
    fun _ hline => (mem_troubles_iff.1 hline).endsLine
  -- One line is enough.
  have hone : ∀ line, Wrong files arguments line → outcome.1 = 1 := by
    intro line h
    have hne := List.ne_nil_of_mem (mem_troubles_iff.2 h)
    exact hcode.trans (if_neg (by simpa using hne))
  refine ⟨_, herrors, ?_, ?_, ⟨_, rfl, hends, fun _ => mem_troubles_iff⟩, hone, ?_⟩
  · rw [hcode]
    cases htroubles : troubles files arguments with
    | nil => simp
    | cons line lines =>
      have hline : line ≠ [] := (hends line (htroubles ▸ List.mem_cons_self)).ne_nil
      simp [hline]
  · rw [hcode]
    split
    · exact .inl rfl
    · exact .inr rfl
  · intro o path source hparse hmode honce hpath hread herror
    obtain ⟨line, hwrong⟩ := exists_wrongTemplate hread herror
    exact hone line (.template hparse hmode honce hpath hwrong)

/-- A directory with a template in which a tag is closed twice, and one in which nothing is wrong.
-/
def brokenAndClean : Directory :=
  ⟨[(utf8 "broken", utf8 "<p>x</p></p>"), (utf8 "clean", utf8 "<p>x</p>")]⟩

/-- The template that comes last does not make good what is wrong with the first one. -/
theorem brokenAndClean_truthful :
    let outcome := inDirectory brokenAndClean [utf8 "broken", utf8 "clean"]
    outcome.1 = 1 ∧ outcome.2.err ≠ [] := by
  rw [← World.run_host]
  intro outcome
  obtain ⟨told, herrors, hzero, -, -, -, hone⟩ := ofArguments_truthful World.host
    { directory := brokenAndClean } [utf8 "broken", utf8 "clean"]
  have hcode : outcome.1 = 1 := hone { inputs := [utf8 "broken", utf8 "clean"] } (utf8 "broken")
    (utf8 "<p>x</p></p>") rfl rfl (by simp) (by simp) (by decide +kernel) (by decide +kernel)
  refine ⟨hcode, fun hnone => ?_⟩
  -- Nothing was written before, so an empty error stream means that nothing was told.
  have htold : told = [] := (List.nil_append told).symm.trans (herrors.symm.trans hnone)
  exact absurd (hcode.symm.trans (hzero.2 htold)) (by decide)

end Session

end MarkupTemplate
