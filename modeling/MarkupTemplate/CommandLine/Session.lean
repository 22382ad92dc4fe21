import MarkupTemplate.CommandLine.Options
import MarkupTemplate.Compile
import MarkupTemplate.Document.Outline
import MarkupTemplate.Render.Writer

/-!
# Sessions

A session compiles the templates that the command line names. What it needs of the world outside are
two streams for text and a place for files.

## Main definitions

* `Host`: what a session needs of the world
* `Emitted`, `emit`: what is written for a document, and what is said about it
* `Session.compileInput`: the session for one template
* `Session.run`, `Session.ofArguments`: the session for options, and for arguments
-/

namespace MarkupTemplate

/-- What a session needs of the world. -/
class Host (m : Type → Type) where
  /-- Writes to the standard output. -/
  print : Bytes → m Unit
  /-- Writes to the standard error. -/
  warn : Bytes → m Unit
  /-- The content of the file at a path, if it can be opened. -/
  readFile? : Bytes → m (Option Bytes)
  /-- Makes an empty file at a path, or empties the file there; tells whether it could be opened. -/
  createFile : Bytes → m Bool
  /-- Gives content to a file that was made. -/
  writeFile : Bytes → Bytes → m Unit

/-- The line for a diagnostic about the template at a path. -/
def Diagnostic.line (path : Bytes) (g : Diagnostic) : Bytes :=
  let place := match g.span with
    | none => []
    | some span =>
      utf8 " L" ++ decimal span.start.line ++ utf8 ":C" ++ decimal span.start.column
  g.code ++ utf8 " " ++ path ++ place ++ utf8 " -> " ++ g.message ++ utf8 "\n"

/-- The lines for diagnostics about the template at a path. -/
def diagnosticLines (path : Bytes) (diagnostics : List Diagnostic) : Bytes :=
  diagnostics.flatMap (Diagnostic.line path)

/-- The line for a fault. -/
def Fault.line (fault : Fault) : Bytes :=
  fault.code ++ utf8 " internal invariant violation in " ++ fault.stage ++ utf8 ": " ++
    fault.detail ++ utf8 "\n"

/-- The lines for a template that had to be given up. -/
def abandonedLines (path : Bytes) (faults : List Fault) : Bytes :=
  utf8 "STENCIL-E4000 InternalCompilerError: '" ++ path ++ utf8 "' was abandoned.\n" ++
    faults.flatMap Fault.line

/-- What is written for a document. -/
structure Emitted where
  /-- The text to be written. -/
  text : Bytes
  /-- What is said on the standard error. -/
  warnings : Bytes
  /-- All went well. -/
  ok : Bool
deriving DecidableEq, Repr, Inhabited

/-- What is written for the document of the template at a path. A render program with diagnostics is
still written, one with faults is not. -/
def emit (o : Options) (path : Bytes) (d : Document) : Emitted :=
  match o.emit with
  | .tree => ⟨d.outline, [], true⟩
  | .render =>
    let (written, r) := (Renderer.start o.builder).write d
    let warnings := diagnosticLines path r.diagnostics
    if written then ⟨r.output, warnings, r.diagnostics.isEmpty⟩
    else ⟨[], warnings ++ abandonedLines path r.faults, false⟩

namespace Session

/-- How the program is used. -/
def helpText : Bytes := utf8 <|
  "stencilc - template markup structuring compiler\n" ++
  "Usage: stencilc [options] <input>...\n\n" ++
  "Options:\n" ++
  "  --help                 Show this help text and exit.\n" ++
  "  --version              Show version information and exit.\n" ++
  "  --emit=<kind>          Select output kind (tree, render). Default: tree.\n" ++
  "  --component=<name>     Treat constructs bound to this descriptor as components.\n" ++
  "  --builder-name=<name>  Name of the outermost render target. Default: builder.\n" ++
  "  --no-verify            Skip IR verification after the structuring passes.\n" ++
  "  --check                Report diagnostics only; write no output.\n" ++
  "  -o <path>              Write output to the specified path.\n"

/-- Which program this is. -/
def versionText : Bytes := utf8 "stencilc (build profile: local)\n"

variable {m : Type → Type} [Monad m] [Host m]

open Host

/-- Writes a document to the place that the options name, and tells whether all went well. -/
def write (o : Options) (path : Bytes) (d : Document) : m Bool := do
  match o.output with
  | none =>
    print (utf8 "[debug] " ++ o.emit.word ++ utf8 " output:\n")
    let emitted := emit o path d
    warn emitted.warnings
    print emitted.text
    return emitted.ok
  | some output =>
    if ← createFile output then
      let emitted := emit o path d
      warn emitted.warnings
      writeFile output emitted.text
      if emitted.ok then
        print (utf8 "[notice] Output written to " ++ output ++ utf8 "\n")
      return emitted.ok
    else
      warn (utf8 "STENCIL-E3001 OutputWriteFailed: unable to open '" ++ output ++ utf8 "'.\n")
      return false

/-- Compiles the template at a path, and tells whether all went well. -/
def compileInput (o : Options) (path : Bytes) : m Bool := do
  print (utf8 "  input: " ++ path ++ utf8 "\n")
  match ← readFile? path with
  | none =>
    warn (utf8 "STENCIL-E3000 InputReadFailed: unable to open '" ++ path ++ utf8 "'.\n")
    return false
  | some source =>
    let compilation := compileTemplate source path o.components o.verify
    warn (diagnosticLines path compilation.diagnostics)
    if compilation.usable then
      let count := (compilation.document.children Document.root).length
      print (utf8 "[notice] Structured '" ++ path ++ utf8 "' into " ++ decimal count ++
        utf8 " top-level node(s).\n")
      let written ← if o.check then pure true else write o path compilation.document
      return written && !compilation.hasErrors
    else
      warn (abandonedLines path compilation.faults)
      return false

/-- Compiles the templates at the given paths in order, and tells whether all went well. -/
def compileInputs (o : Options) : List Bytes → m Bool
  | [] => pure true
  | path :: paths => do
    let first ← compileInput o path
    let others ← compileInputs o paths
    return first && others

/-- What a session says before the first template. -/
def preamble (o : Options) : Bytes :=
  utf8 "[information] Starting stencilc pipeline.\n" ++
    utf8 "  emit: " ++ o.emit.word ++ utf8 "\n" ++
    (match o.output with
      | none => []
      | some output => utf8 "  output: " ++ output ++ utf8 "\n") ++
    (if o.components.isEmpty then []
      else utf8 "  components: " ++ decimal o.components.length ++ utf8 "\n")

/-- Compiles the templates that the options name, and tells whether all went well. Several templates
cannot be written to one place. -/
def compile (o : Options) : m Bool := do
  if o.output.isSome && 1 < o.inputs.length then
    warn (utf8 "STENCIL-E3002 OutputSingleInput: -o requires a single input template.\n")
    return false
  else
    print (preamble o)
    compileInputs o o.inputs

/-- Does what the options ask for, and tells whether all went well. -/
def run (o : Options) : m Bool := do
  match o.mode with
  | .help =>
    print helpText
    return true
  | .version =>
    print versionText
    return true
  | .compile => compile o

/-- The session for a list of arguments, with the exit code of the program. -/
def ofArguments (arguments : List Bytes) : m UInt32 := do
  match Options.parse arguments with
  | .error e =>
    warn e.message
    return 1
  | .ok o => return if ← run o then 0 else 1

end Session

end MarkupTemplate
