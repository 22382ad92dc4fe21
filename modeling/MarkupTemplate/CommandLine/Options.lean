import MarkupTemplate.Text.Bytes

/-!
# Command-line options

## Main definitions

* `Argument`: what one argument asks for
* `Options`: what all arguments ask for
* `UsageError`, `UsageError.message`: arguments that ask for nothing sensible
* `Options.parse`: the options of a list of arguments

Arguments may come in any order. Of options that exclude each other the last one counts, except that
the first request for help or for the version ends the reading.
-/

namespace MarkupTemplate

/-- What is written for a template. -/
inductive EmitKind where
  /-- The outline of the document. -/
  | tree
  /-- The program that builds the document. -/
  | render
deriving DecidableEq, Repr, Inhabited

/-- The word for what is written. -/
def EmitKind.word : EmitKind → Bytes
  | tree => utf8 "tree"
  | render => utf8 "render"

/-- What a word asks to be written. -/
def EmitKind.ofWord? (word : Bytes) : Option EmitKind :=
  [tree, render].find? fun kind => kind.word == word

/-- What a run is for. -/
inductive Mode where
  /-- To compile templates. -/
  | compile
  /-- To show how the program is used. -/
  | help
  /-- To show which program this is. -/
  | version
deriving DecidableEq, Repr, Inhabited

/-- Why arguments are refused. -/
inductive UsageError where
  /-- `-o` is the last argument. -/
  | missingOutput
  /-- An argument looks like an option and is none. -/
  | unknownOption (argument : Bytes)
  /-- No template is named. -/
  | missingInput
  /-- It is not known what to write. -/
  | unknownEmitKind (word : Bytes)
  /-- The name of the target is empty. -/
  | missingBuilderName
  /-- The descriptor of a component is empty. -/
  | missingComponent
deriving DecidableEq, Repr, Inhabited

/-- The line that tells why arguments are refused. -/
def UsageError.message : UsageError → Bytes
  | missingOutput => utf8 "STENCIL-E1000 MissingOutput: expected path after -o option.\n"
  | unknownOption argument =>
    utf8 "STENCIL-E1001 UnknownOption: unrecognised option '" ++ argument ++ utf8 "'.\n"
  | missingInput => utf8 "STENCIL-E1002 MissingInput: at least one input file is required.\n"
  | unknownEmitKind word =>
    utf8 "STENCIL-E1003 UnknownEmitKind: expected 'tree' or 'render' but found '" ++ word ++
      utf8 "'.\n"
  | missingBuilderName =>
    utf8 "STENCIL-E1004 MissingBuilderName: --builder-name requires a non-empty name.\n"
  | missingComponent =>
    utf8 "STENCIL-E1005 MissingComponent: --component requires a descriptor name.\n"

/-- What one argument asks for. -/
inductive Argument where
  /-- To show how the program is used. -/
  | help
  /-- To show which program this is. -/
  | version
  /-- What to write. -/
  | emit (kind : EmitKind)
  /-- The descriptor of a component. -/
  | component (descriptor : Bytes)
  /-- The name of the outermost target. -/
  | builder (name : Bytes)
  /-- Not to verify documents. -/
  | noVerify
  /-- Only to report what is wrong. -/
  | check
  /-- Where to write. -/
  | output (path : Bytes)
  /-- That the next argument says where to write. -/
  | outputNext
  /-- A template. -/
  | input (path : Bytes)
deriving DecidableEq, Repr, Inhabited

/-- What an argument asks for. -/
def Argument.read (argument : Bytes) : Except UsageError Argument :=
  if argument = utf8 "--help" then .ok .help
  else if argument = utf8 "--version" then .ok .version
  else if let some word := Bytes.after? (utf8 "--emit=") argument then
    match EmitKind.ofWord? word with
    | some kind => .ok (.emit kind)
    | none => .error (.unknownEmitKind word)
  else if let some descriptor := Bytes.after? (utf8 "--component=") argument then
    if descriptor.isEmpty then .error .missingComponent else .ok (.component descriptor)
  else if let some name := Bytes.after? (utf8 "--builder-name=") argument then
    if name.isEmpty then .error .missingBuilderName else .ok (.builder name)
  else if argument = utf8 "--no-verify" then .ok .noVerify
  else if argument = utf8 "--check" then .ok .check
  else if let some path := Bytes.after? (utf8 "-o") argument then
    if path.isEmpty then .ok .outputNext else .ok (.output path)
  else if argument.head? = some Byte.hyphen then .error (.unknownOption argument)
  else .ok (.input argument)

/-- What the arguments ask for. -/
structure Options where
  /-- The templates in order. -/
  inputs : List Bytes := []
  /-- The descriptors of components in order. -/
  components : List Bytes := []
  /-- Where to write, unless to the terminal. -/
  output : Option Bytes := none
  /-- What to write. -/
  emit : EmitKind := .tree
  /-- The name of the outermost target of render programs. -/
  builder : Bytes := utf8 "builder"
  /-- What the run is for. -/
  mode : Mode := .compile
  /-- Documents are verified. -/
  verify : Bool := true
  /-- Nothing is written but what is wrong. -/
  check : Bool := false
deriving DecidableEq, Repr, Inhabited

namespace Options

/-- The options with another place to write to; the empty path stands for the terminal. -/
def withOutput (o : Options) (path : Bytes) : Options :=
  { o with output := if path.isEmpty then none else some path }

/-- The options of further arguments after those already read. -/
def parseFrom (o : Options) : List Bytes → Except UsageError Options
  | [] => if o.inputs.isEmpty then .error .missingInput else .ok o
  | argument :: rest =>
    match Argument.read argument with
    | .error e => .error e
    | .ok .help => .ok { o with mode := .help }
    | .ok .version => .ok { o with mode := .version }
    | .ok (.emit kind) => parseFrom { o with emit := kind } rest
    | .ok (.component descriptor) =>
      parseFrom { o with components := o.components ++ [descriptor] } rest
    | .ok (.builder name) => parseFrom { o with builder := name } rest
    | .ok .noVerify => parseFrom { o with verify := false } rest
    | .ok .check => parseFrom { o with check := true } rest
    | .ok (.output path) => parseFrom (o.withOutput path) rest
    | .ok .outputNext =>
      match rest with
      | [] => .error .missingOutput
      | path :: rest => parseFrom (o.withOutput path) rest
    | .ok (.input path) => parseFrom { o with inputs := o.inputs ++ [path] } rest

/-- The options of a list of arguments. -/
def parse (arguments : List Bytes) : Except UsageError Options := parseFrom {} arguments

end Options

end MarkupTemplate
