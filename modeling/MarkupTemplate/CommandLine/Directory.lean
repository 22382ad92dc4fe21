import MarkupTemplate.CommandLine.Session

/-!
# Sessions in a directory

A session can be run without a computer: in a directory that holds files only, with its two streams
kept as texts.

## Main definitions

* `Directory`: named files
* `Directory.locate`: what a path leads to
* `World`: a directory with the two streams of a session
* `Session.inDirectory`: the session for a list of arguments in a directory
-/

namespace MarkupTemplate

/-- A directory that holds files only, by their names in the order in which they were made. -/
structure Directory where
  /-- Names and contents. -/
  files : List (Bytes × Bytes) := []
deriving DecidableEq, Repr, Inhabited

/-- What a path leads to. -/
inductive Destination where
  /-- A file of the directory, or a name for one. -/
  | file (name : Bytes)
  /-- A directory. -/
  | directory
  /-- Nothing, and nothing can be made there. -/
  | nowhere
deriving DecidableEq, Repr, Inhabited

namespace Directory

/-- The greatest number of bytes in the name of a file. -/
def maxNameLength : Nat := 255

/-- The greatest number of bytes in a path. -/
def maxPathLength : Nat := 4095

/-- The names in a path, between its slashes. -/
def pathNames : Bytes → List Bytes
  | [] => [[]]
  | b :: rest =>
    if b = Byte.slash then [] :: pathNames rest
    else
      match pathNames rest with
      | [] => [[b]]
      | name :: names => (b :: name) :: names

/-- A step of a path that leads nowhere else: one dot, or no name at all. -/
def staysHere (name : Bytes) : Bool := name.isEmpty || name == utf8 "."

/-- A step of a path to the directory above. -/
def leadsUp (name : Bytes) : Bool := name == utf8 ".."

/-- What the names of a path lead to from here. Every directory has one above it, of which the files
are not known. Files lead no further. -/
def locateNames (names : List Bytes) : Destination :=
  if names.all fun name => staysHere name || leadsUp name then .directory
  else
    match names.dropWhile staysHere with
    | [name] => if name.length ≤ maxNameLength then .file name else .nowhere
    | _ => .nowhere

/-- What a path leads to. A path that starts with a slash does not start here. -/
def locate (path : Bytes) : Destination :=
  if path.isEmpty || maxPathLength < path.length then .nowhere
  else
    match locateNames (pathNames path) with
    -- The names do not tell whether the path starts with a slash.
    | .file name => if path.head? = some Byte.slash then .nowhere else .file name
    | destination => destination

/-- The content of a file. -/
def content? (d : Directory) (name : Bytes) : Option Bytes := d.files.lookup name

/-- The directory with another content for a file, which is made if it was not there. -/
def put (d : Directory) (name content : Bytes) : Directory :=
  if (d.content? name).isSome then
    ⟨d.files.map fun file => if file.1 = name then (name, content) else file⟩
  else ⟨d.files ++ [(name, content)]⟩

/-- The files that are new or changed since an earlier state of the directory. -/
def changesSince (before after : Directory) : List (Bytes × Bytes) :=
  after.files.filter fun file => before.content? file.1 != some file.2

/-- The text that is read at a path. A directory can be opened, but there is nothing to read. -/
def read? (d : Directory) (path : Bytes) : Option Bytes :=
  match locate path with
  | .file name => d.content? name
  | .directory => some []
  | .nowhere => none

end Directory

/-- A directory and the texts on the two streams of a session. -/
structure World where
  /-- The directory. -/
  directory : Directory
  /-- The standard output. -/
  out : Bytes := []
  /-- The standard error. -/
  err : Bytes := []
deriving DecidableEq, Repr, Inhabited

instance : Host (StateM World) where
  print s := modify fun w => { w with out := w.out ++ s }
  warn s := modify fun w => { w with err := w.err ++ s }
  readFile? path := do return (← get).directory.read? path
  createFile path := do
    match Directory.locate path with
    | .file name =>
      modify fun w => { w with directory := w.directory.put name [] }
      return true
    | _ => return false
  writeFile path content := do
    match Directory.locate path with
    | .file name => modify fun w => { w with directory := w.directory.put name content }
    | _ => return

/-- The session for a list of arguments in a directory: the exit code, and the world afterwards. -/
def Session.inDirectory (directory : Directory) (arguments : List Bytes) : UInt32 × World :=
  (Session.ofArguments (m := StateM World) arguments).run { directory := directory }

end MarkupTemplate
