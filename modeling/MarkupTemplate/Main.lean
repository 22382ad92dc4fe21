import MarkupTemplate.CommandLine.Session

/-!
# The program

The command line is run on the files and streams of the computer.

## Main definitions

* `main`: the session for the arguments of the program
-/

namespace MarkupTemplate

/-- A path as the file system takes it. -/
def pathText (path : Bytes) : String :=
  (String.fromUTF8? (ByteArray.mk path.toArray)).getD ""

instance : Host IO where
  print s := do (← IO.getStdout).write (ByteArray.mk s.toArray)
  warn s := do (← IO.getStderr).write (ByteArray.mk s.toArray)
  readFile? path := do
    match ← (IO.FS.Handle.mk (pathText path) .read).toBaseIO with
    | .error _ => return none
    | .ok handle =>
      match ← handle.readBinToEnd.toBaseIO with
      | .error _ => return some []
      | .ok content => return some content.data.toList
  createFile path := do
    match ← (IO.FS.Handle.mk (pathText path) .write).toBaseIO with
    | .error _ => return false
    | .ok _ => return true
  writeFile path content := IO.FS.writeBinFile (pathText path) (ByteArray.mk content.toArray)

end MarkupTemplate

/-- Runs the session for the arguments of the program and exits with its code. -/
def main (arguments : List String) : IO UInt32 :=
  MarkupTemplate.Session.ofArguments (arguments.map MarkupTemplate.utf8)
