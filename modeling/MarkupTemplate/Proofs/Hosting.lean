import MarkupTemplate.CommandLine.Directory

/-!
# Lawful hosts

What a session does depends on its host. Little is asked of a host here: its steps lead from world
to world, a file is read as it is, the standard error keeps what is written to it, and files stay as
they are unless one is made or written. What happens to the files then, and to the standard output,
is left to the host. The directories in which a session can be run are one such host.

## Main definitions

* `Surroundings`: what the files around a session answer
* `LawfulHost`: a host with its worlds, and what it promises
* `LawfulHost.Tells`: what steps answer and tell in given surroundings, and what they leave
* `World.host`: directories as a host

## Main results

* `LawfulHost.Tells.bind`: what steps tell that are taken one after another
-/

namespace MarkupTemplate

/-- What the files around a session answer. -/
structure Surroundings where
  /-- The content of the file at a path, if it can be opened. -/
  read? : Bytes → Option Bytes
  /-- A file can be made, or emptied, at a path. -/
  opens : Bytes → Bool

/-- A host with the worlds that its steps lead through. -/
structure LawfulHost (m : Type → Type) [Monad m] [Host m] (W : Type) where
  /-- The answer of steps that are taken in a world, and the world afterwards. -/
  run {α : Type} : m α → W → α × W
  /-- What the files answer. -/
  surroundings : W → Surroundings
  /-- What was written to the standard error. -/
  errors : W → Bytes
  -- Steps in a row are taken one after another.
  run_pure {α : Type} (a : α) (w : W) : run (pure a) w = (a, w)
  run_bind {α β : Type} (x : m α) (f : α → m β) (w : W) :
    run (x >>= f) w = run (f (run x w).1) (run x w).2
  -- Only what is said on the standard error can be read there, in the order in which it is said.
  surroundings_print (s : Bytes) (w : W) :
    surroundings (run (Host.print s) w).2 = surroundings w
  errors_print (s : Bytes) (w : W) : errors (run (Host.print s) w).2 = errors w
  surroundings_warn (s : Bytes) (w : W) :
    surroundings (run (Host.warn s) w).2 = surroundings w
  errors_warn (s : Bytes) (w : W) : errors (run (Host.warn s) w).2 = errors w ++ s
  -- Reading changes nothing.
  answer_readFile? (path : Bytes) (w : W) :
    (run (Host.readFile? path) w).1 = (surroundings w).read? path
  surroundings_readFile? (path : Bytes) (w : W) :
    surroundings (run (Host.readFile? path) w).2 = surroundings w
  errors_readFile? (path : Bytes) (w : W) : errors (run (Host.readFile? path) w).2 = errors w
  -- Nothing is said about the files after one of them was made or written.
  answer_createFile (path : Bytes) (w : W) :
    (run (Host.createFile path) w).1 = (surroundings w).opens path
  errors_createFile (path : Bytes) (w : W) :
    errors (run (Host.createFile path) w).2 = errors w
  errors_writeFile (path content : Bytes) (w : W) :
    errors (run (Host.writeFile path content) w).2 = errors w

namespace LawfulHost

variable {m : Type → Type} [Monad m] [Host m] {W α β : Type} (host : LawfulHost m W)

/-- In given surroundings, steps give an answer, tell a text on the standard error, and leave
surroundings of a certain kind. -/
def Tells (steps : m α) (files : Surroundings) (answer : α) (text : Bytes)
    (left : Surroundings → Prop) : Prop :=
  ∀ w : W, host.surroundings w = files →
    (host.run steps w).1 = answer ∧
      host.errors (host.run steps w).2 = host.errors w ++ text ∧
      left (host.surroundings (host.run steps w).2)

section Bind

variable {host} {files : Surroundings} {P Q : Surroundings → Prop} {x : m α} {f : α → m β} {a : α}
  {b : β} {s t : Bytes}

/-- Steps are taken one after another, and what they tell is told in this order. -/
theorem Tells.bind (hx : host.Tells x files a s P)
    (hf : ∀ between, P between → host.Tells (f a) between b t Q) :
    host.Tells (x >>= f) files b (s ++ t) Q := by
  intro w hw
  obtain ⟨hanswer, herrors, hleft⟩ := hx w hw
  obtain ⟨hanswer', herrors', hleft'⟩ := hf _ hleft _ rfl
  rw [host.run_bind, hanswer, ← List.append_assoc, ← herrors]
  exact ⟨hanswer', herrors', hleft'⟩

/-- Steps that tell nothing come first. -/
theorem Tells.next (hx : host.Tells x files a [] P)
    (hf : ∀ between, P between → host.Tells (f a) between b t Q) :
    host.Tells (x >>= f) files b t Q := hx.bind hf

/-- Steps that tell nothing come last. -/
theorem Tells.last (hx : host.Tells x files a s P)
    (hf : ∀ between, P between → host.Tells (f a) between b [] Q) :
    host.Tells (x >>= f) files b s Q := by
  have h := hx.bind hf
  rwa [List.append_nil] at h

end Bind

section Steps

variable {files : Surroundings} {P : Surroundings → Prop} (hP : P files)

include hP

theorem tells_pure (a : α) : host.Tells (pure a) files a [] P := by
  rintro w rfl
  rw [host.run_pure, List.append_nil]
  exact ⟨rfl, rfl, hP⟩

theorem tells_print (s : Bytes) : host.Tells (Host.print s) files () [] P := by
  rintro w rfl
  rw [host.errors_print, host.surroundings_print, List.append_nil]
  exact ⟨rfl, rfl, hP⟩

theorem tells_warn (s : Bytes) : host.Tells (Host.warn s) files () s P := by
  rintro w rfl
  rw [host.errors_warn, host.surroundings_warn]
  exact ⟨rfl, rfl, hP⟩

theorem tells_readFile? (path : Bytes) :
    host.Tells (Host.readFile? path) files (files.read? path) [] P := by
  rintro w rfl
  rw [host.answer_readFile?, host.errors_readFile?, host.surroundings_readFile?, List.append_nil]
  exact ⟨rfl, rfl, hP⟩

end Steps

theorem tells_createFile (files : Surroundings) (path : Bytes) :
    host.Tells (Host.createFile path) files (files.opens path) [] fun _ => True := by
  rintro w rfl
  rw [host.answer_createFile, host.errors_createFile, List.append_nil]
  exact ⟨rfl, rfl, trivial⟩

theorem tells_writeFile (files : Surroundings) (path content : Bytes) :
    host.Tells (Host.writeFile path content) files () [] fun _ => True := by
  rintro w rfl
  rw [host.errors_writeFile, List.append_nil]
  exact ⟨rfl, rfl, trivial⟩

end LawfulHost

/-! ## Directories -/

/-- The path leads to a file, or to a place for one. -/
def Directory.opens (path : Bytes) : Bool :=
  match locate path with
  | .file _ => true
  | .directory | .nowhere => false

/-- What the files of a directory answer. -/
def Directory.surroundings (d : Directory) : Surroundings := ⟨d.read?, opens⟩

namespace World

theorem run_createFile (path : Bytes) (w : World) :
    (Host.createFile (m := StateM World) path).run w =
      match Directory.locate path with
      | .file name => (true, { w with directory := w.directory.put name [] })
      | .directory | .nowhere => (false, w) := by
  simp only [Host.createFile]
  cases Directory.locate path <;> rfl

theorem run_writeFile (path content : Bytes) (w : World) :
    (Host.writeFile (m := StateM World) path content).run w =
      match Directory.locate path with
      | .file name => ((), { w with directory := w.directory.put name content })
      | .directory | .nowhere => ((), w) := by
  simp only [Host.writeFile]
  cases Directory.locate path <;> rfl

/-- Directories with their streams are the worlds of a lawful host. -/
def host : LawfulHost (StateM World) World where
  run steps w := steps.run w
  surroundings w := w.directory.surroundings
  errors := World.err
  run_pure _ _ := rfl
  run_bind _ _ _ := rfl
  surroundings_print _ _ := rfl
  errors_print _ _ := rfl
  surroundings_warn _ _ := rfl
  errors_warn _ _ := rfl
  answer_readFile? _ _ := rfl
  surroundings_readFile? _ _ := rfl
  errors_readFile? _ _ := rfl
  answer_createFile path w := by
    simp only [run_createFile, Directory.surroundings, Directory.opens]
    cases Directory.locate path <;> rfl
  errors_createFile path w := by
    rw [run_createFile]
    cases Directory.locate path <;> rfl
  errors_writeFile path content w := by
    rw [run_writeFile]
    cases Directory.locate path <;> rfl

/-- A session in a directory starts with nothing written. -/
theorem run_host (directory : Directory) (arguments : List Bytes) :
    host.run (Session.ofArguments arguments) { directory } =
      Session.inDirectory directory arguments := rfl

end World

end MarkupTemplate
