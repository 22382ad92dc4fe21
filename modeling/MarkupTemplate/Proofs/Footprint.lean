import MarkupTemplate.Proofs.Hosting

/-!
# What a session touches

A session makes and writes one file at most, the output that its options name, and none at all if it
only checks templates. So whatever the other steps keep is kept by the session, once the steps for
its output keep it: on every host, the files answer as before unless there is an output, and in a
directory only the output changes.

## Main definitions

* `Session.target?`: the path that a session writes to
* `LawfulHost.Allows`: what the steps of a session with a given output keep
* `Directory.ChangesOnly`: two states of a directory differ in certain files only

## Main results

* `LawfulHost.Allows.ofArguments`: what the steps keep is kept by the session
* `Session.surroundings_of_target?_eq_none`: without an output the files answer as before
* `Session.changesSince_inDirectory`: the files that change are the output
-/

namespace MarkupTemplate

/-- The path that a session writes to. -/
def Session.target? (arguments : List Bytes) : Option Bytes :=
  match Options.parse arguments with
  | .error _ => none
  | .ok o => if o.mode = .compile ∧ o.check = false then o.output else none

/-! ## Steps -/

namespace LawfulHost

variable {m : Type → Type} [Monad m] [Host m] {W α β : Type} {host : LawfulHost m W}
  {target? : Option Bytes} {R : W → W → Prop}

/-- The steps of a session keep a relation between the worlds before and after them; files are made
and written at the output only. -/
structure Allows (host : LawfulHost m W) (target? : Option Bytes) (R : W → W → Prop) : Prop where
  refl (w : W) : R w w
  trans {u v w : W} : R u v → R v w → R u w
  print (s : Bytes) (w : W) : R w (host.run (Host.print s) w).2
  warn (s : Bytes) (w : W) : R w (host.run (Host.warn s) w).2
  readFile? (path : Bytes) (w : W) : R w (host.run (Host.readFile? path) w).2
  createFile (path : Bytes) (hpath : path ∈ target?) (w : W) :
    R w (host.run (Host.createFile path) w).2
  writeFile (path : Bytes) (hpath : path ∈ target?) (content : Bytes) (w : W) :
    R w (host.run (Host.writeFile path content) w).2

/-- Steps keep a relation between the worlds before and after them. -/
def Keeps (host : LawfulHost m W) (R : W → W → Prop) (steps : m α) : Prop :=
  ∀ w, R w (host.run steps w).2

namespace Allows

variable (h : host.Allows target? R)

include h

theorem pure (a : α) : host.Keeps R (Pure.pure a : m α) := by
  intro w
  rw [host.run_pure]
  exact h.refl w

theorem bind {x : m α} {f : α → m β} (hx : host.Keeps R x) (hf : ∀ a, host.Keeps R (f a)) :
    host.Keeps R (x >>= f) := by
  intro w
  rw [host.run_bind]
  exact h.trans (hx w) (hf _ _)

theorem write {o : Options} (houtput : ∀ output ∈ o.output, output ∈ target?) (path : Bytes)
    (d : Document) : host.Keeps R (Session.write o path d) := by
  unfold Session.write
  cases hsome : o.output with
  | none =>
    refine h.bind (h.print _) fun _ => ?_
    refine h.bind (h.warn _) fun _ => ?_
    exact h.bind (h.print _) fun _ => h.pure _
  | some output =>
    -- The output is made before anything is said about the document.
    have htarget := houtput output hsome
    refine h.bind (h.createFile output htarget) fun opened => ?_
    cases opened with
    | false => exact h.bind (h.warn _) fun _ => h.pure _
    | true =>
      refine h.bind (h.warn _) fun _ => ?_
      refine h.bind (h.writeFile output htarget _) fun _ => ?_
      cases (emit o path d).ok with
      | true => exact h.bind (h.print _) fun _ => h.pure _
      | false => exact h.pure _

theorem compileInput {o : Options}
    (houtput : o.check = false → ∀ output ∈ o.output, output ∈ target?) (path : Bytes) :
    host.Keeps R (Session.compileInput o path) := by
  unfold Session.compileInput
  refine h.bind (h.print _) fun _ => ?_
  refine h.bind (h.readFile? path) fun source? => ?_
  cases source? with
  | none => exact h.bind (h.warn _) fun _ => h.pure _
  | some source =>
    refine h.bind (h.warn _) fun _ => ?_
    -- A document is written if the template is usable and not only checked.
    split
    · refine h.bind (h.print _) fun _ => ?_
      cases hcheck : o.check with
      | true => exact h.bind (h.pure _) fun _ => h.pure _
      | false => exact h.bind (h.write (houtput hcheck) path _) fun _ => h.pure _
    · exact h.bind (h.warn _) fun _ => h.pure _

theorem compileInputs {o : Options}
    (houtput : o.check = false → ∀ output ∈ o.output, output ∈ target?) (paths : List Bytes) :
    host.Keeps R (Session.compileInputs o paths) := by
  induction paths with
  | nil => exact h.pure _
  | cons path paths ih =>
    exact h.bind (h.compileInput houtput path) fun _ => h.bind ih fun _ => h.pure _

theorem compile {o : Options}
    (houtput : o.check = false → ∀ output ∈ o.output, output ∈ target?) :
    host.Keeps R (Session.compile o) := by
  unfold Session.compile
  split
  · exact h.bind (h.warn _) fun _ => h.pure _
  · exact h.bind (h.print _) fun _ => h.compileInputs houtput _

theorem run {o : Options}
    (houtput : o.mode = .compile ∧ o.check = false → ∀ output ∈ o.output, output ∈ target?) :
    host.Keeps R (Session.run o) := by
  unfold Session.run
  cases hmode : o.mode with
  | help | version => exact h.bind (h.print _) fun _ => h.pure _
  | compile => exact h.compile fun hcheck => houtput ⟨hmode, hcheck⟩

omit h in
/-- What the steps of a session keep is kept by the session. -/
theorem ofArguments {arguments : List Bytes} (h : host.Allows (Session.target? arguments) R) :
    host.Keeps R (Session.ofArguments arguments) := by
  unfold Session.ofArguments
  cases hparse : Options.parse arguments with
  | error e => exact h.bind (h.warn _) fun _ => h.pure _
  | ok o =>
    have houtput : o.mode = .compile ∧ o.check = false →
        ∀ output ∈ o.output, output ∈ Session.target? arguments := by
      intro hwrites output hsome
      simp only [Session.target?, hparse, if_pos hwrites]
      exact hsome
    exact h.bind (h.run houtput) fun _ => h.pure _

end Allows

end LawfulHost

/-- A session without an output leaves the files as they are. -/
theorem Session.surroundings_of_target?_eq_none {m : Type → Type} [Monad m] [Host m] {W : Type}
    (host : LawfulHost m W) (w : W) {arguments : List Bytes} (h : target? arguments = none) :
    host.surroundings (host.run (ofArguments arguments) w).2 = host.surroundings w := by
  have hallows : host.Allows (target? arguments)
      fun before after => host.surroundings after = host.surroundings before :=
    { refl := fun _ => rfl
      trans := fun hfirst hsecond => hsecond.trans hfirst
      print := host.surroundings_print
      warn := host.surroundings_warn
      readFile? := host.surroundings_readFile?
      createFile := by simp [h]
      writeFile := by simp [h] }
  exact hallows.ofArguments w

/-! ## Directories -/

namespace Directory

variable {before between after : Directory} {names : Bytes → Prop} {name content : Bytes}

/-- Every file of the second directory is one of the first, unless it has one of the names. -/
def ChangesOnly (names : Bytes → Prop) (before after : Directory) : Prop :=
  ∀ file ∈ after.files, file ∈ before.files ∨ names file.1

theorem ChangesOnly.trans (h : ChangesOnly names before between)
    (h' : ChangesOnly names between after) : ChangesOnly names before after := by
  intro file hfile
  rcases h' file hfile with hbetween | hname
  · exact h file hbetween
  · exact .inr hname

theorem changesOnly_put (d : Directory) (h : names name) (content : Bytes) :
    ChangesOnly names d (d.put name content) := by
  intro file hfile
  unfold put at hfile
  -- The file is replaced where it stands, or it is the last one.
  split at hfile
  · obtain ⟨old, hold, rfl⟩ := List.mem_map.1 hfile
    split
    · exact .inr h
    · exact .inl hold
  · rcases List.mem_append.1 hfile with hold | hnew
    · exact .inl hold
    · rw [List.mem_singleton.1 hnew]
      exact .inr h

/-- What is in a file afterwards was there before, or it is a change. -/
theorem mem_changesSince_of_content? (h : after.content? name = some content)
    (hchanged : before.content? name ≠ some content) :
    (name, content) ∈ before.changesSince after := by
  obtain ⟨others, more, hfiles, -⟩ := List.lookup_eq_some_iff.1 h
  refine List.mem_filter.2 ⟨?_, by simpa using hchanged⟩
  rw [hfiles]
  exact List.mem_append_right _ List.mem_cons_self

/-- Where no name stands for two files, the files with certain names are the only changes. -/
theorem ChangesOnly.names_of_mem_changesSince (h : ChangesOnly names before after)
    (hnodup : (before.files.map Prod.fst).Nodup) {file : Bytes × Bytes}
    (hfile : file ∈ before.changesSince after) : names file.1 := by
  obtain ⟨hafter, hchanged⟩ := List.mem_filter.1 hfile
  rcases h file hafter with hbefore | hname
  · -- A file that was there has the content that it had.
    obtain ⟨others, more, hfiles⟩ := List.append_of_mem hbefore
    have hcontent : before.content? file.1 = some file.2 := by
      refine List.lookup_eq_some_iff.2 ⟨others, more, hfiles, fun other hother => ?_⟩
      rw [hfiles, List.map_append, List.map_cons, List.nodup_append] at hnodup
      have hne := hnodup.2.2 other.1 (List.mem_map_of_mem hother) file.1 List.mem_cons_self
      simpa using hne.symm
    simp [hcontent] at hchanged
  · exact hname

end Directory

/-- A session in a directory changes no file but its output. -/
theorem Session.changesSince_inDirectory {directory : Directory}
    (hnodup : (directory.files.map Prod.fst).Nodup) (arguments : List Bytes) :
    ∀ file ∈ directory.changesSince (inDirectory directory arguments).2.directory,
      ∃ path ∈ target? arguments, Directory.locate path = .file file.1 := by
  let output (name : Bytes) : Prop := ∃ path ∈ target? arguments, Directory.locate path = .file name
  have hput : ∀ path ∈ target? arguments, ∀ name, Directory.locate path = .file name →
      ∀ (d : Directory) (content : Bytes), Directory.ChangesOnly output d (d.put name content) :=
    fun path hpath name hlocate d content =>
      Directory.changesOnly_put d ⟨path, hpath, hlocate⟩ content
  have hallows : World.host.Allows (target? arguments)
      fun before after => Directory.ChangesOnly output before.directory after.directory :=
    { refl := fun _ _ hfile => .inl hfile
      trans := fun hfirst hsecond => hfirst.trans hsecond
      print := fun _ _ _ hfile => .inl hfile
      warn := fun _ _ _ hfile => .inl hfile
      readFile? := fun _ _ _ hfile => .inl hfile
      createFile := fun path hpath w => by
        show Directory.ChangesOnly output w.directory
          ((Host.createFile (m := StateM World) path).run w).2.directory
        rw [World.run_createFile]
        cases hlocate : Directory.locate path with
        | file name => exact hput path hpath name hlocate _ _
        | directory | nowhere => exact fun _ hfile => .inl hfile
      writeFile := fun path hpath content w => by
        show Directory.ChangesOnly output w.directory
          ((Host.writeFile (m := StateM World) path content).run w).2.directory
        rw [World.run_writeFile]
        cases hlocate : Directory.locate path with
        | file name => exact hput path hpath name hlocate _ _
        | directory | nowhere => exact fun _ hfile => .inl hfile }
  intro file hfile
  rw [← World.run_host] at hfile
  exact (hallows.ofArguments { directory }).names_of_mem_changesSince hnodup hfile

end MarkupTemplate
