import MarkupTemplate.CommandLine.Options
import Mathlib.Data.List.Perm.Basic

/-!
# The order of arguments

Arguments may come in any order. An argument vector falls into units: `-o` and the argument behind
it are one, and every other argument is one of its own. Each unit is a request for one setting of
the options. Requests for different settings do not disturb each other, so the units can be moved as
long as those for the same setting keep their order; the order of flags does not even matter among
themselves.

## Main definitions

* `ArgumentUnit`, `ArgumentUnit.ofArguments`: the units of an argument vector
* `Setting`, `Argument.setting`: the setting that an argument is for
* `Options.take`: the options with one more request
* `Options.only`: the options with the defaults for all settings but one
* `Rearrangement`: the same units in another order, but for each setting in the same order

## Main results

* `Options.parseFrom_flatMap`: arguments ask for what their units ask for one after the other
* `Options.only_foldl_take`: a setting depends on nothing but the requests for it
* `Options.parse_rearrangement`: the order of arguments for different settings does not matter
-/

namespace MarkupTemplate

/-! ## Units -/

/-- Arguments that belong together. -/
inductive ArgumentUnit where
  /-- An argument of its own. -/
  | alone (argument : Bytes)
  /-- `-o` and the argument behind it, whatever it looks like. -/
  | outputTo (path : Bytes)
deriving DecidableEq, Repr

namespace ArgumentUnit

/-- The arguments of a unit. -/
def arguments : ArgumentUnit → List Bytes
  | alone argument => [argument]
  | outputTo path => [utf8 "-o", path]

/-- The units of an argument vector. -/
def ofArguments : List Bytes → List ArgumentUnit
  | [] => []
  | [argument] => [alone argument]
  | argument :: next :: rest =>
    if argument = utf8 "-o" then outputTo next :: ofArguments rest
    else alone argument :: ofArguments (next :: rest)

theorem flatMap_ofArguments (vector : List Bytes) :
    (ofArguments vector).flatMap arguments = vector := by
  fun_induction ofArguments vector with
  | case1 => rfl
  | case2 => rfl
  | case3 next rest ih => rw [List.flatMap_cons, ih]; rfl
  | case4 argument next rest hne ih => rw [List.flatMap_cons, ih]; rfl

/-- What a unit asks for. -/
def read : ArgumentUnit → Except UsageError Argument
  | alone argument => Argument.read argument
  | outputTo path => .ok (.output path)

/-- What a unit asks for, if it is understood. -/
def request? (u : ArgumentUnit) : Option Argument := u.read.toOption

/-- A unit asks neither for help nor for the version. -/
def IsPlain (u : ArgumentUnit) : Prop := u ≠ alone (utf8 "--help") ∧ u ≠ alone (utf8 "--version")

instance (u : ArgumentUnit) : Decidable u.IsPlain := inferInstanceAs (Decidable (_ ∧ _))

end ArgumentUnit

/-! ## Settings -/

/-- The parts of the options that arguments set. -/
inductive Setting where
  | inputs
  | components
  | output
  | emit
  | builder
  | verify
  | check
deriving DecidableEq, Repr

/-- The setting that an argument is for; a request for help or for the version is for none. -/
def Argument.setting : Argument → Option Setting
  | .input _ => some .inputs
  | .component _ => some .components
  | .output _ => some .output
  | .emit _ => some .emit
  | .builder _ => some .builder
  | .noVerify => some .verify
  | .check => some .check
  | .help | .version | .outputNext => none

/-- A unit is for a setting. -/
def ArgumentUnit.isFor (setting : Setting) (u : ArgumentUnit) : Bool :=
  u.request?.bind Argument.setting = some setting

/-- The same units in another order, which is the same among the units for one setting. Only flags,
which are all alike, may be moved past each other. -/
structure Rearrangement (units units' : List ArgumentUnit) : Prop where
  perm : units.Perm units'
  inOrder : ∀ setting ∉ [Setting.verify, Setting.check],
    units.filter (·.isFor setting) = units'.filter (·.isFor setting)

/-! ## Requests -/

namespace Options

/-- The options with one more request for a setting. -/
def take (o : Options) : Argument → Options
  | .input path => { o with inputs := o.inputs ++ [path] }
  | .component descriptor => { o with components := o.components ++ [descriptor] }
  | .output path => o.withOutput path
  | .emit kind => { o with emit := kind }
  | .builder name => { o with builder := name }
  | .noVerify => { o with verify := false }
  | .check => { o with check := true }
  | .help | .version | .outputNext => o

/-- Arguments are taken one unit after the other. -/
theorem parseFrom_append (o : Options) {u : ArgumentUnit} {request : Argument}
    (hread : u.read = .ok request) (hsetting : request.setting.isSome) (rest : List Bytes) :
    o.parseFrom (u.arguments ++ rest) = (o.take request).parseFrom rest := by
  cases u with
  | outputTo path =>
    obtain rfl : Argument.output path = request := Except.ok.inj hread
    have hdash : Argument.read (utf8 "-o") = .ok .outputNext := by decide +kernel
    rw [ArgumentUnit.arguments, List.cons_append, List.cons_append, parseFrom.eq_def]
    simp only [hdash]
    rfl
  | alone argument =>
    rw [ArgumentUnit.read] at hread
    rw [ArgumentUnit.arguments, List.cons_append, parseFrom.eq_def]
    simp only [hread]
    cases request <;> first | rfl | exact absurd hsetting (by decide)

/-- Arguments ask for what their units ask for one after the other, and then there has to be a
template. -/
theorem parseFrom_flatMap (o : Options) {units : List ArgumentUnit}
    (hunits : ∀ u ∈ units, ∃ request, u.read = .ok request ∧ request.setting.isSome) :
    o.parseFrom (units.flatMap ArgumentUnit.arguments) =
      parseFrom ((units.filterMap ArgumentUnit.request?).foldl take o) [] := by
  induction units generalizing o with
  | nil => rfl
  | cons u units ih =>
    obtain ⟨request, hread, hsetting⟩ := hunits u List.mem_cons_self
    have hrequest : u.request? = some request := by rw [ArgumentUnit.request?, hread]; rfl
    rw [List.flatMap_cons, parseFrom_append o hread hsetting,
      ih _ fun u hu => hunits u (List.mem_cons_of_mem _ hu),
      List.filterMap_cons_some hrequest, List.foldl_cons]

end Options

/-- An argument that is understood is for a setting, with the exception of three. -/
theorem Argument.setting_of_read {argument : Bytes} {request : Argument}
    (h : Argument.read argument = .ok request) :
    request.setting.isSome ∨ argument = utf8 "--help" ∨ argument = utf8 "--version" ∨
      argument = utf8 "-o" := by
  unfold Argument.read at h
  repeat' split at h
  all_goals cases h
  case h_1.isTrue.refl hafter hempty =>
    have happend := List.isPrefixOf?_eq_some_iff_append_eq.1 hafter
    rw [List.isEmpty_iff.1 hempty, List.append_nil] at happend
    exact .inr (.inr (.inr happend.symm))
  case isTrue.refl hhelp => exact .inr (.inl hhelp)
  case isFalse.isTrue.refl hversion => exact .inr (.inr (.inl hversion))
  all_goals exact .inl rfl

namespace Options

/-- If arguments are accepted, then the first of them is for a setting, unless it asks for help or
for the version or has to do with the next one. -/
theorem read_of_parseFrom_cons {o o' : Options} {argument : Bytes} {rest : List Bytes}
    (h : o.parseFrom (argument :: rest) = .ok o') (hplain : (ArgumentUnit.alone argument).IsPlain)
    (hnext : argument = utf8 "-o" → rest = []) :
    ∃ request, Argument.read argument = .ok request ∧ request.setting.isSome := by
  cases hread : Argument.read argument with
  | error e =>
    rw [parseFrom.eq_def] at h
    simp [hread] at h
  | ok request =>
    refine ⟨request, rfl, (Argument.setting_of_read hread).resolve_right ?_⟩
    rintro (rfl | rfl | rfl)
    · exact hplain.1 rfl
    · exact hplain.2 rfl
    · have hdash : Argument.read (utf8 "-o") = .ok .outputNext := by decide +kernel
      rw [hnext rfl, parseFrom.eq_def] at h
      simp [hdash] at h

/-- If arguments are accepted and do not ask for help or for the version, then each of their units
is for a setting. -/
theorem read_of_parseFrom {vector : List Bytes} {o o' : Options} (h : o.parseFrom vector = .ok o')
    (hplain : ∀ u ∈ ArgumentUnit.ofArguments vector, u.IsPlain) :
    ∀ u ∈ ArgumentUnit.ofArguments vector,
      ∃ request, u.read = .ok request ∧ request.setting.isSome := by
  fun_induction ArgumentUnit.ofArguments vector generalizing o with
  | case1 => simp
  | case2 argument =>
    rw [List.forall_mem_singleton] at hplain ⊢
    exact read_of_parseFrom_cons h hplain fun _ => rfl
  | case3 next rest ih =>
    rw [List.forall_mem_cons] at hplain ⊢
    have hread : ArgumentUnit.read (.outputTo next) = .ok (.output next) := rfl
    exact ⟨⟨_, hread, rfl⟩, ih ((parseFrom_append o hread rfl rest).symm.trans h) hplain.2⟩
  | case4 argument next rest hne ih =>
    rw [List.forall_mem_cons] at hplain ⊢
    obtain ⟨request, hread, hsetting⟩ :=
      read_of_parseFrom_cons h hplain.1 fun hdash => absurd hdash hne
    have hunit : ArgumentUnit.read (.alone argument) = .ok request := hread
    exact ⟨⟨request, hunit, hsetting⟩,
      ih ((parseFrom_append o hunit hsetting (next :: rest)).symm.trans h) hplain.2⟩

/-! ## One setting at a time -/

/-- The options with the defaults for all settings but one. -/
def only (o : Options) : Setting → Options
  | .inputs => { mode := o.mode, inputs := o.inputs }
  | .components => { mode := o.mode, components := o.components }
  | .output => { mode := o.mode, output := o.output }
  | .emit => { mode := o.mode, emit := o.emit }
  | .builder => { mode := o.mode, builder := o.builder }
  | .verify => { mode := o.mode, verify := o.verify }
  | .check => { mode := o.mode, check := o.check }

theorem eq_of_only {o o' : Options} (h : ∀ setting, o.only setting = o'.only setting) : o = o' := by
  have hinputs := h .inputs
  have hcomponents := h .components
  have houtput := h .output
  have hemit := h .emit
  have hbuilder := h .builder
  have hverify := h .verify
  have hcheck := h .check
  cases o
  cases o'
  simp_all [only]

/-- What a request does to a setting depends on nothing but this setting. -/
theorem only_take_congr {o o' : Options} {setting : Setting}
    (h : o.only setting = o'.only setting) (request : Argument) :
    (o.take request).only setting = (o'.take request).only setting := by
  cases setting <;> cases request <;> simp_all [only, take, withOutput]

/-- A request does nothing to the settings that it is not for. -/
theorem only_take_of_ne (o : Options) {setting : Setting} {request : Argument}
    (h : request.setting ≠ some setting) : (o.take request).only setting = o.only setting := by
  cases setting <;> cases request <;> first | rfl | exact absurd rfl h

theorem only_foldl_take_congr (requests : List Argument) {setting : Setting} {o o' : Options}
    (h : o.only setting = o'.only setting) :
    (requests.foldl take o).only setting = (requests.foldl take o').only setting := by
  induction requests generalizing o o' with
  | nil => exact h
  | cons request requests ih => exact ih (only_take_congr h request)

/-- A setting depends on nothing but the requests for it. -/
theorem only_foldl_take (o : Options) (setting : Setting) (requests : List Argument) :
    (requests.foldl take o).only setting =
      ((requests.filter (·.setting = some setting)).foldl take o).only setting := by
  induction requests generalizing o with
  | nil => rfl
  | cons request requests ih =>
    by_cases h : request.setting = some setting
    · rw [List.filter_cons_of_pos (by simpa using h)]
      exact ih (o.take request)
    · rw [List.filter_cons_of_neg (by simpa using h), List.foldl_cons, ← ih o]
      exact only_foldl_take_congr requests (only_take_of_ne o h)

/-- Requests in another order set the same, if those for each setting are in the same order. -/
theorem foldl_take_congr {requests requests' : List Argument}
    (h : ∀ setting, requests.filter (·.setting = some setting) =
      requests'.filter (·.setting = some setting)) (o : Options) :
    requests.foldl take o = requests'.foldl take o := by
  refine eq_of_only fun setting => ?_
  rw [only_foldl_take, h, ← only_foldl_take]

end Options

/-! ## Rearrangements -/

/-- All requests for a flag are alike. -/
theorem Argument.eq_of_flag {setting : Setting} (hflag : setting ∈ [Setting.verify, .check]) :
    ∃ flag, ∀ request : Argument, request.setting = some setting → request = flag := by
  rcases List.mem_pair.1 hflag with rfl | rfl
  · exact ⟨.noVerify, fun request h => by cases request <;> first | rfl | cases h⟩
  · exact ⟨.check, fun request h => by cases request <;> first | rfl | cases h⟩

namespace Rearrangement

variable {units units' : List ArgumentUnit}

theorem filter_request (setting : Setting) (units : List ArgumentUnit) :
    (units.filterMap ArgumentUnit.request?).filter (·.setting = some setting) =
      (units.filter (·.isFor setting)).filterMap ArgumentUnit.request? := by
  rw [List.filter_filterMap, List.filterMap_filter]
  refine List.filterMap_congr fun u _ => ?_
  rw [ArgumentUnit.isFor]
  cases u.request? <;> simp [Option.filter]

/-- The requests for a setting are the same ones in the same order. -/
theorem filter_requests (h : Rearrangement units units') (setting : Setting) :
    (units.filterMap ArgumentUnit.request?).filter (·.setting = some setting) =
      (units'.filterMap ArgumentUnit.request?).filter (·.setting = some setting) := by
  by_cases hflag : setting ∈ [Setting.verify, Setting.check]
  · have hperm := (h.perm.filterMap ArgumentUnit.request?).filter (·.setting = some setting)
    obtain ⟨flag, halike⟩ := Argument.eq_of_flag hflag
    have hreplicate := List.eq_replicate_of_mem
      fun request (hrequest : request ∈ (units.filterMap ArgumentUnit.request?).filter
        (·.setting = some setting)) =>
        halike request (of_decide_eq_true (List.mem_filter.1 hrequest).2)
    rw [hreplicate] at hperm ⊢
    exact List.replicate_perm.1 hperm
  · rw [filter_request, h.inOrder setting hflag, ← filter_request]

end Rearrangement

/-- The order of arguments for different settings does not matter: if arguments are accepted and ask
neither for help nor for the version, then the same units in another order, which is the same among
the units for one setting, are accepted with the same options. -/
theorem Options.parse_rearrangement {vector : List Bytes} {o : Options}
    (hparse : Options.parse vector = .ok o)
    (hplain : ∀ u ∈ ArgumentUnit.ofArguments vector, u.IsPlain) {units : List ArgumentUnit}
    (h : Rearrangement (ArgumentUnit.ofArguments vector) units) :
    Options.parse (units.flatMap ArgumentUnit.arguments) = .ok o := by
  have hread := read_of_parseFrom hparse hplain
  rw [parse, parseFrom_flatMap _ fun u hu => hread u (h.perm.mem_iff.2 hu),
    ← foldl_take_congr h.filter_requests, ← parseFrom_flatMap _ hread,
    ArgumentUnit.flatMap_ofArguments]
  exact hparse

/-- Arguments of all kinds, with a path that looks like the request for help. -/
def mixedArguments : List Bytes :=
  ["a", "-o", "--help", "--emit=tree", "--component=C", "--check", "b", "-oout", "--component=D",
    "--emit=render", "--no-verify", "--builder-name=x"].map utf8

/-- The units of `mixedArguments` in another order. -/
def mixedUnits : List ArgumentUnit :=
  [.alone (utf8 "--no-verify"), .alone (utf8 "--emit=tree"), .outputTo (utf8 "--help")] ++
    ["-oout", "a", "--builder-name=x", "b", "--component=C", "--emit=render", "--component=D",
      "--check"].map fun argument => .alone (utf8 argument)

/-- What `mixedArguments` ask for. -/
def mixedOptions : Options where
  inputs := [utf8 "a", utf8 "b"]
  components := [utf8 "C", utf8 "D"]
  output := some (utf8 "out")
  emit := .render
  builder := utf8 "x"
  verify := false
  check := true

theorem mixedArguments_rearrangement :
    Options.parse mixedArguments = .ok mixedOptions ∧
      (∀ u ∈ ArgumentUnit.ofArguments mixedArguments, u.IsPlain) ∧
      Rearrangement (ArgumentUnit.ofArguments mixedArguments) mixedUnits ∧
      Options.parse (mixedUnits.flatMap ArgumentUnit.arguments) = .ok mixedOptions := by
  have hparse : Options.parse mixedArguments = .ok mixedOptions := rfl
  have hplain : ∀ u ∈ ArgumentUnit.ofArguments mixedArguments, u.IsPlain := by decide +kernel
  have h : Rearrangement (ArgumentUnit.ofArguments mixedArguments) mixedUnits :=
    ⟨by decide +kernel, fun setting hflag => by
      cases setting <;> first | contradiction | decide +kernel⟩
  exact ⟨hparse, hplain, h, Options.parse_rearrangement hparse hplain h⟩

end MarkupTemplate
