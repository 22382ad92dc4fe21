import MarkupTemplate.Proofs.Mirror
import MarkupTemplate.Proofs.Tag

/-!
# Structuring undoes writing

A container that holds a written fragment is structured into the nodes of the fragment: every
element with its attributes, every value with its parts, every text and every hole in its place, and
nothing else. Each piece of what is written does its part to an assembly, whatever comes after it.

## Main results

* `Assembly.read_startTag`, `Assembly.read_endTag`, `Assembly.read_text`: the pieces of a fragment
* `Assembly.read_written`: a whole fragment
* `Document.structureChildren_written`: a container that holds a written fragment
-/

namespace MarkupTemplate

open Markup

/-! ## The holes in the values of a start tag -/

section

variable {e : Entry} {offset : Nat} {hole : Hole}

theorem placedFrom_written (e : Entry) (offset : Nat) :
    placedFrom offset e.written =
      e.value.elim [] (placedFrom (offset + 1 + e.name.length + 2)) := by
  obtain ⟨name, value⟩ := e
  cases value with
  | none => rfl
  | some parts =>
    have hplace : offset + (Byte.space :: name).length + [Byte.equals, Byte.doubleQuote].length =
        offset + 1 + name.length + 2 := by
      simp only [List.length_cons, List.length_nil]
      omega
    simp only [Entry.written, Option.elim_some, placedFrom, placedFrom_append, hplace,
      List.append_nil]

/-- A hole that is written in a value is found in it. -/
theorem isIn_scanned (h : hole ∈ placedFrom offset e.written) :
    hole.isIn (e.scanned offset) = true := by
  rw [placedFrom_written] at h
  obtain ⟨name, value⟩ := e
  cases value with
  | none => cases h
  | some parts =>
    obtain ⟨i, hi, hle, hle'⟩ := exists_offset_of_mem_placedFrom h
    simp [Hole.isIn, hi, Attribute.valueHolds, Entry.scanned, Slice.stop, hle, hle']

/-- A hole that is written after an attribute is not found in its value. -/
theorem not_isIn_scanned {rest : List ValuePart} (h : hole ∈ placedFrom (offset + e.length) rest) :
    hole.isIn (e.scanned offset) = false := by
  obtain ⟨i, hi, hle, -⟩ := exists_offset_of_mem_placedFrom h
  obtain ⟨name, value⟩ := e
  cases value with
  | none => simp [Hole.isIn, hi, Attribute.valueHolds, Entry.scanned]
  | some parts =>
    simp only [Entry.length, Entry.valueText, Option.elim_some, List.length_cons,
      List.length_append, List.length_nil] at hle
    simp only [Hole.isIn, hi, Option.any_some, Attribute.valueHolds, Entry.scanned,
      Option.map_some, Slice.stop, Bool.and_eq_false_iff]
    exact .inr (decide_eq_false (by omega))

/-- The holes of the next attribute, and those after it. -/
theorem placedFrom_writtenEntries_cons (e : Entry) (entries : List Entry) (offset : Nat) :
    placedFrom offset (writtenEntries (e :: entries)) =
      placedFrom offset e.written ++ placedFrom (offset + e.length) (writtenEntries entries) := by
  rw [writtenEntries, List.flatMap_cons, placedFrom_append, length_written, writtenEntries]

/-- Every hole of a written start tag is found in a value. -/
theorem any_isIn_scannedEntries {entries : List Entry}
    (h : hole ∈ placedFrom offset (writtenEntries entries)) :
    (scannedEntries offset entries).any hole.isIn = true := by
  induction entries generalizing offset with
  | nil => cases h
  | cons e entries ih =>
    rw [placedFrom_writtenEntries_cons] at h
    rw [scannedEntries, List.any_cons, Bool.or_eq_true]
    rcases List.mem_append.1 h with h | h
    · exact .inl (isIn_scanned h)
    · exact .inr (ih h)

/-- The parts of a value are those that it was written with. -/
theorem parts_scanned (h : e.isWritable = true) (offset : Nat) :
    (e.scanned offset).parts (placedFrom offset e.written) = e.parts := by
  have hvalue := Entry.isValue_of_mem h
  rw [placedFrom_written]
  obtain ⟨name, value⟩ := e
  cases value with
  | none => rfl
  | some parts => exact splice_placedFrom (hvalue parts rfl) _

end

namespace Assembly

variable {a : Assembly} {name : Bytes} {entries : List Entry} {rest : List ValuePart}

/-! ## A start tag -/

theorem attach_scanned {e : Entry} {offset : Nat} (he : e.isWritable = true)
    (hwaiting : a.waiting = placedFrom offset (writtenEntries (e :: entries))) :
    a.attach (e.scanned offset) =
      { a with
        next := a.next + 2 + literalCount e.parts
        content := a.content ++ attributeForest a.next e.name e.parts
        waiting := placedFrom (offset + e.length) (writtenEntries entries) } := by
  rw [placedFrom_writtenEntries_cons] at hwaiting
  -- The holes up to the closing quote are in the value, and those after it are not.
  have hin : a.waiting.filter (·.isIn (e.scanned offset)) = placedFrom offset e.written := by
    rw [hwaiting, List.filter_append, List.filter_eq_self.2 fun _ => isIn_scanned,
      List.filter_eq_nil_iff.2 fun _ h => by simp [not_isIn_scanned h], List.append_nil]
  have hout : (a.waiting.filter fun hole => !hole.isIn (e.scanned offset)) =
      placedFrom (offset + e.length) (writtenEntries entries) := by
    rw [hwaiting, List.filter_append, List.filter_eq_nil_iff.2 fun _ h => by simp [isIn_scanned h],
      List.filter_eq_self.2 fun _ h => by simp [not_isIn_scanned h], List.nil_append]
  have hparts : a.parts (e.scanned offset) = e.parts := by rw [parts, hin, parts_scanned he]
  rw [attach, hparts, hout]
  rfl

/-- The attributes of a written start tag become what they were written from. -/
theorem foldl_attach_scanned (h : ∀ e ∈ entries, e.isWritable = true) {offset : Nat}
    (hwaiting : a.waiting = placedFrom offset (writtenEntries entries)) :
    (scannedEntries offset entries).foldl attach a =
      { a with
        next := a.next + entriesSize entries
        content := a.content ++ entriesForest a.next entries
        waiting := [] } := by
  induction entries generalizing a offset with
  | nil =>
    obtain ⟨next, path, content, diagnostics, waiting, carried⟩ := a
    obtain rfl : waiting = [] := hwaiting
    simp [scannedEntries, entriesSize, entriesForest]
  | cons e entries ih =>
    rw [scannedEntries, List.foldl_cons, attach_scanned (h e (by simp)) hwaiting,
      ih (fun e he => h e (List.mem_cons_of_mem _ he)) rfl]
    simp [entriesSize, entriesForest, Nat.add_assoc]

/-- A written start tag opens its element. -/
theorem openElement_scanned (h : ∀ e ∈ entries, e.isWritable = true) {offset : Nat}
    (hwaiting : a.waiting = placedFrom offset (writtenEntries entries)) :
    a.openElement name (scannedEntries offset entries) =
      { a with
        next := a.next + 1 + entriesSize entries
        path := ⟨a.next, { kind := .element, name := name }, a.content⟩ :: a.path
        content := entriesForest (a.next + 1) entries
        waiting := [] } := by
  -- No hole stands between the attributes.
  have hnone : (a.waiting.filter fun hole =>
      hole.isPositional && !(scannedEntries offset entries).any hole.isIn) = [] := by
    rw [hwaiting, List.filter_eq_nil_iff]
    intro hole hmem
    simp [any_isIn_scannedEntries hmem]
  have hall : (a.waiting.filter fun hole =>
      !(hole.isPositional && !(scannedEntries offset entries).any hole.isIn)) = a.waiting := by
    rw [hwaiting, List.filter_eq_self]
    intro hole hmem
    simp [any_isIn_scannedEntries hmem]
  have hrelease : (a.release fun hole =>
      hole.isPositional && !(scannedEntries offset entries).any hole.isIn) = a := by
    rw [release, hnone, hall]
    simp [Forest.leaves]
  rw [openElement, hrelease, foldl_attach_scanned (a := a.enter name) h hwaiting]
  simp [release, enter, Forest.leaves]

theorem closedLabel_self (name : Bytes) :
    closedLabel name { kind := .element, name := name } = { kind := .element, name := name } := by
  rw [closedLabel, if_pos (Bytes.equalsIgnoringCase_iff.2 rfl)]

/-- A closing tag of the same name closes an element as it is. -/
theorem closeElement_self {node : NodeId} {before : Forest} {path : List OpenBranch}
    (hpath : a.path = ⟨node, { kind := .element, name := name }, before⟩ :: path) :
    a.closeElement name =
      { a with
        path := path
        content := before ++ .cons node { kind := .element, name := name } a.content .nil } := by
  simp only [closeElement, hpath, closedLabel_self]

/-- A start tag opens its element, and closes it again if it never has content. -/
theorem apply_startTag (name : Bytes) (h : ∀ e ∈ entries, e.isWritable = true) {place : Nat}
    (hwaiting : a.waiting = placedFrom place (writtenEntries entries)) (i j k : Nat) :
    a.apply ⟨i, j, .startTag ⟨k, name⟩ (scannedEntries place entries) false⟩ =
      if isVoid name then
        { a with
          next := a.next + 1 + entriesSize entries
          content := a.content ++ .cons a.next { kind := .element, name := name }
            (entriesForest (a.next + 1) entries) .nil
          waiting := [] }
      else
        { a with
          next := a.next + 1 + entriesSize entries
          path := ⟨a.next, { kind := .element, name := name }, a.content⟩ :: a.path
          content := entriesForest (a.next + 1) entries
          waiting := [] } := by
  simp only [apply, openElement_scanned h hwaiting, Bool.false_or]
  split
  · rw [closeElement_self rfl]
  · rfl

/-! ## The pieces of a fragment -/

/-- What is written of a start tag opens its element, with the holes in its values. -/
theorem read_startTag (hname : isTagName name = true) (h : ∀ e ∈ entries, e.isWritable = true)
    (hcarried : a.carried = []) (hwaiting : a.waiting = []) :
    a.read (.literal (Byte.lessThan :: name) ::
        (writtenEntries entries ++ .literal [Byte.greaterThan] :: rest)) =
      read (if isVoid name then
        { a with
          next := a.next + 1 + entriesSize entries
          content := a.content ++ .cons a.next { kind := .element, name := name }
            (entriesForest (a.next + 1) entries) .nil }
      else
        { a with
          next := a.next + 1 + entriesSize entries
          path := ⟨a.next, { kind := .element, name := name }, a.content⟩ :: a.path
          content := entriesForest (a.next + 1) entries }) rest := by
  obtain ⟨next, path, content, diagnostics, waiting, carried⟩ := a
  obtain rfl : carried = [] := hcarried
  obtain rfl : waiting = [] := hwaiting
  have hstarts : startsMarkup (Byte.lessThan :: name) = true := by
    have hempty := Cursor.startsMarkup_lessThan_name hname []
    rwa [List.append_nil] at hempty
  have hmarkup := Cursor.markup?_startTag hname h []
  rw [List.append_nil] at hmarkup
  -- The holes in the values wait until all of the tag is there.
  have hcut : read ⟨next, path, content, diagnostics, [], Byte.lessThan :: name⟩
      (writtenEntries entries ++ .literal [Byte.greaterThan] :: rest) =
        read ⟨next, path, content, diagnostics,
          placedFrom (Byte.lessThan :: name).length (writtenEntries entries),
          startTagText name entries⟩ rest :=
    read_of_cut hstarts (List.cons_ne_nil _ _) hmarkup
  have hplace : (Byte.lessThan :: name).length = 1 + name.length := Nat.add_comm _ _
  rw [hplace] at hcut
  have happly := apply_startTag name (a := ⟨next, path, content, diagnostics,
    placedFrom (1 + name.length) (writtenEntries entries), startTagText name entries⟩) h rfl
  have hnext := Cursor.next?_startTag hname h (leadingText rest)
  rw [read, List.nil_append, hcut, read_of_token hnext (by rw [happly]; split <;> rfl), happly]
  split <;> rfl

/-- An end tag closes the innermost open element. -/
theorem read_endTag (hname : isTagName name = true) (hcarried : a.carried = [])
    (hwaiting : a.waiting = []) :
    a.read (.literal (endTagText name) :: rest) = (a.closeElement name).read rest := by
  have happly : ∀ offset length place, a.apply ⟨offset, length, .endTag ⟨place, name⟩⟩ =
      a.closeElement name := by
    intro offset length place
    simp only [apply, release_of_waiting_eq_nil hwaiting]
  rw [read_literal_of_token hcarried (Cursor.next?_endTag hname (leadingText rest)), happly]
  rw [happly, waiting_closeElement, hwaiting]

/-- A text goes under the innermost open element. -/
theorem read_text {text : Bytes} (hne : text ≠ []) (htext : isPlain text = true)
    (hrest : Opens (leadingText rest)) (hcarried : a.carried = []) (hwaiting : a.waiting = []) :
    a.read (.literal text :: rest) = (a.addText text).read rest := by
  have happly : ∀ offset length, a.apply ⟨offset, length, .text text⟩ = a.addText text := by
    intro offset length
    simp only [apply, release_of_waiting_eq_nil hwaiting]
  rw [read_literal_of_token hcarried (Cursor.next?_text hne htext hrest), happly]
  rw [happly, waiting_addText, hwaiting]

end Assembly

/-! ## A whole fragment -/

/-- What is written for a fragment that starts with no text starts with markup or a hole. -/
theorem Fragment.opens_written {f : Fragment} {underContainer : Bool}
    (hf : f.isWritable underContainer = true) (htext : f.startsWithText = false)
    {rest : List ValuePart} (hrest : Opens (leadingText rest)) :
    Opens (leadingText (f.written ++ rest)) := by
  cases f with
  | nil => exact hrest
  | text data siblings => simp [startsWithText] at htext
  | hole node siblings => exact .inl rfl
  | element name entries children siblings =>
    simp only [isWritable, Bool.and_eq_true] at hf
    right
    exact Cursor.startsMarkup_lessThan_name hf.1.1.1.1 _

namespace Assembly

/-- A written fragment is read as its nodes, whatever comes before it and after it. -/
theorem read_written {f : Fragment} {underContainer : Bool} {a : Assembly} {rest : List ValuePart}
    (hf : f.isWritable underContainer = true) (htop : a.path = [] → underContainer = true)
    (hcarried : a.carried = []) (hwaiting : a.waiting = []) (hrest : Opens (leadingText rest)) :
    a.read (f.written ++ rest) =
      read { a with next := a.next + f.size, content := a.content ++ f.forest a.next } rest := by
  induction f generalizing underContainer a rest with
  | nil => simp [Fragment.written, Fragment.size, Fragment.forest]
  | text data siblings ih =>
    simp only [Fragment.isWritable, Bool.and_eq_true, Bool.not_eq_true'] at hf
    obtain ⟨⟨⟨⟨hne, hplain⟩, hwhite⟩, htext⟩, hsiblings⟩ := hf
    -- White space is dropped under the container only, where there is none.
    have hadd : ¬ (a.path.isEmpty && Bytes.isWhite data) = true := by
      intro hadd
      obtain ⟨hpath, hdata⟩ := Bool.and_eq_true_iff.1 hadd
      rw [htop (List.isEmpty_iff.1 hpath), hdata] at hwhite
      cases hwhite
    have hafter := ih (a := { a with
      next := a.next + 1
      content := a.content ++ .cons a.next { kind := .markup, fragments := [data] } .nil .nil })
      hsiblings htop hcarried hwaiting hrest
    have hopens := Fragment.opens_written hsiblings htext hrest
    rw [Fragment.written, List.cons_append, read_text (by simpa using hne) hplain hopens hcarried
      hwaiting, addText, if_neg hadd, hafter]
    simp [Fragment.size, Fragment.forest, Nat.add_assoc]
  | hole node siblings ih =>
    have hafter := ih (a := { a with content := a.content ++ Forest.leaves [node] }) hf htop
      hcarried hwaiting hrest
    rw [Fragment.written, List.cons_append, read_hole hcarried, hafter]
    simp [Fragment.size, Fragment.forest, Forest.leaves]
  | element name entries children siblings ihc ihs =>
    simp only [Fragment.isWritable, Bool.and_eq_true, Bool.or_eq_true, Bool.not_eq_true',
      beq_iff_eq, List.all_eq_true] at hf
    obtain ⟨⟨⟨⟨hname, hentries⟩, hvoid⟩, hchildren⟩, hsiblings⟩ := hf
    have hafter := ihs (a := { a with
      next := a.next + 1 + entriesSize entries + children.size
      content := a.content ++ .cons a.next { kind := .element, name := name }
        (entriesForest (a.next + 1) entries ++
          children.forest (a.next + 1 + entriesSize entries)) .nil })
      hsiblings htop hcarried hwaiting hrest
    by_cases hv : isVoid name = true
    · -- The element is closed by its start tag, and there is nothing under it.
      obtain rfl : children = .nil := hvoid.resolve_left (by simp [hv])
      rw [Fragment.written, if_pos hv, List.nil_append, List.cons_append, List.append_assoc,
        List.cons_append, read_startTag hname hentries hcarried hwaiting, if_pos hv]
      simp only [Fragment.size, Fragment.forest, Forest.append_nil, Nat.add_zero] at hafter ⊢
      rw [hafter]
      simp [Nat.add_assoc]
    · -- The end tag follows what is under the element.
      have hend : Opens (leadingText (.literal (endTagText name) :: (siblings.written ++ rest))) :=
        .inr (Cursor.startsMarkup_endTagText hname _)
      have hunder := ihc (a := { a with
        next := a.next + 1 + entriesSize entries
        path := ⟨a.next, { kind := .element, name := name }, a.content⟩ :: a.path
        content := entriesForest (a.next + 1) entries }) hchildren (by simp) hcarried hwaiting hend
      rw [Fragment.written, if_neg hv, List.cons_append, List.append_assoc, List.cons_append,
        List.append_assoc, List.append_assoc, List.singleton_append,
        read_startTag hname hentries hcarried hwaiting, if_neg hv, hunder,
        read_endTag hname (by exact hcarried) (by exact hwaiting), closeElement_self (by rfl),
        hafter]
      simp [Fragment.size, Fragment.forest, Nat.add_assoc]

/-- The children of a container that a fragment is written as are assembled into its nodes. -/
theorem run_gather_written {f : Fragment} (hf : f.isWritable true = true) (n : Nat) :
    run n (gather f.written) = { next := n + f.size, content := f.forest n } := by
  have hend : Opens (leadingText []) := .inl rfl
  have hread := read_written (a := { next := n }) hf (fun _ => rfl) rfl rfl hend
  rw [run, foldl_take_gather (settled_of_carried_eq_nil rfl), ← List.append_nil f.written, hread,
    read, flush_of_settled (settled_of_carried_eq_nil rfl), Forest.nil_append]

end Assembly

namespace Document

/-- One document is another in which a container holds the nodes of a fragment, numbered after the
nodes that were there before. Nothing is wrong with any of them, nor with the container, and the
other nodes are as they were. -/
structure StructuredAs (d : Document) (container : NodeId) (f : Fragment) (d' : Document) : Prop
    where
  size : d'.size = d.size + f.size
  children : d'.children container = (f.forest d.size).roots
  holds : d'.Holds d.size (f.forest d.size)
  label : (d'.label container).plain = (d.label container).plain
  kept : ∀ id : Nat, id < d.size → id ≠ container → d'.node id = d.node id

variable {d : Document} {container : NodeId} {f : Fragment}

/-- Structuring undoes writing: a container whose children are a written fragment can be structured,
and then it holds the fragment. -/
theorem structureChildren_written (hcontainer : container < d.size)
    (hchildren : ∀ child ∈ d.children container, child < d.size) (hf : f.isWritable true = true)
    (hitems : d.items container = gather f.written) :
    (d.structureChildren container).ok ∧
      d.StructuredAs container f (d.structureChildren container).document := by
  have hassembly : d.assembly container =
      { next := d.size + f.size, content := f.forest d.size } := by
    rw [assembly, hitems, Assembly.run_gather_written hf]
  have hstored := stored_structureChildren hcontainer hchildren
  rw [hassembly] at hstored
  refine ⟨?_, hstored.size, hstored.path, hstored.content, ?_, hstored.kept⟩
  · rw [ok_structureChildren_iff hcontainer hchildren, hassembly]
    exact ⟨rfl, rfl, rfl⟩
  · rw [hstored.label, List.append_nil]

/-- A list item with a divided value, an empty and a bare attribute, and a void element in it. -/
def menuFragment : Fragment :=
  .hole 2 (.element (utf8 "Li")
    [⟨utf8 "class", some [.literal (utf8 "a>"), .hole 4, .hole 5, .literal (utf8 "'b")]⟩,
      ⟨utf8 "id", some [.literal []]⟩, ⟨utf8 "hidden", none⟩]
    (.text (utf8 " 1 < 2</ ") (.element (utf8 "BR") [⟨utf8 "x", some [.hole 7]⟩] .nil .nil))
    (.hole 9 .nil))

/-- The same as it is written in a template. -/
def menuMarkup : Document :=
  ⟨#[{ kind := .document, children := [1] },
    { kind := .element, name := utf8 "ul", children := [2, 3, 4, 5, 6, 7, 8, 9] },
    { kind := .embedded .codeBlock (utf8 "i") },
    { kind := .markup, fragments := [utf8 "<Li class=\"a>"] },
    { kind := .embedded .expression (utf8 "v") },
    { kind := .embedded .expression (utf8 "w") },
    { kind := .markup, fragments := [utf8 "'b\" id=\"\" hidden> 1 < 2</ <BR x=\""] },
    { kind := .embedded .expression (utf8 "x") },
    { kind := .markup, fragments := [utf8 "\"></Li>"] },
    { kind := .embedded .codeBlock (utf8 "j") }], by decide⟩

theorem menuMarkup_structured :
    1 < menuMarkup.size ∧ menuFragment.isWritable true = true ∧
      menuMarkup.items 1 = gather menuFragment.written ∧
        (menuMarkup.structureChildren 1).ok ∧
          menuMarkup.StructuredAs 1 menuFragment (menuMarkup.structureChildren 1).document := by
  have hcontainer : 1 < menuMarkup.size := by decide
  have hf : menuFragment.isWritable true = true := by decide +kernel
  have hitems : menuMarkup.items 1 = gather menuFragment.written := by decide +kernel
  exact ⟨hcontainer, hf, hitems, structureChildren_written hcontainer (by decide) hf hitems⟩

end Document

end MarkupTemplate
