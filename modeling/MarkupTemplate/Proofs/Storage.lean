import MarkupTemplate.Proofs.Accounting
import MarkupTemplate.Structuring.Document

/-!
# Assemblies in documents

While a forest is assembled, the document holds it: the closed part of it node by node, and the open
path from the container to the innermost open element. Each change that structuring makes to the
document is a change of the forest that it holds.

## Main definitions

* `Document.Holds`: a document has the nodes of a forest, apart from places in the template
* `Document.HoldsPath`: a document has the open elements of an assembly
* `Assembly.Stored`: a document holds an assembly, and the nodes that were there before it

## Main results

* `Structuring.holds_attribute`: an attribute with its value and the parts of it
* `Assembly.Stored.place`: new nodes go under the innermost open element
* `Assembly.Stored.close_iff`: an element is closed without a change to any node
-/

namespace MarkupTemplate

open Markup

namespace Document

/-- The document has the nodes of the forest from the number `n` on, with what they say and with
their children. -/
def Holds (d : Document) (n : Nat) : Forest → Prop
  | .nil => True
  | .cons id label children siblings =>
    (n ≤ id → (d.label id).plain = label ∧ d.children id = children.roots) ∧
      d.Holds n children ∧ d.Holds n siblings

/-- The document has the open elements, where the innermost of them, or else the container, has the
given children. -/
def HoldsPath (d : Document) (n : Nat) (container : NodeId) : List NodeId → List OpenBranch → Prop
  | ids, [] => d.children container = ids
  | ids, branch :: path =>
    ((d.label branch.node).plain = branch.label ∧ d.children branch.node = ids) ∧
      d.Holds n branch.before ∧
        d.HoldsPath n container (branch.before.roots ++ [branch.node]) path

variable {d d' : Document} {n : Nat} {container : NodeId}

@[simp] theorem holds_nil : d.Holds n .nil := trivial

theorem holds_append {f g : Forest} : d.Holds n (f ++ g) ↔ d.Holds n f ∧ d.Holds n g := by
  induction f with
  | nil => simp [Holds]
  | cons id label children siblings _ ih => simp [Holds, ih, and_assoc]

theorem holds_leaves {ids : List NodeId} (h : ∀ id ∈ ids, id < n) :
    d.Holds n (Forest.leaves ids) := by
  induction ids with
  | nil => trivial
  | cons id ids ih =>
    refine ⟨fun hle => absurd hle (Nat.not_le.2 (h id (by simp))), trivial, ih ?_⟩
    exact fun id' hid' => h id' (List.mem_cons_of_mem _ hid')

theorem label_eq_of_node_eq {id : NodeId} (h : d'.node id = d.node id) :
    d'.label id = d.label id := by
  rw [label, h, label]

theorem children_eq_of_node_eq {id : NodeId} (h : d'.node id = d.node id) :
    d'.children id = d.children id := by
  rw [children, h, children]

/-- Whether a document has a forest depends on no other nodes. -/
theorem Holds.congr {f : Forest} (h : d.Holds n f)
    (hd : ∀ id ∈ f.created n, d'.node id = d.node id) : d'.Holds n f := by
  -- Only the nodes that were made are looked at, and each of them is the same.
  induction f with
  | nil => trivial
  | cons id label children siblings ihc ihs =>
    obtain ⟨hid, hchildren, hsiblings⟩ := h
    refine ⟨fun hle => ?_, ihc hchildren fun i hi => hd i ?_, ihs hsiblings fun i hi => hd i ?_⟩
    · have hnode := hd id (by rw [Forest.created_cons_of_le hle]; simp)
      rw [label_eq_of_node_eq hnode, children_eq_of_node_eq hnode]
      exact hid hle
    all_goals
      simp only [Forest.created, Forest.preorder, List.mem_filter, List.mem_cons,
        List.mem_append] at hi ⊢
      exact ⟨by simp [hi.1], hi.2⟩

/-- The nodes of a path: the open elements and what was made before them. -/
def pathCreated (n : Nat) (path : List OpenBranch) : List NodeId :=
  path.flatMap fun branch => branch.node :: branch.before.created n

theorem HoldsPath.congr {ids : List NodeId} {path : List OpenBranch}
    (h : d.HoldsPath n container ids path)
    (hcontainer : d'.children container = d.children container)
    (hd : ∀ id ∈ pathCreated n path, d'.node id = d.node id) :
    d'.HoldsPath n container ids path := by
  induction path generalizing ids with
  | nil => exact hcontainer.trans h
  | cons branch path ih =>
    obtain ⟨hbranch, hbefore, hpath⟩ := h
    simp only [pathCreated, List.flatMap_cons, List.cons_append, List.mem_cons,
      List.mem_append] at hd
    have hnode := hd branch.node (.inl rfl)
    refine ⟨?_, hbefore.congr fun id hid => hd id (.inr (.inl hid)),
      ih hpath fun id hid => hd id (.inr (.inr hid))⟩
    rw [label_eq_of_node_eq hnode, children_eq_of_node_eq hnode]
    exact hbranch

/-- The innermost open element, or the container. -/
def pathTop (container : NodeId) (path : List OpenBranch) : NodeId :=
  (path.map OpenBranch.node).headD container

/-- A further child goes under the innermost open element. -/
theorem HoldsPath.appendChild {ids : List NodeId} {path : List OpenBranch} {child : NodeId}
    (h : d.HoldsPath n container ids path) (hnodup : (container :: pathCreated n path).Nodup)
    (htop : pathTop container path < d.size) :
    (d.appendChild (pathTop container path) child).HoldsPath n container (ids ++ [child]) path := by
  -- Only the innermost element gets a child, and nothing around it is the same node.
  cases path with
  | nil =>
    simp only [pathTop, List.map_nil, List.headD_nil] at htop ⊢
    rw [HoldsPath, children_appendChild htop, if_pos rfl, show d.children container = ids from h]
  | cons branch path =>
    obtain ⟨⟨hlabel, hchildren⟩, hbefore, hpath⟩ := h
    simp only [pathTop, List.map_cons, List.headD_cons] at htop ⊢
    simp only [pathCreated, List.flatMap_cons, List.cons_append, List.nodup_cons, List.mem_cons,
      List.mem_append, not_or] at hnodup
    obtain ⟨⟨hcontainer, -, -⟩, ⟨hbefore', hpath'⟩, -⟩ := hnodup
    refine ⟨⟨by rw [label_appendChild, hlabel], ?_⟩, hbefore.congr fun id hid => ?_,
      hpath.congr (children_appendChild_of_ne hcontainer) fun id hid => ?_⟩
    · rw [children_appendChild htop, if_pos rfl, hchildren]
    · exact node_modify_of_ne fun he => hbefore' (he ▸ hid)
    · exact node_modify_of_ne fun he => hpath' (he ▸ hid)

end Document

/-! ## Values and attributes in a document -/

namespace Structuring

variable {d : Document} {n v : Nat}

/-- A literal part is a new node, and the last child of the value. -/
theorem addPart_literal (text : Bytes) (hvalue : v < d.size) :
    let d' := addPart v d (.literal text)
    d'.size = d.size + 1 ∧
      (∀ id ≠ v, d'.node id = (d.add { kind := .markup, fragments := [text] }).node id) ∧
      d'.label v = d.label v ∧ d'.children v = d.children v ++ [d.size] := by
  simp only [addPart, Document.under, Document.addMarkup, Document.addNode]
  refine ⟨by simp, fun id hid => Document.node_modify_of_ne hid, ?_, ?_⟩
  · rw [Document.label_appendChild]
    exact Document.label_add_of_lt _ hvalue
  · rw [Document.children_appendChild (by simpa using Nat.lt_succ_of_lt hvalue), if_pos rfl,
      Document.children_add_of_lt _ hvalue]

/-- A hole is the last child of the value. -/
theorem addPart_hole (node : NodeId) (hvalue : v < d.size) :
    let d' := addPart v d (.hole node)
    d'.size = d.size ∧ (∀ id ≠ v, d'.node id = d.node id) ∧
      d'.label v = d.label v ∧ d'.children v = d.children v ++ [node] := by
  refine ⟨Document.size_appendChild, fun id hid => Document.node_modify_of_ne hid,
    Document.label_appendChild, ?_⟩
  rw [addPart, Document.children_appendChild hvalue, if_pos rfl]

/-- The parts of a value become children of its node and change no other. -/
theorem foldl_addPart (parts : List ValuePart) (hvalue : v < d.size) (hn : n ≤ d.size)
    (hparts : ∀ id ∈ partHoles parts, id < n) :
    let d' := parts.foldl (addPart v) d
    d'.size = d.size + literalCount parts ∧
      (∀ id : Nat, id < d.size → id ≠ v → d'.node id = d.node id) ∧
      d'.label v = d.label v ∧
      d'.children v = d.children v ++ (valueForest d.size parts).roots ∧
      d'.Holds n (valueForest d.size parts) := by
  induction parts generalizing d with
  | nil => simp [valueForest, literalCount, Forest.roots]
  | cons part parts ih =>
    cases part with
    | literal text =>
      obtain ⟨hsize, hnode, hlabel, hchildren⟩ := addPart_literal text hvalue
      obtain ⟨hsize', hsame, hlabel', hchildren', hholds⟩ :=
        ih (d := addPart v d (.literal text)) (by omega) (by omega) hparts
      rw [hsize] at hsize' hsame hchildren' hholds
      -- The later parts change no node but the value, so the new node stays as it was added.
      have hnew : (List.foldl (addPart v) d (.literal text :: parts)).node d.size =
          { kind := .markup, fragments := [text] } := by
        rw [List.foldl_cons, hsame d.size (by omega) (by omega), hnode d.size (by omega),
          Document.node_add_size]
      refine ⟨by rw [literalCount]; simp only [List.foldl_cons]; omega, fun id hid hne => ?_,
        hlabel'.trans hlabel, ?_, fun _ => ?_, Document.holds_nil, hholds⟩
      · rw [List.foldl_cons, hsame id (Nat.lt_succ_of_lt hid) hne, hnode id hne,
          Document.node_add_of_lt _ _ hid]
      · rw [List.foldl_cons, hchildren', hchildren, List.append_assoc]
        rfl
      · rw [Document.label, Document.children, hnew]
        exact ⟨rfl, rfl⟩
    | hole node =>
      obtain ⟨hsize, hnode, hlabel, hchildren⟩ := addPart_hole node hvalue
      obtain ⟨hsize', hsame, hlabel', hchildren', hholds⟩ :=
        ih (d := addPart v d (.hole node)) (by omega) (by omega)
          fun id hid => hparts id (by simp [partHoles, hid])
      rw [hsize] at hsize' hsame hchildren' hholds
      refine ⟨hsize', fun id hid hne => ?_, hlabel'.trans hlabel, ?_, fun hle => ?_,
        Document.holds_nil, hholds⟩
      · rw [List.foldl_cons, hsame id hid hne, hnode id hne]
      · rw [List.foldl_cons, hchildren', hchildren, List.append_assoc]
        rfl
      · exact absurd hle (Nat.not_le.2 (hparts node (by simp [partHoles])))

/-- An attribute with its value and the parts of it is a forest of new nodes. -/
theorem holds_attribute (name : Bytes) (parts : List ValuePart) (hn : n ≤ d.size)
    (hparts : ∀ id ∈ partHoles parts, id < n) :
    let d' := parts.foldl (addPart (d.size + 1)) (d.addAttribute name).1
    d'.size = d.size + 2 + literalCount parts ∧
      (∀ id : Nat, id < d.size → d'.node id = d.node id) ∧
      d'.Holds n (attributeForest d.size name parts) := by
  have hsize : (d.addAttribute name).1.size = d.size + 2 := by simp [Document.addAttribute]
  obtain ⟨hsize', hsame, hlabel, hchildren, hholds⟩ :=
    foldl_addPart (d := (d.addAttribute name).1) (v := d.size + 1) (n := n) parts (by omega)
      (by omega) hparts
  rw [hsize] at hsize' hsame hchildren hholds
  -- Both nodes are as they were added: the parts change the children of the second only.
  have hattribute : (d.addAttribute name).1.node d.size =
      { kind := .attribute, name := name, children := [d.size + 1] } := by
    rw [Document.addAttribute, Document.node_add_of_lt _ _ (by simp), Document.node_add_size]
  have hvalue : (d.addAttribute name).1.node (d.size + 1) = { kind := .attributeValue } := by
    have h := Document.node_add_size
      (d.add { kind := .attribute, name := name, children := [d.size + 1] })
      { kind := .attributeValue }
    rwa [Document.size_add] at h
  refine ⟨hsize', fun id hid => ?_, fun _ => ?_, ⟨fun _ => ?_, hholds, trivial⟩, trivial⟩
  · rw [hsame id (Nat.lt_add_right 2 hid) (Nat.ne_of_lt (Nat.lt_succ_of_lt hid)),
      Document.addAttribute, Document.node_add_of_lt _ _ (by simpa using Nat.lt_succ_of_lt hid),
      Document.node_add_of_lt _ _ hid]
  · rw [Document.label, Document.children, hsame d.size (by omega) (by omega), hattribute]
    exact ⟨rfl, rfl⟩
  · rw [hlabel, hchildren, Document.label, Document.children, hvalue]
    exact ⟨rfl, rfl⟩

end Structuring

/-! ## The document of an assembly -/

namespace Assembly

variable {n : Nat} {container : NodeId} {arrived : List NodeId} {a : Assembly}

/-- The innermost open element, or the container. -/
def top (container : NodeId) (a : Assembly) : NodeId := Document.pathTop container a.path

/-- The nodes that were made are different and have numbers that were given out. -/
structure Fresh (n : Nat) (a : Assembly) : Prop where
  nodup : (a.created n).Nodup
  bounds : ∀ id ∈ a.created n, n ≤ id ∧ id < a.next

theorem Accounted.fresh (h : Accounted n arrived a) : Fresh n a :=
  ⟨h.nodup, fun _ hid => h.mem_created.1 hid⟩

/-- The document `d` was made from the document `old` by structuring a container as far as the
assembly says. -/
structure Stored (old : Document) (container : NodeId) (d : Document) (a : Assembly) : Prop where
  size : d.size = a.next
  le : old.size ≤ d.size
  kept : ∀ id < old.size, id ≠ container → d.node id = old.node id
  label : (d.label container).plain =
    { (old.label container).plain with
      diagnostics := (old.label container).plain.diagnostics ++ a.diagnostics }
  content : d.Holds old.size a.content
  path : d.HoldsPath old.size container a.content.roots a.path

namespace Stored

variable {old d d' : Document}

theorem container_not_mem (hcontainer : container < old.size) (hfresh : Fresh old.size a) :
    container ∉ a.created old.size := fun h =>
  absurd (hfresh.bounds _ h).1 (Nat.not_le.2 hcontainer)

theorem top_lt (h : Stored old container d a) (hcontainer : container < old.size)
    (hfresh : Fresh old.size a) : a.top container < d.size := by
  cases hpath : a.path with
  | nil => simpa [top, hpath, Document.pathTop] using Nat.lt_of_lt_of_le hcontainer h.le
  | cons branch path =>
    have hbound := hfresh.bounds branch.node (by simp [created, hpath])
    rw [h.size]
    simpa [top, hpath, Document.pathTop] using hbound.2

/-- What waits is not in the document. -/
theorem wait (h : Stored old container d a) (waiting : List Hole) (carried : Bytes) :
    Stored old container d { a with waiting := waiting, carried := carried } :=
  ⟨h.size, h.le, h.kept, h.label, h.content, h.path⟩

/-- The innermost open element is no node of the closed part. -/
theorem top_not_mem (hcontainer : container < old.size) (hfresh : Fresh old.size a) :
    a.top container ∉ a.content.created old.size := by
  intro hmem
  cases hpath : a.path with
  | nil =>
    refine container_not_mem hcontainer hfresh (List.mem_append_left _ ?_)
    simpa [top, hpath, Document.pathTop] using hmem
  | cons branch path =>
    have hnodup := hfresh.nodup
    simp only [created, hpath, List.flatMap_cons, List.cons_append] at hnodup
    refine (List.nodup_append.1 hnodup).2.2 _ hmem branch.node (by simp) ?_
    simp [top, hpath, Document.pathTop]

theorem container_or_created_top : a.top container = container ∨
    a.top container ∈ a.created n := by
  cases hpath : a.path with
  | nil => exact .inl (by simp [top, hpath, Document.pathTop])
  | cons branch path => exact .inr (by simp [top, hpath, Document.pathTop, created])

/-- New nodes become the last child of the innermost open element. The document `d'` has them
already, but not yet under a parent. -/
theorem place (h : Stored old container d a) (hcontainer : container < old.size)
    (hfresh : Fresh old.size a) (hsize : d.size ≤ d'.size)
    (hsame : ∀ id < d.size, d'.node id = d.node id) {f : Forest} {child : NodeId}
    (hroots : f.roots = [child]) (hf : d'.Holds old.size f)
    (hnew : ∀ id ∈ f.created old.size, d.size ≤ id) :
    Stored old container (d'.appendChild (a.top container) child)
      { a with next := d'.size, content := a.content ++ f } := by
  have hc := Nat.lt_of_lt_of_le hcontainer h.le
  have htop := h.top_lt hcontainer hfresh
  have hbound : ∀ id ∈ a.created old.size, id < d.size := fun id hid => by
    rw [h.size]
    exact (hfresh.bounds id hid).2
  refine ⟨by simp, Nat.le_trans h.le (by simpa using hsize), fun id hid hne => ?_, ?_, ?_, ?_⟩
  · have hlt := Nat.lt_of_lt_of_le hid h.le
    -- An older node that is not the container is not the innermost open element either.
    rw [Document.appendChild, Document.node_modify_of_ne, hsame id hlt, h.kept id hid hne]
    rintro rfl
    rcases container_or_created_top (n := old.size) with he | hmem
    · exact hne he
    · exact absurd (hfresh.bounds _ hmem).1 (Nat.not_le.2 hid)
  · rw [Document.label_appendChild, Document.label_eq_of_node_eq (hsame container hc)]
    exact h.label
  · rw [Document.holds_append]
    refine ⟨h.content.congr fun id hid => ?_, hf.congr fun id hid => ?_⟩
    · rw [Document.appendChild, Document.node_modify_of_ne,
        hsame id (hbound id (List.mem_append_left _ hid))]
      rintro rfl
      exact top_not_mem hcontainer hfresh hid
    · rw [Document.appendChild, Document.node_modify_of_ne]
      rintro rfl
      exact absurd htop (Nat.not_lt.2 (hnew _ hid))
  · -- The path gets the new child at its innermost element.
    rw [Forest.roots_append, hroots]
    have hpath : d'.HoldsPath old.size container a.content.roots a.path :=
      h.path.congr (Document.children_eq_of_node_eq (hsame container hc)) fun id hid =>
        hsame id (hbound id (List.mem_append_right _ hid))
    refine hpath.appendChild ?_ (Nat.lt_of_lt_of_le htop hsize)
    refine List.nodup_cons.2 ⟨fun hmem => ?_, (List.nodup_append.1 hfresh.nodup).2.1⟩
    exact container_not_mem hcontainer hfresh (List.mem_append_right _ hmem)

/-- A node that was there before becomes the last child of the innermost open element. -/
theorem append (h : Stored old container d a) (hcontainer : container < old.size)
    (hfresh : Fresh old.size a) {node : NodeId} (hnode : node < old.size) :
    Stored old container (d.appendChild (a.top container) node)
      { a with content := a.content ++ Forest.leaves [node] } := by
  have hleaf : ∀ id ∈ [node], id < old.size := by simpa using hnode
  have hplace := h.place hcontainer hfresh (Nat.le_refl _) (fun _ _ => rfl)
    (f := Forest.leaves [node]) (Forest.roots_leaves _) (Document.holds_leaves hleaf)
    (by simp [Forest.created_leaves hleaf])
  rwa [h.size] at hplace

/-- An element is closed without a change to any node. -/
theorem close_iff {branch : OpenBranch} {path : List OpenBranch} (hpath : a.path = branch :: path)
    (hnode : old.size ≤ branch.node) :
    Stored old container d
        { a with
          path := path
          content := branch.before ++ .cons branch.node branch.label a.content .nil } ↔
      Stored old container d a := by
  -- The node of the element is read from the path before, and from the content after.
  constructor
  · intro h
    obtain ⟨hbefore, hbranch, hcontent, -⟩ := Document.holds_append.1 h.content
    refine ⟨h.size, h.le, h.kept, h.label, hcontent, ?_⟩
    rw [hpath]
    exact ⟨hbranch hnode, hbefore, by simpa [Forest.roots] using h.path⟩
  · intro h
    have hholds := h.path
    rw [hpath] at hholds
    obtain ⟨hbranch, hbefore, hrest⟩ := hholds
    refine ⟨h.size, h.le, h.kept, h.label, ?_, by simpa [Forest.roots] using hrest⟩
    exact Document.holds_append.2 ⟨hbefore, fun _ => hbranch, h.content, trivial⟩

/-- A diagnostic goes on the innermost open element. -/
theorem addDiagnostic {branch : OpenBranch} {path : List OpenBranch} (h : Stored old container d a)
    (hcontainer : container < old.size) (hfresh : Fresh old.size a)
    (hpath : a.path = branch :: path) (g : Diagnostic) :
    Stored old container (d.addDiagnostic branch.node g)
      { a with
        path := { branch with
          label := { branch.label with
            diagnostics := branch.label.diagnostics ++ [g.plain] } } :: path } := by
  -- The innermost element is one node: it is neither in the closed part nor further up.
  have hnodup := hfresh.nodup
  have hmem : branch.node ∈ a.created old.size := by simp [created, hpath]
  have hbound := hfresh.bounds _ hmem
  have hholds := h.path
  rw [hpath] at hholds
  obtain ⟨⟨hlabel, hchildren⟩, hbefore, hrest⟩ := hholds
  simp only [created, hpath, List.flatMap_cons, List.cons_append, List.nodup_append,
    List.nodup_cons, List.mem_cons, List.mem_append, not_or] at hnodup
  obtain ⟨-, ⟨⟨hbefore', hrest'⟩, -⟩, hcontent'⟩ := hnodup
  have hsame : ∀ id, id ≠ branch.node → (d.addDiagnostic branch.node g).node id = d.node id :=
    fun _ hne => Document.node_modify_of_ne hne
  have hlt : branch.node < d.size := by rw [h.size]; exact hbound.2
  refine ⟨by simpa using h.size, by simpa using h.le, fun id hid hne => ?_, ?_, ?_, ?_, ?_, ?_⟩
  · rw [hsame id fun he => Nat.not_le.2 hid (he ▸ hbound.1), h.kept id hid hne]
  · rw [Document.label_eq_of_node_eq (hsame container fun he =>
      Nat.not_le.2 hcontainer (he ▸ hbound.1))]
    exact h.label
  · exact h.content.congr fun id hid =>
      hsame id fun he => hcontent' _ hid _ (.inl rfl) he
  · rw [Document.label_addDiagnostic _ hlt, if_pos rfl, ← hlabel, Document.children_addDiagnostic]
    refine ⟨?_, hchildren⟩
    simp [Label.plain]
  · exact hbefore.congr fun id hid => hsame id fun he => hbefore' (he ▸ hid)
  · refine hrest.congr (Document.children_addDiagnostic ..) fun id hid => ?_
    exact hsame id fun he => hrest' (he ▸ hid)

/-- A diagnostic goes on the container. -/
theorem addContainerDiagnostic (h : Stored old container d a) (hcontainer : container < old.size)
    (hfresh : Fresh old.size a) (g : Diagnostic) :
    Stored old container (d.addDiagnostic container g)
      { a with diagnostics := a.diagnostics ++ [g.plain] } := by
  have hlt := Nat.lt_of_lt_of_le hcontainer h.le
  have hsame : ∀ id ∈ a.created old.size, (d.addDiagnostic container g).node id = d.node id :=
    fun id hid => Document.node_modify_of_ne fun he =>
      container_not_mem hcontainer hfresh (he ▸ hid)
  refine ⟨by simpa using h.size, by simpa using h.le, fun id hid hne => ?_, ?_, ?_, ?_⟩
  · rw [Document.addDiagnostic, Document.node_modify_of_ne hne, h.kept id hid hne]
  · have hlabel := h.label
    simp only [Label.plain, Label.mk.injEq] at hlabel
    rw [Document.label_addDiagnostic _ hlt, if_pos rfl]
    simp [Label.plain, hlabel]
  · exact h.content.congr fun id hid => hsame id (List.mem_append_left _ hid)
  · exact h.path.congr (Document.children_addDiagnostic ..) fun id hid =>
      hsame id (List.mem_append_right _ hid)

/-- A child of the container is still to structuring what it was. -/
theorem item_eq (h : Stored old container d a) {id : NodeId} (hid : id < old.size) :
    d.item id = old.item id := by
  have hlabel : (d.label id).kind = (old.label id).kind ∧
      (d.label id).fragments = (old.label id).fragments := by
    -- Of the container, structuring changes the children and the diagnostics only.
    by_cases he : id = container
    · subst he
      have hlabel := h.label
      simp only [Label.plain, Label.mk.injEq] at hlabel
      exact ⟨hlabel.1, hlabel.2.2.1⟩
    · rw [Document.label_eq_of_node_eq (h.kept id hid he)]
      exact ⟨rfl, rfl⟩
  have hkind : d.kind id = old.kind id := hlabel.1
  have htext : (d.label id).text = (old.label id).text := by rw [Label.text, hlabel.2, Label.text]
  rw [Document.item, hkind, htext, Document.item]

end Stored

end Assembly

end MarkupTemplate
