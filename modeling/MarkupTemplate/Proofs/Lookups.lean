import MarkupTemplate.Proofs.Reachability

/-!
# What verification looks up

A document answers only for the numbers of its nodes, but a child may be any number. Verification
tests a number when it enters the node, and goes no further with one that no node has. Before it
enters the children of a node, though, it tests the shape of the node, and for elements, attributes
and constructs this test asks what the children are. So it comes to look up numbers that no node
has. Whatever it finds there, its answer stays the same, since it enters these children afterwards.

## Main definitions

* `Inspection`: a test together with the nodes that it looks up
* `Document.lookUp`: a lookup, which finds something arbitrary for a number that no node has
* `Document.inspect`: verification, lookup by lookup
* `Document.AsksFor`: the test of one node asks what another is

## Main results

* `Document.answer_inspectFrom`: the answer does not depend on what is found outside of the document
* `Document.verify_eq_false_of_size_le`: no document with a child that is no node is accepted
* `Document.asksFor_of_mem_lookups`: outside of the document only children are looked up, and these
  only for the shape of their parent
* `Document.inspect_dangling`: all of this for the test of a whole document
-/

namespace MarkupTemplate

/-! ## Tests that look up nodes -/

/-- A test: the numbers of the nodes that it looks up, in order, and its answer, unless it is broken
off. -/
structure Inspection (α : Type) where
  /-- The numbers that are looked up. -/
  lookups : List NodeId
  /-- The answer; a test that is broken off has none. -/
  answer : Option α

namespace Inspection

variable {α β : Type}

/-- A test that looks up nothing. -/
protected def pure (a : α) : Inspection α := ⟨[], some a⟩

/-- One test after another. After a test that is broken off nothing is looked up. -/
protected def bind (x : Inspection α) (f : α → Inspection β) : Inspection β :=
  match x.answer with
  | none => ⟨x.lookups, none⟩
  | some a => ⟨x.lookups ++ (f a).lookups, (f a).answer⟩

instance : Monad Inspection where
  pure := Inspection.pure
  bind := Inspection.bind

/-- The test is broken off unless the condition holds. -/
def require (condition : Bool) : Inspection Unit := ⟨[], if condition then some () else none⟩

@[simp] theorem answer_pure (a : α) : (pure a : Inspection α).answer = some a := rfl

@[simp] theorem answer_require (condition : Bool) :
    (require condition).answer = if condition then some () else none := rfl

@[simp] theorem lookups_require (condition : Bool) : (require condition).lookups = [] := rfl

theorem answer_bind (x : Inspection α) (f : α → Inspection β) :
    (x >>= f).answer = x.answer.bind fun a => (f a).answer := by
  cases h : x.answer <;> simp [Bind.bind, Inspection.bind, h]

theorem mem_lookups_bind {x : Inspection α} {f : α → Inspection β} {id : NodeId} :
    id ∈ (x >>= f).lookups ↔ id ∈ x.lookups ∨ ∃ a ∈ x.answer, id ∈ (f a).lookups := by
  cases h : x.answer <;> simp [Bind.bind, Inspection.bind, h]

theorem answer_foldlM (f : β → α → Inspection β) (b : β) (as : List α) :
    (as.foldlM f b).answer = as.foldlM (fun b a => (f b a).answer) b := by
  induction as generalizing b with
  | nil => rfl
  | cons a as ih =>
    rw [List.foldlM_cons, List.foldlM_cons, answer_bind]
    exact congrArg (Option.bind _) (funext fun b' => ih b')

/-- What is looked up for the members of a list is looked up for one of them. -/
theorem exists_of_mem_lookups_foldlM {f : β → α → Inspection β} {b : β} {as : List α} {id : NodeId}
    (h : id ∈ (as.foldlM f b).lookups) : ∃ b', ∃ a ∈ as, id ∈ (f b' a).lookups := by
  induction as generalizing b with
  | nil => cases h
  | cons a as ih =>
    rw [List.foldlM_cons, mem_lookups_bind] at h
    rcases h with h | ⟨b', -, h⟩
    · exact ⟨b, a, List.mem_cons_self, h⟩
    · obtain ⟨b'', a', ha', h⟩ := ih h
      exact ⟨b'', a', List.mem_cons_of_mem _ ha', h⟩

end Inspection

namespace Document

open Inspection

/-! ## Verification, lookup by lookup -/

section

variable (outside : NodeId → Node) (d : Document)

/-- The node of the given number is looked up. Outside of the document anything may be found. -/
def lookUp (id : NodeId) : Inspection Node := ⟨[id], some (d.nodes[id]?.getD (outside id))⟩

/-- No attribute comes after a child of another kind; the test ends at the first that does. -/
def inspectOrder : Bool → List NodeId → Inspection Unit
  | _, [] => pure ()
  | behindContent, child :: children => do
    let node ← d.lookUp outside child
    if node.kind = .attribute then
      require !behindContent
      inspectOrder behindContent children
    else inspectOrder true children

/-- All of the nodes are looked up, and it is counted how many are bodies. -/
def countBodies : List NodeId → Inspection Nat
  | [] => pure 0
  | child :: children => do
    let node ← d.lookUp outside child
    let count ← countBodies children
    return if node.kind = .constructBody then count + 1 else count

/-- What its kind demands of a node is tested. -/
def inspectShape (id : NodeId) (node : Node) : Inspection Unit :=
  match node.kind with
  | .document => require (id == root)
  | .markup => require node.children.isEmpty
  | .element => do
    require !node.name.isEmpty
    d.inspectOrder outside false node.children
  | .attribute =>
    match node.children with
    | [child] => do
      let value ← d.lookUp outside child
      require (value.kind == .attributeValue)
    | _ => require false
  | .construct => do
    let count ← d.countBodies outside node.children
    require (count == 1)
  | _ => pure ()

/-- The tree under a node is tested, given the nodes that were met before. -/
def inspectFrom : Nat → List NodeId → NodeId → Inspection (List NodeId)
  | 0, _, _ => ⟨[], none⟩
  | depth + 1, met, id => do
    require (id < d.size && !met.contains id)
    let node ← d.lookUp outside id
    d.inspectShape outside id node
    node.children.foldlM (inspectFrom depth) (id :: met)

/-- Verification with all that it looks up. -/
def inspect : Inspection (List NodeId) := d.inspectFrom outside d.size [] root

end

variable {outside : NodeId → Node} {d : Document} {id parent : NodeId} {ids met : List NodeId}
  {depth : Nat}

@[simp] theorem lookups_lookUp : (d.lookUp outside id).lookups = [id] := rfl

/-- In the document a lookup finds the node. -/
theorem answer_lookUp (h : id < d.size) : (d.lookUp outside id).answer = some (d.node id) := by
  have hget : d.nodes[id]? = some d.nodes[id] := Array.getElem?_eq_getElem h
  simp [lookUp, node, hget]

/-! ## The answer -/

theorem answer_inspectOrder (hids : ∀ child ∈ ids, child < d.size) (behindContent : Bool) :
    (d.inspectOrder outside behindContent ids).answer =
      if (bif behindContent then (ids.map d.kind).all (· != .attribute)
        else attributesFirst (ids.map d.kind)) then some () else none := by
  induction ids generalizing behindContent with
  | nil => cases behindContent <;> rfl
  | cons child ids ih =>
    obtain ⟨hchild, hids⟩ := List.forall_mem_cons.1 hids
    rw [inspectOrder, answer_bind, answer_lookUp hchild, Option.bind_some]
    have hkind : (d.node child).kind = d.kind child := rfl
    by_cases h : d.kind child = .attribute
    · rw [if_pos (hkind.trans h), answer_bind, ih hids]
      cases behindContent <;> simp [attributesFirst, h]
    · rw [if_neg (hkind ▸ h), ih hids]
      cases behindContent <;> simp [attributesFirst, h]

theorem answer_countBodies (hids : ∀ child ∈ ids, child < d.size) :
    (d.countBodies outside ids).answer = some ((ids.map d.kind).count .constructBody) := by
  induction ids with
  | nil => rfl
  | cons child ids ih =>
    obtain ⟨hchild, hids⟩ := List.forall_mem_cons.1 hids
    have hkind : (d.node child).kind = d.kind child := rfl
    rw [countBodies, answer_bind, answer_lookUp hchild, Option.bind_some, answer_bind, ih hids,
      Option.bind_some, answer_pure, List.map_cons, List.count_cons, hkind]
    simp only [beq_iff_eq]
    split <;> rfl

/-- If all children are nodes, the test of a node is that of its shape. -/
theorem answer_inspectShape (hchildren : ∀ child ∈ d.children id, child < d.size) :
    (d.inspectShape outside id (d.node id)).answer =
      if d.wellShaped id then some () else none := by
  rw [inspectShape, wellShaped]
  have hkind : (d.node id).kind = d.kind id := rfl
  have hids : (d.node id).children = d.children id := rfl
  have hname : (d.node id).name = (d.label id).name := rfl
  rw [hkind, hids, hname]
  cases d.kind id with
  | document => simp
  | markup => simp
  | element =>
    simp only [answer_bind, answer_require, answer_inspectOrder hchildren]
    cases (d.label id).name <;> simp
  | «attribute» =>
    rcases h : d.children id with _ | ⟨child, _ | ⟨_, _⟩⟩
    · simp
    · rw [h] at hchildren
      simp [answer_bind, answer_lookUp (hchildren child List.mem_cons_self), kind]
    · simp
  | construct => simp [answer_bind, answer_countBodies hchildren]
  | attributeValue | constructAttribute | constructBody | embedded => simp

/-- A walk that comes to a member that is refused in any case is broken off. -/
theorem foldlM_eq_none_of_mem {α β : Type} {f : β → α → Option β} {b : β} {as : List α} {a : α}
    (ha : a ∈ as) (h : ∀ b, f b a = none) : as.foldlM f b = none := by
  induction as generalizing b with
  | nil => cases ha
  | cons a' as ih =>
    rw [List.foldlM_cons]
    rcases List.mem_cons.1 ha with rfl | ha
    · rw [h b]
      rfl
    · exact Option.bind_eq_none_iff.2 fun b' _ => ih ha

theorem verifyFrom_of_size_le (h : d.size ≤ id) (depth : Nat) (met : List NodeId) :
    d.verifyFrom depth met id = none :=
  verifyFrom_of_not_enters fun henters => Nat.not_lt.2 h henters.1

/-- Verification answers the same, whatever it finds outside of the document: if the test of a node
asks for a child that is no node, this child is refused after the test. -/
theorem answer_inspectFrom (outside : NodeId → Node) (d : Document) (depth : Nat)
    (met : List NodeId) (id : NodeId) :
    (d.inspectFrom outside depth met id).answer = d.verifyFrom depth met id := by
  induction depth generalizing met id with
  | zero => rfl
  | succ depth ih =>
    have hbelow : ((d.node id).children.foldlM (d.inspectFrom outside depth) (id :: met)).answer =
        (d.children id).foldlM (d.verifyFrom depth) (id :: met) := by
      simp only [answer_foldlM, ih]
      rfl
    rw [inspectFrom, verifyFrom, answer_bind, answer_require]
    by_cases hnew : (decide (id < d.size) && !met.contains id) = true
    · have hlt : id < d.size := of_decide_eq_true (Bool.and_eq_true_iff.1 hnew).1
      rw [if_pos hnew, Option.bind_some, answer_bind, answer_lookUp hlt, Option.bind_some,
        answer_bind, hbelow, hnew, Bool.true_and]
      by_cases hchildren : ∀ child ∈ d.children id, child < d.size
      · rw [answer_inspectShape hchildren]
        split <;> rfl
      · obtain ⟨child, hchild, hle⟩ : ∃ child ∈ d.children id, d.size ≤ child := by
          simpa using hchildren
        rw [foldlM_eq_none_of_mem hchild fun met' => verifyFrom_of_size_le hle depth met', ite_self]
        exact Option.bind_eq_none_iff.2 fun _ _ => rfl
    · rw [if_neg hnew, Option.bind_none, Bool.eq_false_iff.2 hnew, Bool.false_and]
      rfl

/-- No document is accepted in which a child of a node that is reached is no node. -/
theorem verify_eq_false_of_size_le (hparent : d.Reached parent) (hid : id ∈ d.children parent)
    (h : d.size ≤ id) : d.verify = false :=
  Bool.eq_false_iff.2 fun hverify =>
    Nat.not_lt.2 h ((wellFormed_of_verify hverify).lt_size id (hparent.child hid))

/-! ## The lookups -/

/-- The test of a node may ask what a child of it is: all children of a named element and of a
construct, and the child of an attribute that has just one. -/
inductive AsksFor (d : Document) (parent child : NodeId) : Prop
  | element (hkind : d.kind parent = .element) (hname : (d.label parent).name ≠ [])
    (hchild : child ∈ d.children parent) : AsksFor d parent child
  | «attribute» (hkind : d.kind parent = .attribute) (hchild : d.children parent = [child]) :
    AsksFor d parent child
  | construct (hkind : d.kind parent = .construct) (hchild : child ∈ d.children parent) :
    AsksFor d parent child

theorem mem_of_mem_lookups_inspectOrder {behindContent : Bool}
    (h : id ∈ (d.inspectOrder outside behindContent ids).lookups) : id ∈ ids := by
  induction ids generalizing behindContent with
  | nil => cases h
  | cons child ids ih =>
    rw [inspectOrder, mem_lookups_bind, lookups_lookUp, List.mem_singleton] at h
    rcases h with rfl | ⟨node, -, h⟩
    · exact List.mem_cons_self
    · refine List.mem_cons_of_mem _ ?_
      split at h
      · rw [mem_lookups_bind, lookups_require] at h
        rcases h with h | ⟨_, -, h⟩
        · cases h
        · exact ih h
      · exact ih h

theorem mem_of_mem_lookups_countBodies (h : id ∈ (d.countBodies outside ids).lookups) :
    id ∈ ids := by
  induction ids with
  | nil => cases h
  | cons child ids ih =>
    rw [countBodies, mem_lookups_bind, lookups_lookUp, List.mem_singleton] at h
    rcases h with rfl | ⟨node, -, h⟩
    · exact List.mem_cons_self
    · rw [mem_lookups_bind] at h
      rcases h with h | ⟨_, -, h⟩
      · exact List.mem_cons_of_mem _ (ih h)
      · cases h

theorem asksFor_of_mem_lookups_inspectShape
    (h : id ∈ (d.inspectShape outside parent (d.node parent)).lookups) : d.AsksFor parent id := by
  rw [inspectShape] at h
  have hkind : (d.node parent).kind = d.kind parent := rfl
  have hids : (d.node parent).children = d.children parent := rfl
  have hname : (d.node parent).name = (d.label parent).name := rfl
  rw [hkind, hids, hname] at h
  split at h
  · cases h
  · cases h
  · next hkind =>
    rw [mem_lookups_bind, lookups_require, answer_require] at h
    rcases h with h | ⟨_, hne, h⟩
    · cases h
    · refine .element hkind (fun hnil => ?_) (mem_of_mem_lookups_inspectOrder h)
      simp [hnil] at hne
  · next hkind =>
    split at h
    · next child hchild =>
      rw [mem_lookups_bind, lookups_lookUp, List.mem_singleton] at h
      rcases h with rfl | ⟨_, -, h⟩
      · exact .attribute hkind hchild
      · cases h
    · cases h
  · next hkind =>
    rw [mem_lookups_bind] at h
    rcases h with h | ⟨_, -, h⟩
    · exact .construct hkind (mem_of_mem_lookups_countBodies h)
    · cases h
  · cases h

/-- Below a node that is reached, only nodes of the document are looked up, and children of nodes
that are reached, for the shape of these. -/
theorem asksFor_of_mem_lookups (hreached : d.Reached id) {child : NodeId}
    (h : child ∈ (d.inspectFrom outside depth met id).lookups) :
    child < d.size ∨ ∃ parent, d.Reached parent ∧ parent < d.size ∧ d.AsksFor parent child := by
  induction depth generalizing met id with
  | zero => cases h
  | succ depth ih =>
    rw [inspectFrom, mem_lookups_bind, lookups_require, answer_require] at h
    rcases h with h | ⟨_, hnew, h⟩
    · cases h
    have hlt : id < d.size := by
      by_contra hle
      simp [hle] at hnew
    rw [mem_lookups_bind, lookups_lookUp, List.mem_singleton, answer_lookUp hlt] at h
    rcases h with rfl | ⟨node, hnode, h⟩
    · exact .inl hlt
    obtain rfl : d.node id = node := Option.some.inj hnode
    rw [mem_lookups_bind] at h
    rcases h with h | ⟨_, -, h⟩
    · exact .inr ⟨id, hreached, hlt, asksFor_of_mem_lookups_inspectShape h⟩
    · obtain ⟨met', id', hid', h⟩ := exists_of_mem_lookups_foldlM h
      exact ih (hreached.child hid') h

/-- Verification gives the same answer whatever it finds outside of the document, and it accepts no
document in which a child of a node that is reached is no node. Outside of the document it looks up
only such children, and only for the shape of their parent, which is an element with a name, an
attribute with no further child, or a construct. -/
theorem inspect_dangling (outside : NodeId → Node) (d : Document) :
    (d.inspect outside).answer.isSome = d.verify ∧
      (∀ parent, d.Reached parent → ∀ child ∈ d.children parent, d.size ≤ child →
        d.verify = false) ∧
      ∀ child ∈ (d.inspect outside).lookups, d.size ≤ child →
        ∃ parent, d.Reached parent ∧ parent < d.size ∧ d.AsksFor parent child := by
  refine ⟨?_, fun parent hparent child hchild => verify_eq_false_of_size_le hparent hchild, ?_⟩
  · rw [inspect, answer_inspectFrom, verify]
  · intro child hchild hle
    exact (asksFor_of_mem_lookups d.reached_root hchild).resolve_left (Nat.not_lt.2 hle)

/-- An element with a child that is no node. -/
def danglingChild : Document :=
  ⟨#[{ kind := .document, children := [1] },
    { kind := .element, name := utf8 "p", children := [4294967295] }], by decide⟩

/-- Only nodes should be looked up, but whatever is found then, the child is looked up as well. -/
theorem danglingChild_lookedUp : ¬ 4294967295 < danglingChild.size ∧
    ∀ outside : NodeId → Node, 4294967295 ∈ (danglingChild.inspect outside).lookups := by
  refine ⟨by decide, fun outside => ?_⟩
  -- The root is entered, and below it the element, which is named.
  refine mem_lookups_bind.2 (.inr ⟨(), rfl, mem_lookups_bind.2 (.inr ⟨_, rfl, ?_⟩)⟩)
  refine mem_lookups_bind.2 (.inr ⟨(), rfl, mem_lookups_bind.2 (.inl ?_)⟩)
  refine mem_lookups_bind.2 (.inr ⟨(), rfl, mem_lookups_bind.2 (.inr ⟨_, rfl, ?_⟩)⟩)
  refine mem_lookups_bind.2 (.inl (mem_lookups_bind.2 (.inr ⟨(), rfl, ?_⟩)))
  exact mem_lookups_bind.2 (.inl List.mem_cons_self)

end Document

end MarkupTemplate
