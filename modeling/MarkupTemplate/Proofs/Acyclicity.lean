import Mathlib.Data.Finset.Card
import Mathlib.Data.Finset.Range
import Mathlib.Logic.Function.Iterate
import Mathlib.Order.Lattice.Nat
import MarkupTemplate.Document.Acyclic

/-!
# The test for acyclicity

The test settles nodes round by round. If it settles all of them, the rounds rank the nodes. If the
nodes can be ranked at all, they can be ranked by fewer numbers than there are nodes, and as many
rounds as there are nodes settle all of them.

## Main definitions

* `Document.SettledAfter`: a node is settled after some rounds

## Main results

* `Document.settledAfter_succ_iff`: what one round settles
* `Document.Acyclic.exists_rank_lt_size`: the ranks need not be greater than the document
* `Document.isAcyclic_iff`: the test decides whether a document is acyclic
-/

namespace MarkupTemplate.Document

variable {d : Document} {settled : Array Bool} {id : NodeId}

/-! ## Rounds -/

theorem getD_settleRound :
    (d.settleRound settled).getD id false = true ↔
      id < d.size ∧ ∀ c ∈ d.children id, settled.getD c false = true := by
  rw [Array.getD_eq_getD_getElem?]
  by_cases hid : id < d.nodes.size
  · simp [settleRound, children, node, size, hid]
  · simp [settleRound, size, hid]

/-- The rounds stop early only if no round changes anything any more. -/
theorem settle_eq_iterate (rounds : Nat) (settled : Array Bool) :
    d.settle rounds settled = d.settleRound^[rounds] settled := by
  induction rounds generalizing settled with
  | zero => rfl
  | succ rounds ih =>
    rw [settle]
    split
    · next hfixed => exact (Function.iterate_fixed hfixed (rounds + 1)).symm
    · exact ih _

/-- The node is settled after some rounds, the first of which knows no settled node. -/
def SettledAfter (d : Document) (rounds : Nat) (id : NodeId) : Prop :=
  (d.settleRound^[rounds] (Array.replicate d.size false)).getD id false = true

theorem not_settledAfter_zero : ¬ d.SettledAfter 0 id := by
  rw [SettledAfter, Function.iterate_zero, id_eq, Array.getD_eq_getD_getElem?,
    Array.getElem?_replicate]
  split <;> simp

/-- A round settles the nodes of which all children were settled before. -/
theorem settledAfter_succ_iff {rounds : Nat} : d.SettledAfter (rounds + 1) id ↔
    id < d.size ∧ ∀ c ∈ d.children id, d.SettledAfter rounds c := by
  rw [SettledAfter, Function.iterate_succ_apply', getD_settleRound]
  rfl

theorem SettledAfter.lt_size {rounds : Nat} (h : d.SettledAfter rounds id) : id < d.size := by
  cases rounds with
  | zero => exact absurd h not_settledAfter_zero
  | succ rounds => exact (settledAfter_succ_iff.1 h).1

theorem size_iterate_settleRound (rounds : Nat) :
    (d.settleRound^[rounds] (Array.replicate d.size false)).size = d.size := by
  cases rounds with
  | zero => rw [Function.iterate_zero, id_eq, Array.size_replicate]
  | succ rounds => rw [Function.iterate_succ_apply', settleRound, Array.size_map, size]

theorem isAcyclic_iff_settledAfter :
    d.isAcyclic = true ↔ ∀ id < d.size, d.SettledAfter d.size id := by
  have hlt : ∀ id < d.size,
      id < (d.settleRound^[d.size] (Array.replicate d.size false)).size := by
    intro id hid
    rwa [size_iterate_settleRound]
  rw [isAcyclic, settle_eq_iterate, Array.all_eq_true]
  constructor
  · intro h id hid
    rw [SettledAfter, Array.getD_eq_getD_getElem?, Array.getElem?_eq_getElem (hlt id hid)]
    exact h id (hlt id hid)
  · intro h id hid
    rw [size_iterate_settleRound] at hid
    have hsettled := h id hid
    rwa [SettledAfter, Array.getD_eq_getD_getElem?, Array.getElem?_eq_getElem (hlt id hid)]
      at hsettled

/-! ## Ranks -/

/-- Nodes that are settled rank by the first round after which they are. -/
theorem acyclic_of_settledAfter {rounds : Nat} (h : ∀ id < d.size, d.SettledAfter rounds id) :
    d.Acyclic := by
  refine ⟨fun id => sInf {k | d.SettledAfter k id}, fun id hid c hc => ?_⟩
  have hfirst : d.SettledAfter (sInf {k | d.SettledAfter k id}) id :=
    Nat.sInf_mem (s := {k | d.SettledAfter k id}) ⟨rounds, h id hid⟩
  obtain ⟨k, hk⟩ : ∃ k, sInf {k | d.SettledAfter k id} = k + 1 :=
    Nat.exists_eq_succ_of_ne_zero fun h => not_settledAfter_zero (h ▸ hfirst)
  rw [hk] at hfirst
  -- The children were settled one round before.
  have hchild := (settledAfter_succ_iff.1 hfirst).2 c hc
  have hle : sInf {k | d.SettledAfter k c} ≤ k := Nat.sInf_le hchild
  exact ⟨hchild.lt_size, (Nat.lt_succ_of_le hle).trans_eq hk.symm⟩

/-- A node ranks above no more nodes than there are others, so their number can be its rank. -/
theorem Acyclic.exists_rank_lt_size (h : d.Acyclic) : ∃ rank : NodeId → Nat, ∀ id < d.size,
    rank id < d.size ∧ ∀ c ∈ d.children id, c < d.size ∧ rank c < rank id := by
  obtain ⟨rank, hrank⟩ := h
  let below (id : NodeId) : Finset Nat := (Finset.range d.size).filter fun j => rank j < rank id
  have hmem : ∀ id j, j ∈ below id ↔ j < d.size ∧ rank j < rank id := by simp [below]
  refine ⟨fun id => (below id).card, fun id hid => ⟨?_, fun c hc => ?_⟩⟩
  · -- The node is not below itself.
    have hstrict : below id ⊂ Finset.range d.size :=
      Finset.filter_ssubset.2 ⟨id, Finset.mem_range.2 hid, Nat.lt_irrefl _⟩
    simpa using Finset.card_lt_card hstrict
  · obtain ⟨hlt, hlower⟩ := hrank id hid c hc
    refine ⟨hlt, Finset.card_lt_card ?_⟩
    refine Finset.ssubset_iff_of_subset ?_ |>.2 ⟨c, (hmem id c).2 ⟨hlt, hlower⟩, ?_⟩
    · intro j hj
      obtain ⟨hj, hless⟩ := (hmem c j).1 hj
      exact (hmem id j).2 ⟨hj, hless.trans hlower⟩
    · exact fun h => Nat.lt_irrefl _ ((hmem c c).1 h).2

/-- A node of a rank is settled when there were more rounds. -/
theorem settledAfter_of_rank_lt {rank : NodeId → Nat}
    (hrank : ∀ id < d.size, ∀ c ∈ d.children id, c < d.size ∧ rank c < rank id) {rounds : Nat}
    (hid : id < d.size) (h : rank id < rounds) : d.SettledAfter rounds id := by
  induction rounds generalizing id with
  | zero => exact absurd h (Nat.not_lt_zero _)
  | succ rounds ih =>
    refine settledAfter_succ_iff.2 ⟨hid, fun c hc => ?_⟩
    -- A child ranks below the node, so one round less is enough for it.
    obtain ⟨hlt, hlower⟩ := hrank id hid c hc
    exact ih hlt (Nat.lt_of_lt_of_le hlower (Nat.le_of_lt_succ h))

/-- The test decides whether a document is acyclic. -/
theorem isAcyclic_iff : d.isAcyclic = true ↔ d.Acyclic := by
  rw [isAcyclic_iff_settledAfter]
  constructor
  · exact acyclic_of_settledAfter
  · intro h id hid
    obtain ⟨rank, hrank⟩ := h.exists_rank_lt_size
    exact settledAfter_of_rank_lt (fun id hid => (hrank id hid).2) hid (hrank id hid).1

instance : DecidablePred Acyclic := fun d => decidable_of_iff (d.isAcyclic = true) d.isAcyclic_iff

end MarkupTemplate.Document
