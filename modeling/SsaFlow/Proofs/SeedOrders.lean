import SsaFlow.Proofs.Postorders

/-!
# Seed orders

The order of the blocks of a graph is made from the reverse postorder of a search.  The positions
are looked up in a map that has an entry for reachable blocks only, and the blocks without one are
the others.  The search finds every block once, so a position leads to its block and back, and every
block of the graph is on one of the two lists, once (`BlockOrder.Seeds`).

Nothing is asked of the lists of predecessors, which the search does not read.
-/

namespace SsaFlow

namespace Handle

theorem pairwise_first (k : Entity) (n : Nat) :
    (first n : List (Handle k)).Pairwise fun b c => b.index < c.index := by
  rw [first, List.pairwise_map]
  exact List.pairwise_lt_range

end Handle

namespace BlockOrder

/-- Positions and blocks lead to each other, every block is found by the search or is on the list of
the others, which goes up and has no block that can be reached, and both ways to seed a run have
every block once. -/
structure Seeds (o : BlockOrder) (g : FlowGraph) : Prop where
  position : ∀ b i, o.positions.get? b = some i ↔ o.rpo.get? i = some b
  once : (o.rpo.toList ++ o.unreachable).Perm g.blocks
  ascending : o.unreachable.Pairwise fun b c => b.index < c.index
  unreachable : ∀ b, b ∈ o.unreachable ↔ b.index < g.numBlocks ∧ ¬ g.Reachable b
  postorder : g.postorder = .ok o.postorder
  seeded : ∀ d, ∃ queue, g.seedOrder d = .ok queue ∧ queue.Perm g.blocks

variable {g : FlowGraph} {o : BlockOrder}

theorem reversePostorder_eq (h : ofGraph g = .ok o) : g.reversePostorder = .ok o.rpo.toList := by
  simp only [ofGraph, bind_eq_ok, pure_eq_ok] at h
  obtain ⟨order, horder, rfl⟩ := h
  exact horder

/-- The position of a block is looked up where the block is, if it is there once. -/
theorem position_iff (h : ofGraph g = .ok o) (hnodup : o.rpo.toList.Nodup) {b : Block}
    {i : RpoIndex} : o.positions.get? b = some i ↔ o.rpo.get? i = some b := by
  refine ⟨get?_rpo_of_position h, fun hi => ?_⟩
  obtain ⟨j, hj⟩ := exists_position h (Table.mem_toList.mpr ⟨i, hi⟩)
  have hj' := get?_rpo_of_position h hj
  rw [← Table.getElem?_toList] at hi hj'
  have hlt := (List.getElem?_eq_some_iff.mp hi).1
  have hij : i.index = j.index := (List.getElem?_inj hlt hnodup).mp (hi.trans hj'.symm)
  rw [hj, Table.handle_eq_iff.mpr hij]

theorem ascending_unreachable (h : ofGraph g = .ok o) :
    o.unreachable.Pairwise fun b c => b.index < c.index := by
  rw [unreachable_eq h]
  exact (Handle.pairwise_first .block g.numBlocks).filter _

theorem mem_rpo_iff_reachable (h : ofGraph g = .ok o) (hentry : g.entry.index < g.numBlocks)
    (hg : g.SuccsInRange) {b : Block} : b ∈ o.rpo.toList ↔ g.Reachable b := by
  obtain ⟨visited, order, horder, hexplored⟩ := FlowGraph.exists_explored hentry hg
  obtain rfl := Except.ok.inj (horder.symm.trans (reversePostorder_eq h))
  exact hexplored.mem_iff_reachable

end BlockOrder

namespace FlowGraph

variable {g : FlowGraph}

/-- Blocks without duplicates that are all there are a permutation of those of the graph. -/
theorem perm_blocks {bs : List Block} (hnodup : bs.Nodup)
    (hmem : ∀ b, b ∈ bs ↔ b.index < g.numBlocks) : bs.Perm g.blocks := by
  refine (List.perm_ext_iff_of_nodup hnodup (Handle.nodup_first .block g.numBlocks)).mpr fun b => ?_
  rw [hmem, Handle.mem_first]

/-- The order of a graph whose entry and successors exist has every block once. -/
theorem exists_order_seeds (hentry : 0 < g.numBlocks → g.entry.index < g.numBlocks)
    (hg : g.SuccsInRange) : ∃ o, BlockOrder.ofGraph g = .ok o ∧ o.Seeds g := by
  obtain ⟨o, ho, hnodup, hmem⟩ := exists_order hentry hg
  have honce := perm_blocks hnodup hmem
  have horder := BlockOrder.reversePostorder_eq ho
  refine ⟨o, ho, ?_, honce, BlockOrder.ascending_unreachable ho, ?_, ?_, ?_⟩
  · exact fun b i => BlockOrder.position_iff ho (List.nodup_append.mp hnodup).1
  · intro b
    rw [BlockOrder.mem_unreachable_iff ho]
    refine and_congr_right fun hlt => not_congr ?_
    exact BlockOrder.mem_rpo_iff_reachable ho (hentry (Nat.zero_lt_of_lt hlt)) hg
  · exact bind_eq_ok.mpr ⟨_, horder, rfl⟩
  · intro d
    cases d with
    | forward => exact ⟨_, bind_eq_ok.mpr ⟨o, ho, rfl⟩, honce⟩
    | backward =>
      exact ⟨_, bind_eq_ok.mpr ⟨o, ho, rfl⟩, ((List.reverse_perm _).append_right _).trans honce⟩

theorem exists_order_seeds_twoEntryLoop :
    twoEntryLoop.entry.index < twoEntryLoop.numBlocks ∧ twoEntryLoop.SuccsInRange ∧
      ∃ o, BlockOrder.ofGraph twoEntryLoop = .ok o ∧ o.unreachable = [⟨3⟩] ∧
        o.Seeds twoEntryLoop := by
  have hentry : twoEntryLoop.entry.index < twoEntryLoop.numBlocks := by decide
  have hg : twoEntryLoop.SuccsInRange := by decide
  have hvalue : BlockOrder.unreachable <$> BlockOrder.ofGraph twoEntryLoop = .ok [⟨3⟩] := by
    decide +kernel
  obtain ⟨o, ho, h⟩ := exists_order_seeds (fun _ => hentry) hg
  obtain ⟨o', ho', hunreachable⟩ := map_eq_ok.mp hvalue
  obtain rfl := Except.ok.inj (ho.symm.trans ho')
  exact ⟨hentry, hg, o, ho, hunreachable, h⟩

end FlowGraph

end SsaFlow
