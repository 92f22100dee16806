import SsaFlow.Proofs.Failures
import SsaFlow.Proofs.StableResults

/-!
# Graphs that can be analysed

If all edges of a graph are in range and every value that a listed instruction asks
for is there (`FlowGraph.Resolved`), then nothing is missing that an analysis needs.
So there is a result.  It passes its own check if the edges are mirrored and no
instruction is listed twice.
-/

namespace SsaFlow

/-- All edges are in range, instructions have facts, and listed ones ask for resolvable values. -/
structure FlowGraph.Resolved (g : FlowGraph) : Prop where
  inRange : g.InRange
  facts : g.facts.size = g.numInsts
  listed : ∀ i ∈ g.listed, i.index < g.numInsts
  sought : ∀ i ∈ g.listed, ∀ facts, g.facts.get? i = some facts →
    ∀ v ∈ Domain.sought facts, g.Resolvable v

theorem Procedure.get?_nodes_graph {p : Procedure} {b : Block} {n : Node} :
    p.graph.nodes.get? b = some n ↔
      ∃ blk, p.blocks.get? b = some blk ∧ ⟨blk.insts, blk.succs, blk.preds⟩ = n := by
  rw [graph, Table.get?_map, Option.map_eq_some_iff]

theorem Domain.mem_of_mem_sought {op : Operation} {v : Value} (h : v ∈ sought op.facts) :
    v ∈ op.operands ++ op.incoming.map Prod.fst := by
  cases op with
  | phi pairs => exact h
  | _ => exact List.mem_append_left _ h

namespace Liveness

variable {g : FlowGraph}

/-- A graph in which all that is asked for is there can be analysed. -/
theorem analyze_ok (hg : g.Resolved) : ∃ l, analyze g = .ok l := by
  have houtcome := outcome_of_analyze ⟨hg.facts, hg.listed⟩
  generalize analyze g = r at houtcome ⊢
  cases houtcome with
  | @invalidBlock b hb => exact absurd hb (hg.inRange.not_dangling b)
  | @unknownValue v _ hv =>
    obtain ⟨⟨i, hi, facts, hfacts, hsought⟩, hunresolved⟩ := hv
    exact absurd (hg.sought i hi facts hfacts v hsought) hunresolved
  | @ok l _ _ => exact ⟨l, rfl⟩

/-- The result passes its own check. -/
theorem analyze_and_check_ok (hg : g.Resolved) (hmirrored : g.Mirrored .backward)
    (hlisted : g.listed.Nodup) : ∃ l, analyze g = .ok l ∧ l.check g = .ok () := by
  obtain ⟨l, hl⟩ := analyze_ok hg
  obtain ⟨fresh, hagreeing⟩ := exists_agreeing_round hmirrored hlisted hl
  exact ⟨l, hl, hagreeing.check⟩

end Liveness

end SsaFlow
