import SsaFlow.Proofs.LiveRuns
import SsaFlow.Proofs.RisingRuns

/-!
# Live sets only grow

The liveness problem is ascending for inclusion: sets are met by union, and a value
that is live after an instruction stays so when more values are.  So over any edges
in range, mirrored or not, a run ends.  What a block is given and what the transfer
function makes of it only grow from visit to visit.  No set grows more often
than there are values, which bounds the visits.

A run may end in the failure of a transfer, since nothing says that all operands
are tracked.  Until then the above holds of it as well.  A run that succeeds has
visited every block, and the last visits left the sets of the solution.
-/

namespace SsaFlow

namespace Domain

variable {d : Domain} {g : FlowGraph}

theorem liveness_ascending :
    (d.liveness g).Ascending g (d.Ready g) (BitSet.Over d.size) (BitSet.Between d.emptySet) where
  refl := BitSet.between_self d.emptySet
  trans := BitSet.Between.trans
  initial _ := BitSet.over_empty _
  boundary _ := BitSet.over_empty _
  least _ _ _ _ := .inl rfl
  meet hx hy := by
    obtain ⟨u, c, hu, hover, -⟩ := hx.union hy
    exact ⟨u, map_eq_ok.mpr ⟨(u, c), hu, rfl⟩, hover⟩
  meet_mono {x x' y y' z z'} hx hx' hy hy' hxx hyy hz hz' := by
    rw [emptySet, BitSet.between_empty] at hxx hyy ⊢
    intro k hk
    rw [(over_meet hx hy hz).2, Bool.or_eq_true] at hk
    rw [(over_meet hx' hy' hz').2, Bool.or_eq_true]
    exact hk.imp (hxx k) (hyy k)
  transfer hn hs hx hy := by
    obtain ⟨hpassed, hready, -⟩ := hs.transferBlock hn hx hy
    exact ⟨hready, hpassed.sized⟩
  transfer_mono hn hs hu hx hx' h hy hy' := by
    obtain ⟨hpassed, -, -⟩ := hs.transferBlock hn hx hy
    obtain ⟨hpassed', -, -⟩ := hu.transferBlock hn hx' hy'
    rw [emptySet, BitSet.between_empty] at h ⊢
    intro k hk
    exact (hpassed'.live k).mpr (((hpassed.live k).mp hk).mono (h k))

theorem liveness_bounded (hg : g.InRange) :
    (d.liveness g).Bounded g d.size ((d.liveness g).Rising g (d.Ready g) (BitSet.Over d.size)
      (BitSet.Between d.emptySet)) :=
  liveness_ascending.bounded hg (fun _ _ hy hz h hne => BitSet.distance_lt hy hz h hne)
    (fun y _ => BitSet.distance_le d.size d.emptySet y)

end Domain

/-- The blocks that name `b` as a predecessor are no more than its successors, if they are among
these. -/
theorem FlowGraph.countP_preds_le {g : FlowGraph} {b : Block} {n : Node}
    (h : ∀ s m, g.nodes.get? s = some m → b ∈ m.preds → s ∈ n.succs) :
    g.nodes.toList.countP (fun m => decide (b ∈ m.preds)) ≤ n.succs.length := by
  have hcount : g.nodes.toList.countP (fun m => decide (b ∈ m.preds)) =
      (g.nodes.entries.filter fun e => decide (b ∈ e.2.preds)).length := by
    rw [← Table.map_snd_entries, List.countP_map, List.countP_eq_length_filter]
    rfl
  have hnodup : ((g.nodes.entries.filter fun e => decide (b ∈ e.2.preds)).map Prod.fst).Nodup := by
    have hhandles : (g.nodes.entries.map Prod.fst).Nodup := by
      rw [Table.map_fst_entries]
      exact Handle.nodup_first .block g.numBlocks
    exact hhandles.sublist ((List.filter_sublist).map _)
  rw [hcount, ← List.length_map (f := Prod.fst)]
  refine (List.subperm_of_subset hnodup fun s hs => ?_).length_le
  obtain ⟨⟨s, m⟩, he, rfl⟩ := List.mem_map.mp hs
  obtain ⟨he, hb⟩ := List.mem_filter.mp he
  exact h s m (Table.mem_entries.mp he) (of_decide_eq_true hb)

namespace Domain

variable {d : Domain} {g : FlowGraph} {r : Run BitSet} {t : LiveTables} {calls : List (Call BitSet)}
  {b : Block} {n : Node}

/-- The sets at a block grow no more often than there are values, and it is visited again only when
the set of one that it meets has grown. -/
theorem liveness_visits (hg : g.InRange) (hacc : Run.Accounted (d.liveness g) g r calls)
    (hrising : (d.liveness g).Rising g (d.Ready g) (BitSet.Over d.size)
      (BitSet.Between d.emptySet) r t calls)
    (hn : g.nodes.get? b = some n) :
    ∃ v, r.solution.visits.get? b = some v ∧ v = (callsAt calls b).length ∧
      v ≤ 1 + d.size * g.nodes.toList.countP (fun m => decide (b ∈ m.preds)) ∧
      ((∀ s m, g.nodes.get? s = some m → b ∈ m.preds → s ∈ n.succs) →
        v ≤ 1 + d.size * n.succs.length) := by
  obtain ⟨v, hv, hcalls, hle⟩ :=
    hacc.exists_visits ((liveness_bounded hg).changes hacc hrising) hn
  have hle : v ≤ 1 + d.size * g.nodes.toList.countP (fun m => decide (b ∈ m.preds)) := hle
  refine ⟨v, hv, hcalls, hle, fun hsuccs => hle.trans ?_⟩
  exact Nat.add_le_add_left (Nat.mul_le_mul_left _ (FlowGraph.countP_preds_le hsuccs)) 1

/-- A run of the liveness problem that ends in `o` with `t` on record, after the given calls of the
transfer function. -/
structure GrowingRun (d : Domain) (g : FlowGraph) (o : Except Failure (Solution BitSet))
    (t : LiveTables) (calls : List (Call BitSet)) : Prop where
  ends : ∀ fuel, g.visitBudget .backward d.size ≤ fuel →
    ((d.liveness g).solve g fuel).run.run (.empty d g.numInsts) = (o, t) ∧
      ((d.liveness g).traced.solve g fuel).run.run (.empty d g.numInsts, []) = (o, (t, calls))
  grows : ∀ b, (callsAt calls b).Pairwise fun c c' => c.input ⊆ c'.input ∧ c.output ⊆ c'.output
  changes : ∀ b, changes d.emptySet (outputsAt calls b) ≤ d.size
  last : ∀ sol, o = .ok sol → sol.HoldsLast g calls
  visits : ∀ sol, o = .ok sol → ∀ b n, g.nodes.get? b = some n →
    ∃ v, sol.visits.get? b = some v ∧ v = (callsAt calls b).length ∧
      v ≤ 1 + d.size * g.nodes.toList.countP (fun m => decide (b ∈ m.preds)) ∧
      ((∀ s m, g.nodes.get? s = some m → b ∈ m.preds → s ∈ n.succs) →
        v ≤ 1 + d.size * n.succs.length)
  /-- A failure is that of a transfer, whose input had grown as well. -/
  fails : ∀ e, o = .error e → ∃ b x u, (d.transferBlock g b x).run.run u = (.error e, t) ∧
    ∀ c ∈ callsAt calls b, c.input ⊆ x

/-- Over any edges in range, a run of the liveness problem ends, with sets that only grow. -/
theorem liveness_grows (d : Domain) {g : FlowGraph} (hg : g.InRange) :
    ∃ o t calls, d.GrowingRun g o t calls := by
  obtain ⟨r, s, calls, o, t, hacc, hrising, hends, hall⟩ :=
    (liveness_bounded (d := d) hg).solve_ends hg (liveness_ascending.rising_start ready_empty)
  have hsubset : ∀ {x y}, BitSet.Between d.emptySet x y → x ⊆ y := BitSet.between_empty.mp
  have hchanges := (liveness_bounded hg).changes hacc hrising
  refine ⟨o, t, calls, hall, fun b => ?_, hchanges, ?_, ?_, ?_⟩
  · exact (hrising.chain b).imp fun h => ⟨hsubset h.1, hsubset h.2⟩
  · rintro sol rfl
    cases hends with
    | done hq => exact hacc.holdsLast hq
  · rintro sol rfl b n hn
    cases hends
    exact liveness_visits hg hacc hrising hn
  · rintro e rfl
    cases hends with
    | @failed b rest x _ _ hq hx he =>
      refine ⟨b, x, s, he, fun c hc => ?_⟩
      obtain ⟨hmem, hcb⟩ := List.mem_filter.mp hc
      obtain rfl : c.block = b := of_decide_eq_true hcb
      have hb : c.block.index < g.numBlocks := hacc.inRange _ (Worklist.mem_of_pop? hq)
      obtain ⟨n, hn⟩ := Table.exists_get? (t := g.nodes) hb
      obtain ⟨x₀, hx₀⟩ := Table.exists_get? (t := r.solution.meetSide) (hacc.meetSize ▸ hb)
      obtain ⟨y₀, hy₀⟩ := Table.exists_get? (t := r.solution.transferSide) (hacc.transferSize ▸ hb)
      have hcx : BitSet.Between d.emptySet c.input x₀ := ((hrising.past c hmem).2 x₀ y₀ hx₀ hy₀).1
      exact hsubset (hcx.trans (hrising.behind hn hx₀ hx))

/-- Two blocks whose edges are known at one end only.  The second goes back to itself, and nothing
says so to those that wait for it. -/
def oneSided : FlowGraph where
  entry := ⟨0⟩
  numArgs := 1
  numInsts := 1
  nodes := .ofList [{ succs := [⟨1⟩], preds := [⟨1⟩] }, { insts := [⟨0⟩], succs := [⟨1⟩] }]
  facts := .ofList [{ kind := .terminator, operands := [.arg ⟨0⟩] }]

theorem oneSided_grows :
    oneSided.InRange ∧ ∃ o t calls, Domain.GrowingRun ⟨[.arg ⟨0⟩]⟩ oneSided o t calls := by
  have hg : oneSided.InRange := FlowGraph.checkEdges_iff_inRange.mp rfl
  exact ⟨hg, liveness_grows _ hg⟩

end Domain

end SsaFlow
