import SsaFlow.Proofs.BlockOrders

/-!
# Runs with less on record

The solver reads a graph through its entry and its nodes, and through nothing else
(`Problem.solve_congr`).  It hands the record on from one transfer to the next and
never looks at it.

So a problem may keep less on record.  If every transfer that succeeds also succeeds
with the same result on the erased record, and leaves what erasing its own record
leaves (`Problem.Erases`), then this holds of whole runs (`Problem.Erases.solve`).
Both runs are in lockstep.  They visit the same blocks in the same order, so the
solutions agree in the numbers of visits as well.
-/

namespace SsaFlow

variable {σ τ α : Type}

/-! ## What the solver reads of a graph -/

namespace FlowGraph

variable {f g : FlowGraph}

theorem succs_congr (hnodes : f.nodes = g.nodes) (b : Block) : f.succs b = g.succs b := by
  rw [succs, succs, hnodes]

theorem search_congr (hnodes : f.nodes = g.nodes) (frames : Frames) (visited done : List Block) :
    f.search frames visited done = g.search frames visited done := by
  fun_induction search f frames visited done with
  | case1 visited done => rw [search]
  | case2 visited done b rest ih =>
    rw [search_close]
    exact ih
  | case3 visited done b s ss rest hs ih =>
    rw [search_skip hs]
    exact ih
  | case4 visited done b s ss rest hs e he =>
    rw [succs_congr hnodes] at he
    exact (search_fault hs he).symm
  | case5 visited done b s ss rest hs next hnext _ ih =>
    rw [succs_congr hnodes] at hnext
    rw [search_open hs hnext]
    exact ih

theorem reversePostorder_congr (hentry : f.entry = g.entry) (hnodes : f.nodes = g.nodes) :
    f.reversePostorder = g.reversePostorder := by
  have hnum : f.numBlocks = g.numBlocks := congrArg Table.size hnodes
  unfold reversePostorder
  rw [hentry, succs_congr hnodes, funext fun ss => search_congr hnodes [(g.entry, ss)] [g.entry] []]
  by_cases hzero : g.numBlocks = 0
  · rw [if_pos (hnum.trans hzero), if_pos hzero]
  · rw [if_neg (hnum ▸ hzero), if_neg hzero]

theorem checkEdges_congr (hentry : f.entry = g.entry) (hnodes : f.nodes = g.nodes) :
    f.checkEdges = g.checkEdges := by
  cases f
  cases g
  cases hentry
  cases hnodes
  rfl

theorem seedOrder_congr (hentry : f.entry = g.entry) (hnodes : f.nodes = g.nodes)
    (d : Direction) : f.seedOrder d = g.seedOrder d := by
  have horder := reversePostorder_congr hentry hnodes
  cases f
  cases g
  cases hentry
  cases hnodes
  simp only [seedOrder, BlockOrder.ofGraph, horder]
  rfl

end FlowGraph

namespace Run

variable [DecidableEq α] {p : Problem σ α} {f g : FlowGraph}

theorem visit_congr (hnodes : f.nodes = g.nodes) (r : Run α) (b : Block) :
    visit p f r b = visit p g r b := by
  cases f
  cases g
  cases hnodes
  rfl

theorem finish_congr (hnodes : f.nodes = g.nodes) (fuel : Nat) (r : Run α) :
    finish p f fuel r = finish p g fuel r := by
  induction fuel generalizing r with
  | zero =>
    cases hq : r.worklist.pop? with
    | none => rw [finish_none hq, finish_none hq]
    | some e => rw [finish_zero hq, finish_zero hq]
  | succ fuel ih =>
    cases hq : r.worklist.pop? with
    | none => rw [finish_none hq, finish_none hq]
    | some e =>
      rw [finish_succ hq, finish_succ hq, visit_congr hnodes, funext ih]

end Run

namespace Problem

section

variable [DecidableEq α] {f g : FlowGraph}

/-- Graphs with the same entry and the same nodes have the same solutions. -/
theorem solve_congr (p : Problem σ α) (hentry : f.entry = g.entry) (hnodes : f.nodes = g.nodes)
    (fuel : Nat) : p.solve f fuel = p.solve g fuel := by
  have hstart : Solution.start p f = Solution.start p g := by
    simp only [Solution.start, FlowGraph.numBlocks, hnodes]
  simp only [solve, FlowGraph.checkEdges_congr hentry hnodes,
    FlowGraph.seedOrder_congr hentry hnodes, hstart, Run.finish_congr hnodes]

end

/-! ## What the solver reads of a record -/

/-- A transfer of `p` that succeeds is one of `q` on the erased record, with the same result. -/
structure Erases (p : Problem σ α) (q : Problem τ α) (erase : σ → τ) : Prop where
  direction : q.direction = p.direction
  initial : q.initial = p.initial
  boundary : q.boundary = p.boundary
  meet : q.meet = p.meet
  transfer : ∀ {b x s y s'}, Yields (p.transfer b x) s y s' →
    Yields (q.transfer b x) (erase s) y (erase s')

namespace Erases

variable {p : Problem σ α} {q : Problem τ α} {erase : σ → τ} {g : FlowGraph} {s s' : σ}

theorem start (h : p.Erases q erase) : Solution.start q g = Solution.start p g := by
  simp only [Solution.start, h.direction, h.initial, h.boundary]

theorem inputOf (h : p.Erases q erase) (d : Solution α) (b : Block) :
    d.inputOf q g b = d.inputOf p g b := by
  simp only [Solution.inputOf, Solution.meetOver, h.initial, h.meet]

variable [DecidableEq α]

/-- Every visit erases to a visit. -/
theorem visit (h : p.Erases q erase) {r r' : Run α} {b : Block}
    (hv : Yields (Run.visit p g r b) s r' s') :
    Yields (Run.visit q g r b) (erase s) r' (erase s') := by
  simp only [Run.visit, yields_bind, yields_lift] at hv ⊢
  obtain ⟨x, _, ⟨hx, rfl⟩, y, u, hy, hstore, rfl⟩ := hv
  rw [← h.inputOf] at hx
  exact ⟨x, erase s, ⟨hx, rfl⟩, y, erase u, h.transfer hy, hstore, rfl⟩

theorem finish (h : p.Erases q erase) {fuel : Nat} {r : Run α} {d : Solution α}
    (hd : Yields (Run.finish p g fuel r) s d s') :
    Yields (Run.finish q g fuel r) (erase s) d (erase s') := by
  induction fuel generalizing r s with
  | zero =>
    cases hq : r.worklist.pop? with
    | none =>
      rw [Run.finish_none hq] at hd ⊢
      obtain ⟨rfl, rfl⟩ := yields_pure.mp hd
      exact yields_pure.mpr ⟨rfl, rfl⟩
    | some e =>
      rw [Run.finish_zero hq] at hd
      exact absurd hd not_yields_throw
  | succ fuel ih =>
    cases hq : r.worklist.pop? with
    | none =>
      rw [Run.finish_none hq] at hd ⊢
      obtain ⟨rfl, rfl⟩ := yields_pure.mp hd
      exact yields_pure.mpr ⟨rfl, rfl⟩
    | some e =>
      rw [Run.finish_succ hq] at hd ⊢
      obtain ⟨r', u, hv, hd⟩ := yields_bind.mp hd
      exact yields_bind.mpr ⟨r', erase u, h.visit hv, ih hd⟩

/-- Every run that succeeds erases to a run with the same solution. -/
theorem solve (h : p.Erases q erase) {fuel : Nat} {d : Solution α}
    (hd : Yields (p.solve g fuel) s d s') :
    Yields (q.solve g fuel) (erase s) d (erase s') := by
  simp only [Problem.solve, yields_bind, yields_liftFault, yields_liftError] at hd ⊢
  obtain ⟨_, _, ⟨hedges, rfl⟩, seeds, _, ⟨hseeds, rfl⟩, hd⟩ := hd
  rw [← h.direction] at hseeds
  refine ⟨(), erase s, ⟨hedges, rfl⟩, seeds, erase s, ⟨hseeds, rfl⟩, ?_⟩
  rw [h.start]
  exact h.finish hd

end Erases

end Problem

end SsaFlow
