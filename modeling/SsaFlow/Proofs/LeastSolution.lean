import Mathlib.Data.Nat.Basic
import Mathlib.Order.Bounds.Basic
import Mathlib.Order.Lattice.Nat
import SsaFlow.Proofs.Fixpoint

/-!
# Least solutions

In a *join problem* all blocks start from the least value, values are met by
their join, and the transfer function of every block is monotone.  Then the
equations of the problem say nothing about the order of edges: the meet side of
a block with sources is the least upper bound of their transfer sides
(`Problem.Solves`).

The solver finds the least pair of assignments that satisfies them.  Throughout
a run both sides of every block stay below those of any other pair, since a meet
of values below is below, and a monotone transfer function keeps what is below
there.  In the end they are such a pair themselves.

So the solution is fixed by the equations.  Where control enters, in which order
edges are listed, and how often, decides which blocks are visited when, and none
of it shows in the solution.
-/

namespace SsaFlow

variable {σ τ α : Type}

/-- Two graphs with the same blocks and the same edges.  Entries may differ, and so may the order
in which edges are listed, and how often. -/
structure FlowGraph.SameEdges (g g' : FlowGraph) : Prop where
  numBlocks : g'.numBlocks = g.numBlocks
  succs : ∀ b n n', g.nodes.get? b = some n → g'.nodes.get? b = some n' →
    ∀ a, a ∈ n'.succs ↔ a ∈ n.succs
  preds : ∀ b n n', g.nodes.get? b = some n → g'.nodes.get? b = some n' →
    ∀ a, a ∈ n'.preds ↔ a ∈ n.preds

namespace FlowGraph.SameEdges

variable {g g' : FlowGraph}

theorem symm (h : g.SameEdges g') : g'.SameEdges g :=
  ⟨h.numBlocks.symm, fun b n n' hn hn' a => (h.succs b n' n hn' hn a).symm,
    fun b n n' hn hn' a => (h.preds b n' n hn' hn a).symm⟩

theorem mem_sources (h : g.SameEdges g') (d : Direction) {b : Block} {n n' : Node}
    (hn : g.nodes.get? b = some n) (hn' : g'.nodes.get? b = some n') (a : Block) :
    a ∈ n'.sources d ↔ a ∈ n.sources d := by
  cases d with
  | forward => exact h.preds b n n' hn hn' a
  | backward => exact h.succs b n n' hn hn' a

theorem exists_node (h : g.SameEdges g') {b : Block} {n' : Node}
    (hn' : g'.nodes.get? b = some n') : ∃ n, g.nodes.get? b = some n := by
  have hb : b.index < g'.numBlocks := Table.lt_size hn'
  rw [h.numBlocks] at hb
  exact Table.exists_get? hb

end FlowGraph.SameEdges

/-- The assignments `M` and `T` give the sides of a solution, for the blocks of a graph. -/
structure Solution.Assigns (d : Solution α) (g : FlowGraph) (M T : Block → α) : Prop where
  meetSize : d.meetSide.size = g.numBlocks
  meetSide : ∀ b, b.index < g.numBlocks → d.meetSide.get? b = some (M b)
  transferSize : d.transferSide.size = g.numBlocks
  transferSide : ∀ b, b.index < g.numBlocks → d.transferSide.get? b = some (T b)

theorem Solution.Assigns.sides_eq {d d' : Solution α} {g g' : FlowGraph} {M T M' T' : Block → α}
    (h : d.Assigns g M T) (h' : d'.Assigns g' M' T') (hnum : g'.numBlocks = g.numBlocks)
    (heq : ∀ b, b.index < g.numBlocks → M' b = M b ∧ T' b = T b) :
    d'.meetSide = d.meetSide ∧ d'.transferSide = d.transferSide := by
  constructor
  · refine Table.ext_get? (h'.meetSize.trans (hnum.trans h.meetSize.symm)) fun b hb => ?_
    rw [h'.meetSize] at hb
    rw [h'.meetSide b hb, h.meetSide b (hnum ▸ hb), (heq b (hnum ▸ hb)).1]
  · refine Table.ext_get? (h'.transferSize.trans (hnum.trans h.transferSize.symm)) fun b hb => ?_
    rw [h'.transferSize] at hb
    rw [h'.transferSide b hb, h.transferSide b (hnum ▸ hb), (heq b (hnum ▸ hb)).2]

namespace Problem

variable [SemilatticeSup α]

/-- All blocks start from the least value, values are met by their join, and `f` tells what the
transfers give. -/
structure IsJoinProblem (p : Problem σ α) (f : Block → α → α) : Prop where
  initial : ∀ b, IsBot (p.initial b)
  meet : ∀ x y, p.meet x y = .ok (x ⊔ y)
  transfer : ∀ b x s, ((p.transfer b x).run.run s).1 = .ok (f b x)
  monotone : ∀ b, Monotone (f b)

/-- The assignments `M` and `T` of meet sides and transfer sides satisfy the equations of `p`. -/
structure Solves (p : Problem σ α) (f : Block → α → α) (g : FlowGraph) (M T : Block → α) :
    Prop where
  boundary : ∀ b n, g.nodes.get? b = some n → n.sources p.direction = [] →
    M b = p.boundary b (p.initial b)
  meet : ∀ b n, g.nodes.get? b = some n → n.sources p.direction ≠ [] →
    IsLUB {x | ∃ a ∈ n.sources p.direction, T a = x} (M b)
  transfer : ∀ b n, g.nodes.get? b = some n → T b = f b (M b)

variable {p : Problem σ α} {q : Problem τ α} {f : Block → α → α} {g g' : FlowGraph}

/-- The equations do not tell graphs with the same edges apart. -/
theorem Solves.sameEdges {M T : Block → α} (h : p.Solves f g M T) (hedges : g.SameEdges g')
    (hdir : q.direction = p.direction)
    (hbound : ∀ b, b.index < g.numBlocks →
      q.boundary b (q.initial b) = p.boundary b (p.initial b)) :
    q.Solves f g' M T := by
  refine ⟨fun b n' hn' hnil => ?_, fun b n' hn' hne => ?_, fun b n' hn' => ?_⟩
  all_goals obtain ⟨n, hn⟩ := hedges.exists_node hn'
  · rw [hbound b (Table.lt_size hn)]
    refine h.boundary b n hn (List.eq_nil_iff_forall_not_mem.mpr fun a ha => ?_)
    rw [← hedges.mem_sources p.direction hn hn', ← hdir, hnil] at ha
    exact absurd ha List.not_mem_nil
  · have hmem := hedges.mem_sources q.direction hn hn'
    simp only [hmem]
    rw [hdir]
    refine h.meet b n hn fun hnil => ?_
    obtain ⟨a, ha⟩ := List.exists_mem_of_ne_nil _ hne
    rw [hmem, hdir, hnil] at ha
    exact absurd ha List.not_mem_nil
  · exact h.transfer b n hn

/-- A meet of values is below just what all of them are below. -/
theorem IsJoinProblem.foldlM_meet_le_iff (hp : p.IsJoinProblem f) {w : α} :
    ∀ {ys : List α} {z x : α}, ys.foldlM p.meet z = .ok x → (x ≤ w ↔ z ≤ w ∧ ∀ y ∈ ys, y ≤ w)
  | [], z, x, h => by
    rw [List.foldlM_nil, pure_eq_ok] at h
    simp [h]
  | y :: ys, z, x, h => by
    rw [List.foldlM_cons, hp.meet] at h
    rw [hp.foldlM_meet_le_iff h, sup_le_iff, and_assoc, List.forall_mem_cons]

/-- A meet over sources is the least upper bound of their transfer sides. -/
theorem IsJoinProblem.isLUB_meet (hp : p.IsJoinProblem f) {d : Solution α} {T : Block → α}
    (hT : ∀ a y, d.transferSide.get? a = some y → T a = y) {sources : List Block} {b : Block}
    {ys : List α} {x : α} (hys : sources.mapM d.transferSide.get? = some ys)
    (hx : ys.foldlM p.meet (p.initial b) = .ok x) : IsLUB {x | ∃ a ∈ sources, T a = x} x := by
  obtain ⟨hsources, hvalues⟩ := mem_of_mapM_eq_some hys
  rw [isLUB_iff_le_iff]
  intro w
  rw [hp.foldlM_meet_le_iff hx]
  constructor
  · rintro ⟨-, hle⟩ _ ⟨a, ha, rfl⟩
    obtain ⟨z, hz, hza⟩ := hsources a ha
    rw [hT a z hza]
    exact hle z hz
  · intro hub
    refine ⟨hp.initial b w, fun z hz => ?_⟩
    obtain ⟨a, ha, hza⟩ := hvalues z hz
    exact hub ⟨a, ha, hT a z hza⟩

theorem IsJoinProblem.ignoresRecord (hp : p.IsJoinProblem f) : p.IgnoresRecord := by
  intro b x s s'
  rw [hp.transfer, hp.transfer]

theorem IsJoinProblem.eq_of_yields (hp : p.IsJoinProblem f) {b : Block} {x y : α} {s s' : σ}
    (h : Yields (p.transfer b x) s y s') : y = f b x := by
  have hout := hp.transfer b x s
  rw [h] at hout
  cases hout
  rfl

/-- In a run both sides stay below those of every solution of the equations. -/
theorem IsJoinProblem.below_invariant (hp : p.IsJoinProblem f) {M T : Block → α}
    (hsol : p.Solves f g M T) :
    p.Invariant g (fun _ => True) (fun b x => x ≤ M b) (fun b y => y ≤ T b)
      (fun _ _ _ _ => True) where
  boundary b n hn hnil := (hsol.boundary b n hn hnil).ge
  initial b n _ _ := hp.initial b (M b)
  seed b n _ := hp.initial b (T b)
  meet b n a m x y z hn _ ha hx hy hz := by
    rw [hp.meet] at hz
    cases hz
    have hle : T a ≤ M b :=
      (hsol.meet b n hn (List.ne_nil_of_mem ha)).1 ⟨a, ha, rfl⟩
    exact sup_le hx (hy.trans hle)
  transfer b n x y s s' hn _ hx h := by
    refine ⟨trivial, ?_, trivial⟩
    rw [hp.eq_of_yields h, hsol.transfer b n hn]
    exact hp.monotone b hx
  other _ _ _ _ _ _ _ _ _ _ _ _ _ _ _ := trivial

variable [DecidableEq α] {fuel : Nat} {s s' : σ} {d : Solution α}

/-- The sides of a solution solve the equations. -/
theorem IsJoinProblem.solves_of_solve (hp : p.IsJoinProblem f) (hg : g.Mirrored p.direction)
    (hd : Yields (p.solve g fuel) s d s') :
    ∃ M T, d.Assigns g M T ∧ p.Solves f g M T := by
  have heqs : ∀ b n, g.nodes.get? b = some n → ∃ x y, p.Equations d b n x y :=
    fun b n hn => solve_equations hp.ignoresRecord hg hd hn
  let M : Block → α := fun b => (d.meetSide.get? b).getD (p.initial b)
  let T : Block → α := fun b => (d.transferSide.get? b).getD (p.initial b)
  have hM : ∀ b x, d.meetSide.get? b = some x → M b = x := fun b x hx => by simp [M, hx]
  have hT : ∀ b y, d.transferSide.get? b = some y → T b = y := fun b y hy => by simp [T, hy]
  obtain ⟨-, hmeet, htransfer⟩ := solve_shape hd
  refine ⟨M, T, ⟨hmeet, fun b hb => ?_, htransfer, fun b hb => ?_⟩,
    ⟨fun b n hn hnil => ?_, fun b n hn hne => ?_, fun b n hn => ?_⟩⟩
  · obtain ⟨n, hn⟩ := Table.exists_get? hb
    obtain ⟨x, y, h⟩ := heqs b n hn
    rw [hM b x h.meetSide, h.meetSide]
  · obtain ⟨n, hn⟩ := Table.exists_get? hb
    obtain ⟨x, y, h⟩ := heqs b n hn
    rw [hT b y h.transferSide, h.transferSide]
  · obtain ⟨x, y, h⟩ := heqs b n hn
    rw [hM b x h.meetSide, h.boundary hnil]
  · obtain ⟨x, y, h⟩ := heqs b n hn
    obtain ⟨ys, hys, hx⟩ := h.meet hne
    rw [hM b x h.meetSide]
    exact hp.isLUB_meet hT hys hx
  · obtain ⟨x, y, h⟩ := heqs b n hn
    have hout := h.transfer s
    rw [hp.transfer] at hout
    cases hout
    rw [hM b x h.meetSide, hT b _ h.transferSide]

/-- They are below every other pair that does. -/
theorem IsJoinProblem.le_of_solves (hp : p.IsJoinProblem f)
    (hd : Yields (p.solve g fuel) s d s') {M T M' T' : Block → α} (hdMT : d.Assigns g M T)
    (hsol : p.Solves f g M' T') {b : Block} (hb : b.index < g.numBlocks) :
    M b ≤ M' b ∧ T b ≤ T' b := by
  obtain ⟨n, hn⟩ := Table.exists_get? hb
  obtain ⟨-, hsides⟩ := solve_invariant (hp.below_invariant hsol) trivial hd
  obtain ⟨x, y, hx, hy, hxM, hyT, -⟩ := hsides b n hn
  obtain rfl := Option.some.inj ((hdMT.meetSide b hb).symm.trans hx)
  obtain rfl := Option.some.inj ((hdMT.transferSide b hb).symm.trans hy)
  exact ⟨hxM, hyT⟩

/-- Over graphs with the same edges, join problems with the same boundaries and transfers have the
same solution. -/
theorem IsJoinProblem.sides_eq (hp : p.IsJoinProblem f) (hq : q.IsJoinProblem f)
    (hdir : q.direction = p.direction)
    (hbound : ∀ b, b.index < g.numBlocks → q.boundary b (q.initial b) = p.boundary b (p.initial b))
    (hedges : g.SameEdges g') (hg : g.Mirrored p.direction) (hg' : g'.Mirrored q.direction)
    (hd : Yields (p.solve g fuel) s d s') {fuel' : Nat} {u u' : τ} {d' : Solution α}
    (hd' : Yields (q.solve g' fuel') u d' u') :
    d'.meetSide = d.meetSide ∧ d'.transferSide = d.transferSide := by
  obtain ⟨M, T, hMT, hsol⟩ := hp.solves_of_solve hg hd
  obtain ⟨M', T', hMT', hsol'⟩ := hq.solves_of_solve hg' hd'
  have hnum := hedges.numBlocks
  refine hMT.sides_eq hMT' hnum fun b hb => ?_
  have hle := hp.le_of_solves hd hMT (hsol'.sameEdges hedges.symm hdir.symm
    fun c hc => (hbound c (hnum ▸ hc)).symm) hb
  have hge := hq.le_of_solves hd' hMT' (hsol.sameEdges hedges hdir hbound) (hnum.symm ▸ hb)
  exact ⟨le_antisymm hge.1 hle.1, le_antisymm hge.2 hle.2⟩

/-- A run that succeeds gives the least solution of the equations.  Over a graph with the same
edges, a problem with the same boundaries and transfers has the same solution. -/
theorem solve_least (hp : p.IsJoinProblem f) (hg : g.Mirrored p.direction)
    (hd : Yields (p.solve g fuel) s d s') :
    (∃ M T, d.Assigns g M T ∧ p.Solves f g M T ∧
      ∀ M' T', p.Solves f g M' T' → ∀ b, b.index < g.numBlocks → M b ≤ M' b ∧ T b ≤ T' b) ∧
    ∀ {τ : Type} (q : Problem τ α) (g' : FlowGraph) (fuel' : Nat) (u u' : τ) (d' : Solution α),
      q.IsJoinProblem f → q.direction = p.direction →
      (∀ b, b.index < g.numBlocks → q.boundary b (q.initial b) = p.boundary b (p.initial b)) →
      g.SameEdges g' → g'.Mirrored q.direction → Yields (q.solve g' fuel') u d' u' →
      ∀ b, d'.blockIn b = d.blockIn b ∧ d'.blockOut b = d.blockOut b := by
  refine ⟨?_, ?_⟩
  · obtain ⟨M, T, hMT, hsol⟩ := hp.solves_of_solve hg hd
    exact ⟨M, T, hMT, hsol, fun M' T' hsol' b hb => hp.le_of_solves hd hMT hsol' hb⟩
  · intro τ q g' fuel' u u' d' hq hdir hbound hedges hg' hd' b
    obtain ⟨hmeet, htransfer⟩ := hp.sides_eq hq hdir hbound hedges hg hg' hd hd'
    have hsame : d'.direction = d.direction :=
      (solve_shape hd').1.trans (hdir.trans (solve_shape hd).1.symm)
    simp only [Solution.blockIn, Solution.blockOut, hmeet, htransfer, hsame, and_self]

/-- A backward problem over numbers.  A block adds its index, and no value goes beyond 6. -/
def climbing : Problem Unit Nat where
  direction := .backward
  initial _ := 0
  boundary _ _ := 1
  meet x y := .ok (max x y)
  transfer b x := return min (x + b.index) 6

/-- A straight line with a loop in the middle. -/
def loopOnce : FlowGraph where
  entry := ⟨0⟩
  numArgs := 0
  numInsts := 0
  nodes := .ofList [{ succs := [⟨1⟩] }, { succs := [⟨1⟩, ⟨2⟩], preds := [⟨0⟩, ⟨1⟩] },
    { preds := [⟨1⟩] }]
  facts := .empty

/-- The same edges from another entry, in another order and some of them twice. -/
def loopTwice : FlowGraph where
  entry := ⟨2⟩
  numArgs := 0
  numInsts := 0
  nodes := .ofList [{ succs := [⟨1⟩, ⟨1⟩] },
    { succs := [⟨2⟩, ⟨1⟩, ⟨2⟩], preds := [⟨1⟩, ⟨0⟩, ⟨0⟩] }, { preds := [⟨1⟩] }]
  facts := .empty

/-- The solution of `climbing` over either graph. -/
def climbed : Solution Nat where
  direction := .backward
  meetSide := .ofList [6, 6, 1]
  transferSide := .ofList [6, 6, 3]
  visits := .ofList [3, 4, 1]

theorem climbing_isJoinProblem : climbing.IsJoinProblem fun b x => min (x + b.index) 6 where
  initial _ := Nat.zero_le
  meet _ _ := rfl
  transfer _ _ _ := rfl
  monotone b x y hle := by
    show min (x + b.index) 6 ≤ min (y + b.index) 6
    omega

theorem loopOnce_sameEdges : loopOnce.SameEdges loopTwice := by
  refine ⟨rfl, ?_, ?_⟩
  all_goals
    rintro ⟨_ | _ | _ | i⟩ n n' hn hn' a <;> cases hn <;> cases hn' <;>
      simp only [loopOnce, loopTwice, Table.ofList] <;> grind

theorem solve_least_climbed :
    Yields (climbing.solve loopOnce 8) () climbed () ∧
      (∃ M T, climbed.Assigns loopOnce M T ∧
        climbing.Solves (fun b x => min (x + b.index) 6) loopOnce M T) ∧
      ∃ d, Yields (climbing.solve loopTwice 8) () d () ∧
        ∀ b, d.blockIn b = climbed.blockIn b ∧ d.blockOut b = climbed.blockOut b := by
  have hd : Yields (climbing.solve loopOnce 8) () climbed () := by decide +kernel
  have hd' : Yields (climbing.solve loopTwice 8) () climbed () := by decide +kernel
  obtain ⟨⟨M, T, hMT, hsol, -⟩, hsame⟩ :=
    solve_least climbing_isJoinProblem (by decide) hd
  refine ⟨hd, ⟨M, T, hMT, hsol⟩, climbed, hd', ?_⟩
  exact hsame climbing loopTwice 8 () () climbed climbing_isJoinProblem rfl
    (fun _ _ => rfl) loopOnce_sameEdges (by decide) hd'

end Problem

end SsaFlow
