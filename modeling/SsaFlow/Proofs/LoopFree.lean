import Mathlib.Data.Fintype.EquivFin
import Mathlib.Logic.Relation
import SsaFlow.Proofs.BlockOrders
import SsaFlow.Proofs.CheckedResults

/-!
# Graphs without loops

If no path of a graph comes back to its start (`FlowGraph.Acyclic`), then what holds
of a block as soon as it holds of its successors holds of all blocks
(`FlowGraph.Acyclic.induction`).  So the equations of liveness have one solution,
once it is fixed what is live at the end of the blocks without successors
(`Liveness.Fits.sides_eq`).

For these blocks an analysis starts with the empty set and leaves it at that
(`Liveness.liveOut_of_exit`).  A check does not look there.  It takes what is on store
for what was met, so it accepts a result of another graph in which such a block went
on to a successor.  With the empty set at the end of all of them, it accepts just the
result that an analysis gives (`Liveness.agrees_of_check`, `Liveness.Agrees.check`).
-/

namespace SsaFlow

namespace FlowGraph

/-- Control may go from the first block to the second. -/
def Edge (g : FlowGraph) (b a : Block) : Prop := ∃ n, g.nodes.get? b = some n ∧ a ∈ n.succs

/-- No path comes back to the block it started from. -/
def Acyclic (g : FlowGraph) : Prop := ∀ b, ¬ Relation.TransGen g.Edge b b

variable {g : FlowGraph}

/-- A graph whose edges all lead to later blocks has no loops. -/
theorem acyclic_of_forward (h : ∀ e ∈ g.nodes.entries, ∀ a ∈ e.2.succs, e.1.index < a.index) :
    g.Acyclic := by
  have hedge : ∀ {b a}, g.Edge b a → b.index < a.index := by
    intro b a ⟨n, hn, ha⟩
    exact h (b, n) (Table.mem_entries.mpr hn) a ha
  have hpath : ∀ {b a}, Relation.TransGen g.Edge b a → b.index < a.index := by
    intro b a hba
    induction hba with
    | single hba => exact hedge hba
    | tail _ hca ih => exact Nat.lt_trans ih (hedge hca)
  exact fun b hb => Nat.lt_irrefl _ (hpath hb)

/-- What comes to a block from its successors holds of all blocks. -/
theorem Acyclic.induction (hg : g.Acyclic) {P : Block → Prop}
    (step : ∀ b n, g.nodes.get? b = some n → (∀ a ∈ n.succs, a.index < g.numBlocks → P a) → P b)
    {b : Block} (hb : b.index < g.numBlocks) : P b := by
  let Later (i j : Fin g.numBlocks) : Prop := Relation.TransGen g.Edge ⟨j⟩ ⟨i⟩
  have hwf : WellFounded Later := by
    have : IsTrans (Fin g.numBlocks) Later := ⟨fun _ _ _ hij hjk => hjk.trans hij⟩
    have : Std.Irrefl Later := ⟨fun i => hg ⟨i⟩⟩
    exact Finite.wellFounded_of_trans_of_irrefl _
  suffices h : ∀ i : Fin g.numBlocks, P ⟨i⟩ from h ⟨b.index, hb⟩
  intro i
  induction i using hwf.induction with
  | _ i ih =>
    obtain ⟨n, hn⟩ := Table.exists_get? (t := g.nodes) (h := ⟨i⟩) i.isLt
    exact step ⟨i⟩ n hn fun a ha hlt => ih ⟨a.index, hlt⟩ (.single ⟨n, hn, ha⟩)

end FlowGraph

/-- A check looks at the sides of a solution and not at its visits. -/
theorem Solution.check_congr {σ α : Type} [DecidableEq α] {p : Problem σ α} {g : FlowGraph}
    {d d' : Solution α} (hdir : d.direction = d'.direction) (hmeet : d.meetSide = d'.meetSide)
    (htransfer : d.transferSide = d'.transferSide) : d.check p g = d'.check p g := by
  obtain ⟨dir, meetSide, transferSide, visits⟩ := d
  cases hdir
  cases hmeet
  cases htransfer
  rfl

namespace Liveness

variable {f g : FlowGraph} {l r : Liveness} {b : Block} {n : Node}

/-! ## One solution -/

/-- Nothing is live at the end of a block without successors. -/
theorem liveOut_of_exit (hl : analyze g = .ok l) (hn : g.nodes.get? b = some n)
    (hnil : n.succs = []) : l.liveOut b = .ok l.domain.emptySet := by
  obtain ⟨-, hsides⟩ := Problem.solve_invariant ((l.domain.liveness g).transfer_invariant g)
    trivial (solve_of_analyze hl).2
  obtain ⟨x, y, hx, -, hboundary, -⟩ := hsides b n hn
  have hempty : x = l.domain.emptySet := hboundary n hn hnil
  rw [liveOut_eq_ok hl, hx, hempty]

/-- Without loops, results that fit and have the same at the end of all blocks without successors
have the same everywhere. -/
theorem Fits.sides_eq (hl : l.Fits g) (hr : r.Fits g) (hdomain : r.domain = l.domain)
    (hacyclic : g.Acyclic) (hrange : g.InRange)
    (hexits : ∀ b n, g.nodes.get? b = some n → n.succs = [] → l.liveOut b = r.liveOut b)
    (hb : b.index < g.numBlocks) : l.liveIn b = r.liveIn b ∧ l.liveOut b = r.liveOut b := by
  refine hacyclic.induction (P := fun b => l.liveIn b = r.liveIn b ∧ l.liveOut b = r.liveOut b)
    (fun b n hn ih => ?_) hb
  obtain ⟨x, y, hbal⟩ := hl b n hn
  obtain ⟨x', y', hbal'⟩ := hr b n hn
  have hout : x = x' := by
    cases hsuccs : n.succs with
    | nil =>
      have hexit := hexits b n hn hsuccs
      rw [hbal.liveOut, hbal'.liveOut] at hexit
      exact Except.ok.inj hexit
    | cons c cs =>
      have hne : n.succs ≠ [] := hsuccs ▸ List.cons_ne_nil c cs
      refine hbal.outSized.ext (hdomain ▸ hbal'.outSized) fun k => ?_
      rw [Bool.eq_iff_iff, hbal.edges hne, hbal'.edges hne]
      refine exists_congr fun a => and_congr_right fun ha => ?_
      rw [(ih a ha (hrange.succs b n hn a ha)).1]
  subst hout
  have hin : y = y' := by
    refine hbal.inSized.ext (hdomain ▸ hbal'.inSized) fun k => ?_
    rw [Bool.eq_iff_iff, hbal.insts, hbal'.insts, hdomain]
  rw [hbal.liveIn, hbal'.liveIn, hbal.liveOut, hbal'.liveOut, hin]
  exact ⟨rfl, rfl⟩

/-! ## Accepted results -/

/-- A result has a set for every instruction that is listed. -/
theorem exists_liveBefore (hl : analyze g = .ok l) {i : Inst} (hi : i ∈ g.listed) :
    ∃ z, l.liveBefore i = .ok z := by
  obtain ⟨b, n, hn, hi⟩ := FlowGraph.mem_listed.mp hi
  obtain ⟨_, _, -, -, -, -, hrec⟩ := exists_sides hl Domain.closed_true hn
  obtain ⟨-, hlt⟩ := hrec.covers i hi
  obtain ⟨z, hz⟩ := Table.exists_get? ((ready_of_analyze hl).size.symm ▸ hlt)
  exact ⟨z, Table.read_eq_ok.mpr hz⟩

/-- Both results say the same about a graph. -/
structure Agrees (l r : Liveness) (g : FlowGraph) : Prop where
  liveIn : ∀ b, b.index < g.numBlocks → l.liveIn b = r.liveIn b
  liveOut : ∀ b, b.index < g.numBlocks → l.liveOut b = r.liveOut b
  liveBefore : ∀ i ∈ g.listed, l.liveBefore i = r.liveBefore i
  phiInputs : l.tables.phiInputs = r.tables.phiInputs

/-- Results that agree on a graph of their size have the same sides. -/
theorem Agrees.sides_eq (hagrees : l.Agrees r g) (hl : analyze f = .ok l) (hr : analyze g = .ok r)
    (hblocks : f.numBlocks = g.numBlocks) :
    l.solution.meetSide = r.solution.meetSide ∧
      l.solution.transferSide = r.solution.transferSide := by
  obtain ⟨-, hmeet, htransfer⟩ := Problem.solve_shape (solve_of_analyze hl).2
  obtain ⟨-, hmeet', htransfer'⟩ := Problem.solve_shape (solve_of_analyze hr).2
  rw [hblocks] at hmeet htransfer
  constructor
  · refine Table.ext_get? (hmeet.trans hmeet'.symm) fun b hb => ?_
    obtain ⟨x, hx⟩ := Table.exists_get? hb
    have hout := (liveOut_eq_ok hl).mpr hx
    rw [hagrees.liveOut b (hmeet ▸ hb), liveOut_eq_ok hr] at hout
    rw [hx, hout]
  · refine Table.ext_get? (htransfer.trans htransfer'.symm) fun b hb => ?_
    obtain ⟨y, hy⟩ := Table.exists_get? hb
    have hin := (liveIn_eq_ok hl).mpr hy
    rw [hagrees.liveIn b (htransfer ▸ hb), liveIn_eq_ok hr] at hin
    rw [hy, hin]

/-- Without loops, a result that is accepted and has nothing at the end of the blocks without
successors agrees with the result of the graph. -/
theorem agrees_of_check (hl : analyze f = .ok l) (hr : analyze g = .ok r)
    (hdomain : r.domain = l.domain) (hg : g.Mirrored .backward) (hacyclic : g.Acyclic)
    (hlisted : g.listed.Nodup) (hc : l.check g = .ok ())
    (hexits : ∀ b n, g.nodes.get? b = some n → n.succs = [] →
      l.liveOut b = .ok l.domain.emptySet) : l.Agrees r g := by
  obtain ⟨fresh, hround⟩ := round_of_check hl hc
  have hrange : g.InRange :=
    FlowGraph.checkEdges_iff_inRange.mp (Problem.checkEdges_of_solve (solve_of_analyze hr).2)
  have hsides : ∀ b, b.index < g.numBlocks →
      l.liveIn b = r.liveIn b ∧ l.liveOut b = r.liveOut b := by
    intro b hb
    refine hround.fits.sides_eq (fits_of_analyze hg hr) hdomain hacyclic hrange
      (fun b n hn hnil => ?_) hb
    rw [hexits b n hn hnil, liveOut_of_exit hr hn hnil, hdomain]
  -- the round and the run have put every block on record with the same sets
  have hrec : ∀ b n, g.nodes.get? b = some n →
      ∃ x y, l.domain.Recorded g n x y fresh ∧ l.domain.Recorded g n x y r.tables := by
    intro b n hn
    obtain ⟨x, y, hbal, hfresh⟩ := hround.recorded b n hn
    obtain ⟨x', y', hx, hy, -, -, htables⟩ := exists_sides hr Domain.closed_true hn
    obtain ⟨hin, hout⟩ := hsides b (Table.lt_size hn)
    rw [hbal.liveIn, hy] at hin
    rw [hbal.liveOut, hx] at hout
    cases hin
    cases hout
    exact ⟨x, y, hfresh, hdomain ▸ htables⟩
  obtain ⟨hbefore, hphi⟩ := hround.ready.agree (hdomain ▸ ready_of_analyze hr) hlisted hrec
  refine ⟨fun b hb => (hsides b hb).1, fun b hb => (hsides b hb).2, fun i hi => ?_,
    hround.phiInputs.trans hphi⟩
  obtain ⟨z, hz⟩ := exists_liveBefore hr hi
  obtain ⟨b, n, hn, hi⟩ := FlowGraph.mem_listed.mp hi
  have hget := (hround.before b n hn i hi).trans (hbefore b n hn i hi)
  rw [hz]
  exact Table.read_eq_ok.mpr (hget.trans (Table.read_eq_ok.mp hz))

/-- A result that agrees with the result of the graph is accepted. -/
theorem Agrees.check (hagrees : l.Agrees r g) (hl : analyze f = .ok l) (hr : analyze g = .ok r)
    (hblocks : f.numBlocks = g.numBlocks) (hdomain : r.domain = l.domain)
    (hg : g.Mirrored .backward) (hlisted : g.listed.Nodup) : l.check g = .ok () := by
  obtain ⟨fresh, hround, hbefore, hphi⟩ := exists_agreeing_round hg hlisted hr
  obtain ⟨hmeet, htransfer⟩ := hagrees.sides_eq hl hr hblocks
  have hdir : l.solution.direction = r.solution.direction := by
    rw [direction_of_analyze hl, direction_of_analyze hr]
  rw [hdomain, ← Solution.check_congr hdir hmeet htransfer] at hround
  refine AgreeingRound.check ⟨hround, fun b n hn i hi => ?_, hagrees.phiInputs.trans hphi⟩
  have hmem : i ∈ g.listed := FlowGraph.mem_listed.mpr ⟨b, n, hn, hi⟩
  obtain ⟨z, hz⟩ := exists_liveBefore hr hmem
  have hz' := (hagrees.liveBefore i hmem).trans hz
  rw [Table.read_eq_ok.mp hz', ← hbefore b n hn i hi, Table.read_eq_ok.mp hz]

/-- Without loops, what is accepted and has nothing at the end of the blocks without successors is
the result of the graph, and no other. -/
theorem check_and_exits_iff_agrees (hl : analyze f = .ok l) (hr : analyze g = .ok r)
    (hblocks : f.numBlocks = g.numBlocks) (hdomain : Domain.build g = .ok l.domain)
    (hg : g.Mirrored .backward) (hacyclic : g.Acyclic) (hlisted : g.listed.Nodup) :
    (l.check g = .ok () ∧ ∀ b n, g.nodes.get? b = some n → n.succs = [] →
      l.liveOut b = .ok l.domain.emptySet) ↔ l.Agrees r g := by
  have hdomain : r.domain = l.domain :=
    Except.ok.inj ((solve_of_analyze hr).1.symm.trans hdomain)
  constructor
  · intro ⟨hc, hexits⟩
    exact agrees_of_check hl hr hdomain hg hacyclic hlisted hc hexits
  · intro hagrees
    refine ⟨hagrees.check hl hr hblocks hdomain hg hlisted, fun b n hn hnil => ?_⟩
    rw [hagrees.liveOut b (Table.lt_size hn), liveOut_of_exit hr hn hnil, hdomain]

/-- A block that leads to another, which reads the argument. -/
def leadsOn : FlowGraph where
  entry := ⟨0⟩
  numArgs := 1
  numInsts := 2
  nodes := .ofList [{ insts := [⟨0⟩], succs := [⟨1⟩] }, { insts := [⟨1⟩], preds := [⟨0⟩] }]
  facts := .ofList [{ kind := .terminator }, { kind := .terminator, operands := [.arg ⟨0⟩] }]

/-- What is live where in `leadsOn`: the argument, until it is read. -/
def leadsOnLive : Liveness where
  domain := ⟨[.arg ⟨0⟩]⟩
  solution := {
    direction := .backward
    meetSide := .ofList [⟨#[1], 1⟩, ⟨#[0], 1⟩]
    transferSide := .ofList [⟨#[1], 1⟩, ⟨#[1], 1⟩]
    visits := .ofList [1, 1] }
  tables := {
    before := .ofList [⟨#[1], 1⟩, ⟨#[1], 1⟩]
    phiInputs := .empty 1 }

/-- `leadsOn` and a block apart from it. -/
def leadsAside : FlowGraph :=
  { leadsOn with
    nodes := .ofList [{ insts := [⟨0⟩], succs := [⟨1⟩] }, { insts := [⟨1⟩], preds := [⟨0⟩] }, {}] }

/-- `leadsAside` entered at the block that is apart. -/
def startsAside : FlowGraph := { leadsAside with entry := ⟨2⟩ }

/-- What is live where in `leadsAside`. -/
def leadsAsideLive : Liveness :=
  { leadsOnLive with
    solution := {
      direction := .backward
      meetSide := .ofList [⟨#[1], 1⟩, ⟨#[0], 1⟩, ⟨#[0], 1⟩]
      transferSide := .ofList [⟨#[1], 1⟩, ⟨#[1], 1⟩, ⟨#[0], 1⟩]
      visits := .ofList [1, 1, 1] } }

/-- The same in `startsAside`, where the first block has to be visited twice. -/
def startsAsideLive : Liveness :=
  { leadsAsideLive with
    solution := { leadsAsideLive.solution with visits := .ofList [2, 1, 1] } }

theorem check_and_exits_iff_agrees_leadsAside :
    analyze startsAside = .ok startsAsideLive ∧ analyze leadsAside = .ok leadsAsideLive ∧
      startsAside.numBlocks = leadsAside.numBlocks ∧
      Domain.build leadsAside = .ok startsAsideLive.domain ∧ leadsAside.Mirrored .backward ∧
      leadsAside.Acyclic ∧ leadsAside.listed.Nodup ∧
      startsAsideLive.check leadsAside = .ok () ∧
      (∀ b n, leadsAside.nodes.get? b = some n → n.succs = [] →
        startsAsideLive.liveOut b = .ok startsAsideLive.domain.emptySet) ∧
      startsAsideLive.Agrees leadsAsideLive leadsAside := by
  have hl : analyze startsAside = .ok startsAsideLive := by decide +kernel
  have hr : analyze leadsAside = .ok leadsAsideLive := by decide +kernel
  have hdomain : Domain.build leadsAside = .ok startsAsideLive.domain := by decide +kernel
  have hg : leadsAside.Mirrored .backward := by decide
  have hacyclic : leadsAside.Acyclic := FlowGraph.acyclic_of_forward (by decide)
  have hlisted : leadsAside.listed.Nodup := by decide
  have hc : startsAsideLive.check leadsAside = .ok () := by decide +kernel
  have hexits : ∀ b n, leadsAside.nodes.get? b = some n → n.succs = [] →
      startsAsideLive.liveOut b = .ok startsAsideLive.domain.emptySet := by
    intro b n hn
    have hall : ∀ e ∈ leadsAside.nodes.entries, e.2.succs = [] →
        startsAsideLive.liveOut e.1 = .ok startsAsideLive.domain.emptySet := by decide
    exact hall (b, n) (Table.mem_entries.mpr hn)
  have hiff := check_and_exits_iff_agrees hl hr rfl hdomain hg hacyclic hlisted
  exact ⟨hl, hr, rfl, hdomain, hg, hacyclic, hlisted, hc, hexits, hiff.mp ⟨hc, hexits⟩⟩

/-! ## Stale results -/

/-- `leadsOn` without its edge. -/
def cutShort : FlowGraph :=
  { leadsOn with nodes := .ofList [{ insts := [⟨0⟩] }, { insts := [⟨1⟩] }] }

/-- What is live where in `cutShort`: the argument, in the second block only. -/
def cutShortLive : Liveness :=
  { leadsOnLive with
    solution := { leadsOnLive.solution with
      meetSide := .ofList [⟨#[0], 1⟩, ⟨#[0], 1⟩]
      transferSide := .ofList [⟨#[0], 1⟩, ⟨#[1], 1⟩] }
    tables := { leadsOnLive.tables with before := .ofList [⟨#[0], 1⟩, ⟨#[1], 1⟩] } }

/-- The result of `leadsOn` is accepted for `cutShort`, although the argument is live at the end of
a block that has lost its successor. -/
theorem check_cutShort :
    analyze leadsOn = .ok leadsOnLive ∧ analyze cutShort = .ok cutShortLive ∧
      cutShort.numBlocks = leadsOn.numBlocks ∧ cutShort.numInsts = leadsOn.numInsts ∧
      Domain.build cutShort = .ok leadsOnLive.domain ∧ cutShort.Mirrored .backward ∧
      cutShort.Acyclic ∧ cutShort.listed.Nodup ∧ leadsOnLive.check cutShort = .ok () ∧
      leadsOnLive.liveIn ⟨0⟩ ≠ cutShortLive.liveIn ⟨0⟩ ∧
      leadsOnLive.liveOut ⟨0⟩ ≠ cutShortLive.liveOut ⟨0⟩ ∧
      leadsOnLive.liveBefore ⟨0⟩ ≠ cutShortLive.liveBefore ⟨0⟩ := by
  have hl : analyze leadsOn = .ok leadsOnLive := by decide +kernel
  have hr : analyze cutShort = .ok cutShortLive := by decide +kernel
  have hdomain : Domain.build cutShort = .ok leadsOnLive.domain := by decide +kernel
  have hacyclic : cutShort.Acyclic := FlowGraph.acyclic_of_forward (by decide)
  have hc : leadsOnLive.check cutShort = .ok () := by decide +kernel
  exact ⟨hl, hr, rfl, rfl, hdomain, by decide, hacyclic, by decide, hc, nofun, nofun, nofun⟩

end Liveness

end SsaFlow
