import SsaFlow.Proofs.PathLiveness
import SsaFlow.Proofs.StableResults

/-!
# What leaves a block

A phi reads its inputs on the edges that come in.  So what has to be there when
control leaves a block is what some path from its end reads, where a path may also
end with an input of a phi, read on its last edge (`FlowGraph.NeededAfter`).

A result keeps the inputs of phis apart from its live sets, by predecessor.  It puts
the two together at the predecessor only, so the set for the edges out of a block has
what is live at its end and what it supplies to phis itself
(`Liveness.exists_liveOutOnEdges`).  An input is put into no live set, so one that is
only read on a later edge is missing on the way there.
-/

namespace SsaFlow

namespace FlowGraph

/-- A phi of a successor has the value as its input from the block. -/
def ReadOnEdge (g : FlowGraph) (v : Value) (b : Block) : Prop :=
  ∃ n a m i, g.nodes.get? b = some n ∧ a ∈ n.succs ∧ g.nodes.get? a = some m ∧ i ∈ m.insts ∧
    g.Joins i v b

/-- Some path from the end of the block comes to an instruction that reads the value, or to an edge
on which a phi reads it, and goes over no instruction that writes it. -/
def NeededAfter (g : FlowGraph) (v : Value) (b : Block) : Prop :=
  ∃ n, g.nodes.get? b = some n ∧ (g.LiveAt v ⟨b, n.insts.length⟩ ∨
    ∃ is c m, g.nodes.get? c = some m ∧ g.Path ⟨b, n.insts.length⟩ is ⟨c, m.insts.length⟩ ∧
      g.ReadOnEdge v c ∧ ∀ j ∈ is, ¬ g.Writes j v)

end FlowGraph

theorem Domain.feeds_iff_joins {d : Domain} {g : FlowGraph} {v : Value} {k : Nat} {i : Inst}
    {pred : Block} (hd : build g = .ok d) (hk : d.indexOf? v = some k) :
    d.Feeds g i pred k ↔ g.Joins i v pred :=
  exists_lookup_iff hd hk

namespace Liveness

variable {g : FlowGraph} {l : Liveness} {b : Block} {n : Node} {x : BitSet} {v : Value} {k : Nat}

/-- What a block supplies to phis is what the listed phis have as input from it. -/
theorem supplies_iff_joins (hl : analyze g = .ok l) (hk : l.domain.indexOf? v = some k) :
    l.tables.phiInputs.Supplies b k ↔ ∃ i ∈ g.listed, g.Joins i v b := by
  rw [supplies_iff_feeds hl]
  simp only [Domain.feeds_iff_joins (solve_of_analyze hl).1 hk]

/-- The set for the edges out of a block joins its live set and what it supplies to phis. -/
theorem exists_liveOutOnEdges (hl : analyze g = .ok l) (hx : l.liveOut b = .ok x) :
    ∃ s, l.liveOutOnEdges b = .ok s ∧
      ∀ k, s.contains k = true ↔ x.contains k = true ∨ l.tables.phiInputs.Supplies b k := by
  simp only [liveOutOnEdges, bind_eq_ok, liftFault_eq_ok, hx, Except.ok.injEq, exists_eq_left']
  cases hinputs : l.phiEdge? b with
  | none =>
    refine ⟨x, rfl, fun k => ?_⟩
    have hnone : ¬ l.tables.phiInputs.Supplies b k := by
      intro ⟨s, hs, _⟩
      exact absurd (hinputs.symm.trans hs) nofun
    simp [hnone]
  | some inputs =>
    have hsized := (ready_of_analyze hl).sound.sized b inputs hinputs
    obtain ⟨s, changed, hs, -, hmem⟩ := (over_liveOut hl hx).union hsized
    refine ⟨s, map_eq_ok.mpr ⟨(s, changed), liftError_eq_ok.mpr hs, rfl⟩, fun k => ?_⟩
    rw [hmem, Bool.or_eq_true, PhiInputs.contains_iff_supplies hinputs]

/-- The set for the edges out of a block has what is live at its end, and what a phi has as input
from it. -/
theorem contains_liveOutOnEdges_iff (hg : g.Mirrored .backward) (hl : analyze g = .ok l)
    (hn : g.nodes.get? b = some n) (hv : v ∈ l.domain.values) :
    ∃ k s, l.domain.indexOf? v = some k ∧ l.liveOutOnEdges b = .ok s ∧
      (s.contains k = true ↔
        g.LiveAt v ⟨b, n.insts.length⟩ ∨ ∃ i ∈ g.listed, g.Joins i v b) := by
  obtain ⟨k, hk⟩ := Domain.exists_indexOf? hv
  obtain ⟨x, y, hx, -⟩ := exists_sides hl Domain.closed_true hn
  obtain ⟨s, hs, hmem⟩ := exists_liveOutOnEdges hl hx
  have hend := liveThrough_iff_liveAt hg hl hk hn hx (Nat.le_refl _)
  rw [List.drop_length] at hend
  refine ⟨k, s, hk, hs, ?_⟩
  rw [hmem, ← hend, ← supplies_iff_joins hl hk]
  exact Iff.rfl

theorem contains_liveOutOnEdges_iff_selfLoop :
    selfLoop.Mirrored .backward ∧ analyze selfLoop = .ok selfLoopLive ∧
      .inst ⟨0⟩ ∈ selfLoopLive.domain.values ∧
      ∃ k s, selfLoopLive.domain.indexOf? (.inst ⟨0⟩) = some k ∧
        selfLoopLive.liveOutOnEdges ⟨0⟩ = .ok s ∧
        (s.contains k = true ↔ selfLoop.LiveAt (.inst ⟨0⟩) ⟨⟨0⟩, 2⟩ ∨
          ∃ i ∈ selfLoop.listed, selfLoop.Joins i (.inst ⟨0⟩) ⟨0⟩) := by
  have hg : selfLoop.Mirrored .backward := by decide
  have hv : .inst ⟨0⟩ ∈ selfLoopLive.domain.values := by decide
  have hiff := contains_liveOutOnEdges_iff hg analyze_selfLoop (b := ⟨0⟩) rfl hv
  exact ⟨hg, analyze_selfLoop, hv, hiff⟩

/-! ## Inputs that are read later -/

/-- Three blocks in a row, where the last has a phi with the argument as its input. -/
def passThrough : FlowGraph where
  entry := ⟨0⟩
  numArgs := 1
  numInsts := 4
  nodes := .ofList [
    { insts := [⟨0⟩], succs := [⟨1⟩] },
    { insts := [⟨1⟩], succs := [⟨2⟩], preds := [⟨0⟩] },
    { insts := [⟨2⟩, ⟨3⟩], preds := [⟨1⟩] }]
  facts := .ofList [
    { kind := .terminator },
    { kind := .terminator },
    { kind := .phi, hasResult := true, incoming := [(.arg ⟨0⟩, ⟨1⟩)] },
    { kind := .terminator, operands := [.inst ⟨2⟩] }]

/-- What is live where in `passThrough`: only the phi, until it is read. -/
def passThroughLive : Liveness where
  domain := ⟨[.arg ⟨0⟩, .inst ⟨2⟩]⟩
  solution := {
    direction := .backward
    meetSide := .ofList [⟨#[0], 2⟩, ⟨#[0], 2⟩, ⟨#[0], 2⟩]
    transferSide := .ofList [⟨#[0], 2⟩, ⟨#[0], 2⟩, ⟨#[0], 2⟩]
    visits := .ofList [1, 1, 1] }
  tables := {
    before := .ofList [⟨#[0], 2⟩, ⟨#[0], 2⟩, ⟨#[0], 2⟩, ⟨#[2], 2⟩]
    phiInputs := (PhiInputs.empty 2).put ⟨1⟩ ⟨#[1], 2⟩ }

/-- The argument is needed after the first block of `passThrough`, and is not in the set for the
edges out of it. -/
theorem not_contains_liveOutOnEdges_passThrough :
    passThrough.Mirrored .backward ∧ analyze passThrough = .ok passThroughLive ∧
      passThroughLive.domain.indexOf? (.arg ⟨0⟩) = some 0 ∧
      passThrough.NeededAfter (.arg ⟨0⟩) ⟨0⟩ ∧
      ∃ s, passThroughLive.liveOutOnEdges ⟨0⟩ = .ok s ∧ s.contains 0 = false := by
  have hg : passThrough.Mirrored .backward := by decide
  have hl : analyze passThrough = .ok passThroughLive := by decide +kernel
  have hedge : passThrough.ReadOnEdge (.arg ⟨0⟩) ⟨1⟩ :=
    ⟨_, ⟨2⟩, _, ⟨2⟩, rfl, List.mem_cons_self, rfl, List.mem_cons_self, _, rfl, rfl,
      List.mem_cons_self⟩
  -- over the second block, which only goes on
  have hpath : passThrough.Path ⟨⟨0⟩, 1⟩ [⟨1⟩] ⟨⟨1⟩, 1⟩ :=
    .jump (n := { insts := [⟨0⟩], succs := [⟨1⟩] }) rfl List.mem_cons_self (.cross rfl rfl .stay)
  have hwrites : ∀ i, ¬ passThrough.Writes i (.arg ⟨0⟩) := nofun
  have hneeded : passThrough.NeededAfter (.arg ⟨0⟩) ⟨0⟩ :=
    ⟨_, rfl, .inr ⟨_, ⟨1⟩, _, rfl, hpath, hedge, fun i _ => hwrites i⟩⟩
  exact ⟨hg, hl, rfl, hneeded, _, rfl, rfl⟩

end Liveness

end SsaFlow
