import SsaFlow.Proofs.PathLiveness

/-!
# From the end of a block to its start

A result has three tables of live sets: at the end of blocks, at their start, and before
instructions.  A run writes the first with every visit, the second only if it changes,
and the third along the way.  That the edges of a graph are mirrored is not needed for
the three to agree about a block:  whatever set was met at its end last, that visit has
left what follows from it.

So going through a block from its end, each instruction takes the set after it to the
set before it (`Liveness.contains_setAt_iff`), and the last of them is the set at the
start of the block.
-/

namespace SsaFlow

namespace Domain

variable {d : Domain} {g : FlowGraph} {i : Inst} {facts : InstFacts} {k : Nat}

theorem gens_iff (hd : build g = .ok d) (hfacts : g.facts.get? i = some facts) :
    d.Gens g i k ↔ facts.kind ≠ .phi ∧ ∃ v ∈ facts.operands, d.indexOf? v = some k := by
  simp only [Gens, FlowGraph.reads_iff hfacts, lookup_build_iff hd, and_assoc, exists_and_left]

theorem kills_iff (hfacts : g.facts.get? i = some facts) :
    d.Kills g i k ↔ facts.kind ≠ .terminator ∧ d.indexOf? (.inst i) = some k := by
  simp only [Kills, FlowGraph.writes_iff hfacts, and_assoc, exists_and_left, exists_eq_left]

end Domain

namespace Liveness

variable {g : FlowGraph} {l : Liveness} {b : Block} {n : Node} {x y : BitSet}

/-- What is on record as live at a point: before the instruction that comes next, or at the end of
the block. -/
def setAt (l : Liveness) (g : FlowGraph) (p : Point) : Except Fault BitSet :=
  match g.instAt? p with
  | some i => l.liveBefore i
  | none => l.liveOut p.block

theorem setAt_of_getElem? {i : Inst} {j : Nat} (hn : g.nodes.get? b = some n)
    (hi : n.insts[j]? = some i) : l.setAt g ⟨b, j⟩ = l.liveBefore i := by
  rw [setAt, FlowGraph.instAt?_eq hn, hi]

theorem setAt_length (hn : g.nodes.get? b = some n) :
    l.setAt g ⟨b, n.insts.length⟩ = l.liveOut b := by
  rw [setAt, FlowGraph.instAt?_eq hn, List.getElem?_length]

/-- What is on record at a point is what is live through the rest of its block. -/
theorem contains_setAt_iff (hn : g.nodes.get? b = some n)
    (honce : ∀ i ∈ n.insts, g.listed.count i = 1) (hx : l.liveOut b = .ok x)
    (hover : x.Over l.domain.size) (hrec : l.domain.Recorded g n x y l.tables) {j : Nat}
    (hj : j ≤ n.insts.length) :
    ∃ z, l.setAt g ⟨b, j⟩ = .ok z ∧ z.Over l.domain.size ∧ ∀ k, z.contains k = true ↔
      l.domain.LiveThrough g (x.contains · = true) (n.insts.drop j) k := by
  rcases Nat.lt_or_eq_of_le hj with hlt | rfl
  · have hi : n.insts[j]? = some n.insts[j] := List.getElem?_eq_getElem hlt
    have hdrop := drop_of_getElem? hi
    have hsplit : n.insts = n.insts.take j ++ n.insts[j] :: n.insts.drop (j + 1) := by
      rw [← hdrop, List.take_append_drop]
    obtain ⟨z, hz, hzover, hmem⟩ :=
      hrec.before _ _ _ hsplit (honce _ (List.getElem_mem hlt))
    refine ⟨z, ?_, hzover, fun k => ?_⟩
    · rw [setAt_of_getElem? hn hi]
      exact Table.read_eq_ok.mpr hz
    · rw [hdrop, hmem]
  · refine ⟨x, (setAt_length hn).trans hx, hover, fun k => ?_⟩
    rw [List.drop_length]
    exact Iff.rfl

/-- In a block whose instructions are all listed once, each instruction leads from the set after it
to the set before it, from the end of the block to its start.  In an empty block the two are the
same. -/
theorem setAt_chain (hl : analyze g = .ok l) (hn : g.nodes.get? b = some n)
    (honce : ∀ i ∈ n.insts, g.listed.count i = 1) :
    (∃ y, l.liveIn b = .ok y ∧ l.setAt g ⟨b, 0⟩ = .ok y) ∧
      (∃ x, l.liveOut b = .ok x ∧ l.setAt g ⟨b, n.insts.length⟩ = .ok x) ∧
      ∀ j i, n.insts[j]? = some i → ∃ facts after before,
        g.facts.get? i = some facts ∧ l.setAt g ⟨b, j + 1⟩ = .ok after ∧
        l.liveBefore i = .ok before ∧ after.Over l.domain.size ∧ before.Over l.domain.size ∧
        ∀ k, before.contains k = true ↔
          (after.contains k = true ∧
            ¬ (facts.kind ≠ .terminator ∧ l.domain.indexOf? (.inst i) = some k)) ∨
          (facts.kind ≠ .phi ∧ ∃ v ∈ facts.operands, l.domain.indexOf? v = some k) := by
  obtain ⟨x, y, hx, hy, hout, hin, hrec⟩ := exists_sides hl Domain.closed_true hn
  refine ⟨⟨y, hy, ?_⟩, ⟨x, hx, (setAt_length hn).trans hx⟩, fun j i hi => ?_⟩
  · obtain ⟨z, hz, hover, hmem⟩ :=
      contains_setAt_iff hn honce hx hout.sized hrec (Nat.zero_le _)
    have hzy : z = y := hover.ext hin.sized fun k => by
      rw [Bool.eq_iff_iff, hmem, hrec.live, List.drop_zero]
    rw [hz, hzy]
  · have hlt : j < n.insts.length := (List.getElem?_eq_some_iff.mp hi).1
    obtain ⟨before, hbefore, hover, hmem⟩ :=
      contains_setAt_iff hn honce hx hout.sized hrec (Nat.le_of_lt hlt)
    obtain ⟨after, hafter, hover', hmem'⟩ :=
      contains_setAt_iff hn honce hx hout.sized hrec (Nat.succ_le_of_lt hlt)
    obtain ⟨⟨facts, hfacts, -⟩, -⟩ := hrec.covers i (List.mem_of_getElem? hi)
    rw [setAt_of_getElem? hn hi] at hbefore
    refine ⟨facts, after, before, hfacts, hafter, hbefore, hover', hover, fun k => ?_⟩
    rw [hmem, drop_of_getElem? hi, hmem', ← Domain.kills_iff hfacts,
      ← Domain.gens_iff (solve_of_analyze hl).1 hfacts, or_comm]
    exact Iff.rfl

/-! ## Edges that are not mirrored -/

/-- Two blocks that lead to each other, without a trace of that in their predecessors, and one that
lists its instruction twice. -/
def oneWayLoop : FlowGraph where
  entry := ⟨0⟩
  numArgs := 1
  numInsts := 4
  nodes := .ofList [
    { insts := [⟨0⟩], succs := [⟨1⟩] },
    { insts := [⟨1⟩, ⟨2⟩], succs := [⟨0⟩] },
    { insts := [⟨3⟩, ⟨3⟩] }]
  facts := .ofList [
    { kind := .terminator, operands := [.arg ⟨0⟩] },
    { hasResult := true, operands := [.const ⟨0⟩] },
    { kind := .terminator, operands := [.inst ⟨1⟩] },
    { operands := [.arg ⟨0⟩] }]

/-- What a run finds in `oneWayLoop`.  The argument is missing at the end of the second block, though
it is there at the start of the first. -/
def oneWayLoopLive : Liveness where
  domain := ⟨[.arg ⟨0⟩, .inst ⟨1⟩]⟩
  solution := {
    direction := .backward
    meetSide := .ofList [⟨#[0], 2⟩, ⟨#[0], 2⟩, ⟨#[0], 2⟩]
    transferSide := .ofList [⟨#[1], 2⟩, ⟨#[0], 2⟩, ⟨#[1], 2⟩]
    visits := .ofList [1, 1, 1] }
  tables := {
    before := .ofList [⟨#[1], 2⟩, ⟨#[0], 2⟩, ⟨#[2], 2⟩, ⟨#[1], 2⟩]
    phiInputs := .empty 2 }

/-- The sets of the second block of `oneWayLoop` belong together, although one more visit would
change them. -/
theorem setAt_chain_oneWayLoop :
    analyze oneWayLoop = .ok oneWayLoopLive ∧ ¬ oneWayLoop.Mirrored .backward ∧
      (∀ i ∈ ([⟨1⟩, ⟨2⟩] : List Inst), oneWayLoop.listed.count i = 1) ∧
      (∃ y, oneWayLoopLive.liveIn ⟨1⟩ = .ok y ∧
        oneWayLoopLive.setAt oneWayLoop ⟨⟨1⟩, 0⟩ = .ok y) ∧
      (∃ x, oneWayLoopLive.liveOut ⟨1⟩ = .ok x ∧
        oneWayLoopLive.setAt oneWayLoop ⟨⟨1⟩, 2⟩ = .ok x) ∧
      ∃ facts after before, oneWayLoop.facts.get? ⟨1⟩ = some facts ∧
        oneWayLoopLive.setAt oneWayLoop ⟨⟨1⟩, 1⟩ = .ok after ∧
        oneWayLoopLive.liveBefore ⟨1⟩ = .ok before ∧
        after.Over oneWayLoopLive.domain.size ∧ before.Over oneWayLoopLive.domain.size ∧
        ∀ k, before.contains k = true ↔
          (after.contains k = true ∧ ¬ (facts.kind ≠ .terminator ∧
            oneWayLoopLive.domain.indexOf? (.inst ⟨1⟩) = some k)) ∨
          (facts.kind ≠ .phi ∧
            ∃ v ∈ facts.operands, oneWayLoopLive.domain.indexOf? v = some k) := by
  have hl : analyze oneWayLoop = .ok oneWayLoopLive := by decide +kernel
  have hmirrored : ¬ oneWayLoop.Mirrored .backward := by decide
  have honce : ∀ i ∈ ([⟨1⟩, ⟨2⟩] : List Inst), oneWayLoop.listed.count i = 1 := by decide
  obtain ⟨hin, hout, hchain⟩ := setAt_chain hl (b := ⟨1⟩) rfl honce
  exact ⟨hl, hmirrored, honce, hin, hout, hchain 0 ⟨1⟩ rfl⟩

end Liveness

end SsaFlow
