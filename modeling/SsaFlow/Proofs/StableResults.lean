import SsaFlow.Proofs.Fixpoint
import SsaFlow.Proofs.LiveRuns

/-!
# Results are stable

A result keeps what the last visits left on record, while its check goes through
all blocks once, on an empty record.  Both put every block on record with the same
sets (`Liveness.exists_round`), and that fixes the record if every instruction is
listed once.  The sets before the instructions of a block follow from what is live
at its end (`Domain.Recorded.before_eq`).  The inputs of phis are those that the
listed phis name, however often a block is visited (`Domain.supplies_iff`).
-/

namespace SsaFlow

namespace Domain

variable {d : Domain} {g : FlowGraph} {s s' : LiveTables} {n : Node} {x y : BitSet}

/-- A block whose instructions are all covered can be put on record. -/
theorem Ready.exists_transferBlock (hs : d.Ready g s) {b : Block} (hn : g.nodes.get? b = some n)
    (hcovers : ∀ i ∈ n.insts, d.Covers g i ∧ i.index < g.numInsts) (hx : x.Over d.size) :
    ∃ y s', Yields (d.transferBlock g b x) s y s' ∧ d.PassedAll g n.insts x s y s' ∧
      d.Ready g s' := by
  obtain ⟨y, s', hy, -⟩ := passedAll_yields (hs.size.symm ▸ hcovers) hx hs.sound
  have hblock := (transferBlock_yields_iff hn).mpr hy
  obtain ⟨hpassed, hready, -⟩ := hs.transferBlock hn hx hblock
  exact ⟨y, s', hblock, hpassed, hready⟩

/-- A block that was put on record once can be put on record again. -/
theorem Recorded.yields (hrec : d.Recorded g n x y s) {b : Block} (hn : g.nodes.get? b = some n)
    (hx : x.Over d.size) (hy : y.Over d.size) (hs' : d.Ready g s') :
    ∃ u, Yields (d.transferBlock g b x) s' y u := by
  obtain ⟨z, u, hz, hpassed, -⟩ := hs'.exists_transferBlock hn hrec.covers hx
  have hzy : z = y := hpassed.sized.ext hy fun k => by
    rw [Bool.eq_iff_iff, hpassed.live, hrec.live]
  exact ⟨u, hzy ▸ hz⟩

/-- What is on record of an instruction that is listed once depends on the block only. -/
theorem Recorded.before_eq (hrec : d.Recorded g n x y s) (hrec' : d.Recorded g n x y s') {i : Inst}
    (hi : i ∈ n.insts) (hcount : g.listed.count i = 1) :
    s.before.get? i = s'.before.get? i := by
  obtain ⟨pre, post, hsplit⟩ := List.append_of_mem hi
  obtain ⟨z, hz, hover, hmem⟩ := hrec.before pre i post hsplit hcount
  obtain ⟨z', hz', hover', hmem'⟩ := hrec'.before pre i post hsplit hcount
  have hzz : z = z' := hover.ext hover' fun k => by
    rw [Bool.eq_iff_iff, hmem, hmem']
  rw [hz, hz', hzz]

/-- With all blocks on record, the inputs of phis are those that the listed phis name. -/
theorem supplies_iff (hs : d.Ready g s)
    (hrec : ∀ b n, g.nodes.get? b = some n → ∃ x y, d.Recorded g n x y s) (pred : Block) (k : Nat) :
    s.phiInputs.Supplies pred k ↔ ∃ i ∈ g.listed, d.Feeds g i pred k := by
  constructor
  · exact hs.supplies pred k
  · rintro ⟨i, hi, hk⟩
    obtain ⟨b, n, hn, hi⟩ := FlowGraph.mem_listed.mp hi
    obtain ⟨x, y, hbn⟩ := hrec b n hn
    exact hbn.supplies i hi pred k hk

/-- Two records of the same sets agree, if no instruction is listed twice. -/
theorem Ready.agree {s s' : LiveTables} (hs : d.Ready g s) (hs' : d.Ready g s')
    (hlisted : g.listed.Nodup)
    (hrec : ∀ b n, g.nodes.get? b = some n →
      ∃ x y, d.Recorded g n x y s ∧ d.Recorded g n x y s') :
    (∀ b n, g.nodes.get? b = some n → ∀ i ∈ n.insts, s.before.get? i = s'.before.get? i) ∧
      s.phiInputs = s'.phiInputs := by
  constructor
  · intro b n hn i hi
    obtain ⟨x, y, h, h'⟩ := hrec b n hn
    exact h.before_eq h' hi
      (List.count_eq_one_of_mem hlisted (FlowGraph.mem_listed.mpr ⟨b, n, hn, hi⟩))
  · have hiff := supplies_iff hs fun b n hn =>
      let ⟨x, y, h, _⟩ := hrec b n hn
      ⟨x, y, h⟩
    have hiff' := supplies_iff hs' fun b n hn =>
      let ⟨x, y, _, h'⟩ := hrec b n hn
      ⟨x, y, h'⟩
    exact hs.sound.ext hs'.sound fun pred k => (hiff pred k).trans (hiff' pred k).symm

end Domain

namespace Liveness

variable {g : FlowGraph} {l : Liveness}

theorem differingBlock?_eq_none_iff {t u : LiveTables} :
    differingBlock? g t u = none ↔
      ∀ b n, g.nodes.get? b = some n → ∀ i ∈ n.insts, t.before.get? i = u.before.get? i := by
  simp only [differingBlock?, Option.map_eq_none_iff, List.find?_eq_none, Prod.forall,
    Table.mem_entries]
  simp

/-- After a round over the graph that has left the sets of the result before all instructions, the
tables of phi inputs decide. -/
theorem check_of_round {fresh : LiveTables}
    (hround : Yields (l.solution.check (l.domain.liveness g) g) (.empty l.domain g.numInsts) ()
      fresh)
    (hbefore : ∀ b n, g.nodes.get? b = some n → ∀ i ∈ n.insts,
      l.tables.before.get? i = fresh.before.get? i) :
    l.check g = if l.tables.phiInputs = fresh.phiInputs then .ok () else
      .error (.error (.notAFixpoint
        ((differingPred? l.tables.phiInputs fresh.phiInputs).getD g.entry))) := by
  have hrun : (l.solution.check (l.domain.liveness g) g).run.run (.empty l.domain g.numInsts) =
      (.ok (), fresh) := hround
  simp only [check, hrun, differingBlock?_eq_none_iff.mpr hbefore]
  rfl

/-- A round over the graph, on an empty record, finds both sides of every block again and ends with
the record of the result. -/
structure AgreeingRound (l : Liveness) (g : FlowGraph) (fresh : LiveTables) : Prop where
  round : Yields (l.solution.check (l.domain.liveness g) g) (.empty l.domain g.numInsts) () fresh
  before : ∀ b n, g.nodes.get? b = some n → ∀ i ∈ n.insts,
    l.tables.before.get? i = fresh.before.get? i
  phiInputs : l.tables.phiInputs = fresh.phiInputs

theorem AgreeingRound.check {fresh : LiveTables} (h : l.AgreeingRound g fresh) :
    l.check g = .ok () := by
  rw [check_of_round h.round h.before, if_pos h.phiInputs]

/-- What a block supplies to phis, by number. -/
theorem supplies_iff_feeds (hl : analyze g = .ok l) (pred : Block) (k : Nat) :
    l.tables.phiInputs.Supplies pred k ↔ ∃ i ∈ g.listed, l.domain.Feeds g i pred k := by
  refine Domain.supplies_iff (ready_of_analyze hl) (fun b n hn => ?_) pred k
  obtain ⟨x, y, -, -, -, -, hrec⟩ := exists_sides hl Domain.closed_true hn
  exact ⟨x, y, hrec⟩

/-- The round of a check goes through, and puts every block on record as the run did. -/
theorem exists_round (hg : g.Mirrored .backward) (hl : analyze g = .ok l) :
    ∃ fresh, Yields (l.solution.check (l.domain.liveness g) g) (.empty l.domain g.numInsts) ()
        fresh ∧
      l.domain.Ready g l.tables ∧ l.domain.Ready g fresh ∧
      ∀ b n, g.nodes.get? b = some n →
        ∃ x y, l.domain.Recorded g n x y l.tables ∧ l.domain.Recorded g n x y fresh := by
  have hinv := Domain.liveness_invariant (d := l.domain) (g := g) Domain.closed_true
  have hd := (solve_of_analyze hl).2
  obtain ⟨hready, hsides⟩ := Problem.solve_invariant hinv Domain.ready_empty hd
  -- one more visit to a block gives what it holds
  have hconfirmed : ∀ b n, g.nodes.get? b = some n → ∃ x y,
      Solution.Confirmed (l.domain.liveness g) g (l.domain.Ready g)
        (fun _ => l.domain.Within fun _ => True) l.solution b x y ∧
      l.domain.Recorded g n x y l.tables := by
    intro b n hn
    obtain ⟨x, y, hx, hy, hout, hin, hrec⟩ := hsides b n hn
    have hinput := Problem.solve_meets (p := l.domain.liveness g) hg hd hn hx
    exact ⟨x, y, ⟨⟨hx, hy, hinput⟩, hout,
      fun u hu => (hrec n hn).yields hn hout.sized hin.sized hu⟩, hrec n hn⟩
  obtain ⟨fresh, hround, hready', hall⟩ := Solution.check_yields hinv
    (Problem.checkEdges_of_solve hd)
    (by
      intro b hb
      obtain ⟨n, hn⟩ := Table.exists_get? hb
      obtain ⟨x, y, hxy, -⟩ := hconfirmed b n hn
      exact ⟨x, y, hxy⟩)
    Domain.ready_empty
  refine ⟨fresh, hround, hready, hready', fun b n hn => ?_⟩
  obtain ⟨x, y, hxy, hrec⟩ := hconfirmed b n hn
  obtain ⟨x', y', hxy', hrec'⟩ := hall b (Table.lt_size hn)
  obtain rfl := Option.some.inj (hxy.meetSide.symm.trans hxy'.meetSide)
  obtain rfl := Option.some.inj (hxy.transferSide.symm.trans hxy'.transferSide)
  exact ⟨x, y, hrec, hrec' n hn⟩

/-- If no instruction is listed twice, the round ends with the record of the result. -/
theorem exists_agreeing_round (hg : g.Mirrored .backward) (hlisted : g.listed.Nodup)
    (hl : analyze g = .ok l) : ∃ fresh, l.AgreeingRound g fresh := by
  obtain ⟨fresh, hround, hready, hready', hrec⟩ := exists_round hg hl
  obtain ⟨hbefore, hphi⟩ := hready.agree hready' hlisted hrec
  exact ⟨fresh, hround, hbefore, hphi⟩

/-- A result passes its own check, if the edges are mirrored and no instruction is listed twice: a
round on an empty record ends with all that is on record. -/
theorem check_of_analyze (hg : g.Mirrored .backward) (hlisted : g.listed.Nodup)
    (hl : analyze g = .ok l) : l.check g = .ok () ∧ ∃ fresh, l.AgreeingRound g fresh := by
  obtain ⟨fresh, hagreeing⟩ := exists_agreeing_round hg hlisted hl
  exact ⟨hagreeing.check, fresh, hagreeing⟩

theorem check_of_analyze_selfLoop :
    selfLoop.Mirrored .backward ∧ selfLoop.listed.Nodup ∧ analyze selfLoop = .ok selfLoopLive ∧
      selfLoopLive.check selfLoop = .ok () ∧
      ∃ fresh, selfLoopLive.AgreeingRound selfLoop fresh := by
  have hg : selfLoop.Mirrored .backward := by decide
  have hlisted : selfLoop.listed.Nodup := by decide
  exact ⟨hg, hlisted, analyze_selfLoop, check_of_analyze hg hlisted analyze_selfLoop⟩

end Liveness

end SsaFlow
