import SsaFlow.Proofs.PathLiveness
import SsaFlow.Proofs.StableResults

/-!
# Results that pass a check

A check asks whether a result fits a graph, and the graph need not be the one that
the result was made for.  If it passes, then its one round over the graph has found
every block balanced and has left the record of the result (`Liveness.Round`).

That is enough for the result to miss nothing.  Each step of a path of the graph is
one of the equations, so by induction on the path every read at its end shows in the
sets at its start.  The result may show more, since it need not be the least one.

The operands of the graph are looked up in the domain of the result.  They are all
found there, or the round would have failed.  But an operand that the graph takes for
an instruction without a result is not looked up by its number.
-/

namespace SsaFlow

/-- The value is an instruction of the graph that has no result. -/
def FlowGraph.Resultless (g : FlowGraph) (v : Value) : Prop :=
  ∃ i facts, v = .inst i ∧ i.index < g.numInsts ∧ g.facts.get? i = some facts ∧
    facts.hasResult = false

/-- An operand of one graph is found by its number in the domain of another. -/
theorem Domain.lookup_tracked {f g : FlowGraph} {d : Domain} {v : Value} {k : Nat}
    (hd : build f = .ok d) (hk : d.indexOf? v = some k) (hv : ¬ g.Resultless v)
    {r : Option Nat} (hr : d.lookup g v = .ok r) : d.lookup g v = .ok (some k) := by
  refine lookup_of_indexOf? hk (fun c hc => ?_) fun i hi hlt => ?_
  · subst hc
    obtain ⟨a, ha, -⟩ | ⟨i, facts, hi, -⟩ := (mem_values_build hd).mp (mem_of_indexOf? hk)
    · cases ha
    · cases hi
  · subst hi
    simp only [lookup, if_pos hlt, bind_eq_ok, liftFault_eq_ok, Table.read_eq_ok] at hr
    obtain ⟨facts, hfacts, -⟩ := hr
    refine ⟨facts, hfacts, Bool.eq_true_of_not_eq_false fun hres => hv ?_⟩
    exact ⟨i, facts, rfl, hlt, hfacts, hres⟩

namespace Liveness

/-- What a check of the result has found in a graph, where `fresh` is the record of its round. -/
structure Round (l : Liveness) (g : FlowGraph) (fresh : LiveTables) : Prop where
  ready : l.domain.Ready g fresh
  recorded : ∀ b n, g.nodes.get? b = some n →
    ∃ x y, l.Balanced g b n x y ∧ l.domain.Recorded g n x y fresh
  before : ∀ b n, g.nodes.get? b = some n → ∀ i ∈ n.insts,
    l.tables.before.get? i = fresh.before.get? i
  phiInputs : l.tables.phiInputs = fresh.phiInputs

variable {f g : FlowGraph} {l : Liveness} {fresh : LiveTables} {b : Block} {n : Node}
  {x y : BitSet} {v : Value} {k j : Nat}

/-- A check that passes has gone through all blocks, and has found the record of the result. -/
theorem agreeingRound_of_check (hc : l.check g = .ok ()) : ∃ fresh, l.AgreeingRound g fresh := by
  simp only [check] at hc
  cases hrun : (l.solution.check (l.domain.liveness g) g).run.run
      (.empty l.domain g.numInsts) with
  | mk r fresh =>
    rw [hrun] at hc
    obtain ⟨_, hr, hc⟩ := bind_eq_ok.mp hc
    cases hdiff : differingBlock? g l.tables fresh with
    | some b =>
      rw [hdiff] at hc
      cases hc
    | none =>
      simp only [hdiff] at hc
      split at hc
      next hphi =>
        exact ⟨fresh, hrun.trans (by rw [hr]), differingBlock?_eq_none_iff.mp hdiff, hphi⟩
      next => cases hc

/-- A check that passes is a round over the graph. -/
theorem round_of_check (hl : analyze f = .ok l) (hc : l.check g = .ok ()) :
    ∃ fresh, l.Round g fresh := by
  obtain ⟨fresh, hround, hbefore, hphi⟩ := agreeingRound_of_check hc
  have hinv := Domain.liveness_invariant (d := l.domain) (g := g) Domain.closed_true
  have hvalid : ∀ b n x, g.nodes.get? b = some n → l.solution.meetSide.get? b = some x →
      l.domain.Within (fun _ => True) x := by
    intro b n x _ hx
    exact ⟨over_liveOut hl ((liveOut_eq_ok hl).mpr hx), fun _ _ => trivial⟩
  obtain ⟨hready, hsettled⟩ := Solution.settled_of_check hinv hvalid Domain.ready_empty hround
  refine ⟨fresh, hready, fun b n hn => ?_, hbefore, hphi⟩
  obtain ⟨x, y, hxy, hrec⟩ := hsettled b (Table.lt_size hn)
  exact ⟨x, y, balanced_of_settled hl hn hxy (hrec n hn).live, hrec n hn⟩

theorem Round.fits (hround : l.Round g fresh) : l.Fits g := by
  intro b n hn
  obtain ⟨x, y, hbal, -⟩ := hround.recorded b n hn
  exact ⟨x, y, hbal⟩

/-- The round has looked up all that an instruction of the graph reads. -/
theorem Round.lookup_of_reads (hround : l.Round g fresh) {q : Point} {i : Inst}
    (hi : g.instAt? q = some i) (hread : g.Reads i v) : ∃ r, l.domain.lookup g v = .ok r := by
  obtain ⟨n, hn, hi⟩ := Option.bind_eq_some_iff.mp hi
  obtain ⟨x, y, -, hrec⟩ := hround.recorded q.block n hn
  obtain ⟨⟨facts, hfacts, hsought⟩, -⟩ := hrec.covers i (List.mem_of_getElem? hi)
  obtain ⟨hphi, hmem⟩ := (FlowGraph.reads_iff hfacts).mp hread
  refine hsought v ?_
  rw [Domain.sought, if_neg hphi]
  exact hmem

/-- What is live along a path of the graph is live through the rest of the block. -/
theorem Round.liveThrough_of_liveAt (hround : l.Round g fresh) (hl : analyze f = .ok l)
    (hk : l.domain.indexOf? v = some k) (hv : ¬ g.Resultless v) (hn : g.nodes.get? b = some n)
    (hbal : l.Balanced g b n x y) (hlive : g.LiveAt v ⟨b, j⟩) :
    l.domain.LiveThrough g (x.contains · = true) (n.insts.drop j) k := by
  obtain ⟨is, q, i, hpath, hi, hread, hwrites⟩ := hlive
  obtain ⟨r, hr⟩ := hround.lookup_of_reads hi hread
  have hlookup := Domain.lookup_tracked (solve_of_analyze hl).1 hk hv hr
  exact hround.fits.liveThrough_of_path hlookup hpath hi hread hwrites hn hbal

/-- A result that passes its check on a graph shows all that is live along the paths of the graph,
whichever graph it was made for. -/
theorem contains_of_check (hl : analyze f = .ok l) (hc : l.check g = .ok ())
    (hn : g.nodes.get? b = some n) (hv : v ∈ l.domain.values) (hres : ¬ g.Resultless v) :
    ∃ k x y, l.domain.indexOf? v = some k ∧ l.liveIn b = .ok y ∧ l.liveOut b = .ok x ∧
      (g.LiveAt v ⟨b, 0⟩ → y.contains k = true) ∧
      (g.LiveAt v ⟨b, n.insts.length⟩ → x.contains k = true) := by
  obtain ⟨k, hk⟩ := Domain.exists_indexOf? hv
  obtain ⟨fresh, hround⟩ := round_of_check hl hc
  obtain ⟨x, y, hbal, -⟩ := hround.recorded b n hn
  refine ⟨k, x, y, hk, hbal.liveIn, hbal.liveOut, fun hlive => ?_, fun hlive => ?_⟩
  · exact (hbal.insts k).mpr (hround.liveThrough_of_liveAt hl hk hres hn hbal hlive)
  · have hend := hround.liveThrough_of_liveAt hl hk hres hn hbal hlive
    rwa [List.drop_length] at hend

/-- A graph that differs from `selfLoop` in its entry and in its edges, and that has no
predecessors on store. -/
def strayLoop : FlowGraph where
  entry := ⟨1⟩
  numArgs := 1
  numInsts := 2
  nodes := .ofList [{ insts := [⟨0⟩, ⟨1⟩], succs := [⟨0⟩] }, { succs := [⟨0⟩] }]
  facts := .ofList [
    { kind := .phi, hasResult := true, incoming := [(.arg ⟨0⟩, ⟨1⟩), (.inst ⟨0⟩, ⟨0⟩)] },
    { kind := .terminator, operands := [.arg ⟨0⟩, .inst ⟨0⟩] }]

theorem contains_of_check_strayLoop :
    analyze selfLoop = .ok selfLoopLive ∧ selfLoopLive.check strayLoop = .ok () ∧
      .arg ⟨0⟩ ∈ selfLoopLive.domain.values ∧ ¬ strayLoop.Resultless (.arg ⟨0⟩) ∧
      strayLoop.LiveAt (.arg ⟨0⟩) ⟨⟨1⟩, 0⟩ ∧
      ∃ k x y, selfLoopLive.domain.indexOf? (.arg ⟨0⟩) = some k ∧
        selfLoopLive.liveIn ⟨1⟩ = .ok y ∧ selfLoopLive.liveOut ⟨1⟩ = .ok x ∧
        y.contains k = true ∧ x.contains k = true := by
  have hc : selfLoopLive.check strayLoop = .ok () := by decide +kernel
  have hv : .arg ⟨0⟩ ∈ selfLoopLive.domain.values := List.mem_cons_self
  have hres : ¬ strayLoop.Resultless (.arg ⟨0⟩) := nofun
  -- from the second block into the loop, over the phi
  have hpath : strayLoop.Path ⟨⟨1⟩, 0⟩ [⟨0⟩] ⟨⟨0⟩, 1⟩ :=
    .jump (n := { succs := [⟨0⟩] }) rfl List.mem_cons_self (.cross rfl rfl .stay)
  have hread : strayLoop.Reads ⟨1⟩ (.arg ⟨0⟩) := ⟨_, rfl, nofun, List.mem_cons_self⟩
  have hlive : strayLoop.LiveAt (.arg ⟨0⟩) ⟨⟨1⟩, 0⟩ := by
    refine ⟨_, _, ⟨1⟩, hpath, rfl, hread, fun i _ hwrite => ?_⟩
    obtain ⟨_, _, _, heq⟩ := hwrite
    cases heq
  obtain ⟨k, x, y, hk, hin, hout, hstart, hend⟩ :=
    contains_of_check analyze_selfLoop hc (b := ⟨1⟩) rfl hv hres
  exact ⟨analyze_selfLoop, hc, hv, hres, hlive, k, x, y, hk, hin, hout, hstart hlive, hend hlive⟩

end Liveness

end SsaFlow
