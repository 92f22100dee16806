import SsaFlow.Proofs.ErasedRuns
import SsaFlow.Proofs.LiveRuns

/-!
# Inputs of phis stay apart

The inputs of phis are marked on the side, and what is marked is never read again
during a run.  So an analysis of a graph erases to one of the graph without the
inputs of its phis (`FlowGraph.withoutInputs`): it succeeds as well, and gives the
same result but for an empty table of phi inputs
(`Liveness.analyze_withoutInputs`).

Graphs that are the same without the inputs of their phis therefore have the same
results without theirs.  Nothing of the inputs leaks into the live sets, or into the
order in which blocks are visited.
-/

namespace SsaFlow

/-! ## Erasing the inputs -/

/-- The facts of an instruction without its inputs by edge. -/
def InstFacts.withoutInputs (facts : InstFacts) : InstFacts := { facts with incoming := [] }

/-- The graph without the inputs of its phis. -/
def FlowGraph.withoutInputs (g : FlowGraph) : FlowGraph :=
  { g with facts := g.facts.map InstFacts.withoutInputs }

/-- The record without the inputs of phis, over `n` positions. -/
def LiveTables.withoutInputs (n : Nat) (s : LiveTables) : LiveTables :=
  { s with phiInputs := .empty n }

/-- The result without the inputs of phis. -/
def Liveness.withoutInputs (l : Liveness) : Liveness :=
  { l with tables := l.tables.withoutInputs l.domain.size }

theorem FlowGraph.read_facts_withoutInputs (g : FlowGraph) (i : Inst) :
    g.withoutInputs.facts.read i = InstFacts.withoutInputs <$> g.facts.read i :=
  Table.read_map _

/-! ## Transfers without inputs -/

namespace Domain

variable {d : Domain} {g : FlowGraph} {i : Inst} {x y : BitSet} {s s' : LiveTables}

theorem build_withoutInputs (g : FlowGraph) : build g.withoutInputs = build g := by
  have hresult : ∀ i, (do return (← g.withoutInputs.facts.read i).hasResult : Except Fault Bool) =
      (do return (← g.facts.read i).hasResult) := by
    intro i
    rw [FlowGraph.read_facts_withoutInputs]
    cases g.facts.read i with
    | error e => rfl
    | ok facts => rfl
  unfold build
  rw [funext hresult]
  rfl

theorem lookup_withoutInputs (d : Domain) (g : FlowGraph) (v : Value) :
    d.lookup g.withoutInputs v = d.lookup g v := by
  cases v with
  | const c => rfl
  | arg a => rfl
  | inst i =>
    simp only [lookup, FlowGraph.read_facts_withoutInputs]
    cases g.facts.read i with
    | error e => rfl
    | ok facts => rfl

theorem gen_withoutInputs (d : Domain) (g : FlowGraph) (vs : List Value) (x : BitSet) :
    d.gen g.withoutInputs x vs = d.gen g x vs := by
  simp only [gen, lookup_withoutInputs]

theorem before_of_mark {pred : Block} {n : Nat} (h : Yields (LiveTables.mark pred n) s () s') :
    s'.before = s.before := by
  simp only [LiveTables.mark, yields_bind, yields_get] at h
  obtain ⟨_, _, ⟨rfl, rfl⟩, h⟩ := h
  obtain ⟨_, u, hset, hlift⟩ := yields_bind.mp h
  rw [← (yields_liftError.mp hlift).2, ← yields_set.mp hset]

/-- Marking inputs leaves the sets before instructions alone. -/
theorem before_of_markInputs : ∀ {es : List (Value × Block)} {s s' : LiveTables},
    Yields (d.markInputs g es) s () s' → s'.before = s.before
  | [], s, s', h => by
    obtain ⟨-, rfl⟩ := yields_pure.mp h
    rfl
  | (v, pred) :: es, s, s', h => by
    have h : Yields (_ >>= fun _ => d.markInputs g es) s () s' := h
    obtain ⟨_, u, hu, h⟩ := yields_bind.mp h
    obtain ⟨r, _, hr, hu⟩ := yields_bind.mp hu
    obtain ⟨-, rfl⟩ := yields_lift.mp hr
    rw [before_of_markInputs h]
    cases r with
    | none =>
      obtain ⟨-, rfl⟩ := yields_pure.mp hu
      rfl
    | some n => exact before_of_mark hu

/-- What an instruction reads is put in without a look at the record. -/
theorem withReads_withoutInputs {facts : InstFacts} (h : Yields (d.withReads g facts x) s y s')
    (n : Nat) :
    Yields (d.withReads g.withoutInputs facts.withoutInputs x) (s.withoutInputs n) y
      (s'.withoutInputs n) := by
  unfold withReads at h ⊢
  split at h
  next hphi =>
    obtain ⟨_, u, hmark, hx⟩ := yields_bind.mp h
    obtain ⟨rfl, rfl⟩ := yields_pure.mp hx
    have hbefore : u.withoutInputs n = s.withoutInputs n := by
      rw [LiveTables.withoutInputs, before_of_markInputs hmark]
      rfl
    rw [if_pos (show facts.withoutInputs.kind = .phi from hphi), hbefore]
    exact yields_pure.mpr ⟨rfl, rfl⟩
  next hphi =>
    obtain ⟨hgen, rfl⟩ := yields_lift.mp h
    rw [if_neg (show facts.withoutInputs.kind ≠ .phi from hphi)]
    exact yields_lift.mpr ⟨(gen_withoutInputs d g facts.operands x).trans hgen, rfl⟩

/-- The transfer of an instruction erases to its transfer in the graph without inputs. -/
theorem transferInst_withoutInputs (h : Yields (d.transferInst g i x) s y s') (n : Nat) :
    Yields (d.transferInst g.withoutInputs i x) (s.withoutInputs n) y (s'.withoutInputs n) := by
  rw [transferInst_eq] at h ⊢
  simp only [yields_bind, yields_liftFault, yields_liftError] at h ⊢
  obtain ⟨facts, _, ⟨hfacts, rfl⟩, z, _, ⟨hz, rfl⟩, w, u, hw, _, v, hv, hy⟩ := h
  obtain ⟨rfl, rfl⟩ := yields_pure.mp hy
  obtain ⟨hbefore, -⟩ := record_yields_iff.mp hv
  refine ⟨facts.withoutInputs, s.withoutInputs n, ⟨?_, rfl⟩, z, s.withoutInputs n, ⟨hz, rfl⟩, w,
    u.withoutInputs n, withReads_withoutInputs hw n, (), v.withoutInputs n,
    record_yields_iff.mpr ⟨hbefore, rfl⟩, yields_pure.mpr ⟨rfl, rfl⟩⟩
  rw [FlowGraph.read_facts_withoutInputs, hfacts]
  rfl

theorem foldrM_withoutInputs {is : List Inst} (h : Yields (is.foldrM (d.transferInst g) x) s y s')
    (n : Nat) :
    Yields (is.foldrM (d.transferInst g.withoutInputs) x) (s.withoutInputs n) y
      (s'.withoutInputs n) := by
  induction is generalizing y s' with
  | nil =>
    obtain ⟨rfl, rfl⟩ := yields_pure.mp h
    exact yields_pure.mpr ⟨rfl, rfl⟩
  | cons i is ih =>
    rw [List.foldrM_cons] at h ⊢
    obtain ⟨z, u, hz, hy⟩ := yields_bind.mp h
    exact yields_bind.mpr ⟨z, u.withoutInputs n, ih hz, transferInst_withoutInputs hy n⟩

/-- The liveness problem of a graph erases to that of the graph without inputs. -/
theorem liveness_erases (d : Domain) (g : FlowGraph) (n : Nat) :
    (d.liveness g).Erases (d.liveness g.withoutInputs) (LiveTables.withoutInputs n) where
  direction := rfl
  initial := rfl
  boundary := rfl
  meet := rfl
  transfer {b x s y s'} h := by
    simp only [liveness, transferBlock, yields_bind, yields_liftFault, List.foldlM_reverse] at h ⊢
    obtain ⟨is, _, ⟨his, rfl⟩, h⟩ := h
    exact ⟨is, s.withoutInputs n, ⟨his, rfl⟩, foldrM_withoutInputs h n⟩

end Domain

/-! ## Results -/

namespace Liveness

variable {f g : FlowGraph} {l r : Liveness}

/-- Without the inputs of its phis, a graph has the same result without inputs. -/
theorem analyze_withoutInputs (hl : analyze g = .ok l) :
    analyze g.withoutInputs = .ok l.withoutInputs := by
  obtain ⟨hd, hrun⟩ := solve_of_analyze hl
  have hrun' := (l.domain.liveness_erases g l.domain.size).solve hrun
  rw [Problem.solve_congr _ (f := g) (g := g.withoutInputs) rfl rfl] at hrun'
  exact analyze_of_run ((Domain.build_withoutInputs g).trans hd) hrun'

/-- Graphs that are the same without inputs have results that are the same without inputs. -/
theorem withoutInputs_eq (hsame : f.withoutInputs = g.withoutInputs) (hl : analyze f = .ok l)
    (hr : analyze g = .ok r) : l.withoutInputs = r.withoutInputs := by
  have hl' := analyze_withoutInputs hl
  rw [hsame, analyze_withoutInputs hr] at hl'
  exact (Except.ok.inj hl').symm

theorem parts_eq_of_withoutInputs_eq (h : l.withoutInputs = r.withoutInputs) :
    l.domain = r.domain ∧ l.solution = r.solution ∧ l.tables.before = r.tables.before := by
  obtain ⟨domain, solution, before, inputs⟩ := l
  obtain ⟨domain', solution', before', inputs'⟩ := r
  cases h
  exact ⟨rfl, rfl, rfl⟩

/-- Results of graphs that differ in nothing but the inputs of phis have the same domain, the same
sets at every block and before every instruction, and the same visits.  They differ in nothing but
the table of phi inputs. -/
theorem eq_but_phiInputs (hsame : f.withoutInputs = g.withoutInputs) (hl : analyze f = .ok l)
    (hr : analyze g = .ok r) :
    l.domain = r.domain ∧
      (∀ b, l.liveIn b = r.liveIn b ∧ l.liveOut b = r.liveOut b ∧
        l.solution.visits.read b = r.solution.visits.read b) ∧
      (∀ i, l.liveBefore i = r.liveBefore i) ∧
      l.withoutInputs = r.withoutInputs := by
  have herased := withoutInputs_eq hsame hl hr
  obtain ⟨hdomain, hsolution, hbefore⟩ := parts_eq_of_withoutInputs_eq herased
  refine ⟨hdomain, fun b => ⟨?_, ?_, ?_⟩, fun i => ?_, herased⟩
  · rw [liveIn, liveIn, hsolution]
  · rw [liveOut, liveOut, hsolution]
  · rw [hsolution]
  · rw [liveBefore, liveBefore, hbefore]

/-- `selfLoop` whose phi has an input from the block itself only. -/
def fewerInputs : FlowGraph :=
  { selfLoop with
    facts := .ofList [
      { kind := .phi, hasResult := true, incoming := [(.inst ⟨0⟩, ⟨0⟩)] },
      { kind := .terminator, operands := [.inst ⟨0⟩, .arg ⟨0⟩] }] }

/-- What is live where in `fewerInputs`: the same as in `selfLoop`, but the second block supplies
nothing. -/
def fewerInputsLive : Liveness :=
  { selfLoopLive with tables.phiInputs := (PhiInputs.empty 2).put ⟨0⟩ ⟨#[2], 2⟩ }

theorem analyze_fewerInputs : analyze fewerInputs = .ok fewerInputsLive := by decide +kernel

theorem eq_but_phiInputs_fewerInputs :
    selfLoop.withoutInputs = fewerInputs.withoutInputs ∧
      analyze selfLoop = .ok selfLoopLive ∧ analyze fewerInputs = .ok fewerInputsLive ∧
      selfLoopLive.domain = fewerInputsLive.domain ∧
      (∀ b, selfLoopLive.liveIn b = fewerInputsLive.liveIn b ∧
        selfLoopLive.liveOut b = fewerInputsLive.liveOut b ∧
        selfLoopLive.solution.visits.read b = fewerInputsLive.solution.visits.read b) ∧
      (∀ i, selfLoopLive.liveBefore i = fewerInputsLive.liveBefore i) ∧
      selfLoopLive.phiEdge? ⟨1⟩ ≠ fewerInputsLive.phiEdge? ⟨1⟩ := by
  have hsame : selfLoop.withoutInputs = fewerInputs.withoutInputs := by decide +kernel
  obtain ⟨hdomain, hblocks, hbefore, -⟩ :=
    eq_but_phiInputs hsame analyze_selfLoop analyze_fewerInputs
  exact ⟨hsame, analyze_selfLoop, analyze_fewerInputs, hdomain, hblocks, hbefore, by decide⟩

end Liveness

end SsaFlow
