import SsaFlow.Proofs.StableResults

/-!
# Which inputs are marked

The transfer of a block marks the inputs of its phis on the side, and the solver calls
it as often as it has to, in the order of its worklist.  A mark never goes away, and
marking again changes nothing.  So visits to blocks mark what the phis of these
blocks have as input, whatever their order and number (`Domain.transferAll_supplies`).

A run visits every block, also those that nothing leads to.  The table of a result
thus has the inputs of all listed phis that are tracked, and no others
(`Liveness.contains_phiEdge?_iff`).  A block that no tracked input is paired with has
no entry (`Liveness.isSome_phiEdge?_iff`).
-/

namespace SsaFlow

namespace Domain

variable {d : Domain} {g : FlowGraph}

/-- Visits blocks one after the other, each with a set to take as live at its end. -/
def transferAll (d : Domain) (g : FlowGraph) (visits : List (Block × BitSet)) :
    Recording LiveTables Unit :=
  visits.forM fun (b, x) => do
    let _ ← d.transferBlock g b x

/-- Visits to blocks that are covered succeed, and mark the inputs of the phis in these blocks. -/
theorem Ready.transferAll :
    ∀ {visits : List (Block × BitSet)} {s : LiveTables}, d.Ready g s →
    (∀ v ∈ visits, v.2.Over d.size ∧ ∃ n, g.nodes.get? v.1 = some n ∧
      ∀ i ∈ n.insts, d.Covers g i ∧ i.index < g.numInsts) →
    ∃ t, Yields (d.transferAll g visits) s () t ∧ d.Ready g t ∧
      ∀ pred k, t.phiInputs.Supplies pred k ↔ s.phiInputs.Supplies pred k ∨
        ∃ b x n i, (b, x) ∈ visits ∧ g.nodes.get? b = some n ∧ i ∈ n.insts ∧ d.Feeds g i pred k
  | [], s, hs, _ => ⟨s, yields_pure.mpr ⟨rfl, rfl⟩, hs, fun pred k => by simp⟩
  | (b, x) :: visits, s, hs, hvisits => by
    obtain ⟨hx, n, hn, hcovers⟩ := hvisits (b, x) List.mem_cons_self
    obtain ⟨y, u, hy, hpassed, hu⟩ := hs.exists_transferBlock hn hcovers hx
    obtain ⟨t, ht, hready, hsupplies⟩ :=
      hu.transferAll fun v hv => hvisits v (List.mem_cons_of_mem _ hv)
    refine ⟨t, ?_, hready, fun pred k => ?_⟩
    · show Yields (_ >>= fun _ => d.transferAll g visits) s () t
      exact yields_bind.mpr ⟨(), u, yields_bind.mpr ⟨y, u, hy, yields_pure.mpr ⟨rfl, rfl⟩⟩, ht⟩
    · rw [hsupplies, hpassed.supplies, or_assoc]
      refine or_congr_right ?_
      constructor
      · rintro (⟨i, hi, hk⟩ | ⟨c, z, m, i, hc, hm, hi, hk⟩)
        · exact ⟨b, x, n, i, List.mem_cons_self, hn, hi, hk⟩
        · exact ⟨c, z, m, i, List.mem_cons_of_mem _ hc, hm, hi, hk⟩
      · rintro ⟨c, z, m, i, hc, hm, hi, hk⟩
        rcases List.mem_cons.mp hc with heq | hc
        · cases heq
          obtain rfl := Option.some.inj (hn.symm.trans hm)
          exact .inl ⟨i, hi, hk⟩
        · exact .inr ⟨c, z, m, i, hc, hm, hi, hk⟩

/-- Visits to all blocks mark the inputs of all listed phis. -/
theorem transferAll_supplies {visits : List (Block × BitSet)}
    (hcovers : ∀ b n, g.nodes.get? b = some n →
      ∀ i ∈ n.insts, d.Covers g i ∧ i.index < g.numInsts)
    (hvisits : ∀ v ∈ visits, v.1.index < g.nodes.size ∧ v.2.Over d.size)
    (hall : ∀ b : Block, b.index < g.nodes.size → ∃ x, (b, x) ∈ visits) :
    ∃ t, Yields (d.transferAll g visits) (.empty d g.numInsts) () t ∧ d.Ready g t ∧
      ∀ pred k, t.phiInputs.Supplies pred k ↔ ∃ i ∈ g.listed, d.Feeds g i pred k := by
  have hnodes : ∀ v ∈ visits, v.2.Over d.size ∧ ∃ n, g.nodes.get? v.1 = some n ∧
      ∀ i ∈ n.insts, d.Covers g i ∧ i.index < g.numInsts := by
    intro v hv
    obtain ⟨hlt, hx⟩ := hvisits v hv
    obtain ⟨n, hn⟩ := Table.exists_get? hlt
    exact ⟨hx, n, hn, hcovers v.1 n hn⟩
  obtain ⟨t, ht, hready, hsupplies⟩ := ready_empty.transferAll hnodes
  refine ⟨t, ht, hready, fun pred k => ⟨hready.supplies pred k, ?_⟩⟩
  rintro ⟨i, hi, hk⟩
  obtain ⟨b, n, hn, hi⟩ := FlowGraph.mem_listed.mp hi
  obtain ⟨x, hb⟩ := hall b (Table.lt_size hn)
  exact (hsupplies pred k).mpr (.inr ⟨b, x, n, i, hb, hn, hi, hk⟩)

end Domain

namespace Liveness

variable {g : FlowGraph} {l : Liveness} {pred : Block} {s : BitSet}

/-- Everything that a run has gone through is covered. -/
theorem covers_of_analyze (hl : analyze g = .ok l) {b : Block} {n : Node}
    (hn : g.nodes.get? b = some n) :
    ∀ i ∈ n.insts, l.domain.Covers g i ∧ i.index < g.numInsts := by
  obtain ⟨x, y, -, -, -, -, hrec⟩ := exists_sides hl Domain.closed_true hn
  exact hrec.covers

/-- The entry of a block has the numbers of what the listed phis have as input from it. -/
theorem contains_phiEdge?_iff (hl : analyze g = .ok l) (hs : l.phiEdge? pred = some s) (k : Nat) :
    s.contains k = true ↔
      ∃ i ∈ g.listed, ∃ v, g.Joins i v pred ∧ l.domain.indexOf? v = some k := by
  rw [PhiInputs.contains_iff_supplies hs, supplies_iff_feeds hl]
  simp only [Domain.Feeds, Domain.lookup_build_iff (solve_of_analyze hl).1]

/-- A block has an entry if some listed phi has a tracked input from it. -/
theorem isSome_phiEdge?_iff (hl : analyze g = .ok l) (pred : Block) :
    (l.phiEdge? pred).isSome ↔ ∃ i ∈ g.listed, ∃ v ∈ l.domain.values, g.Joins i v pred := by
  constructor
  · intro hsome
    obtain ⟨s, hs⟩ := Option.isSome_iff_exists.mp hsome
    obtain ⟨k, hk⟩ := (ready_of_analyze hl).sound.inhabited pred s hs
    obtain ⟨i, hi, v, hjoins, hv⟩ := (contains_phiEdge?_iff hl hs k).mp hk
    exact ⟨i, hi, v, Domain.mem_of_indexOf? hv, hjoins⟩
  · rintro ⟨i, hi, v, hv, hjoins⟩
    obtain ⟨k, hk⟩ := Domain.exists_indexOf? hv
    have hfeeds : l.domain.Feeds g i pred k :=
      ⟨v, hjoins, Domain.lookup_build (solve_of_analyze hl).1 hk⟩
    obtain ⟨s, hs, -⟩ := (supplies_iff_feeds hl pred k).mpr ⟨i, hi, hfeeds⟩
    exact Option.isSome_iff_exists.mpr ⟨s, hs⟩

/-- The table of phi inputs is exact, and any other visits to all blocks give the same. -/
theorem phiEdges_exact (hl : analyze g = .ok l) (pred : Block) :
    ((l.phiEdge? pred).isSome ↔ ∃ i ∈ g.listed, ∃ v ∈ l.domain.values, g.Joins i v pred) ∧
      (∀ s, l.phiEdge? pred = some s → s.Over l.domain.size ∧ ∀ k, s.contains k = true ↔
        ∃ i ∈ g.listed, ∃ v, g.Joins i v pred ∧ l.domain.indexOf? v = some k) ∧
      ∀ visits : List (Block × BitSet),
        (∀ v ∈ visits, v.1.index < g.nodes.size ∧ v.2.Over l.domain.size) →
        (∀ b : Block, b.index < g.nodes.size → ∃ x, (b, x) ∈ visits) →
        ∃ t, Yields (l.domain.transferAll g visits) (.empty l.domain g.numInsts) () t ∧
          t.phiInputs.get? pred = l.phiEdge? pred := by
  have hready := ready_of_analyze hl
  refine ⟨isSome_phiEdge?_iff hl pred,
    fun s hs => ⟨hready.sound.sized pred s hs, contains_phiEdge?_iff hl hs⟩,
    fun visits hvisits hall => ?_⟩
  obtain ⟨t, ht, hready', hsupplies⟩ :=
    Domain.transferAll_supplies (fun b n hn => covers_of_analyze hl hn) hvisits hall
  have htables : t.phiInputs = l.tables.phiInputs :=
    hready'.sound.ext hready.sound fun q k => by
      rw [hsupplies, supplies_iff_feeds hl]
  exact ⟨t, ht, congrArg (PhiInputs.get? · pred) htables⟩

/-! ## Inputs from blocks that do not exist -/

/-- Two phis have an input from a block that does not exist, one of them in a block that nothing
leads to.  What they have from another such block is not tracked. -/
def strayInputs : FlowGraph where
  entry := ⟨0⟩
  numArgs := 1
  numInsts := 3
  nodes := .ofList [
    { insts := [⟨0⟩, ⟨1⟩], succs := [⟨0⟩], preds := [⟨0⟩] }, { insts := [⟨2⟩] }]
  facts := .ofList [
    { kind := .phi, hasResult := true, incoming := [(.inst ⟨0⟩, ⟨7⟩), (.const ⟨0⟩, ⟨9⟩)] },
    { kind := .terminator },
    { kind := .phi, hasResult := true, incoming := [(.arg ⟨0⟩, ⟨7⟩), (.inst ⟨1⟩, ⟨9⟩)] }]

/-- Nothing is live in `strayInputs`, and one block has an entry. -/
def strayInputsLive : Liveness where
  domain := ⟨[.arg ⟨0⟩, .inst ⟨0⟩, .inst ⟨2⟩]⟩
  solution := {
    direction := .backward
    meetSide := .ofList [⟨#[0], 3⟩, ⟨#[0], 3⟩]
    transferSide := .ofList [⟨#[0], 3⟩, ⟨#[0], 3⟩]
    visits := .ofList [1, 1] }
  tables := {
    before := .ofList [⟨#[0], 3⟩, ⟨#[0], 3⟩, ⟨#[0], 3⟩]
    phiInputs := (PhiInputs.empty 3).put ⟨7⟩ ⟨#[3], 3⟩ }

/-- Visits to the blocks of `strayInputs` from the first to the last and back, with other sets than
the run has. -/
def strayVisits : List (Block × BitSet) :=
  [(⟨0⟩, ⟨#[7], 3⟩), (⟨1⟩, ⟨#[0], 3⟩), (⟨0⟩, ⟨#[4], 3⟩)]

theorem phiEdges_exact_strayInputs :
    analyze strayInputs = .ok strayInputsLive ∧
      (⟨2⟩ ∈ strayInputs.listed ∧ .arg ⟨0⟩ ∈ strayInputsLive.domain.values ∧
        strayInputs.Joins ⟨2⟩ (.arg ⟨0⟩) ⟨7⟩ ∧ (strayInputsLive.phiEdge? ⟨7⟩).isSome) ∧
      (strayInputsLive.phiEdge? ⟨9⟩ = none ∧
        ¬ ∃ i ∈ strayInputs.listed, ∃ v ∈ strayInputsLive.domain.values,
          strayInputs.Joins i v ⟨9⟩) ∧
      (∀ v ∈ strayVisits, v.1.index < strayInputs.nodes.size ∧
        v.2.Over strayInputsLive.domain.size) ∧
      (∀ b : Block, b.index < strayInputs.nodes.size → ∃ x, (b, x) ∈ strayVisits) ∧
      ∃ t, Yields (strayInputsLive.domain.transferAll strayInputs strayVisits)
          (.empty strayInputsLive.domain strayInputs.numInsts) () t ∧
        t.phiInputs.get? ⟨7⟩ = strayInputsLive.phiEdge? ⟨7⟩ := by
  have hl : analyze strayInputs = .ok strayInputsLive := by decide +kernel
  obtain ⟨hsome, -, hsame⟩ := phiEdges_exact hl ⟨7⟩
  obtain ⟨hsome', -, -⟩ := phiEdges_exact hl ⟨9⟩
  have hlisted : (⟨2⟩ : Inst) ∈ strayInputs.listed := by decide
  have hvalue : .arg ⟨0⟩ ∈ strayInputsLive.domain.values := by decide
  have hjoins : strayInputs.Joins ⟨2⟩ (.arg ⟨0⟩) ⟨7⟩ := ⟨_, rfl, rfl, List.mem_cons_self⟩
  have hnone : strayInputsLive.phiEdge? ⟨9⟩ = none := by decide
  have hvisits : ∀ v ∈ strayVisits, v.1.index < strayInputs.nodes.size ∧
      v.2.Over strayInputsLive.domain.size := by decide
  have hall : ∀ b : Block, b.index < strayInputs.nodes.size → ∃ x, (b, x) ∈ strayVisits
    | ⟨0⟩, _ => ⟨_, List.mem_cons_self⟩
    | ⟨1⟩, _ => ⟨_, List.mem_cons_of_mem _ List.mem_cons_self⟩
  refine ⟨hl, ⟨hlisted, hvalue, hjoins, hsome.mpr ⟨_, hlisted, _, hvalue, hjoins⟩⟩,
    ⟨hnone, fun h => ?_⟩, hvisits, hall, hsame strayVisits hvisits hall⟩
  exact absurd (hsome'.mpr h) (by rw [hnone]; exact nofun)

end Liveness

end SsaFlow
