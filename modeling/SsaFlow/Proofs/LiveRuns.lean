import SsaFlow.Liveness.Analysis
import SsaFlow.Proofs.Worklist
import SsaFlow.Proofs.LiveTransfer

/-!
# Runs of the liveness problem

Everything that liveness results have in common comes from one invariant of the
solver (`Domain.liveness_invariant`).  All sets are over the domain, and stay
within any bounds that the steps of the analysis respect (`Domain.Closed`).  The
record is well-formed and holds no phi input without a phi (`Domain.Ready`).  After
a visit to a block its sets, the sets before its instructions and the inputs of
its phis are on record (`Domain.Recorded`), and visits to other blocks do not
touch that, as far as an instruction is listed once.
-/

namespace SsaFlow

/-! ## Listed instructions -/

namespace FlowGraph

variable {g : FlowGraph} {b c : Block} {n m : Node} {i : Inst}

theorem mem_listed : i ∈ g.listed ↔ ∃ b n, g.nodes.get? b = some n ∧ i ∈ n.insts := by
  rw [listed, List.mem_flatMap]
  constructor
  · rintro ⟨n, hn, hi⟩
    obtain ⟨b, hb⟩ := Table.mem_toList.mp hn
    exact ⟨b, n, hb, hi⟩
  · rintro ⟨b, n, hn, hi⟩
    exact ⟨n, Table.mem_toList.mpr ⟨b, hn⟩, hi⟩

theorem count_le_flatMap {ns : List Node} (hn : n ∈ ns) :
    n.insts.count i ≤ (ns.flatMap Node.insts).count i := by
  obtain ⟨before, after, rfl⟩ := List.append_of_mem hn
  simp only [List.flatMap_append, List.flatMap_cons, List.count_append]
  omega

theorem count_insts_le (hn : g.nodes.get? b = some n) : n.insts.count i ≤ g.listed.count i :=
  count_le_flatMap (Table.mem_toList.mpr ⟨b, hn⟩)

/-- An instruction of two blocks is listed for both of them. -/
theorem count_insts_add_le (hn : g.nodes.get? b = some n) (hm : g.nodes.get? c = some m)
    (hlt : b.index < c.index) : n.insts.count i + m.insts.count i ≤ g.listed.count i := by
  have hn' : g.nodes.toList[b.index]? = some n := by simpa [Table.get?, Table.toList] using hn
  have hm' : g.nodes.toList[c.index]? = some m := by simpa [Table.get?, Table.toList] using hm
  have hfst : n ∈ g.nodes.toList.take c.index := by
    refine List.mem_of_getElem? (i := b.index) ?_
    rw [List.getElem?_take_of_lt hlt, hn']
  have hsnd : m ∈ g.nodes.toList.drop c.index := by
    refine List.mem_of_getElem? (i := 0) ?_
    rw [List.getElem?_drop, Nat.add_zero, hm']
  rw [listed, ← List.take_append_drop c.index g.nodes.toList, List.flatMap_append,
    List.count_append]
  exact Nat.add_le_add (count_le_flatMap hfst) (count_le_flatMap hsnd)

/-- An instruction that is listed once stands in one block. -/
theorem not_mem_insts (hn : g.nodes.get? b = some n) (hm : g.nodes.get? c = some m) (hbc : c ≠ b)
    (hi : i ∈ n.insts) (hcount : g.listed.count i = 1) : i ∉ m.insts := by
  intro him
  have hpos : 0 < n.insts.count i := List.count_pos_iff.mpr hi
  have hpos' : 0 < m.insts.count i := List.count_pos_iff.mpr him
  rcases Nat.lt_or_gt_of_ne fun h => hbc (Table.handle_eq_iff.mpr h) with hlt | hlt
  · have := count_insts_add_le (i := i) hm hn hlt
    omega
  · have := count_insts_add_le (i := i) hn hm hlt
    omega

/-- An instruction that is listed once stands at one place of its block. -/
theorem not_mem_before {pre post : List Inst} (hn : g.nodes.get? b = some n)
    (hsplit : n.insts = pre ++ i :: post) (hcount : g.listed.count i = 1) : i ∉ pre := by
  intro hi
  have hpos : 0 < pre.count i := List.count_pos_iff.mpr hi
  have hle : n.insts.count i ≤ g.listed.count i := count_insts_le hn
  rw [hsplit, List.count_append, List.count_cons_self] at hle
  omega

end FlowGraph

namespace Domain

variable {d : Domain} {g : FlowGraph} {s s' : LiveTables}

theorem LiveThrough.mono {P Q : Nat → Prop} {k : Nat} (hPQ : P k → Q k) :
    ∀ {is : List Inst}, d.LiveThrough g P is k → d.LiveThrough g Q is k
  | [], h => hPQ h
  | i :: is, h => by
    rcases h with hgen | ⟨hrest, hkill⟩
    · exact .inl hgen
    · exact .inr ⟨hrest.mono hPQ, hkill⟩

/-! ## The invariant -/

/-- The bounds `I` at the start and `O` at the end of every block respect the steps of the
analysis. -/
structure Closed (d : Domain) (g : FlowGraph) (I O : Block → Nat → Prop) : Prop where
  edge : ∀ b n a k, g.nodes.get? b = some n → a ∈ n.succs → I a k → O b k
  insts : ∀ b n k, g.nodes.get? b = some n → d.LiveThrough g (O b) n.insts k → I b k

/-- A set over the domain with all its members within a bound. -/
structure Within (d : Domain) (B : Nat → Prop) (x : BitSet) : Prop where
  sized : x.Over d.size
  bound : ∀ k, x.contains k = true → B k

theorem within_emptySet {B : Nat → Prop} : d.Within B d.emptySet :=
  ⟨BitSet.over_empty _, fun k hk => by simp [emptySet] at hk⟩

theorem closed_true : d.Closed g (fun _ _ => True) (fun _ _ => True) :=
  ⟨fun _ _ _ _ _ _ _ => trivial, fun _ _ _ _ _ => trivial⟩

/-- A record that a run over the graph may have. -/
structure Ready (d : Domain) (g : FlowGraph) (s : LiveTables) : Prop where
  size : s.before.size = g.numInsts
  sound : s.phiInputs.Sound d.size
  supplies : ∀ pred k, s.phiInputs.Supplies pred k → ∃ i ∈ g.listed, d.Feeds g i pred k

/-- What is on record of a block after a visit that took `x` to `y`. -/
structure Recorded (d : Domain) (g : FlowGraph) (n : Node) (x y : BitSet) (s : LiveTables) :
    Prop where
  covers : ∀ i ∈ n.insts, d.Covers g i ∧ i.index < g.numInsts
  live : ∀ k, y.contains k = true ↔ d.LiveThrough g (x.contains · = true) n.insts k
  before : ∀ pre i post, n.insts = pre ++ i :: post → g.listed.count i = 1 →
    ∃ z, s.before.get? i = some z ∧ z.Over d.size ∧
      ∀ k, z.contains k = true ↔ d.LiveThrough g (x.contains · = true) (i :: post) k
  supplies : ∀ i ∈ n.insts, ∀ pred k, d.Feeds g i pred k → s.phiInputs.Supplies pred k

theorem ready_empty : d.Ready g (.empty d g.numInsts) where
  size := Table.size_replicate _
  sound := PhiInputs.sound_empty _
  supplies _ _ h := absurd h PhiInputs.not_supplies_empty

/-- A transfer that succeeds puts its block on record. -/
theorem Ready.transferBlock (hs : d.Ready g s) {b : Block} {n : Node} {x y : BitSet}
    (hn : g.nodes.get? b = some n) (hx : x.Over d.size)
    (h : Yields (d.transferBlock g b x) s y s') :
    d.PassedAll g n.insts x s y s' ∧ d.Ready g s' ∧ d.Recorded g n x y s' := by
  rw [transferBlock_yields_iff hn] at h
  obtain ⟨hcovers, hpassed⟩ := passedAll_of_yields h hx hs.sound
  refine ⟨hpassed, ⟨hpassed.size.trans hs.size, hpassed.sound, fun pred k hk => ?_⟩,
    ⟨hs.size ▸ hcovers, hpassed.live, fun pre i post hsplit hcount => ?_, fun i hi pred k hk => ?_⟩⟩
  · rcases (hpassed.supplies pred k).mp hk with hk | ⟨i, hi, hk⟩
    · exact hs.supplies pred k hk
    · exact ⟨i, FlowGraph.mem_listed.mpr ⟨b, n, hn, hi⟩, hk⟩
  · exact hpassed.before pre i post hsplit (FlowGraph.not_mem_before hn hsplit hcount)
  · exact (hpassed.supplies pred k).mpr (.inr ⟨i, hi, hk⟩)

/-- A transfer of another block keeps a block on record. -/
theorem Recorded.transferBlock {b c : Block} {n m : Node} {x y z w : BitSet} (hbc : c ≠ b)
    (hn : g.nodes.get? b = some n) (hm : g.nodes.get? c = some m)
    (h : d.PassedAll g m.insts z s w s') (hrec : d.Recorded g n x y s) :
    d.Recorded g n x y s' where
  covers := hrec.covers
  live := hrec.live
  before pre i post hsplit hcount := by
    have hi : i ∈ n.insts := by simp [hsplit]
    rw [h.other i (FlowGraph.not_mem_insts hn hm hbc hi hcount)]
    exact hrec.before pre i post hsplit hcount
  supplies i hi pred k hk := (h.supplies pred k).mpr (.inl (hrec.supplies i hi pred k hk))

theorem over_meet {x y z : BitSet} (hx : x.Over d.size) (hy : y.Over d.size)
    (hz : (d.liveness g).meet x y = .ok z) :
    z.Over d.size ∧ ∀ k, z.contains k = (x.contains k || y.contains k) := by
  obtain ⟨u, c, hu, hover, hmem⟩ := hx.union hy
  obtain ⟨_, hz', rfl⟩ := map_eq_ok.mp hz
  obtain rfl := Except.ok.inj (hu.symm.trans hz')
  exact ⟨hover, hmem⟩

theorem liveness_invariant {I O : Block → Nat → Prop} (hclosed : d.Closed g I O) :
    (d.liveness g).Invariant g (d.Ready g) (fun b => d.Within (O b)) (fun b => d.Within (I b))
      (fun b x y s => ∀ n, g.nodes.get? b = some n → d.Recorded g n x y s) where
  boundary _ _ _ _ := within_emptySet
  initial _ _ _ _ := within_emptySet
  seed _ _ _ := within_emptySet
  meet b n a m x y z hn hm ha hx hy hz := by
    obtain ⟨hover, hmem⟩ := over_meet hx.sized hy.sized hz
    refine ⟨hover, fun k hk => ?_⟩
    rw [hmem, Bool.or_eq_true] at hk
    rcases hk with hk | hk
    · exact hx.bound k hk
    · exact hclosed.edge b n a k hn ha (hy.bound k hk)
  transfer b n x y s s' hn hs hx h := by
    obtain ⟨hpassed, hready, hrec⟩ := hs.transferBlock hn hx.sized h
    refine ⟨hready, ⟨hpassed.sized, fun k hk => ?_⟩, fun m hm => ?_⟩
    · exact hclosed.insts b n k hn (((hpassed.live k).mp hk).mono (hx.bound k))
    · rw [hn] at hm
      cases hm
      exact hrec
  other b c m x y z w s s' hcb hm hs hz h hrec n hn := by
    obtain ⟨hpassed, -, -⟩ := hs.transferBlock hm hz.sized h
    exact (hrec n hn).transferBlock hcb hn hm hpassed

/-- A meet has the members of all it meets. -/
theorem contains_of_foldlM_meet : ∀ {ys : List BitSet} {x z : BitSet}, x.Over d.size →
    (∀ y ∈ ys, y.Over d.size) → ys.foldlM (d.liveness g).meet x = .ok z →
    ∀ k, z.contains k = true ↔ x.contains k = true ∨ ∃ y ∈ ys, y.contains k = true
  | [], x, z, _, _, h, k => by
    obtain rfl := pure_eq_ok.mp h
    simp
  | y :: ys, x, z, hx, hys, h, k => by
    rw [List.foldlM_cons, bind_eq_ok] at h
    obtain ⟨w, hw, h⟩ := h
    obtain ⟨hover, hmem⟩ := over_meet hx (hys y List.mem_cons_self) hw
    rw [contains_of_foldlM_meet hover (fun v hv => hys v (List.mem_cons_of_mem _ hv)) h k, hmem]
    simp [or_assoc]

end Domain

/-! ## Results -/

namespace Liveness

variable {g : FlowGraph} {l : Liveness} {b : Block} {n : Node} {x : BitSet}

/-- A result comes from a run over the domain of its graph, with nothing on record at first. -/
theorem solve_of_analyze (hl : analyze g = .ok l) :
    Domain.build g = .ok l.domain ∧
      Yields ((l.domain.liveness g).solve g (g.visitBudget .backward l.domain.size))
        (.empty l.domain g.numInsts) l.solution l.tables := by
  simp only [analyze, LiveState.new, bind_eq_ok, liftFault_eq_ok, pure_eq_ok] at hl
  obtain ⟨s, ⟨d, hd, rfl⟩, hl⟩ := hl
  simp only [LiveState.solve] at hl
  cases hrun : ((d.liveness g).solve g (g.visitBudget .backward d.size)).run.run
      (.empty d g.numInsts) with
  | mk r tables =>
    rw [hrun] at hl
    cases r with
    | error e => cases hl
    | ok solution =>
      cases hl
      exact ⟨hd, hrun⟩

/-- An analysis ends as its run does. -/
theorem analyze_of_run {d : Domain} {o : Except Failure (Solution BitSet)} {t : LiveTables}
    (hd : Domain.build g = .ok d)
    (hrun : ((d.liveness g).solve g (g.visitBudget .backward d.size)).run.run
      (.empty d g.numInsts) = (o, t)) :
    analyze g = o.map fun solution => ⟨d, solution, t⟩ := by
  have hnew : LiveState.new g = .ok ⟨d, .empty d g.numInsts⟩ := bind_eq_ok.mpr ⟨d, hd, rfl⟩
  simp only [analyze, hnew]
  show ((LiveState.solve ⟨d, .empty d g.numInsts⟩ g).1) = _
  simp only [LiveState.solve, hrun]

theorem direction_of_analyze (hl : analyze g = .ok l) : l.solution.direction = .backward :=
  (Problem.solve_shape (solve_of_analyze hl).2).1

theorem liveIn_eq_ok (hl : analyze g = .ok l) :
    l.liveIn b = .ok x ↔ l.solution.transferSide.get? b = some x := by
  rw [liveIn, Solution.blockIn, direction_of_analyze hl, Table.read_eq_ok]

theorem liveOut_eq_ok (hl : analyze g = .ok l) :
    l.liveOut b = .ok x ↔ l.solution.meetSide.get? b = some x := by
  rw [liveOut, Solution.blockOut, direction_of_analyze hl, Table.read_eq_ok]

/-- The sets of a block are within any closed bounds, and its last visit is on record. -/
theorem exists_sides (hl : analyze g = .ok l) {I O : Block → Nat → Prop}
    (hclosed : l.domain.Closed g I O) (hn : g.nodes.get? b = some n) :
    ∃ x y, l.liveOut b = .ok x ∧ l.liveIn b = .ok y ∧
      l.domain.Within (O b) x ∧ l.domain.Within (I b) y ∧
      l.domain.Recorded g n x y l.tables := by
  obtain ⟨-, hsides⟩ := Problem.solve_invariant (Domain.liveness_invariant hclosed)
    Domain.ready_empty (solve_of_analyze hl).2
  obtain ⟨x, y, hx, hy, hV, hU, hR⟩ := hsides b n hn
  exact ⟨x, y, (liveOut_eq_ok hl).mpr hx, (liveIn_eq_ok hl).mpr hy, hV, hU, hR n hn⟩

/-- The record of a result is one that a run may have. -/
theorem ready_of_analyze (hl : analyze g = .ok l) : l.domain.Ready g l.tables :=
  (Problem.solve_invariant (Domain.liveness_invariant Domain.closed_true) Domain.ready_empty
    (solve_of_analyze hl).2).1

theorem over_liveIn (hl : analyze g = .ok l) (hx : l.liveIn b = .ok x) : x.Over l.domain.size := by
  have hlt := Table.lt_size ((liveIn_eq_ok hl).mp hx)
  rw [(Problem.solve_shape (solve_of_analyze hl).2).2.2] at hlt
  obtain ⟨n, hn⟩ := Table.exists_get? hlt
  obtain ⟨_, y, -, hy, -, hwithin, -⟩ := exists_sides hl Domain.closed_true hn
  obtain rfl := Except.ok.inj (hx.symm.trans hy)
  exact hwithin.sized

theorem over_liveOut (hl : analyze g = .ok l) (hx : l.liveOut b = .ok x) :
    x.Over l.domain.size := by
  have hlt := Table.lt_size ((liveOut_eq_ok hl).mp hx)
  rw [(Problem.solve_shape (solve_of_analyze hl).2).2.1] at hlt
  obtain ⟨n, hn⟩ := Table.exists_get? hlt
  obtain ⟨y, _, hy, -, hwithin, -, -⟩ := exists_sides hl Domain.closed_true hn
  obtain rfl := Except.ok.inj (hx.symm.trans hy)
  exact hwithin.sized

/-! ## A loop -/

/-- A block with a phi that goes back to itself twice, and another that leads into it and that
nothing leads to. -/
def selfLoop : FlowGraph where
  entry := ⟨0⟩
  numArgs := 1
  numInsts := 2
  nodes := .ofList [
    { insts := [⟨0⟩, ⟨1⟩], succs := [⟨0⟩, ⟨0⟩], preds := [⟨0⟩, ⟨0⟩, ⟨1⟩] }, { succs := [⟨0⟩] }]
  facts := .ofList [
    { kind := .phi, hasResult := true, incoming := [(.inst ⟨0⟩, ⟨0⟩), (.arg ⟨0⟩, ⟨1⟩)] },
    { kind := .terminator, operands := [.inst ⟨0⟩, .arg ⟨0⟩] }]

/-- What is live where in `selfLoop`: the argument all the time, and the phi until it is read. -/
def selfLoopLive : Liveness where
  domain := ⟨[.arg ⟨0⟩, .inst ⟨0⟩]⟩
  solution := {
    direction := .backward
    meetSide := .ofList [⟨#[1], 2⟩, ⟨#[1], 2⟩]
    transferSide := .ofList [⟨#[1], 2⟩, ⟨#[1], 2⟩]
    visits := .ofList [2, 1] }
  tables := {
    before := .ofList [⟨#[1], 2⟩, ⟨#[3], 2⟩]
    phiInputs := ((PhiInputs.empty 2).put ⟨0⟩ ⟨#[2], 2⟩).put ⟨1⟩ ⟨#[1], 2⟩ }

theorem analyze_selfLoop : analyze selfLoop = .ok selfLoopLive := by decide +kernel

end Liveness

end SsaFlow
