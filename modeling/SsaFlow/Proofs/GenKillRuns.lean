import Mathlib.Data.List.Chain
import SsaFlow.Dataflow.GenKill
import SsaFlow.Proofs.BitSets
import SsaFlow.Proofs.RisingRuns

/-!
# Runs of gen/kill problems

In a gen/kill problem over sets of one length (`Problem.IsGenKill`) all blocks
start from one set `I`, which need not be empty or full.  So sets may shrink at
some positions and grow at others.  But each position has its own way to go.  At
a position that `I` has, union, intersection and transfers keep the order in which
"in" is below "out", and at any other position the opposite order.  All positions
together are ordered by `BitSet.Between I`.  Runs rise in that order, so every
bit leaves its initial state at most once.
-/

namespace SsaFlow

variable {σ : Type} {p : Problem σ BitSet} {n : Nat} {op : MeetOp} {I : BitSet}
  {K G : Block → Nat → Prop} {g : FlowGraph}

namespace MeetOp

/-- What a meet does at one position. -/
def bit : MeetOp → Bool → Bool → Bool
  | .union => or
  | .inter => and

theorem bit_between (op : MeetOp) {i a a' b b' : Bool} (ha : a = i ∨ a = a')
    (hb : b = i ∨ b = b') : op.bit a b = i ∨ op.bit a b = op.bit a' b' := by
  cases op with
  | union => revert i a a' b b'; decide
  | inter => revert i a a' b b'; decide

end MeetOp

namespace Problem

/-- All sets are over `n` positions, blocks start from `I`, sets are met by `op`, and the transfer
function of a block takes out the positions in `K` and then puts in those in `G`. -/
structure IsGenKill (p : Problem σ BitSet) (n : Nat) (op : MeetOp) (I : BitSet)
    (K G : Block → Nat → Prop) : Prop where
  sized : I.Over n
  initial : ∀ b, p.initial b = I
  boundary : ∀ b, (p.boundary b I).Over n
  meet : ∀ x y, p.meet x y = Prod.fst <$> match op with
    | .union => x.union y
    | .inter => x.inter y
  transfer : ∀ b x s, x.Over n → ∃ y s', Yields (p.transfer b x) s y s' ∧ y.Over n ∧
    ∀ k, y.contains k = true ↔ (x.contains k = true ∧ ¬ K b k) ∨ G b k

theorem IsGenKill.meet_ok (hp : p.IsGenKill n op I K G) {x y : BitSet} (hx : x.Over n)
    (hy : y.Over n) : ∃ z, p.meet x y = .ok z ∧ z.Over n ∧
      ∀ k, z.contains k = op.bit (x.contains k) (y.contains k) := by
  rw [hp.meet]
  cases op with
  | union =>
    obtain ⟨u, c, hu, hover, hmem⟩ := hx.union hy
    exact ⟨u, map_eq_ok.mpr ⟨(u, c), hu, rfl⟩, hover, hmem⟩
  | inter =>
    obtain ⟨u, c, hu, hover, hmem⟩ := hx.inter hy
    exact ⟨u, map_eq_ok.mpr ⟨(u, c), hu, rfl⟩, hover, hmem⟩

theorem IsGenKill.of_meet (hp : p.IsGenKill n op I K G) {x y z : BitSet} (hx : x.Over n)
    (hy : y.Over n) (hz : p.meet x y = .ok z) :
    ∀ k, z.contains k = op.bit (x.contains k) (y.contains k) := by
  obtain ⟨z', hz', -, hmem⟩ := hp.meet_ok hx hy
  obtain rfl := Except.ok.inj (hz.symm.trans hz')
  exact hmem

theorem IsGenKill.of_transfer (hp : p.IsGenKill n op I K G) {b : Block} {x y : BitSet} {s s' : σ}
    (hx : x.Over n) (hy : Yields (p.transfer b x) s y s') :
    y.Over n ∧ ∀ k, y.contains k = true ↔ (x.contains k = true ∧ ¬ K b k) ∨ G b k := by
  obtain ⟨z, u, hz, hover, hmem⟩ := hp.transfer b x s hx
  obtain ⟨rfl, -⟩ := hy.unique hz
  exact ⟨hover, hmem⟩

/-- A position that a block neither takes out nor puts in is passed on, and any other is the same
whatever the block is given. -/
theorem IsGenKill.transfer_between (hp : p.IsGenKill n op I K G) {b : Block} {x x' y y' : BitSet}
    {s s' u u' : σ} (hx : x.Over n) (hx' : x'.Over n) (h : BitSet.Between I x x')
    (hy : Yields (p.transfer b x) s y s') (hy' : Yields (p.transfer b x') u y' u') :
    BitSet.Between I y y' := by
  intro k
  have hk := (hp.of_transfer hx hy).2 k
  have hk' := (hp.of_transfer hx' hy').2 k
  by_cases hG : G b k
  · right
    rw [hk.mpr (.inr hG), hk'.mpr (.inr hG)]
  · by_cases hK : K b k
    · right
      rw [Bool.eq_iff_iff, hk, hk']
      simp [hG, hK]
    · have hpass : y.contains k = x.contains k := by
        rw [Bool.eq_iff_iff, hk]
        simp [hG, hK]
      have hpass' : y'.contains k = x'.contains k := by
        rw [Bool.eq_iff_iff, hk']
        simp [hG, hK]
      rw [hpass, hpass']
      exact h k

theorem IsGenKill.ascending (hp : p.IsGenKill n op I K G) :
    p.Ascending g (fun _ => True) (BitSet.Over n) (BitSet.Between I) where
  refl := BitSet.between_self I
  trans := BitSet.Between.trans
  initial b := hp.initial b ▸ hp.sized
  boundary b := by
    rw [hp.initial b]
    exact hp.boundary b
  least b x _ := by
    rw [hp.initial b]
    exact fun k => .inl rfl
  meet hx hy := by
    obtain ⟨z, hz, hover, -⟩ := hp.meet_ok hx hy
    exact ⟨z, hz, hover⟩
  meet_mono hx hx' hy hy' hxx hyy hz hz' k := by
    rw [hp.of_meet hx hy hz, hp.of_meet hx' hy' hz']
    exact op.bit_between (hxx k) (hyy k)
  transfer _ _ hx hy := ⟨trivial, (hp.of_transfer hx hy).1⟩
  transfer_mono _ _ _ hx hx' h hy hy' := hp.transfer_between hx hx' h hy hy'

/-- A chain of sets, each between `I` and the next, changes no position twice. -/
theorem changes_contains_le {x : BitSet} {ys : List BitSet} {k : Nat}
    (h : (x :: ys).IsChain (BitSet.Between I)) :
    changes (x.contains k) (ys.map (·.contains k)) ≤ 1 := by
  have hchain : (x.contains k :: ys.map (·.contains k)).IsChain fun a b =>
      a ≠ b → (if a = I.contains k then 0 else 1) < if b = I.contains k then 0 else 1 := by
    refine (List.isChain_cons_map fun y : BitSet => y.contains k).mpr (h.imp ?_)
    intro y z hyz hne
    have hy : y.contains k = I.contains k := (hyz k).resolve_right hne
    rw [if_pos hy, if_neg fun hz => hne (hy.trans hz.symm)]
    exact Nat.zero_lt_one
  have hle : changes (x.contains k) (ys.map (·.contains k)) + _ ≤ 1 :=
    changes_add_rank_le hchain fun a _ => by split <;> decide
  omega

end Problem

/-! ## Descriptions -/

theorem BitSet.over_ofMembers (n : Nat) (members : List Nat) : (ofMembers n members).Over n := by
  suffices h : ∀ s : BitSet, s.Over n →
      (members.foldl (fun s i => (s.insert i).toOption.getD s) s).Over n from h _ (over_empty n)
  induction members with
  | nil => exact fun s hs => hs
  | cons i is ih =>
    intro s hs
    refine ih _ ?_
    show ((s.insert i).toOption.getD s).Over n
    cases hi : s.insert i with
    | error e => exact hs
    | ok t => exact (hs.set hi).1

namespace GenKill

theorem apply_ok (k : GenKill) (hgen : ∀ is ∈ k.gen, ∀ i ∈ is, i < k.len)
    (hkill : ∀ is ∈ k.kill, ∀ i ∈ is, i < k.len) (b : Block) {x : BitSet} (hx : x.Over k.len) :
    ∃ y, k.apply b x = .ok y ∧ y.Over k.len ∧ ∀ j, y.contains j = true ↔
      (x.contains j = true ∧ j ∉ (k.kill[b.index]?).getD []) ∨ j ∈ (k.gen[b.index]?).getD [] := by
  have hat : ∀ {l : List (List Nat)}, (∀ is ∈ l, ∀ i ∈ is, i < k.len) →
      ∀ i ∈ (l[b.index]?).getD [], i < k.len := by
    intro l hl i hi
    cases his : l[b.index]? with
    | none => simp [his] at hi
    | some is => exact hl is (List.mem_of_getElem? his) i (by simpa [his] using hi)
  obtain ⟨z, hz, hzover, hzmem⟩ := hx.eraseAll_ok (hat hkill)
  obtain ⟨y, hy, hyover, hymem⟩ := hzover.insertAll_ok (hat hgen)
  refine ⟨y, bind_eq_ok.mpr ⟨z, hz, hy⟩, hyover, fun j => ?_⟩
  rw [hymem, hzmem]

/-- A description with one length for all blocks, and no other positions, is a gen/kill problem. -/
theorem isGenKill_problem (k : GenKill) (hlens : ∀ l ∈ k.lens, l = none)
    (hgen : ∀ is ∈ k.gen, ∀ i ∈ is, i < k.len) (hkill : ∀ is ∈ k.kill, ∀ i ∈ is, i < k.len) :
    k.problem.IsGenKill k.len k.meetOp (.ofMembers k.len k.init)
      (fun b i => i ∈ (k.kill[b.index]?).getD []) (fun b i => i ∈ (k.gen[b.index]?).getD []) := by
  have hlen : ∀ b, k.lenAt b = k.len := by
    intro b
    rw [lenAt]
    cases hl : k.lens[b.index]? with
    | none => rfl
    | some l =>
      obtain rfl := hlens l (List.mem_of_getElem? hl)
      rfl
  refine ⟨BitSet.over_ofMembers _ _, fun b => ?_, fun b => ?_, fun x y => rfl, ?_⟩
  · show BitSet.ofMembers (k.lenAt b) k.init = _
    rw [hlen]
  · show (BitSet.ofMembers (k.lenAt b) k.boundary).Over k.len
    rw [hlen]
    exact BitSet.over_ofMembers _ _
  · intro b x s hx
    obtain ⟨y, hy, hover, hmem⟩ := k.apply_ok hgen hkill b hx
    exact ⟨y, s, yields_liftError.mpr ⟨hy, rfl⟩, hover, hmem⟩

end GenKill

/-! ## Every run settles -/

/-- A run of a gen/kill problem over any edges in range succeeds.  It visits every block, and
changes every bit of the transfer side of a block at most once. -/
theorem Problem.genKill_settles (hp : p.IsGenKill n op I K G) (hg : g.InRange) (s : σ) :
    ∃ d s' calls,
      (∀ fuel, g.visitBudget p.direction n ≤ fuel →
        Yields (p.solve g fuel) s d s' ∧
          Yields (p.traced.solve g fuel) (s, []) d (s', calls)) ∧
      d.HoldsLast g calls ∧
      ∀ b k, changes (I.contains k) ((outputsAt calls b).map (·.contains k)) ≤ 1 := by
  have hasc : p.Ascending g (fun _ => True) (BitSet.Over n) (BitSet.Between I) := hp.ascending
  have hbounded := hasc.bounded hg (fun y z hy hz h hne => BitSet.distance_lt hy hz h hne)
    (fun y _ => BitSet.distance_le n I y)
  obtain ⟨r, s', calls, o, s'', hacc, hrising, hends, hall⟩ :=
    hbounded.solve_ends hg (hasc.rising_start (s := s) trivial)
  cases hends with
  | done hq =>
    refine ⟨r.solution, s', calls, hall, hacc.holdsLast hq, fun b k => ?_⟩
    have hchain := (hasc.isChain_outputs hrising b).imp fun y z h => h.2.2
    rw [hp.initial b] at hchain
    exact changes_contains_le hchain
  | @failed b rest x e s'' hq hx he =>
    -- no transfer fails
    obtain ⟨m, hm⟩ := Table.exists_get? (t := g.nodes) (hacc.inRange b (Worklist.mem_of_pop? hq))
    obtain ⟨x', hx', hover⟩ := hasc.input_ok hg hacc hrising hm
    obtain rfl := Except.ok.inj (hx.symm.trans hx')
    obtain ⟨y, u, hy, -⟩ := hp.transfer b x s' hover
    have hy : (p.transfer b x).run.run s' = (.ok y, u) := hy
    rw [hy] at he
    cases he

namespace GenKill

/-- Two blocks, where an edge to the second is named twice at one end and never at the other, and
the second is its own predecessor but not its own successor. -/
def lopsided : FlowGraph where
  entry := ⟨0⟩
  numArgs := 0
  numInsts := 0
  nodes := .ofList [{ succs := [⟨1⟩, ⟨1⟩] }, { succs := [⟨0⟩], preds := [⟨1⟩] }]
  facts := .ofList []

/-- The initial set is neither empty nor full.  A position of it is taken out and another is put
in. -/
def mixed : GenKill where
  direction := .forward
  meetOp := .inter
  len := 3
  init := [0, 2]
  boundary := [1]
  gen := [[1], [0]]
  kill := [[0], [2]]

theorem mixed_settles :
    mixed.problem.IsGenKill 3 .inter (.ofMembers 3 [0, 2])
      (fun b i => i ∈ (mixed.kill[b.index]?).getD [])
      (fun b i => i ∈ (mixed.gen[b.index]?).getD []) ∧
    lopsided.InRange ∧ ∃ d s' calls,
      (∀ fuel, lopsided.visitBudget .forward 3 ≤ fuel →
        Yields (mixed.problem.solve lopsided fuel) () d s' ∧
          Yields (mixed.problem.traced.solve lopsided fuel) ((), []) d (s', calls)) ∧
      d.HoldsLast lopsided calls ∧
      ∀ b k, changes ((BitSet.ofMembers 3 [0, 2]).contains k)
        ((outputsAt calls b).map (·.contains k)) ≤ 1 := by
  have hp := mixed.isGenKill_problem (by decide) (by decide) (by decide)
  have hg : lopsided.InRange := FlowGraph.checkEdges_iff_inRange.mp rfl
  exact ⟨hp, hg, Problem.genKill_settles hp hg ()⟩

end GenKill

end SsaFlow
