import SsaFlow.Proofs.Worklist

/-!
# Solutions are fixpoints

The equations of a problem fix the meet side of a block by the transfer sides of
its sources, or by the boundary if it has none, and its transfer side by the meet
side (`Problem.Equations`).  A solution satisfies them at every block as soon as
the edges are mirrored and transfers pay no heed to the record
(`Problem.solve_equations`).  Nothing is asked of the meet or of the transfer
function.  If they never settle, there is no solution to speak of.

`Solution.check` goes through all blocks once more.  It succeeds on a solution
whose sides one more visit confirms (`Solution.check_yields`).  If it succeeds,
then all blocks are settled and on record (`Solution.settled_of_check`), where the
solution may be of another problem or of another graph.
-/

namespace SsaFlow

variable {σ α : Type}

namespace Problem

/-- Whether a transfer succeeds, and with what, does not depend on the record. -/
def IgnoresRecord (p : Problem σ α) : Prop :=
  ∀ b x s s', ((p.transfer b x).run.run s).1 = ((p.transfer b x).run.run s').1

theorem IgnoresRecord.yields {p : Problem σ α} (hp : p.IgnoresRecord) {b : Block} {x y : α}
    {s s' : σ} (h : Yields (p.transfer b x) s y s') (u : σ) :
    ∃ u', Yields (p.transfer b x) u y u' := by
  refine ⟨((p.transfer b x).run.run u).2, Prod.ext ?_ rfl⟩
  rw [hp b x u s, h]

/-- The sides `x` and `y` of a block `b` with the node `n` are what the problem asks for. -/
structure Equations (p : Problem σ α) (d : Solution α) (b : Block) (n : Node) (x y : α) :
    Prop where
  meetSide : d.meetSide.get? b = some x
  transferSide : d.transferSide.get? b = some y
  boundary : n.sources p.direction = [] → x = p.boundary b (p.initial b)
  meet : n.sources p.direction ≠ [] →
    ∃ ys, (n.sources p.direction).mapM d.transferSide.get? = some ys ∧
      ys.foldlM p.meet (p.initial b) = .ok x
  transfer : ∀ s, ((p.transfer b x).run.run s).1 = .ok y

/-- What needs no mirrored edges: boundaries stay, and transfer sides come from meet sides. -/
theorem transfer_invariant (p : Problem σ α) (g : FlowGraph) :
    p.Invariant g (fun _ => True)
      (fun b x => ∀ n, g.nodes.get? b = some n → n.sources p.direction = [] →
        x = p.boundary b (p.initial b))
      (fun _ _ => True) (fun b x y _ => ∃ u u', Yields (p.transfer b x) u y u') where
  boundary b n _ _ := fun _ _ _ => rfl
  initial b n hn hne := fun m hm hnil => by
    rw [hn] at hm
    cases hm
    exact absurd hnil hne
  seed _ _ _ := trivial
  meet b n a m x y z hn _ ha _ _ _ := fun n' hn' hnil => by
    rw [hn] at hn'
    cases hn'
    rw [hnil] at ha
    exact absurd ha List.not_mem_nil
  transfer b n x y s s' _ _ _ h := ⟨trivial, trivial, s, s', h⟩
  other _ _ _ _ _ _ _ _ _ _ _ _ _ _ h := h

variable [DecidableEq α] {p : Problem σ α} {g : FlowGraph} {fuel : Nat} {s s' : σ}
  {d : Solution α}

/-- The sides of every block satisfy the equations of the problem. -/
theorem solve_equations (hp : p.IgnoresRecord) (hg : g.Mirrored p.direction)
    (hd : Yields (p.solve g fuel) s d s') {b : Block} {n : Node} (hn : g.nodes.get? b = some n) :
    ∃ x y, p.Equations d b n x y := by
  obtain ⟨-, hsides⟩ := solve_invariant (p.transfer_invariant g) trivial hd
  obtain ⟨x, y, hx, hy, hbound, -, u, u', htransfer⟩ := hsides b n hn
  refine ⟨x, y, hx, hy, fun hnil => hbound n hn hnil, fun hne => ?_, fun v => ?_⟩
  · have hdir : d.direction = p.direction := (solve_shape hd).1
    rcases (Solution.inputOf_eq_ok hn).mp (solve_meets hg hd hn hx) with ⟨hnil, -⟩ | ⟨-, hmeet⟩
    · exact absurd (hdir ▸ hnil) hne
    · exact Solution.meetOver_eq_ok.mp (hdir ▸ hmeet)
  · obtain ⟨v', hv⟩ := hp.yields htransfer v
    rw [hv]

end Problem

/-! ## Checking a solution -/

namespace Solution

variable [DecidableEq α] {p : Problem σ α} {g : FlowGraph} {d : Solution α}

/-- The sides of `b` are on store, and meeting once more gives the first of them. -/
structure Settled (p : Problem σ α) (g : FlowGraph) (d : Solution α) (b : Block) (x y : α) :
    Prop where
  meetSide : d.meetSide.get? b = some x
  transferSide : d.transferSide.get? b = some y
  input : d.inputOf p g b = .ok x

/-- The check of a block is a visit that gives what is on store. -/
theorem checkBlock_yields_iff {b : Block} {u u' : σ} :
    Yields (d.checkBlock p g b) u () u' ↔
      ∃ x y, Settled p g d b x y ∧ Yields (p.transfer b x) u y u' := by
  simp only [checkBlock, yields_bind, yields_lift, yields_liftFault, Table.read_eq_ok]
  constructor
  · intro ⟨x, _, ⟨hinput, hu⟩, x', _, ⟨hx, hu'⟩, h⟩
    subst hu hu'
    split at h
    next => exact absurd h not_yields_throw
    next heq =>
      obtain rfl := not_not.mp heq
      simp only [yields_bind, yields_liftFault, Table.read_eq_ok] at h
      obtain ⟨y, v, hy, y', _, ⟨hy', hv⟩, h⟩ := h
      subst hv
      split at h
      next => exact absurd h not_yields_throw
      next heq =>
        obtain rfl := not_not.mp heq
        obtain ⟨-, rfl⟩ := yields_pure.mp h
        exact ⟨x, y, ⟨hx, hy', hinput⟩, hy⟩
  · intro ⟨x, y, hxy, htransfer⟩
    refine ⟨x, u, ⟨hxy.input, rfl⟩, x, u, ⟨hxy.meetSide, rfl⟩, ?_⟩
    rw [if_neg (not_not_intro rfl)]
    simp only [yields_bind, yields_liftFault, Table.read_eq_ok]
    refine ⟨y, u', htransfer, y, u', ⟨hxy.transferSide, rfl⟩, ?_⟩
    rw [if_neg (not_not_intro rfl)]
    exact yields_pure.mpr ⟨rfl, rfl⟩

/-- One more visit to `b` confirms its sides, whatever is on record. -/
structure Confirmed (p : Problem σ α) (g : FlowGraph) (Q : σ → Prop) (V : Block → α → Prop)
    (d : Solution α) (b : Block) (x y : α) : Prop extends Settled p g d b x y where
  valid : V b x
  transfer : ∀ u, Q u → ∃ u', Yields (p.transfer b x) u y u'

variable {Q : σ → Prop} {V U : Block → α → Prop} {R : Block → α → α → σ → Prop}

/-- Going through a list of blocks succeeds if all of them are confirmed. -/
theorem forM_checkBlock_yields (hinv : p.Invariant g Q V U R) {bs : List Block} {u : σ} (hu : Q u)
    (hbs : ∀ b ∈ bs, ∃ x y, Confirmed p g Q V d b x y) :
    ∃ u', Yields (bs.forM (d.checkBlock p g)) u () u' := by
  induction bs generalizing u with
  | nil => exact ⟨u, yields_pure.mpr ⟨rfl, rfl⟩⟩
  | cons c bs ih =>
    obtain ⟨x, y, hc⟩ := hbs c List.mem_cons_self
    obtain ⟨n, hn⟩ := exists_node_of_inputOf hc.input
    obtain ⟨v, hv⟩ := hc.transfer u hu
    obtain ⟨hqv, -, -⟩ := hinv.transfer c n x y u v hn hu hc.valid hv
    obtain ⟨u', hu'⟩ := ih hqv fun b hb => hbs b (List.mem_cons_of_mem _ hb)
    refine ⟨u', ?_⟩
    show Yields (d.checkBlock p g c >>= fun _ => bs.forM (d.checkBlock p g)) u () u'
    exact yields_bind.mpr ⟨(), v, checkBlock_yields_iff.mpr ⟨x, y, hc.toSettled, hv⟩, hu'⟩

/-- Going through a list of blocks adds them to those that are settled and on record. -/
theorem settled_of_forM (hinv : p.Invariant g Q V U R)
    (hV : ∀ b n x, g.nodes.get? b = some n → d.meetSide.get? b = some x → V b x)
    {bs done : List Block} {u u' : σ} (hu : Q u)
    (hdone : ∀ b ∈ done, ∃ x y, Settled p g d b x y ∧ R b x y u)
    (h : Yields (bs.forM (d.checkBlock p g)) u () u') :
    Q u' ∧ ∀ b, b ∈ done ∨ b ∈ bs → ∃ x y, Settled p g d b x y ∧ R b x y u' := by
  induction bs generalizing done u with
  | nil =>
    obtain ⟨-, rfl⟩ := yields_pure.mp h
    exact ⟨hu, fun b hb => hdone b (hb.resolve_right List.not_mem_nil)⟩
  | cons c bs ih =>
    have h : Yields (d.checkBlock p g c >>= fun _ => bs.forM (d.checkBlock p g)) u () u' := h
    obtain ⟨_, v, hc, h⟩ := yields_bind.mp h
    obtain ⟨z, w, hsettled, hv⟩ := checkBlock_yields_iff.mp hc
    obtain ⟨m, hm⟩ := exists_node_of_inputOf hsettled.input
    have hz := hV c m z hm hsettled.meetSide
    obtain ⟨hqv, -, hrec⟩ := hinv.transfer c m z w u v hm hu hz hv
    have hdone' : ∀ b ∈ c :: done, ∃ x y, Settled p g d b x y ∧ R b x y v := by
      intro b hb
      by_cases hbc : b = c
      · exact hbc ▸ ⟨z, w, hsettled, hrec⟩
      · obtain ⟨x, y, hxy, hR⟩ := hdone b ((List.mem_cons.mp hb).resolve_left hbc)
        exact ⟨x, y, hxy, hinv.other b c m x y z w u v (Ne.symm hbc) hm hu hz hv hR⟩
    obtain ⟨hqu', hall⟩ := ih hqv hdone' h
    refine ⟨hqu', fun b hb => hall b ?_⟩
    rw [List.mem_cons] at hb ⊢
    rw [or_assoc]
    exact or_left_comm.mp hb

/-- A check that passes finds all blocks settled, and puts all of them on record. -/
theorem settled_of_check (hinv : p.Invariant g Q V U R)
    (hV : ∀ b n x, g.nodes.get? b = some n → d.meetSide.get? b = some x → V b x) {u u' : σ}
    (hu : Q u) (h : Yields (d.check p g) u () u') :
    Q u' ∧ ∀ b, b.index < g.numBlocks → ∃ x y, Settled p g d b x y ∧ R b x y u' := by
  obtain ⟨_, _, hedges, hround⟩ := yields_bind.mp h
  obtain ⟨-, rfl⟩ := yields_liftError.mp hedges
  obtain ⟨hqu', hall⟩ := settled_of_forM hinv hV hu
    (fun b (hb : b ∈ []) => absurd hb List.not_mem_nil) hround
  exact ⟨hqu', fun b hb => hall b (.inr (Table.mem_handles.mpr hb))⟩

/-- A check confirms all blocks and puts all of them on record. -/
theorem check_yields (hinv : p.Invariant g Q V U R) (hedges : g.checkEdges = .ok ())
    (hd : ∀ b, b.index < g.numBlocks → ∃ x y, Confirmed p g Q V d b x y) {u : σ} (hu : Q u) :
    ∃ u', Yields (d.check p g) u () u' ∧ Q u' ∧
      ∀ b, b.index < g.numBlocks → ∃ x y, Settled p g d b x y ∧ R b x y u' := by
  obtain ⟨u', hround⟩ := forM_checkBlock_yields hinv hu fun b hb => hd b (Table.mem_handles.mp hb)
  have hcheck : Yields (d.check p g) u () u' :=
    yields_bind.mpr ⟨(), u, yields_liftError.mpr ⟨hedges, rfl⟩, hround⟩
  refine ⟨u', hcheck, settled_of_check hinv (fun b n x hn hx => ?_) hu hcheck⟩
  obtain ⟨x', y, hb⟩ := hd b (Table.lt_size hn)
  obtain rfl := Option.some.inj (hx.symm.trans hb.meetSide)
  exact hb.valid

end Solution

namespace Problem

section

variable [DecidableEq α] {p : Problem σ α} {g : FlowGraph} {fuel : Nat} {s s' : σ}
  {d : Solution α}

/-- A solution passes its own check, on any record. -/
theorem check_of_solve (hp : p.IgnoresRecord) (hg : g.Mirrored p.direction)
    (hd : Yields (p.solve g fuel) s d s') (u : σ) : ∃ u', Yields (d.check p g) u () u' := by
  have hinv := p.transfer_invariant g
  obtain ⟨-, hsides⟩ := solve_invariant hinv trivial hd
  obtain ⟨u', hu', -⟩ := Solution.check_yields (u := u) hinv (checkEdges_of_solve hd) (by
    intro b hb
    obtain ⟨n, hn⟩ := Table.exists_get? hb
    obtain ⟨x, y, hx, hy, hbound, -, v, v', htransfer⟩ := hsides b n hn
    exact ⟨x, y, ⟨hx, hy, solve_meets hg hd hn hx⟩, hbound,
      fun w _ => hp.yields htransfer w⟩) trivial
  exact ⟨u', hu'⟩

/-- If a run of the solver succeeds over mirrored edges, then both sides of every block satisfy
the equations of the problem, and the solution passes its own check on any record. -/
theorem solve_fixpoint (hp : p.IgnoresRecord) (hg : g.Mirrored p.direction)
    (hd : Yields (p.solve g fuel) s d s') :
    (∀ b n, g.nodes.get? b = some n → ∃ x y, p.Equations d b n x y) ∧
      ∀ u, ((d.check p g).run.run u).1 = .ok () := by
  refine ⟨fun b n hn => solve_equations hp hg hd hn, fun u => ?_⟩
  obtain ⟨u', hu'⟩ := check_of_solve hp hg hd u
  rw [hu']

end

/-- A problem whose second block turns small values around, so its transfer function is not
monotone.  Values are met by their sum, and transfers are counted. -/
def settling : Problem Nat Nat where
  direction := .forward
  initial _ := 0
  boundary _ _ := 5
  meet x y := .ok (x + y)
  transfer b x := do
    set ((← get) + 1)
    return if b.index = 1 then (if x < 4 then 4 - x else 3) else x / 2

/-- An entry, a block that goes to itself twice, and one that nothing leads to. -/
def twiceAround : FlowGraph where
  entry := ⟨0⟩
  numArgs := 0
  numInsts := 0
  nodes := .ofList [{ succs := [⟨1⟩] }, { succs := [⟨1⟩, ⟨1⟩], preds := [⟨0⟩, ⟨1⟩, ⟨1⟩, ⟨2⟩] },
    { succs := [⟨1⟩] }]
  facts := .empty

/-- The solution of `settling` over `twiceAround`, for which five transfers are needed. -/
def settled : Solution Nat where
  direction := .forward
  meetSide := .ofList [5, 10, 5]
  transferSide := .ofList [2, 3, 2]
  visits := .ofList [1, 3, 1]

theorem solve_fixpoint_settled :
    Yields (settling.solve twiceAround 5) 0 settled 5 ∧
      ∀ u, ((settled.check settling twiceAround).run.run u).1 = .ok () := by
  have hd : Yields (settling.solve twiceAround 5) 0 settled 5 := by decide +kernel
  exact ⟨hd, (solve_fixpoint (fun _ _ _ _ => rfl) (by decide) hd).2⟩

end Problem

end SsaFlow
