import SsaFlow.Proofs.VisitCounts

/-!
# Runs that only rise

An *ascending problem* has an order on its values in which all blocks start from
the least one, and meets and transfers keep the order (`Problem.Ascending`).
Nothing is asked of the edges: they need not be mirrored.

Then the two sides of a block only rise.  What a block holds is behind what its
sources give now (`Problem.Rising`), since these have only risen from where they
were when it was last visited.  So the next input is not below the last one, and
neither is the output.  Where an order has finite height, every change of a
transfer side uses up some of it, and the run ends.
-/

namespace SsaFlow

namespace Problem

variable {σ α : Type} {p : Problem σ α} {g : FlowGraph} {Q : σ → Prop} {V : α → Prop}
  {le : α → α → Prop}

/-- The values in `V` are ordered by `le`, with the initial ones least.  Meets exist and keep the
order, and transfers that succeed keep it. -/
structure Ascending (p : Problem σ α) (g : FlowGraph) (Q : σ → Prop) (V : α → Prop)
    (le : α → α → Prop) : Prop where
  refl : ∀ x, le x x
  trans : ∀ {x y z}, le x y → le y z → le x z
  initial : ∀ b, V (p.initial b)
  boundary : ∀ b, V (p.boundary b (p.initial b))
  least : ∀ b x, V x → le (p.initial b) x
  meet : ∀ {x y}, V x → V y → ∃ z, p.meet x y = .ok z ∧ V z
  meet_mono : ∀ {x x' y y' z z'}, V x → V x' → V y → V y' → le x x' → le y y' →
    p.meet x y = .ok z → p.meet x' y' = .ok z' → le z z'
  transfer : ∀ {b n x y s s'}, g.nodes.get? b = some n → Q s → V x →
    Yields (p.transfer b x) s y s' → Q s' ∧ V y
  transfer_mono : ∀ {b n x x' y y' s s' u u'}, g.nodes.get? b = some n → Q s → Q u → V x → V x' →
    le x x' → Yields (p.transfer b x) s y s' → Yields (p.transfer b x') u y' u' → le y y'

/-! ## Inputs -/

/-- Blocks whose sources all have values can be given an input. -/
theorem Ascending.meetOver_ok (hp : p.Ascending g Q V le) {d : Solution α} {b : Block}
    {sources : List Block}
    (hsources : ∀ a ∈ sources, ∃ y, d.transferSide.get? a = some y ∧ V y) :
    ∃ x, d.meetOver p b sources = .ok x ∧ V x := by
  suffices h : ∀ (sources : List Block) (z : α), V z →
      (∀ a ∈ sources, ∃ y, d.transferSide.get? a = some y ∧ V y) →
      ∃ x, sources.foldlM (fun met source => do p.meet met (← d.transferSide.read source)) z =
        (.ok x : Except Failure α) ∧ V x from h sources _ (hp.initial b) hsources
  intro sources
  induction sources with
  | nil => exact fun z hz _ => ⟨z, rfl, hz⟩
  | cons a rest ih =>
    intro z hz hsources
    obtain ⟨y, hy, hVy⟩ := hsources a List.mem_cons_self
    obtain ⟨w, hw, hVw⟩ := hp.meet hz hVy
    obtain ⟨x, hx, hVx⟩ := ih w hVw fun c hc => hsources c (List.mem_cons_of_mem _ hc)
    refine ⟨x, ?_, hVx⟩
    simp only [List.foldlM_cons, bind_eq_ok, liftFault_eq_ok, liftError_eq_ok, Table.read_eq_ok]
    exact ⟨w, ⟨y, hy, hw⟩, hx⟩

/-- Where transfer sides have risen, meets have. -/
theorem Ascending.meetOver_mono (hp : p.Ascending g Q V le) {d d' : Solution α} {b : Block}
    {sources : List Block} {x x' : α} (hx : d.meetOver p b sources = .ok x)
    (hx' : d'.meetOver p b sources = .ok x')
    (hrise : ∀ a y y', d.transferSide.get? a = some y → d'.transferSide.get? a = some y' →
      V y ∧ V y' ∧ le y y') : le x x' := by
  unfold Solution.meetOver at hx hx'
  suffices h : ∀ (sources : List Block) (z z' : α), V z → V z' → le z z' →
      sources.foldlM (fun met source => do p.meet met (← d.transferSide.read source)) z =
        (.ok x : Except Failure α) →
      sources.foldlM (fun met source => do p.meet met (← d'.transferSide.read source)) z' =
        (.ok x' : Except Failure α) → le x x' from
    h sources _ _ (hp.initial b) (hp.initial b) (hp.refl _) hx hx'
  intro sources
  induction sources with
  | nil =>
    intro z z' _ _ hz hx hx'
    obtain rfl := pure_eq_ok.mp hx
    obtain rfl := pure_eq_ok.mp hx'
    exact hz
  | cons a rest ih =>
    intro z z' hVz hVz' hz hx hx'
    simp only [List.foldlM_cons, bind_eq_ok, liftFault_eq_ok, liftError_eq_ok,
      Table.read_eq_ok] at hx hx'
    obtain ⟨w, ⟨y, hy, hw⟩, hx⟩ := hx
    obtain ⟨w', ⟨y', hy', hw'⟩, hx'⟩ := hx'
    obtain ⟨hVy, hVy', hyy'⟩ := hrise a y y' hy hy'
    have hVw : V w := by
      obtain ⟨v, hv, hVv⟩ := hp.meet hVz hVy
      obtain rfl := Except.ok.inj (hw.symm.trans hv)
      exact hVv
    have hVw' : V w' := by
      obtain ⟨v, hv, hVv⟩ := hp.meet hVz' hVy'
      obtain rfl := Except.ok.inj (hw'.symm.trans hv)
      exact hVv
    exact ih w w' hVw hVw' (hp.meet_mono hVz hVz' hVy hVy' hz hyy' hw hw') hx hx'

/-! ## The invariant -/

/-- What a run over an ascending problem keeps. -/
structure Rising (p : Problem σ α) (g : FlowGraph) (Q : σ → Prop) (V : α → Prop)
    (le : α → α → Prop) (r : Run α) (s : σ) (calls : List (Call α)) : Prop where
  record : Q s
  inputs : ∀ {b x}, r.solution.meetSide.get? b = some x → V x
  outputs : ∀ {b y}, r.solution.transferSide.get? b = some y → V y
  /-- The next input of a block is not below what it holds. -/
  behind : ∀ {b n x z}, g.nodes.get? b = some n → r.solution.meetSide.get? b = some x →
    r.solution.inputOf p g b = .ok z → le x z
  /-- What a block holds is what it started from, or was made from its last input. -/
  made : ∀ {b x y}, r.solution.meetSide.get? b = some x → r.solution.transferSide.get? b = some y →
    y = p.initial b ∨ ∃ u u', Q u ∧ Yields (p.transfer b x) u y u'
  past : ∀ c ∈ calls, V c.output ∧ ∀ x y, r.solution.meetSide.get? c.block = some x →
    r.solution.transferSide.get? c.block = some y → le c.input x ∧ le c.output y
  chain : ∀ b, (callsAt calls b).Pairwise fun c c' => le c.input c'.input ∧ le c.output c'.output

theorem Ascending.rising_start (hp : p.Ascending g Q V le) {s : σ} (hs : Q s)
    (w : Worklist) : p.Rising g Q V le ⟨Solution.start p g, w⟩ s [] where
  record := hs
  inputs {b x} hx := by
    simp only [Solution.start, Table.get?_ofList_entries, Option.map_eq_some_iff] at hx
    obtain ⟨n, -, rfl⟩ := hx
    split
    next => exact hp.boundary b
    next => exact hp.initial b
  outputs {b y} hy := by
    simp only [Solution.start, Table.get?_ofList_entries, Option.map_eq_some_iff] at hy
    obtain ⟨n, -, rfl⟩ := hy
    exact hp.initial b
  behind {b n x z} hn hx hz := by
    rcases (Solution.inputOf_eq_ok hn).mp hz with ⟨-, hx'⟩ | ⟨hne, hmeet⟩
    · obtain rfl := Option.some.inj (hx.symm.trans hx')
      exact hp.refl _
    · have hne : n.sources p.direction ≠ [] := hne
      simp only [Solution.start, Table.get?_ofList_entries, hn, Option.map_some, List.isEmpty_iff,
        Option.some.injEq, if_neg hne] at hx
      subst hx
      refine hp.least b z (Solution.meetOver_induction hmeet (hp.initial b) ?_)
      intro a _ x y w hy hVx hw
      simp only [Solution.start, Table.get?_ofList_entries, Option.map_eq_some_iff] at hy
      obtain ⟨m, -, rfl⟩ := hy
      obtain ⟨v, hv, hVv⟩ := hp.meet hVx (hp.initial a)
      obtain rfl := Except.ok.inj (hw.symm.trans hv)
      exact hVv
  made {b x y} _ hy := by
    simp only [Solution.start, Table.get?_ofList_entries, Option.map_eq_some_iff] at hy
    obtain ⟨n, -, rfl⟩ := hy
    exact .inl rfl
  past c hc := absurd hc List.not_mem_nil
  chain b := .nil

variable {r r' : Run α} {calls : List (Call α)} {s s' : σ} {b : Block} {rest : Worklist}
  {n : Node} {x y : α}

/-- From the initial value on, the transfer side of a block takes one step up after the other. -/
theorem Ascending.isChain_outputs (hp : p.Ascending g Q V le) (hr : p.Rising g Q V le r s calls)
    (b : Block) : (p.initial b :: outputsAt calls b).IsChain fun y z => V y ∧ V z ∧ le y z := by
  have hV : ∀ c ∈ callsAt calls b, V c.output := fun c hc => (hr.past c (List.mem_filter.mp hc).1).1
  have hpair : (outputsAt calls b).Pairwise fun y z => V y ∧ V z ∧ le y z := by
    refine List.pairwise_map.mpr ((hr.chain b).imp_of_mem ?_)
    intro c c' hc hc' h
    exact ⟨hV c hc, hV c' hc', h.2⟩
  refine (List.pairwise_cons.mpr ⟨fun y hy => ?_, hpair⟩).isChain
  obtain ⟨c, hc, rfl⟩ := List.mem_map.mp hy
  exact ⟨hp.initial b, hV c hc, hp.least b _ (hV c hc)⟩

theorem Ascending.mem_outputs (hp : p.Ascending g Q V le) (hr : p.Rising g Q V le r s calls)
    {b : Block} : ∀ y ∈ p.initial b :: outputsAt calls b, V y := by
  intro y hy
  rcases List.mem_cons.mp hy with rfl | hy
  · exact hp.initial b
  · obtain ⟨c, hc, rfl⟩ := List.mem_map.mp hy
    exact (hr.past c (List.mem_filter.mp hc).1).1

/-! ## Visits -/

variable [DecidableEq α]

theorem Ascending.input_ok (hp : p.Ascending g Q V le) (hg : g.InRange)
    (hacc : Run.Accounted p g r calls) (hr : p.Rising g Q V le r s calls)
    (hn : g.nodes.get? b = some n) : ∃ x, r.solution.inputOf p g b = .ok x ∧ V x := by
  have hb : b.index < g.numBlocks := Table.lt_size hn
  by_cases hnil : n.sources r.solution.direction = []
  · obtain ⟨x, hx⟩ := Table.exists_get? (t := r.solution.meetSide) (hacc.meetSize ▸ hb)
    exact ⟨x, (Solution.inputOf_eq_ok hn).mpr (.inl ⟨hnil, hx⟩), hr.inputs hx⟩
  · have hsources : ∀ a ∈ n.sources r.solution.direction,
        ∃ y, r.solution.transferSide.get? a = some y ∧ V y := by
      intro a ha
      have hlt := hg.sources _ hn a ha
      obtain ⟨y, hy⟩ := Table.exists_get? (t := r.solution.transferSide) (hacc.transferSize ▸ hlt)
      exact ⟨y, hy, hr.outputs hy⟩
    obtain ⟨x, hx, hVx⟩ := hp.meetOver_ok (b := b) hsources
    exact ⟨x, (Solution.inputOf_eq_ok hn).mpr (.inr ⟨hnil, hx⟩), hVx⟩

/-- A visit moves neither side of its block down. -/
theorem Ascending.visit_rises (hp : p.Ascending g Q V le) (hr : p.Rising g Q V le r s calls)
    (hv : Run.Visit p g { r with worklist := rest } b n x y r') (hVx : V x)
    (hy : Yields (p.transfer b x) s y s') {x₀ y₀ : α} (hx₀ : r.solution.meetSide.get? b = some x₀)
    (hy₀ : r.solution.transferSide.get? b = some y₀) : le x₀ x ∧ le y₀ y := by
  have hx : le x₀ x := hr.behind hv.node hx₀ hv.input
  refine ⟨hx, ?_⟩
  rcases hr.made hx₀ hy₀ with rfl | ⟨u, u', hu, hmade⟩
  · exact hp.least b y (hp.transfer hv.node hr.record hVx hy).2
  · exact hp.transfer_mono hv.node hu hr.record (hr.inputs hx₀) hVx hx hmade hy

/-- Where transfer sides have risen, so has what a block would be given. -/
theorem Ascending.behind_visit (hp : p.Ascending g Q V le) (hg : g.InRange)
    (hacc : Run.Accounted p g r calls) (hr : p.Rising g Q V le r s calls)
    (hv : Run.Visit p g { r with worklist := rest } b n x y r')
    (hrise : ∀ a z z', r.solution.transferSide.get? a = some z →
      r'.solution.transferSide.get? a = some z' → V z ∧ V z' ∧ le z z')
    {c : Block} {m : Node} {z w : α} (hm : g.nodes.get? c = some m)
    (hz : r'.solution.meetSide.get? c = some z) (hw : r'.solution.inputOf p g c = .ok w) :
    le z w := by
  rcases (Solution.inputOf_eq_ok hm).mp hw with ⟨-, hw⟩ | ⟨hne, hmeet'⟩
  · obtain rfl := Option.some.inj (hz.symm.trans hw)
    exact hp.refl _
  · obtain ⟨w₀, hw₀, -⟩ := hp.input_ok hg hacc hr hm
    have hzw₀ : le z w₀ := by
      rw [hv.meetSide] at hz
      split at hz
      next hcb =>
        subst hcb
        obtain rfl := Except.ok.inj (hv.input.symm.trans hw₀)
        cases hz
        exact hp.refl _
      next => exact hr.behind hm hz hw₀
    have hdir : r'.solution.direction = r.solution.direction := hv.direction
    rw [hdir] at hne hmeet'
    rcases (Solution.inputOf_eq_ok hm).mp hw₀ with ⟨hnil, -⟩ | ⟨-, hmeet⟩
    · exact absurd hnil hne
    · exact hp.trans hzw₀ (hp.meetOver_mono hmeet hmeet' hrise)

theorem Ascending.rising_visit (hp : p.Ascending g Q V le) (hg : g.InRange)
    (hacc : Run.Accounted p g r calls) (hr : p.Rising g Q V le r s calls)
    (hv : Run.Visit p g { r with worklist := rest } b n x y r')
    (hy : Yields (p.transfer b x) s y s') : p.Rising g Q V le r' s' (calls ++ [⟨b, x, y⟩]) := by
  have hb : b.index < g.numBlocks := Table.lt_size hv.node
  obtain ⟨x₀, hx₀⟩ := Table.exists_get? (t := r.solution.meetSide) (hacc.meetSize ▸ hb)
  obtain ⟨y₀, hy₀⟩ := Table.exists_get? (t := r.solution.transferSide) (hacc.transferSize ▸ hb)
  have hVx : V x := by
    obtain ⟨x', hx', hVx'⟩ := hp.input_ok hg hacc hr hv.node
    obtain rfl := Except.ok.inj (hv.input.symm.trans hx')
    exact hVx'
  obtain ⟨hs', hVy⟩ := hp.transfer hv.node hr.record hVx hy
  obtain ⟨hxx, hyy⟩ := hp.visit_rises hr hv hVx hy hx₀ hy₀
  have houtputs : ∀ {c z}, r'.solution.transferSide.get? c = some z → V z := by
    intro c z hz
    rw [hv.transferSide] at hz
    split at hz
    next => cases hz; exact hVy
    next => exact hr.outputs hz
  have hrise : ∀ a z z', r.solution.transferSide.get? a = some z →
      r'.solution.transferSide.get? a = some z' → V z ∧ V z' ∧ le z z' := by
    intro a z z' hz hz'
    refine ⟨hr.outputs hz, houtputs hz', ?_⟩
    rw [hv.transferSide] at hz'
    split at hz'
    next hab =>
      subst hab
      obtain rfl := Option.some.inj (hy₀.symm.trans hz)
      cases hz'
      exact hyy
    next =>
      obtain rfl := Option.some.inj (hz.symm.trans hz')
      exact hp.refl _
  have hpast : ∀ c ∈ calls, c.block = b → le c.input x ∧ le c.output y := by
    rintro c hc rfl
    obtain ⟨hcx, hcy⟩ := (hr.past c hc).2 x₀ y₀ hx₀ hy₀
    exact ⟨hp.trans hcx hxx, hp.trans hcy hyy⟩
  refine ⟨hs', ?_, houtputs, hp.behind_visit hg hacc hr hv hrise, ?_, ?_, ?_⟩
  · intro c z hz
    rw [hv.meetSide] at hz
    split at hz
    next => cases hz; exact hVx
    next => exact hr.inputs hz
  · intro c z w hz hw
    rw [hv.meetSide] at hz
    rw [hv.transferSide] at hw
    by_cases hcb : c = b
    · rw [if_pos hcb] at hz hw
      cases hz
      cases hw
      exact .inr ⟨s, s', hr.record, hcb ▸ hy⟩
    · rw [if_neg hcb] at hz hw
      exact hr.made hz hw
  · intro c hc
    rcases List.mem_append.mp hc with hc | hc
    · refine ⟨(hr.past c hc).1, fun z w hz hw => ?_⟩
      rw [hv.meetSide] at hz
      rw [hv.transferSide] at hw
      by_cases hcb : c.block = b
      · rw [if_pos hcb] at hz hw
        cases hz
        cases hw
        exact hpast c hc hcb
      · rw [if_neg hcb] at hz hw
        exact (hr.past c hc).2 z w hz hw
    · obtain rfl := List.mem_singleton.mp hc
      refine ⟨hVy, fun z w hz hw => ?_⟩
      rw [hv.meetSide, if_pos rfl] at hz
      rw [hv.transferSide, if_pos rfl] at hw
      cases hz
      cases hw
      exact ⟨hp.refl _, hp.refl _⟩
  · intro c
    rw [callsAt_append]
    split
    next hcb =>
      obtain rfl : b = c := hcb
      refine List.pairwise_append.mpr ⟨hr.chain b, List.pairwise_singleton _ _, ?_⟩
      intro c hc c' hc'
      obtain ⟨hc, hcb⟩ := List.mem_filter.mp hc
      obtain rfl := List.mem_singleton.mp hc'
      exact hpast c hc (of_decide_eq_true hcb)
    next =>
      rw [List.append_nil]
      exact hr.chain c

/-! ## Finite height -/

/-- Where ranks tell values apart that are ordered, there are no more changes than ranks. -/
theorem Ascending.bounded (hp : p.Ascending g Q V le) (hg : g.InRange) {rank : α → Nat}
    {height : Nat} (hrank : ∀ y z, V y → V z → le y z → y ≠ z → rank y < rank z)
    (hheight : ∀ y, V y → rank y ≤ height) : p.Bounded g height (p.Rising g Q V le) where
  visit hacc _ hr hv hy := hp.rising_visit hg hacc hr hv hy
  input hacc hr hn := by
    obtain ⟨x, hx, -⟩ := hp.input_ok hg hacc hr hn
    exact ⟨x, hx⟩
  changes {r s calls} _ hr b := by
    have hchain : (p.initial b :: outputsAt calls b).IsChain fun y z => y ≠ z → rank y < rank z :=
      (hp.isChain_outputs hr b).imp fun y z h => hrank y z h.1 h.2.1 h.2.2
    have hle := changes_add_rank_le hchain fun y hy => hheight y (hp.mem_outputs hr y hy)
    omega

end Problem

end SsaFlow
