import SsaFlow.Proofs.GrowingSets

/-!
# How an analysis fails

Two things can be wrong with a graph whose listed instructions are all allocated
(`FlowGraph.Allocated`).  Its entry or an edge names a block that does not exist
(`FlowGraph.Dangling`), or a listed instruction asks for a value that nothing
provides (`FlowGraph.Unknown`).  The first is found before any block is visited, so
it wins.  If nothing is wrong there is a result (`Liveness.outcome_of_analyze`).

The second can surface at any visit to any block.  Whether it does depends neither
on the set that the transfer is given nor on the record, since looking up a value
depends on neither.  A transfer that fails does so at the first value that is not
found, and all its other steps succeed: sets keep the size of the domain, and every
listed instruction has its place on record.  So the error of a failed run is the
error of one lookup (`Domain.lookup_of_fails`).  And a run that succeeds has gone
through every block, also through those that nothing leads to.
-/

namespace SsaFlow

variable {σ α β ε : Type}

/-! ## Computations that fail -/

/-- The computation fails from the record `s` with `e`. -/
def Fails (x : ExceptT ε (StateM σ) α) (s : σ) (e : ε) : Prop := (x.run.run s).1 = .error e

theorem bind_eq_error {x : Except ε α} {f : α → Except ε β} {e : ε} :
    x >>= f = .error e ↔ x = .error e ∨ ∃ a, x = .ok a ∧ f a = .error e := by
  cases x with
  | error e' => simp [bind, Except.bind]
  | ok a => simp [bind, Except.bind]

section

variable {s s' : σ} {a : α} {e : ε} {x : ExceptT ε (StateM σ) α}

theorem Yields.not_fails (h : Yields x s a s') : ¬ Fails x s e := by
  intro hfail
  have h : x.run.run s = (.ok a, s') := h
  rw [Fails, h] at hfail
  cases hfail

theorem fails_lift {x : Except ε α} :
    Fails (liftM x : ExceptT ε (StateM σ) α) s e ↔ x = .error e := by
  cases x with
  | error e' =>
    constructor
    · intro h; cases h; rfl
    · intro h; cases h; rfl
  | ok b =>
    constructor
    · intro h; cases h
    · intro h; cases h

/-- A sequence fails in its first part, or in its second after the first has succeeded. -/
theorem fails_bind {f : α → ExceptT ε (StateM σ) β} :
    Fails (x >>= f) s e ↔ Fails x s e ∨ ∃ a u, Yields x s a u ∧ Fails (f a) u e := by
  cases hx : x.run.run s with
  | mk r u =>
    cases r with
    | error e' =>
      simp only [Fails, run_bind_of_error hx, hx, Except.error.injEq]
      constructor
      · exact .inl
      · intro h
        cases h with
        | inl h => exact h
        | inr h =>
          obtain ⟨a, v, hv, -⟩ := h
          exact absurd (hx.symm.trans hv) nofun
    | ok a =>
      have ha : Yields x s a u := hx
      simp only [Fails, run_bind_of_yields ha]
      constructor
      · intro h
        exact .inr ⟨a, u, ha, h⟩
      · intro h
        cases h with
        | inl h => exact absurd h ha.not_fails
        | inr h =>
          obtain ⟨a', v, hv, h⟩ := h
          obtain ⟨rfl, rfl⟩ := ha.unique hv
          exact h

/-- After a step that succeeds, it is the rest that fails. -/
theorem Fails.of_yields {f : α → ExceptT ε (StateM σ) β} (h : Fails (x >>= f) s e)
    (hx : Yields x s a s') : Fails (f a) s' e := by
  rw [Fails, run_bind_of_yields hx] at h
  exact h

end

/-! ## What can be wrong with a graph -/

namespace FlowGraph

/-- The allocated instructions are those with facts, and only such are listed. -/
structure Allocated (g : FlowGraph) : Prop where
  facts : g.facts.size = g.numInsts
  listed : ∀ i ∈ g.listed, i.index < g.numInsts

/-- Control enters at the block, or it is an end of an edge. -/
def Names (g : FlowGraph) (b : Block) : Prop :=
  b = g.entry ∨ ∃ c n, g.nodes.get? c = some n ∧ (b ∈ n.succs ∨ b ∈ n.preds)

/-- The graph has blocks, and names one that does not exist. -/
def Dangling (g : FlowGraph) (b : Block) : Prop :=
  0 < g.numBlocks ∧ g.Names b ∧ g.numBlocks ≤ b.index

/-- The value is a constant, an argument, or an instruction that is listed if it has a result. -/
def Resolvable (g : FlowGraph) : Value → Prop
  | .const _ => True
  | .arg a => a.index < g.numArgs
  | .inst i => i.index < g.numInsts ∧
    ∀ facts, g.facts.get? i = some facts → facts.hasResult = true → i ∈ g.listed

/-- A listed instruction has the value as an operand, or as an input if it is a phi. -/
def Seeks (g : FlowGraph) (v : Value) : Prop :=
  ∃ i ∈ g.listed, ∃ facts, g.facts.get? i = some facts ∧ v ∈ Domain.sought facts

/-- The value is asked for, and nothing provides it. -/
def Unknown (g : FlowGraph) (v : Value) : Prop := g.Seeks v ∧ ¬ g.Resolvable v

variable {g : FlowGraph}

theorem Allocated.exists_facts (hg : g.Allocated) {i : Inst} (hi : i.index < g.numInsts) :
    ∃ facts, g.facts.get? i = some facts :=
  Table.exists_get? (hg.facts.symm ▸ hi)

theorem InRange.not_dangling (hg : g.InRange) (b : Block) : ¬ g.Dangling b := by
  intro ⟨hpos, hnames, hb⟩
  have hlt : b.index < g.numBlocks := by
    cases hnames with
    | inl hentry => exact hentry ▸ hg.entry hpos
    | inr hedge =>
      obtain ⟨c, n, hn, hsucc | hpred⟩ := hedge
      · exact hg.succs c n hn b hsucc
      · exact hg.preds c n hn b hpred
  omega

/-- The block that a graph is refused for dangles. -/
theorem dangling_of_badBlock? {b : Block} (h : g.badBlock? = some b) : g.Dangling b := by
  unfold badBlock? at h
  split at h
  next hentry =>
    cases h
    exact ⟨hentry.1, .inl rfl, hentry.2⟩
  next =>
    have hb : g.numBlocks ≤ b.index := by simpa using List.find?_some h
    obtain ⟨n, hn, hmem⟩ := List.mem_flatMap.mp (List.mem_of_find?_eq_some h)
    obtain ⟨c, hc⟩ := Table.mem_toList.mp hn
    have hpos : 0 < g.numBlocks := Nat.zero_lt_of_lt (Table.lt_size hc)
    exact ⟨hpos, .inr ⟨c, n, hc, List.mem_append.mp hmem⟩, hb⟩

end FlowGraph

/-! ## Lookups -/

namespace Domain

variable {d : Domain} {g : FlowGraph} {v : Value} {i : Inst} {facts : InstFacts} {e : Failure}
  {x : BitSet} {s : LiveTables}

theorem build_ok (hg : g.Allocated) : ∃ d, build g = .ok d := by
  have hread : ∀ i ∈ g.listed, ∃ c,
      (do return (← g.facts.read i).hasResult : Except Fault Bool) = .ok c := by
    intro i hi
    obtain ⟨facts, hfacts⟩ := hg.exists_facts (hg.listed i hi)
    exact ⟨_, bind_eq_ok.mpr ⟨facts, Table.read_eq_ok.mpr hfacts, rfl⟩⟩
  obtain ⟨results, hresults⟩ := filterM_ok hread
  exact ⟨_, bind_eq_ok.mpr ⟨results, hresults, rfl⟩⟩

theorem some_known_eq_error :
    (do return some (← d.known v) : Except Failure (Option Nat)) = .error e ↔
      v ∉ d.values ∧ e = .error (.unknownValue v) := by
  cases hk : d.indexOf? v with
  | none =>
    have hv : v ∉ d.values := List.idxOf?_eq_none_iff.mp hk
    rw [known, hk]
    constructor
    · intro h
      cases h
      exact ⟨hv, rfl⟩
    · intro h
      rw [h.2]
      rfl
  | some k =>
    rw [some_known_eq_ok.mpr hk]
    constructor
    · intro h
      cases h
    · intro h
      exact absurd (mem_of_indexOf? hk) h.1

/-- A lookup fails just for the values that nothing provides, and names the value. -/
theorem lookup_eq_error_iff (hg : g.Allocated) (hd : build g = .ok d) :
    d.lookup g v = .error e ↔ ¬ g.Resolvable v ∧ e = .error (.unknownValue v) := by
  cases v with
  | const c =>
    constructor
    · intro h
      cases h
    · intro h
      exact absurd trivial h.1
  | arg a =>
    have hmem : .arg a ∈ d.values ↔ g.Resolvable (.arg a) := by
      simp [mem_values_build hd, FlowGraph.Resolvable]
    rw [← hmem]
    exact some_known_eq_error
  | inst i =>
    simp only [lookup]
    split
    next hi =>
      obtain ⟨facts, hfacts⟩ := hg.exists_facts hi
      have hread : (liftM (g.facts.read i) : Except Failure InstFacts) = .ok facts :=
        liftFault_eq_ok.mpr (Table.read_eq_ok.mpr hfacts)
      rw [hread]
      show (if facts.hasResult = true then _ else _ : Except Failure (Option Nat)) = .error e ↔ _
      split
      next hres =>
        have hmem : .inst i ∈ d.values ↔ g.Resolvable (.inst i) := by
          simp [mem_values_build hd, FlowGraph.Resolvable, hfacts, hres, hi]
        rw [← hmem]
        exact some_known_eq_error
      next hres =>
        have hresolvable : g.Resolvable (.inst i) := by
          simp [FlowGraph.Resolvable, hfacts, hres, hi]
        constructor
        · intro h
          cases h
        · intro h
          exact absurd hresolvable h.1
    next hi =>
      -- an instruction that is not allocated is not listed, so the domain does not have it
      have hv : .inst i ∉ d.values := by
        intro hv
        obtain ⟨a, ha, -⟩ | ⟨j, facts, hj, hlisted, -⟩ := (mem_values_build hd).mp hv
        · cases ha
        · cases hj
          exact hi (hg.listed i hlisted)
      have hunresolved : ¬ g.Resolvable (.inst i) := fun hresolvable => hi hresolvable.1
      rw [some_known_eq_error]
      simp only [hv, hunresolved]

/-! ## Transfers -/

theorem lookup_of_gen_error {vs : List Value} (hx : x.Over d.size)
    (h : d.gen g x vs = .error e) : ∃ v ∈ vs, d.lookup g v = .error e := by
  unfold gen at h
  induction vs generalizing x with
  | nil => cases h
  | cons v vs ih =>
    rw [List.foldlM_cons, bind_eq_error] at h
    obtain h | ⟨z, hz, h⟩ := h
    · obtain h | ⟨r, hr, h⟩ := bind_eq_error.mp h
      · exact ⟨v, List.mem_cons_self, h⟩
      · obtain ⟨y, hy, -⟩ := insert_ok hx hr
        exact absurd (h.symm.trans hy) nofun
    · obtain ⟨r, hr, hz⟩ := bind_eq_ok.mp hz
      obtain ⟨y, hy, hover, -⟩ := insert_ok hx hr
      obtain rfl := Except.ok.inj (hy.symm.trans hz)
      obtain ⟨w, hw, he⟩ := ih hover h
      exact ⟨w, List.mem_cons_of_mem _ hw, he⟩

theorem lookup_of_fails_markInputs {es : List (Value × Block)} (hs : s.phiInputs.Sound d.size)
    (h : Fails (d.markInputs g es) s e) : ∃ p ∈ es, d.lookup g p.1 = .error e := by
  induction es generalizing s with
  | nil => cases h
  | cons p es ih =>
    have h : Fails (_ >>= fun _ => d.markInputs g es) s e := h
    obtain h | ⟨_, u, hu, h⟩ := fails_bind.mp h
    · obtain h | ⟨r, _, hr, h⟩ := fails_bind.mp h
      · exact ⟨p, List.mem_cons_self, fails_lift.mp h⟩
      · obtain ⟨hlookup, rfl⟩ := yields_lift.mp hr
        obtain ⟨t, ht, -⟩ := mark_yields hs hlookup p.2
        exact absurd h ht.not_fails
    · obtain ⟨r, _, hr, hu⟩ := yields_bind.mp hu
      obtain ⟨hlookup, rfl⟩ := yields_lift.mp hr
      obtain ⟨t, ht, hsound, -⟩ := mark_yields hs hlookup p.2
      obtain ⟨-, rfl⟩ := ht.unique hu
      obtain ⟨q, hq, he⟩ := ih hsound h
      exact ⟨q, List.mem_cons_of_mem _ hq, he⟩

theorem lookup_of_fails_withReads (hx : x.Over d.size) (hs : s.phiInputs.Sound d.size)
    (h : Fails (d.withReads g facts x) s e) : ∃ v ∈ sought facts, d.lookup g v = .error e := by
  unfold withReads at h
  unfold sought
  split at h
  next hphi =>
    rw [if_pos hphi]
    cases fails_bind.mp h with
    | inl h =>
      obtain ⟨p, hp, he⟩ := lookup_of_fails_markInputs hs h
      exact ⟨p.1, List.mem_map_of_mem hp, he⟩
    | inr h =>
      obtain ⟨_, u, -, h⟩ := h
      cases h
  next hphi =>
    rw [if_neg hphi]
    exact lookup_of_gen_error hx (fails_lift.mp h)

/-- The transfer of an instruction fails where a value that it looks up is not found. -/
theorem lookup_of_fails_transferInst (hfacts : g.facts.get? i = some facts)
    (hlt : i.index < s.before.size) (hx : x.Over d.size) (hs : s.phiInputs.Sound d.size)
    (h : Fails (d.transferInst g i x) s e) : ∃ v ∈ sought facts, d.lookup g v = .error e := by
  have hfail := h
  obtain ⟨z, hz, hover, -⟩ := unwritten_ok hfacts hx
  rw [transferInst_eq] at h
  have h := (h.of_yields (yields_liftFault.mpr ⟨Table.read_eq_ok.mpr hfacts, rfl⟩)).of_yields
    (yields_liftError.mpr ⟨hz, rfl⟩)
  cases fails_bind.mp h with
  | inl h => exact lookup_of_fails_withReads hover hs h
  | inr h =>
    -- if all lookups had succeeded, then so would have the transfer
    obtain ⟨y, u, hy, -⟩ := h
    have hcovers : d.Covers g i := ⟨facts, hfacts, lookup_of_withReads hy⟩
    obtain ⟨_, _, hyields, -⟩ := hcovers.transferInst hlt hx hs
    exact absurd hfail hyields.not_fails

theorem lookup_of_fails_foldrM {is : List Inst}
    (his : ∀ i ∈ is, (∃ facts, g.facts.get? i = some facts) ∧ i.index < s.before.size)
    (hx : x.Over d.size) (hs : s.phiInputs.Sound d.size)
    (h : Fails (is.foldrM (d.transferInst g) x) s e) :
    ∃ i ∈ is, ∃ facts, g.facts.get? i = some facts ∧
      ∃ v ∈ sought facts, d.lookup g v = .error e := by
  induction is with
  | nil => cases h
  | cons i is ih =>
    rw [List.foldrM_cons] at h
    cases fails_bind.mp h with
    | inl h =>
      obtain ⟨j, hj, hlookup⟩ := ih (fun j hj => his j (List.mem_cons_of_mem _ hj)) h
      exact ⟨j, List.mem_cons_of_mem _ hj, hlookup⟩
    | inr h =>
      obtain ⟨y, u, hy, h⟩ := h
      obtain ⟨-, hpassed⟩ := passedAll_of_yields hy hx hs
      obtain ⟨⟨facts, hfacts⟩, hlt⟩ := his i List.mem_cons_self
      exact ⟨i, List.mem_cons_self, facts, hfacts, lookup_of_fails_transferInst hfacts
        (hpassed.size.symm ▸ hlt) hpassed.sized hpassed.sound h⟩

/-- The transfer of a block fails where a value that one of its instructions looks up is not
found. -/
theorem lookup_of_fails (hg : g.Allocated) {b : Block} {n : Node} (hn : g.nodes.get? b = some n)
    (hx : x.Over d.size) (hs : d.Ready g s) (h : Fails (d.transferBlock g b x) s e) :
    ∃ v, g.Seeks v ∧ d.lookup g v = .error e := by
  have hinsts : Yields (liftM (g.insts b) : Recording LiveTables _) s n.insts s := by
    refine yields_liftFault.mpr ⟨?_, rfl⟩
    rw [FlowGraph.insts, bind_eq_ok]
    exact ⟨n, Table.read_eq_ok.mpr hn, rfl⟩
  have h : Fails (n.insts.foldrM (d.transferInst g) x) s e := by
    have hrest := Fails.of_yields h hinsts
    rwa [List.foldlM_reverse] at hrest
  have hlisted : ∀ i ∈ n.insts, i ∈ g.listed := fun i hi => FlowGraph.mem_listed.mpr ⟨b, n, hn, hi⟩
  have his : ∀ i ∈ n.insts,
      (∃ facts, g.facts.get? i = some facts) ∧ i.index < s.before.size := by
    intro i hi
    have hlt := hg.listed i (hlisted i hi)
    exact ⟨hg.exists_facts hlt, hs.size.symm ▸ hlt⟩
  obtain ⟨i, hi, facts, hfacts, v, hv, he⟩ := lookup_of_fails_foldrM his hx hs.sound h
  exact ⟨v, ⟨i, hlisted i hi, facts, hfacts, hv⟩, he⟩

end Domain

/-! ## Outcomes -/

namespace Liveness

variable {g : FlowGraph}

/-- How the analysis of a graph may end.  No case leaves room for another. -/
inductive Outcome (g : FlowGraph) : Except Failure Liveness → Prop where
  | invalidBlock {b : Block} : g.Dangling b → Outcome g (.error (.error (.invalidBlock b)))
  | unknownValue {v : Value} : g.InRange → g.Unknown v →
    Outcome g (.error (.error (.unknownValue v)))
  | ok {l : Liveness} : g.InRange → (∀ v, ¬ g.Unknown v) → Outcome g (.ok l)

/-- A graph with a dangling block is refused before any block is visited. -/
theorem analyze_of_badBlock? (hg : g.Allocated) {b : Block} (hb : g.badBlock? = some b) :
    analyze g = .error (.error (.invalidBlock b)) := by
  obtain ⟨d, hd⟩ := Domain.build_ok hg
  have hcheck : g.checkEdges = .error (.invalidBlock b) := by
    rw [FlowGraph.checkEdges, hb]
  rw [analyze_of_run hd (o := .error (.error (.invalidBlock b))) (t := .empty d g.numInsts)]
  · rfl
  · unfold Problem.solve
    exact run_bind_of_error (by rw [hcheck]; rfl)

/-- What a result was made from can be resolved, since its run went through all blocks. -/
theorem not_unknown_of_analyze (hg : g.Allocated) {l : Liveness} (hl : analyze g = .ok l)
    (v : Value) : ¬ g.Unknown v := by
  intro ⟨⟨i, hi, facts, hfacts, hv⟩, hunresolved⟩
  obtain ⟨b, n, hn, hin⟩ := FlowGraph.mem_listed.mp hi
  obtain ⟨_, _, -, -, -, -, hrec⟩ := exists_sides hl Domain.closed_true hn
  obtain ⟨⟨facts', hfacts', hsought⟩, -⟩ := hrec.covers i hin
  obtain rfl := Option.some.inj (hfacts.symm.trans hfacts')
  obtain ⟨r, hr⟩ := hsought v hv
  have herror := (Domain.lookup_eq_error_iff hg (solve_of_analyze hl).1).mpr ⟨hunresolved, rfl⟩
  exact absurd (hr.symm.trans herror) nofun

/-- The analysis of a graph ends in one of three ways, and the graph tells in which. -/
theorem outcome_of_analyze (hg : g.Allocated) : Outcome g (analyze g) := by
  cases hbad : g.badBlock? with
  | some b =>
    rw [analyze_of_badBlock? hg hbad]
    exact .invalidBlock (FlowGraph.dangling_of_badBlock? hbad)
  | none =>
    have hrange : g.InRange := FlowGraph.badBlock?_eq_none_iff.mp hbad
    obtain ⟨d, hd⟩ := Domain.build_ok hg
    obtain ⟨r, s, calls, o, t, hacc, hrising, hends, hall⟩ :=
      (Domain.liveness_bounded (d := d) hrange).solve_ends hrange
        (Domain.liveness_ascending.rising_start Domain.ready_empty)
    have hl := analyze_of_run hd (hall _ (Nat.le_refl _)).1
    cases hends with
    | done hq =>
      have hl : analyze g = .ok ⟨d, r.solution, s⟩ := hl
      rw [hl]
      exact .ok hrange (not_unknown_of_analyze hg hl)
    | @failed b rest x e t hq hx he =>
      have hl : analyze g = .error e := hl
      obtain ⟨n, hn⟩ := Table.exists_get? (t := g.nodes) (hacc.inRange b (Worklist.mem_of_pop? hq))
      obtain ⟨x', hx', hover⟩ := Domain.liveness_ascending.input_ok hrange hacc hrising hn
      obtain rfl := Except.ok.inj (hx.symm.trans hx')
      have hfails : Fails (d.transferBlock g b x) s e := congrArg Prod.fst he
      obtain ⟨v, hv, hlookup⟩ := Domain.lookup_of_fails hg hn hover hrising.record hfails
      obtain ⟨hunresolved, rfl⟩ := (Domain.lookup_eq_error_iff hg hd).mp hlookup
      rw [hl]
      exact .unknownValue hrange ⟨hv, hunresolved⟩

/-- A procedure that lists only instructions it has is analysed, unless a block or a value is
missing.  An error names what is missing.  A missing block is found before any value. -/
theorem analyze_fails_iff {p : Procedure} (hp : ∀ i ∈ p.graph.listed, i.index < p.insts.size) :
    ((∃ b, p.graph.numBlocks ≤ b.index ∧ analyze p.graph = .error (.error (.invalidBlock b))) ↔
      ∃ b, p.graph.Dangling b) ∧
    ((∀ b, ¬ p.graph.Dangling b) →
      ((∃ v, analyze p.graph = .error (.error (.unknownValue v))) ↔ ∃ v, p.graph.Unknown v)) ∧
    ((∃ l, analyze p.graph = .ok l) ↔
      (∀ b, ¬ p.graph.Dangling b) ∧ ∀ v, ¬ p.graph.Unknown v) ∧
    ∀ e, analyze p.graph = .error e →
      (∃ b, e = .error (.invalidBlock b) ∧ p.graph.Dangling b) ∨
        ∃ v, e = .error (.unknownValue v) ∧ p.graph.Unknown v := by
  have hg : p.graph.Allocated := ⟨Table.size_map _, hp⟩
  have houtcome := outcome_of_analyze hg
  generalize analyze p.graph = r at houtcome ⊢
  cases houtcome with
  | @invalidBlock b hb =>
    refine ⟨⟨fun _ => ⟨b, hb⟩, fun _ => ⟨b, hb.2.2, rfl⟩⟩, fun hnone => absurd hb (hnone b),
      ⟨nofun, fun hnone => absurd hb (hnone.1 b)⟩, fun e he => ?_⟩
    cases he
    exact .inl ⟨b, rfl, hb⟩
  | @unknownValue v hrange hv =>
    refine ⟨⟨nofun, fun ⟨b, hb⟩ => absurd hb (hrange.not_dangling b)⟩,
      fun _ => ⟨fun _ => ⟨v, hv⟩, fun _ => ⟨v, rfl⟩⟩,
      ⟨nofun, fun hnone => absurd hv (hnone.2 v)⟩, fun e he => ?_⟩
    cases he
    exact .inr ⟨v, rfl, hv⟩
  | @ok l hrange hnone =>
    exact ⟨⟨nofun, fun ⟨b, hb⟩ => absurd hb (hrange.not_dangling b)⟩,
      fun _ => ⟨nofun, fun ⟨v, hv⟩ => absurd hv (hnone v)⟩,
      ⟨fun _ => ⟨hrange.not_dangling, hnone⟩, fun _ => ⟨l, rfl⟩⟩, nofun⟩

/-- A procedure with a block that nothing leads to and that returns the result of an instruction
which no block lists. -/
def unplaced : Procedure where
  name := "unplaced"
  args := .ofList ["a"]
  entry := ⟨0⟩
  blocks := .ofList [{ name := "entry", insts := [⟨0⟩] }, { name := "dead", insts := [⟨1⟩] }]
  insts := .ofList [
    { op := .terminator (.ret [.arg ⟨0⟩]) },
    { op := .terminator (.ret [.arg ⟨0⟩, .inst ⟨2⟩]) },
    { op := .compute "load" [] true }]
  placed := .empty

theorem analyze_fails_iff_unplaced :
    (∀ i ∈ unplaced.graph.listed, i.index < unplaced.insts.size) ∧
      (∀ b, ¬ unplaced.graph.Dangling b) ∧ unplaced.graph.Unknown (.inst ⟨2⟩) ∧
      ∃ v, analyze unplaced.graph = .error (.error (.unknownValue v)) := by
  have hp : ∀ i ∈ unplaced.graph.listed, i.index < unplaced.insts.size := by decide +kernel
  have hrange : unplaced.graph.InRange :=
    FlowGraph.badBlock?_eq_none_iff.mp (by decide +kernel)
  have hlisted : unplaced.graph.listed = [⟨0⟩, ⟨1⟩] := by decide +kernel
  have hfacts (i : Inst) : unplaced.graph.facts.get? i =
      (unplaced.insts.get? i).map fun d => d.op.facts := Table.get?_map ..
  have hunknown : unplaced.graph.Unknown (.inst ⟨2⟩) := by
    refine ⟨⟨⟨1⟩, by simp [hlisted], _, (hfacts ⟨1⟩).trans rfl, by decide⟩, fun hresolvable => ?_⟩
    have hmem := hresolvable.2 _ ((hfacts ⟨2⟩).trans rfl) rfl
    rw [hlisted] at hmem
    exact absurd hmem (by decide)
  obtain ⟨-, hvalue, -⟩ := analyze_fails_iff hp
  exact ⟨hp, hrange.not_dangling, hunknown, (hvalue hrange.not_dangling).mpr ⟨_, hunknown⟩⟩

end Liveness

end SsaFlow
