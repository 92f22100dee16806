import SsaFlow.Proofs.PhiIsolation
import SsaFlow.Proofs.StableResults

/-!
# Stale inputs of phis

A result is checked against a graph whose phis have other inputs than those it was
made for, and that is the same in everything else.  The round of the check then goes
through, since the sets of the result are those of the graph
(`Liveness.withoutInputs_eq`).  So the tables of phi inputs decide.

If they differ, then there is a block at which they differ, and it has an entry in
one of the two.  The search for it goes through the entries of the result first, and
through both in ascending order.  So the block that is named is the least one among
those with an entry in the result, or else among those with an entry in the table of
the graph (`PhiInputs.exists_differingPred?`).
-/

namespace SsaFlow

namespace PhiInputs

variable {t u : PhiInputs} {pred q : Block}

/-- The least block with an entry in `t` at which the tables differ. -/
structure LeastDiffering (t u : PhiInputs) (pred : Block) : Prop where
  entry : (t.get? pred).isSome
  differs : t.get? pred ≠ u.get? pred
  least : ∀ q, (t.get? q).isSome → t.get? q ≠ u.get? q → pred.index ≤ q.index

theorem mem_preds : q ∈ t.entries.map Prod.fst ↔ (t.get? q).isSome := by
  simp [entries, get?, HandleMap.get?, List.lookup_isSome_iff, eq_comm (a := q)]

/-- Going through the predecessors in order finds the least one that passes a test. -/
theorem le_of_find?_preds {P : Block → Bool}
    (h : (t.entries.map Prod.fst).find? P = some pred) (hq : (t.get? q).isSome) (hP : P q = true) :
    pred.index ≤ q.index := by
  obtain ⟨-, before, after, hsplit, hbefore⟩ := List.find?_eq_some_iff_append.mp h
  have hsorted : (before ++ pred :: after).Pairwise fun a b => a.index < b.index := by
    rw [← hsplit, List.pairwise_map]
    exact t.edges.sorted
  have hmem : q ∈ before ++ pred :: after := hsplit ▸ mem_preds.mpr hq
  rcases List.mem_append.mp hmem with hmem | hmem
  · have := hbefore q hmem
    simp [hP] at this
  · rcases List.mem_cons.mp hmem with rfl | hmem
    · exact Nat.le_refl _
    · have hlt := (List.pairwise_cons.mp (List.pairwise_append.mp hsorted).2.1).1 q hmem
      exact Nat.le_of_lt hlt

theorem leastDiffering_of_find?
    (h : (t.entries.map Prod.fst).find? (fun q => t.get? q ≠ u.get? q) = some pred) :
    t.LeastDiffering u pred where
  entry := mem_preds.mp (List.mem_of_find?_eq_some h)
  differs := by simpa using List.find?_some h
  least q hq hne := le_of_find?_preds h hq (by simpa using hne)

theorem get?_eq_of_find?_eq_none
    (h : (t.entries.map Prod.fst).find? (fun q => t.get? q ≠ u.get? q) = none)
    (hq : (t.get? q).isSome) : t.get? q = u.get? q := by
  simpa using List.find?_eq_none.mp h q (mem_preds.mpr hq)

/-- If two tables over the same positions differ, then a block is found at which they do. -/
theorem exists_differingPred? (hlen : t.domainLen = u.domainLen) (hne : t ≠ u) :
    ∃ pred, Liveness.differingPred? t u = some pred ∧
      (t.LeastDiffering u pred ∨
        (∀ q, (t.get? q).isSome → t.get? q = u.get? q) ∧ u.LeastDiffering t pred) := by
  unfold Liveness.differingPred?
  rw [List.map_append, List.find?_append]
  cases ht : (t.entries.map Prod.fst).find? (fun q => t.get? q ≠ u.get? q) with
  | some pred => exact ⟨pred, rfl, .inl (leastDiffering_of_find? ht)⟩
  | none =>
    have hold : ∀ q, (t.get? q).isSome → t.get? q = u.get? q := fun q hq =>
      get?_eq_of_find?_eq_none ht hq
    simp only [ne_comm (a := t.get? _)]
    cases hu : (u.entries.map Prod.fst).find? (fun q => u.get? q ≠ t.get? q) with
    | some pred => exact ⟨pred, rfl, .inr ⟨hold, leastDiffering_of_find? hu⟩⟩
    | none =>
      -- a block without an entry in either table cannot tell them apart
      refine absurd (ext_get? hlen fun q => ?_) hne
      cases hq : t.get? q with
      | some s => rw [← hold q (by rw [hq]; rfl), hq]
      | none =>
        cases hq' : u.get? q with
        | some s => rw [← hq, ← get?_eq_of_find?_eq_none hu (by rw [hq']; rfl), hq']
        | none => rfl

end PhiInputs

namespace Liveness

variable {f g : FlowGraph} {l r : Liveness}

theorem domainLen_eq (hdomain : l.domain = r.domain) (hl : analyze f = .ok l)
    (hr : analyze g = .ok r) : l.tables.phiInputs.domainLen = r.tables.phiInputs.domainLen := by
  have hlen := (ready_of_analyze hl).sound.domainLen
  rw [hdomain] at hlen
  exact hlen.trans (ready_of_analyze hr).sound.domainLen.symm

theorem phiInputs_eq_iff (hlen : l.tables.phiInputs.domainLen = r.tables.phiInputs.domainLen) :
    l.tables.phiInputs = r.tables.phiInputs ↔ ∀ p, l.phiEdge? p = r.phiEdge? p := by
  constructor
  · intro h p
    rw [phiEdge?, phiEdge?, h]
  · intro h
    exact PhiInputs.ext_get? hlen h

/-- On a graph with other inputs of phis, the tables of these decide about a result. -/
theorem check_of_withoutInputs_eq (hsame : f.withoutInputs = g.withoutInputs)
    (hg : g.Mirrored .backward) (hlisted : g.listed.Nodup) (hl : analyze f = .ok l)
    (hr : analyze g = .ok r) :
    ∃ fresh, Yields (l.solution.check (l.domain.liveness g) g) (.empty l.domain g.numInsts) ()
        fresh ∧ fresh.phiInputs = r.tables.phiInputs ∧
      l.check g = if l.tables.phiInputs = fresh.phiInputs then .ok () else
        .error (.error (.notAFixpoint
          ((differingPred? l.tables.phiInputs fresh.phiInputs).getD g.entry))) := by
  obtain ⟨hdomain, hsolution, hbefore⟩ :=
    parts_eq_of_withoutInputs_eq (withoutInputs_eq hsame hl hr)
  obtain ⟨fresh, hround, hsets, hphi⟩ := exists_agreeing_round hg hlisted hr
  rw [← hdomain, ← hsolution] at hround
  rw [← hbefore] at hsets
  exact ⟨fresh, hround, hphi.symm, check_of_round hround hsets⟩

/-- A result is accepted for a graph with other inputs of phis just when it has the table of the
graph.  Otherwise the check names the least block with an entry in the result at which the tables
differ, or, if all entries of the result are those of the graph, the least such block with an entry
for the graph.  The entry of the graph never stands in for that block. -/
theorem check_stale_inputs (hsame : f.withoutInputs = g.withoutInputs)
    (hg : g.Mirrored .backward) (hlisted : g.listed.Nodup) (hl : analyze f = .ok l)
    (hr : analyze g = .ok r) :
    (l.check g = .ok () ↔ ∀ p, l.phiEdge? p = r.phiEdge? p) ∧
      ((∃ p, l.phiEdge? p ≠ r.phiEdge? p) → ∃ p fresh,
        Yields (l.solution.check (l.domain.liveness g) g) (.empty l.domain g.numInsts) () fresh ∧
        differingPred? l.tables.phiInputs fresh.phiInputs = some p ∧
        l.check g = .error (.error (.notAFixpoint p)) ∧
        (l.tables.phiInputs.LeastDiffering r.tables.phiInputs p ∨
          (∀ q, (l.phiEdge? q).isSome → l.phiEdge? q = r.phiEdge? q) ∧
          r.tables.phiInputs.LeastDiffering l.tables.phiInputs p)) := by
  obtain ⟨hdomain, -⟩ := parts_eq_of_withoutInputs_eq (withoutInputs_eq hsame hl hr)
  obtain ⟨fresh, hround, hfresh, hcheck⟩ := check_of_withoutInputs_eq hsame hg hlisted hl hr
  have hlen := domainLen_eq hdomain hl hr
  rw [hfresh] at hcheck
  constructor
  · rw [← phiInputs_eq_iff hlen, hcheck]
    split
    next heq => exact ⟨fun _ => heq, fun _ => rfl⟩
    next hne => exact ⟨nofun, fun heq => absurd heq hne⟩
  · intro ⟨q, hq⟩
    have hne : l.tables.phiInputs ≠ r.tables.phiInputs := fun heq =>
      hq ((phiInputs_eq_iff hlen).mp heq q)
    obtain ⟨p, hp, hleast⟩ := PhiInputs.exists_differingPred? hlen hne
    refine ⟨p, fresh, hround, hfresh ▸ hp, ?_, hleast⟩
    rw [hcheck, if_neg hne, hp, Option.getD_some]

/-- The result of `selfLoop` has an input from the second block that `fewerInputs` lacks.  The second
block is named, and not the entry. -/
theorem check_stale_inputs_selfLoop :
    selfLoop.withoutInputs = fewerInputs.withoutInputs ∧ fewerInputs.Mirrored .backward ∧
      fewerInputs.listed.Nodup ∧ analyze selfLoop = .ok selfLoopLive ∧
      analyze fewerInputs = .ok fewerInputsLive ∧
      selfLoopLive.phiEdge? ⟨1⟩ ≠ fewerInputsLive.phiEdge? ⟨1⟩ ∧
      selfLoopLive.check fewerInputs ≠ .ok () ∧
      ∃ p fresh, Yields (selfLoopLive.solution.check (selfLoopLive.domain.liveness fewerInputs)
          fewerInputs) (.empty selfLoopLive.domain fewerInputs.numInsts) () fresh ∧
        differingPred? selfLoopLive.tables.phiInputs fresh.phiInputs = some p ∧
        selfLoopLive.check fewerInputs = .error (.error (.notAFixpoint p)) ∧ p = ⟨1⟩ := by
  have hsame : selfLoop.withoutInputs = fewerInputs.withoutInputs := by decide +kernel
  have hg : fewerInputs.Mirrored .backward := by decide
  have hlisted : fewerInputs.listed.Nodup := by decide
  have hdiff : selfLoopLive.phiEdge? ⟨1⟩ ≠ fewerInputsLive.phiEdge? ⟨1⟩ := by decide
  obtain ⟨hiff, hblame⟩ :=
    check_stale_inputs hsame hg hlisted analyze_selfLoop analyze_fewerInputs
  obtain ⟨p, fresh, hround, hfound, hcheck, hleast⟩ := hblame ⟨⟨1⟩, hdiff⟩
  refine ⟨hsame, hg, hlisted, analyze_selfLoop, analyze_fewerInputs, hdiff,
    fun hok => hdiff (hiff.mp hok ⟨1⟩), p, fresh, hround, hfound, hcheck, ?_⟩
  rcases hleast with hleast | ⟨hagree, -⟩
  · have hle : p.index ≤ 1 := hleast.least ⟨1⟩ (by decide) hdiff
    obtain ⟨n⟩ := p
    match n, hle with
    | 0, _ => exact absurd rfl hleast.differs
    | 1, _ => rfl
  · exact absurd (hagree ⟨1⟩ (by decide)) hdiff

/-- The other way round the result has no entry for the second block. -/
example : fewerInputsLive.check selfLoop = .error (.error (.notAFixpoint ⟨1⟩)) := by decide +kernel

end Liveness

end SsaFlow
