import SsaFlow.Proofs.Domains
import SsaFlow.Proofs.Members

/-!
# Numbers of values

The values of a domain are the arguments, then the listed instructions with a result, each
at the place of its first occurrence.  No value is there twice, so numbers and values go
one to one, and a set of numbers is read as the list of its values and back
(`Domain.Numbers`).

Numbers can also be kept in a map that grows with the list (`Domain.Register`).  A value
that the map has is passed over, any other gets the length of the list.  The map and the
list stay in line (`Domain.Register.InLine`), so it does not matter which of them is asked.
-/

namespace SsaFlow

/-! ## First occurrences -/

section

variable {α β : Type} [DecidableEq α] [DecidableEq β]

theorem eraseDups_of_nodup {xs : List α} (h : xs.Nodup) : xs.eraseDups = xs := by
  induction xs using List.reverseRecOn with
  | nil => rfl
  | append_singleton xs a ih =>
    obtain ⟨hxs, -, hdisjoint⟩ := List.nodup_append.mp h
    have ha : a ∉ xs := fun hmem => hdisjoint a hmem a (List.mem_singleton_self a) rfl
    rw [eraseDups_concat, if_neg ha, ih hxs]

theorem eraseDups_map {f : α → β} (hf : Function.Injective f) (xs : List α) :
    (xs.map f).eraseDups = xs.eraseDups.map f := by
  induction xs using List.reverseRecOn with
  | nil => rfl
  | append_singleton xs a ih =>
    rw [List.map_append, List.map_singleton, eraseDups_concat, eraseDups_concat, ih]
    simp only [List.mem_map_of_injective hf]
    split
    next => rfl
    next => rw [List.map_append, List.map_singleton]

/-- What is left is ordered by first occurrence. -/
theorem pairwise_idxOf_eraseDups (p : α → Bool) (xs : List α) :
    (xs.filter p).eraseDups.Pairwise fun a b => xs.idxOf a < xs.idxOf b := by
  induction xs using List.reverseRecOn with
  | nil => exact .nil
  | append_singleton xs x ih =>
    have hmem : ∀ {a}, a ∈ (xs.filter p).eraseDups → a ∈ xs := fun ha =>
      (List.mem_filter.mp (List.mem_eraseDups.mp ha)).1
    have hold : (xs.filter p).eraseDups.Pairwise fun a b =>
        (xs ++ [x]).idxOf a < (xs ++ [x]).idxOf b := by
      refine ih.imp_of_mem fun ha hb hlt => ?_
      rwa [List.idxOf_append_of_mem (hmem ha), List.idxOf_append_of_mem (hmem hb)]
    rw [List.filter_append]
    cases hp : p x with
    | false => simpa [hp] using hold
    | true =>
      rw [List.filter_singleton, hp, cond_true, eraseDups_concat]
      split
      next => exact hold
      next hx =>
        refine List.pairwise_append.mpr ⟨hold, List.pairwise_singleton _ _, fun a ha b hb => ?_⟩
        obtain rfl := List.mem_singleton.mp hb
        have hb' : b ∉ xs := fun hmem => hx (List.mem_filter.mpr ⟨hmem, hp⟩)
        rw [List.idxOf_append_of_mem (hmem ha), List.idxOf_append_of_notMem hb']
        exact Nat.lt_add_right _ (List.idxOf_lt_length_of_mem (hmem ha))

end

/-! ## The values of a graph -/

namespace FlowGraph

/-- Whether an instruction has facts, and a result by them. -/
def hasResult (g : FlowGraph) (i : Inst) : Bool :=
  ((g.facts.get? i).map InstFacts.hasResult).getD false

/-- All that is to be numbered, with repetitions. -/
def tracked (g : FlowGraph) : List Value :=
  (Handle.first g.numArgs).map .arg ++ (g.listed.filter g.hasResult).map .inst

end FlowGraph

namespace Domain

variable {d : Domain} {g : FlowGraph} {v w : Value} {k : Nat}

theorem nodup_ofValues (vs : List Value) : (ofValues vs).values.Nodup := by
  have hpairwise := pairwise_idxOf_eraseDups (fun _ => true) vs
  rw [List.filter_true, ← values_ofValues] at hpairwise
  refine hpairwise.imp fun {v w} hlt => ?_
  rintro rfl
  exact Nat.lt_irrefl _ hlt

/-- If all that is listed has facts, the domain is built. -/
theorem build_eq_ofValues (h : ∀ i ∈ g.listed, i.index < g.facts.size) :
    build g = .ok (ofValues g.tracked) := by
  have hread : ∀ i ∈ g.listed, (do return (← g.facts.read i).hasResult : Except Fault Bool) =
      .ok (g.hasResult i) := by
    intro i hi
    obtain ⟨facts, hfacts⟩ := Table.exists_get? (h i hi)
    refine bind_eq_ok.mpr ⟨facts, Table.read_eq_ok.mpr hfacts, ?_⟩
    rw [FlowGraph.hasResult, hfacts]
    rfl
  obtain ⟨results, hresults⟩ := filterM_ok fun i hi => ⟨_, hread i hi⟩
  obtain ⟨-, heq⟩ := filterM_eq_ok hresults
  have hfilter : results = g.listed.filter g.hasResult := by
    rw [heq]
    refine List.filter_congr fun i hi => ?_
    rw [hread i hi]
    simp
  rw [build, hresults, hfilter]
  rfl

/-- The arguments come first, and then the instructions. -/
theorem values_ofValues_tracked (g : FlowGraph) :
    (ofValues g.tracked).values = (Handle.first g.numArgs).map .arg ++
      (g.listed.filter g.hasResult).eraseDups.map .inst := by
  have hargs : ((Handle.first g.numArgs).map Value.arg).Nodup :=
    (Handle.nodup_first .arg g.numArgs).map fun _ _ heq => Value.arg.inj heq
  have hkinds : ((g.listed.filter g.hasResult).map Value.inst).removeAll
      ((Handle.first g.numArgs).map .arg) = (g.listed.filter g.hasResult).map .inst := by
    refine List.filter_eq_self.mpr fun v hv => ?_
    obtain ⟨i, -, rfl⟩ := List.mem_map.mp hv
    simp
  rw [values_ofValues, FlowGraph.tracked, List.eraseDups_append, eraseDups_of_nodup hargs, hkinds,
    eraseDups_map fun _ _ heq => Value.inst.inj heq]

/-- In a list without repetitions a value is at its number and nowhere else. -/
theorem indexOf?_eq_some_iff (h : d.values.Nodup) :
    d.indexOf? v = some k ↔ d.values[k]? = some v := by
  constructor
  · exact getElem?_of_indexOf?
  · intro hk
    obtain ⟨hlt, rfl⟩ := List.getElem?_eq_some_iff.mp hk
    refine List.idxOf?_eq_some_iff.mpr ⟨hlt, rfl, fun j hj heq => ?_⟩
    exact Nat.ne_of_lt hj (h.getElem_inj_iff.mp heq)

/-! ## A map beside the list -/

/-- Values in the order of their numbers, with a map from each to its number. -/
structure Register where
  /-- The values. -/
  values : List Value
  /-- The numbers of the values. -/
  index : List (Value × Nat)

namespace Register

/-- Numbers a value, unless the map has a number for it. -/
def add (r : Register) (v : Value) : Register :=
  match r.index.lookup v with
  | some _ => r
  | none => ⟨r.values ++ [v], (v, r.values.length) :: r.index⟩

/-- The register of a list of values. -/
def ofValues (vs : List Value) : Register := vs.foldl add ⟨[], []⟩

/-- The map finds a value at the number that the list has it at. -/
def InLine (r : Register) : Prop :=
  ∀ v k, r.index.lookup v = some k ↔ r.values[k]? = some v

variable {r : Register}

theorem getElem?_concat_eq_some {vs : List Value} :
    (vs ++ [v])[k]? = some w ↔ vs[k]? = some w ∨ k = vs.length ∧ w = v := by
  rw [List.getElem?_append]
  split
  next hlt => simp [Nat.ne_of_lt hlt]
  next hge =>
    have hnone : vs[k]? = none := List.getElem?_eq_none (Nat.not_lt.mp hge)
    have hzero : k - vs.length = 0 ↔ k = vs.length := by omega
    simp [hnone, List.getElem?_singleton, hzero, eq_comm]

theorem InLine.mem_iff (h : r.InLine) : v ∈ r.values ↔ ∃ k, r.index.lookup v = some k := by
  rw [List.mem_iff_getElem?]
  exact exists_congr fun k => (h v k).symm

/-- A new value gets the next number in both. -/
theorem InLine.add (h : r.InLine) (v : Value) : (r.add v).InLine := by
  rw [Register.add]
  split
  next => exact h
  next hnone =>
    have hnew : ∀ k : Nat, r.values[k]? ≠ some v := by
      intro k hk
      rw [← h, hnone] at hk
      cases hk
    intro w k
    rw [getElem?_concat_eq_some, List.lookup_cons]
    by_cases hw : w = v
    · rw [hw, beq_self_eq_true]
      simp [hnew k, eq_comm]
    · rw [beq_false_of_ne hw]
      simp [h w k, hw]

/-- The map leads to the same list as looking through it. -/
theorem values_add (h : r.InLine) (hd : r.values = d.values) (v : Value) :
    (r.add v).values = (d.add v).values := by
  rw [add, Domain.add, ← hd]
  cases hv : r.index.lookup v with
  | some k =>
    rw [if_pos (h.mem_iff.mpr ⟨k, hv⟩)]
    exact hd
  | none =>
    have hmem : v ∉ r.values := by
      intro hmem
      obtain ⟨k, hk⟩ := h.mem_iff.mp hmem
      rw [hv] at hk
      cases hk
    rw [if_neg hmem]

/-- All the way through a list of values, the map and the list stay in line. -/
theorem ofValues_inLine (vs : List Value) :
    (ofValues vs).InLine ∧ (ofValues vs).values = (Domain.ofValues vs).values := by
  suffices hrun : ∀ (vs : List Value) (r : Register) (d : Domain), r.InLine → r.values = d.values →
      (vs.foldl add r).InLine ∧ (vs.foldl add r).values = (vs.foldl Domain.add d).values by
    refine hrun vs ⟨[], []⟩ ⟨[]⟩ (fun v k => ?_) rfl
    simp
  intro vs
  induction vs with
  | nil => exact fun r d hr hd => ⟨hr, hd⟩
  | cons v vs ih => exact fun r d hr hd => ih (r.add v) (d.add v) (hr.add v) (values_add hr hd v)

end Register

/-! ## Sets of numbers -/

/-- Only the places where something is found count. -/
theorem filterMap_range_congr {α : Type} {f : Nat → Option α} {m n : Nat}
    (hm : ∀ j, m ≤ j → f j = none) (hn : ∀ j, n ≤ j → f j = none) :
    (List.range m).filterMap f = (List.range n).filterMap f := by
  have hadd : ∀ {m}, (∀ j, m ≤ j → f j = none) → ∀ k,
      (List.range (m + k)).filterMap f = (List.range m).filterMap f := by
    intro m hm k
    have hrest : ((List.range k).map (m + ·)).filterMap f = [] := by
      refine List.filterMap_eq_nil_iff.mpr fun j hj => ?_
      obtain ⟨i, -, rfl⟩ := List.mem_map.mp hj
      exact hm _ (Nat.le_add_right m i)
    rw [List.range_add, List.filterMap_append, hrest, List.append_nil]
  rcases Nat.le_total m n with hle | hle
  · rw [← Nat.add_sub_cancel' hle, hadd hm]
  · rw [← Nat.add_sub_cancel' hle, hadd hn]

/-- The members of a set, ascending, as values. -/
theorem valuesIn_eq {s : BitSet} (hs : s.len = d.size) :
    d.valuesIn s = ((List.range s.len).filter s.contains).filterMap d.value? := by
  have hvalue : ∀ j, s.len ≤ j → d.value? j = none := by
    intro j hj
    exact List.getElem?_eq_none (Nat.le_trans (Nat.le_of_eq hs.symm) hj)
  have hbit : ∀ j ∈ List.range s.len, s.contains j = s.hasBit j := by
    intro j hj
    simp [BitSet.contains, List.mem_range.mp hj]
  rw [valuesIn, BitSet.ones_eq, List.filter_congr hbit, List.filterMap_filter, List.filterMap_filter]
  apply filterMap_range_congr
  · intro j hj
    simp [BitSet.hasBit_of_size_le hj]
  · intro j hj
    simp [hvalue j hj]

/-- Reading a list of numbers as values and back gives the numbers. -/
theorem map_indexOf?_filterMap (h : d.values.Nodup) {ks : List Nat} (hks : ∀ k ∈ ks, k < d.size) :
    (ks.filterMap d.value?).map d.indexOf? = ks.map some := by
  rw [List.map_filterMap, ← List.filterMap_eq_map]
  refine List.filterMap_congr fun k hk => ?_
  obtain ⟨v, hv⟩ : ∃ v, d.value? k = some v := ⟨_, List.getElem?_eq_getElem (hks k hk)⟩
  rw [hv, Option.map_some, (indexOf?_eq_some_iff h).mpr hv]
  rfl

/-- Numbers and values go one to one.  The values are the arguments, then the listed instructions
with a result by first occurrence. -/
structure Numbers (d : Domain) (g : FlowGraph) : Prop where
  nodup : d.values.Nodup
  order : ∃ results : List Inst,
    d.values = (Handle.first g.numArgs).map .arg ++ results.map .inst ∧
      (∀ i, i ∈ results ↔ i ∈ g.listed ∧ g.hasResult i = true) ∧
      results.Pairwise fun i j => g.listed.idxOf i < g.listed.idxOf j
  index : ∀ v k, d.indexOf? v = some k ↔ d.values[k]? = some v
  register : (Register.ofValues g.tracked).values = d.values ∧
    ∀ v, (Register.ofValues g.tracked).index.lookup v = d.indexOf? v
  valuesIn : ∀ s : BitSet, s.len = d.size →
    (∀ v, v ∈ d.valuesIn s ↔ ∃ k, d.values[k]? = some v ∧ s.contains k = true) ∧
      (d.valuesIn s).map d.indexOf? = ((List.range s.len).filter s.contains).map some

/-- A graph whose listed instructions all have facts has a domain, whether or not it lists one
several times. -/
theorem build_numbers (h : ∀ i ∈ g.listed, i.index < g.facts.size) :
    ∃ d, build g = .ok d ∧ d.Numbers g := by
  have hnodup := nodup_ofValues g.tracked
  obtain ⟨hinLine, hvalues⟩ := Register.ofValues_inLine g.tracked
  refine ⟨ofValues g.tracked, build_eq_ofValues h, hnodup, ?_, ?_, ⟨hvalues, ?_⟩, ?_⟩
  · refine ⟨_, values_ofValues_tracked g, fun i => ?_, pairwise_idxOf_eraseDups _ _⟩
    rw [List.mem_eraseDups, List.mem_filter]
  · exact fun v k => indexOf?_eq_some_iff hnodup
  · intro v
    refine Option.ext fun k => ?_
    rw [hinLine, hvalues, indexOf?_eq_some_iff hnodup]
  · intro s hs
    rw [valuesIn_eq hs]
    constructor
    · intro v
      rw [List.mem_filterMap]
      refine exists_congr fun k => ?_
      have hlt : (ofValues g.tracked).values[k]? = some v → k < s.len := by
        intro hk
        rw [hs]
        exact (List.getElem?_eq_some_iff.mp hk).1
      rw [List.mem_filter, List.mem_range, value?]
      constructor
      · exact fun ⟨⟨_, hbit⟩, hk⟩ => ⟨hk, hbit⟩
      · exact fun ⟨hk, hbit⟩ => ⟨⟨hlt hk, hbit⟩, hk⟩
    · refine map_indexOf?_filterMap hnodup fun k hk => ?_
      rw [← hs]
      exact List.mem_range.mp (List.mem_filter.mp hk).1

/-- Two blocks that share an instruction, the first of which lists another one twice. -/
def relisted : FlowGraph where
  entry := ⟨0⟩
  numArgs := 2
  numInsts := 4
  nodes := .ofList [{ insts := [⟨2⟩, ⟨0⟩, ⟨2⟩] }, { insts := [⟨0⟩, ⟨1⟩, ⟨3⟩] }]
  facts := .ofList [{ hasResult := true }, { kind := .terminator },
    { kind := .phi, hasResult := true }, { hasResult := true }]

theorem build_numbers_relisted :
    (∀ i ∈ relisted.listed, i.index < relisted.facts.size) ∧
      Numbers ⟨[.arg ⟨0⟩, .arg ⟨1⟩, .inst ⟨2⟩, .inst ⟨0⟩, .inst ⟨3⟩]⟩ relisted := by
  have hlisted : ∀ i ∈ relisted.listed, i.index < relisted.facts.size := by decide
  have hvalue : build relisted =
      .ok ⟨[.arg ⟨0⟩, .arg ⟨1⟩, .inst ⟨2⟩, .inst ⟨0⟩, .inst ⟨3⟩]⟩ := by decide
  obtain ⟨d, hd, h⟩ := build_numbers hlisted
  obtain rfl := Except.ok.inj (hvalue.symm.trans hd)
  exact ⟨hlisted, h⟩

end Domain

end SsaFlow
