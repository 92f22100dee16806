import Mathlib.Data.List.Induction
import SsaFlow.Liveness.Domain
import SsaFlow.Proofs.Tables

/-!
# Tracked values

The domain of a graph has the arguments and the listed instructions with a
result (`Domain.mem_values_build`).  A value stands at its number, so no two
values share one.  An operand is looked up to a number just when it is tracked
(`Domain.lookup_build`), and the numbers found are below the size of the domain.
-/

namespace SsaFlow

theorem filterAuxM_eq_ok {α ε : Type} {f : α → Except ε Bool} :
    ∀ {xs acc ys : List α}, xs.filterAuxM f acc = .ok ys →
      (∀ x ∈ xs, ∃ c, f x = .ok c) ∧
        ys = (xs.filter fun x => decide (f x = .ok true)).reverse ++ acc
  | [], acc, ys, h => by
    rw [List.filterAuxM, pure_eq_ok] at h
    simp [h]
  | x :: xs, acc, ys, h => by
    rw [List.filterAuxM, bind_eq_ok] at h
    obtain ⟨c, hc, h⟩ := h
    obtain ⟨hall, rfl⟩ := filterAuxM_eq_ok h
    refine ⟨List.forall_mem_cons.mpr ⟨⟨c, hc⟩, hall⟩, ?_⟩
    cases c with
    | false => simp [hc]
    | true => simp [hc]

/-- A filter that succeeds keeps what the test accepts, and the test never failed. -/
theorem filterM_eq_ok {α ε : Type} {f : α → Except ε Bool} {xs ys : List α}
    (h : xs.filterM f = .ok ys) :
    (∀ x ∈ xs, ∃ c, f x = .ok c) ∧ ys = xs.filter fun x => decide (f x = .ok true) := by
  rw [List.filterM, bind_eq_ok] at h
  obtain ⟨zs, hzs, h⟩ := h
  obtain ⟨hall, rfl⟩ := filterAuxM_eq_ok hzs
  rw [pure_eq_ok] at h
  refine ⟨hall, ?_⟩
  rw [← h, List.append_nil, List.reverse_reverse]

/-- A filter succeeds if its test never fails. -/
theorem filterM_ok {α ε : Type} {f : α → Except ε Bool} {xs : List α}
    (h : ∀ x ∈ xs, ∃ c, f x = .ok c) : ∃ ys, xs.filterM f = .ok ys := by
  suffices haux : ∀ (xs acc : List α), (∀ x ∈ xs, ∃ c, f x = .ok c) →
      ∃ ys, xs.filterAuxM f acc = .ok ys by
    obtain ⟨ys, hys⟩ := haux xs [] h
    exact ⟨ys.reverse, bind_eq_ok.mpr ⟨ys, hys, rfl⟩⟩
  intro xs
  induction xs with
  | nil => exact fun acc _ => ⟨acc, rfl⟩
  | cons x xs ih =>
    intro acc h
    obtain ⟨c, hc⟩ := h x List.mem_cons_self
    obtain ⟨ys, hys⟩ := ih (cond c (x :: acc) acc) fun y hy => h y (List.mem_cons_of_mem _ hy)
    exact ⟨ys, bind_eq_ok.mpr ⟨c, hc, hys⟩⟩

/-- An item at the end is left out if it was there. -/
theorem eraseDups_concat {α : Type} [DecidableEq α] (xs : List α) (a : α) :
    (xs ++ [a]).eraseDups = if a ∈ xs then xs.eraseDups else xs.eraseDups ++ [a] := by
  rw [List.eraseDups_append, List.removeAll]
  by_cases ha : a ∈ xs
  · simp [ha]
  · simp [ha, List.eraseDups_cons]

namespace Domain

variable {d : Domain} {g : FlowGraph} {v w : Value} {k : Nat}

/-! ## Numbers -/

theorem getElem?_of_indexOf? (h : d.indexOf? v = some k) : d.values[k]? = some v := by
  obtain ⟨hk, hv, -⟩ := List.idxOf?_eq_some_iff.mp h
  rw [List.getElem?_eq_getElem hk, hv]

theorem lt_size_of_indexOf? (h : d.indexOf? v = some k) : k < d.size :=
  (List.idxOf?_eq_some_iff.mp h).1

theorem mem_of_indexOf? (h : d.indexOf? v = some k) : v ∈ d.values :=
  List.mem_of_getElem? (getElem?_of_indexOf? h)

theorem exists_indexOf? (h : v ∈ d.values) : ∃ k, d.indexOf? v = some k := by
  rw [← Option.isSome_iff_exists, indexOf?, List.isSome_idxOf?]
  exact h

/-- No two values share a number. -/
theorem indexOf?_inj (hv : d.indexOf? v = some k) (hw : d.indexOf? w = some k) : v = w :=
  Option.some.inj ((getElem?_of_indexOf? hv).symm.trans (getElem?_of_indexOf? hw))

/-! ## The domain of a graph -/

/-- Adding value by value leaves the first occurrences. -/
theorem values_ofValues (vs : List Value) : (ofValues vs).values = vs.eraseDups := by
  induction vs using List.reverseRecOn with
  | nil => rfl
  | append_singleton vs v ih =>
    have hadd : ofValues (vs ++ [v]) = (ofValues vs).add v := by
      rw [ofValues, List.foldl_append, List.foldl_cons, List.foldl_nil, ofValues]
    rw [hadd, eraseDups_concat, add, ih]
    simp only [List.mem_eraseDups]
    split
    next => exact ih
    next => rfl

theorem mem_values_ofValues {vs : List Value} : v ∈ (ofValues vs).values ↔ v ∈ vs := by
  rw [values_ofValues, List.mem_eraseDups]

/-- The tracked values are the arguments and the listed instructions with a result. -/
theorem mem_values_build (hd : build g = .ok d) :
    v ∈ d.values ↔ (∃ a : Arg, v = .arg a ∧ a.index < g.numArgs) ∨
      ∃ i facts, v = .inst i ∧ i ∈ g.listed ∧ g.facts.get? i = some facts ∧
        facts.hasResult = true := by
  simp only [build, bind_eq_ok, pure_eq_ok] at hd
  obtain ⟨results, hresults, rfl⟩ := hd
  obtain ⟨-, rfl⟩ := filterM_eq_ok hresults
  simp only [mem_values_ofValues, List.mem_append, List.mem_map, Handle.mem_first,
    List.mem_filter, decide_eq_true_eq, bind_eq_ok, pure_eq_ok, Table.read_eq_ok]
  constructor
  · rintro (⟨a, ha, rfl⟩ | ⟨i, ⟨hi, facts, hfacts, hres⟩, rfl⟩)
    · exact .inl ⟨a, rfl, ha⟩
    · exact .inr ⟨i, facts, rfl, hi, hfacts, hres⟩
  · rintro (⟨a, rfl, ha⟩ | ⟨i, facts, rfl, hi, hfacts, hres⟩)
    · exact .inl ⟨a, ha, rfl⟩
    · exact .inr ⟨i, ⟨hi, facts, hfacts, hres⟩, rfl⟩

/-! ## Operands -/

theorem known_eq_ok : d.known v = .ok k ↔ d.indexOf? v = some k := by
  unfold known
  cases d.indexOf? v with
  | none => simp
  | some n => simp

theorem some_known_eq_ok :
    (do return some (← d.known v) : Except Failure (Option Nat)) = .ok (some k) ↔
      d.indexOf? v = some k := by
  simp only [bind_eq_ok, liftError_eq_ok, known_eq_ok, pure_eq_ok, Option.some.injEq,
    exists_eq_right]

/-- What is looked up is the number of the operand. -/
theorem indexOf?_of_lookup (h : d.lookup g v = .ok (some k)) : d.indexOf? v = some k := by
  cases v with
  | const c => cases h
  | arg a => exact some_known_eq_ok.mp h
  | inst i =>
    simp only [lookup] at h
    split at h
    next =>
      simp only [bind_eq_ok, liftFault_eq_ok] at h
      obtain ⟨facts, -, h⟩ := h
      split at h
      next => exact some_known_eq_ok.mp h
      next => cases h
    next => exact some_known_eq_ok.mp h

/-- An operand that has a number is found if the graph asks for one. -/
theorem lookup_of_indexOf? (h : d.indexOf? v = some k) (hconst : ∀ c, v ≠ .const c)
    (hinst : ∀ i, v = .inst i → i.index < g.numInsts →
      ∃ facts, g.facts.get? i = some facts ∧ facts.hasResult = true) :
    d.lookup g v = .ok (some k) := by
  cases v with
  | const c => exact absurd rfl (hconst c)
  | arg a => exact some_known_eq_ok.mpr h
  | inst i =>
    simp only [lookup]
    split
    next hi =>
      obtain ⟨facts, hfacts, hres⟩ := hinst i rfl hi
      simp only [bind_eq_ok, liftFault_eq_ok, Table.read_eq_ok]
      refine ⟨facts, hfacts, ?_⟩
      rw [if_pos hres]
      exact some_known_eq_ok.mpr h
    next => exact some_known_eq_ok.mpr h

/-- Tracked operands of a graph are found in its domain. -/
theorem lookup_build (hd : build g = .ok d) (h : d.indexOf? v = some k) :
    d.lookup g v = .ok (some k) := by
  rcases (mem_values_build hd).mp (mem_of_indexOf? h) with
    ⟨a, rfl, -⟩ | ⟨i, facts, rfl, -, hfacts, hres⟩
  · exact some_known_eq_ok.mpr h
  · refine lookup_of_indexOf? h nofun fun j hj _ => ?_
    cases hj
    exact ⟨facts, hfacts, hres⟩

/-- In the domain of a graph, what is found for an operand is its number. -/
theorem lookup_build_iff (hd : build g = .ok d) :
    d.lookup g v = .ok (some k) ↔ d.indexOf? v = some k :=
  ⟨indexOf?_of_lookup, lookup_build hd⟩

/-- The number of a tracked operand is found for this operand only. -/
theorem exists_lookup_iff {P : Value → Prop} (hd : build g = .ok d) (h : d.indexOf? v = some k) :
    (∃ w, P w ∧ d.lookup g w = .ok (some k)) ↔ P v := by
  constructor
  · intro ⟨w, hw, hlookup⟩
    rw [indexOf?_inj h (indexOf?_of_lookup hlookup)]
    exact hw
  · intro hv
    exact ⟨v, hv, lookup_build hd h⟩

end Domain

end SsaFlow
