import SsaFlow.Liveness.Transfer
import SsaFlow.Proofs.BitSets

/-!
# Tables of phi inputs

A table of phi inputs says which predecessor supplies which number
(`PhiInputs.Supplies`).  Marking makes an entry only together with a member, so
every entry of a table that came from marking has one (`PhiInputs.Sound`).  That
is why the order and the number of the marks leave no trace:  tables that supply
the same are equal (`PhiInputs.Sound.ext`).
-/

namespace SsaFlow

namespace PhiInputs

/-- The value of a number is read on the edges out of `pred`. -/
def Supplies (t : PhiInputs) (pred : Block) (k : Nat) : Prop :=
  ∃ s, t.get? pred = some s ∧ s.contains k = true

/-- All entries are sets over `n` positions, and none of them is empty. -/
structure Sound (n : Nat) (t : PhiInputs) : Prop where
  domainLen : t.domainLen = n
  sized : ∀ pred s, t.get? pred = some s → s.Over n
  inhabited : ∀ pred s, t.get? pred = some s → ∃ k, s.contains k = true

variable {n k : Nat} {t u : PhiInputs} {pred : Block}

theorem sound_empty (n : Nat) : (empty n).Sound n := by
  constructor
  · rfl
  · intro pred s h
    cases h
  · intro pred s h
    cases h

theorem not_supplies_empty : ¬ (empty n).Supplies pred k := by
  rintro ⟨s, hs, -⟩
  cases hs

theorem get?_put (t : PhiInputs) (pred q : Block) (s : BitSet) :
    (t.put pred s).get? q = if q = pred then some s else t.get? q :=
  HandleMap.get?_insert t.edges pred q s

/-- What an entry has is supplied, and nothing else is. -/
theorem contains_iff_supplies {s : BitSet} (hs : t.get? pred = some s) :
    s.contains k = true ↔ t.Supplies pred k := by
  constructor
  · intro h
    exact ⟨s, hs, h⟩
  · rintro ⟨s', hs', h⟩
    rw [hs] at hs'
    cases hs'
    exact h

/-- Whoever supplies nothing has no entry. -/
theorem Sound.get?_eq_none (ht : t.Sound n) (h : ∀ k, ¬ t.Supplies pred k) :
    t.get? pred = none := by
  cases hs : t.get? pred with
  | none => rfl
  | some s =>
    obtain ⟨k, hk⟩ := ht.inhabited pred s hs
    exact absurd ⟨s, hs, hk⟩ (h k)

/-- Tables over the same positions with the same entries are equal. -/
theorem ext_get? (hlen : t.domainLen = u.domainLen) (hget : ∀ pred, t.get? pred = u.get? pred) :
    t = u := by
  obtain ⟨len, es⟩ := t
  obtain ⟨len', ds⟩ := u
  obtain rfl : len = len' := hlen
  obtain rfl : es = ds := HandleMap.ext_get? hget
  rfl

/-- Tables that supply the same are equal. -/
theorem Sound.ext (ht : t.Sound n) (hu : u.Sound n)
    (h : ∀ pred k, t.Supplies pred k ↔ u.Supplies pred k) : t = u := by
  refine ext_get? (ht.domainLen.trans hu.domainLen.symm) fun pred => ?_
  cases hs : t.get? pred with
  | none =>
    refine (hu.get?_eq_none fun k hk => ?_).symm
    obtain ⟨s, hs', -⟩ := (h pred k).mpr hk
    rw [hs] at hs'
    cases hs'
  | some s =>
    obtain ⟨k, hk⟩ := ht.inhabited pred s hs
    obtain ⟨s', hs', -⟩ := (h pred k).mp ⟨s, hs, hk⟩
    rw [hs']
    refine congrArg some ((ht.sized pred s hs).ext (hu.sized pred s' hs') fun j => ?_)
    rw [Bool.eq_iff_iff, contains_iff_supplies hs, contains_iff_supplies hs', h]

/-- The set of `pred`, or a new one. -/
def entry (t : PhiInputs) (pred : Block) : BitSet :=
  (t.get? pred).getD (BitSet.empty t.domainLen)

theorem Sound.entry (ht : t.Sound n) (pred : Block) :
    (t.entry pred).Over n ∧ ∀ j, (t.entry pred).contains j = true ↔ t.Supplies pred j := by
  unfold PhiInputs.entry
  cases hs : t.get? pred with
  | none =>
    rw [Option.getD_none, ht.domainLen]
    refine ⟨BitSet.over_empty n, fun j => ?_⟩
    rw [BitSet.contains_empty]
    constructor
    · intro h
      cases h
    · rintro ⟨s, hs', -⟩
      rw [hs] at hs'
      cases hs'
  | some s => exact ⟨ht.sized pred s hs, fun j => contains_iff_supplies hs⟩

theorem mark_yields {s : BitSet} (hs : (t.entry pred).insert k = .ok s) :
    Yields (mark pred k) t () (t.put pred s) := by
  simp only [mark, yields_bind, yields_get, yields_set, yields_lift]
  exact ⟨t, t, ⟨rfl, rfl⟩, (), _, rfl, s, _, ⟨hs, rfl⟩, rfl⟩

/-- Putting one more number into the set of `pred` keeps a table sound. -/
theorem Sound.put (ht : t.Sound n) {s : BitSet} (hover : s.Over n)
    (hmem : ∀ j, s.contains j = true ↔ t.Supplies pred j ∨ j = k) :
    (t.put pred s).Sound n ∧
      ∀ q j, (t.put pred s).Supplies q j ↔ t.Supplies q j ∨ q = pred ∧ j = k := by
  refine ⟨⟨ht.domainLen, fun q r hr => ?_, fun q r hr => ?_⟩, fun q j => ?_⟩
  · rw [get?_put] at hr
    split at hr
    next => cases hr; exact hover
    next => exact ht.sized q r hr
  · rw [get?_put] at hr
    split at hr
    next => cases hr; exact ⟨k, (hmem k).mpr (.inr rfl)⟩
    next => exact ht.inhabited q r hr
  · by_cases hq : q = pred
    · subst hq
      have hget : (t.put q s).get? q = some s := by rw [get?_put, if_pos rfl]
      rw [← contains_iff_supplies hget, hmem]
      simp
    · simp [Supplies, get?_put, hq]

/-- Marking a position that exists succeeds. -/
theorem Sound.mark (ht : t.Sound n) (hk : k < n) (pred : Block) :
    ∃ t', Yields (PhiInputs.mark pred k) t () t' ∧ t'.Sound n ∧
      ∀ q j, t'.Supplies q j ↔ t.Supplies q j ∨ q = pred ∧ j = k := by
  obtain ⟨hover, hmem⟩ := ht.entry pred
  obtain ⟨s, hs, hover', hmem'⟩ := hover.insert_ok hk
  refine ⟨t.put pred s, mark_yields hs, ht.put hover' fun j => ?_⟩
  rw [hmem', hmem]

end PhiInputs

end SsaFlow
