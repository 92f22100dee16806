import Mathlib.Algebra.Group.Nat.Defs
import SsaFlow.Proofs.SetRefinement

/-!
# Members in order

The members of a set are read off word by word, and off a word by taking its lowest bit
until none is left.  Subtracting one from a word changes its bits from the lowest set one
downwards, so what it has in common with the word is all but the lowest
(`Word.test_dropLowest`).  Hence the positions read off a word are those that are set, in
ascending order (`Word.ones_eq`), and so for a set (`BitSet.ones_eq`).  A word is done with
after one turn for each of its bits (`Word.iterate_dropLowest_eq_zero_iff`).

All words of a set are read to their last bit, also past its length.  Every set that
requests make has no bits there, so what is read off are its members
(`BitSet.mem_ones_iff`).
-/

namespace SsaFlow

/-- Taking the first match off a list leaves the other matches. -/
theorem filter_eq_cons {p : Nat → Bool} {xs : List Nat} {k : Nat} (hnodup : xs.Nodup)
    (hfind : xs.find? p = some k) :
    xs.filter p = k :: xs.filter fun j => p j && decide (j ≠ k) := by
  induction xs with
  | nil => cases hfind
  | cons x xs ih =>
    obtain ⟨hx, hnodup⟩ := List.nodup_cons.mp hnodup
    cases hp : p x with
    | true =>
      rw [List.find?_cons_of_pos hp] at hfind
      cases hfind
      have hrest : ∀ j ∈ xs, p j = (p j && decide (j ≠ k)) := by
        intro j hj
        have hne : j ≠ k := fun heq => hx (heq ▸ hj)
        simp [hne]
      rw [List.filter_cons_of_pos hp, List.filter_cons_of_neg (by simp), List.filter_congr hrest]
    | false =>
      rw [List.find?_cons_of_neg (by simp [hp])] at hfind
      simp [hp, ih hnodup hfind]

/-! ## Words -/

namespace Word

variable {w : UInt64}

theorem test_eq_testBit (w : UInt64) {k : Nat} (hk : k < 64) : test w k = w.toNat.testBit k :=
  test_eq w hk

/-- A word that is not zero has a lowest set bit. -/
theorem find?_range_test (hw : w ≠ 0) : (List.range 64).find? (test w) = some (lowest w) := by
  cases hfind : (List.range 64).find? (test w) with
  | some k => rw [lowest, hfind, Option.getD_some]
  | none =>
    refine absurd (ext_test fun k hk => ?_) hw
    rw [test_zero hk]
    simpa using List.find?_eq_none.mp hfind k (List.mem_range.mpr hk)

/-- The word is an odd multiple of the power of its lowest set bit. -/
theorem toNat_eq (hw : w ≠ 0) :
    w.toNat = 2 ^ (lowest w + 1) * (w.toNat / 2 ^ (lowest w + 1)) + 2 ^ lowest w := by
  obtain ⟨hset, hlt, hclear⟩ := List.find?_range_eq_some.mp (find?_range_test hw)
  rw [List.mem_range] at hlt
  have hmod : w.toNat % 2 ^ (lowest w + 1) = 2 ^ lowest w := by
    refine Nat.eq_of_testBit_eq fun j => ?_
    rw [Nat.testBit_mod_two_pow, Nat.testBit_two_pow]
    rcases Nat.lt_trichotomy j (lowest w) with hj | rfl | hj
    · have hbit := hclear j hj
      rw [test_eq_testBit w (Nat.lt_trans hj hlt)] at hbit
      simp_all [Nat.ne_of_gt hj]
    · rw [test_eq_testBit w hlt] at hset
      simp [hset]
    · simp [Nat.ne_of_lt hj, Nat.not_lt_of_le (Nat.succ_le_of_lt hj)]
  rw [← hmod, Nat.div_add_mod]

/-- Subtracting one clears the lowest set bit and keeps those above it. -/
theorem test_pred (hw : w ≠ 0) {j : Nat} (hle : lowest w ≤ j) (hj : j < 64) :
    test (w - 1) j = (test w j && decide (j ≠ lowest w)) := by
  have hpos : 0 < 2 ^ lowest w := Nat.two_pow_pos _
  have hlt : 2 ^ lowest w < 2 ^ (lowest w + 1) := Nat.pow_lt_pow_succ (by decide)
  have heq := toNat_eq hw
  have hbit := Nat.testBit_two_pow_mul_add (w.toNat / 2 ^ (lowest w + 1)) hlt j
  rw [← heq] at hbit
  have hone : 1 ≤ w := by
    rw [UInt64.le_iff_toNat_le, UInt64.toNat_one]
    omega
  have hpred : (w - 1).toNat =
      2 ^ (lowest w + 1) * (w.toNat / 2 ^ (lowest w + 1)) + (2 ^ lowest w - 1) := by
    rw [UInt64.toNat_sub_of_le _ _ hone, UInt64.toNat_one]
    omega
  rw [test_eq_testBit _ hj, test_eq_testBit _ hj, hpred, hbit,
    Nat.testBit_two_pow_mul_add _ (Nat.lt_of_le_of_lt (Nat.sub_le _ _) hlt)]
  rcases Nat.eq_or_lt_of_le hle with rfl | hgt
  · simp
  · simp [Nat.not_lt_of_le (Nat.succ_le_of_lt hgt), Nat.ne_of_gt hgt]

/-- What a word has in common with its predecessor is all but its lowest set bit. -/
theorem test_dropLowest (hw : w ≠ 0) {j : Nat} (hj : j < 64) :
    test (dropLowest w) j = (test w j && decide (j ≠ lowest w)) := by
  rw [dropLowest, test_and _ _ hj]
  by_cases hle : lowest w ≤ j
  · rw [test_pred hw hle hj, ← Bool.and_assoc, Bool.and_self]
  · obtain ⟨-, -, hclear⟩ := List.find?_range_eq_some.mp (find?_range_test hw)
    have hbit : test w j = false := by simpa using hclear j (Nat.lt_of_not_le hle)
    rw [hbit, Bool.false_and, Bool.false_and]

theorem filter_test_eq_cons (hw : w ≠ 0) :
    (List.range 64).filter (test w) =
      lowest w :: (List.range 64).filter (test (dropLowest w)) := by
  rw [filter_eq_cons List.nodup_range (find?_range_test hw)]
  refine congrArg _ (List.filter_congr fun j hj => ?_)
  exact (test_dropLowest hw (List.mem_range.mp hj)).symm

theorem filter_test_zero : (List.range 64).filter (test 0) = [] := by
  rw [List.filter_eq_nil_iff]
  intro k hk
  simp [test_zero (List.mem_range.mp hk)]

/-- The positions read off a word are those that are set, ascending. -/
theorem ones_eq (w : UInt64) : ones w = (List.range 64).filter (test w) := by
  fun_induction ones w with
  | case1 => rw [filter_test_zero]
  | case2 w hw ih => rw [filter_test_eq_cons hw, ih]

theorem length_ones (w : UInt64) : (ones w).length = count w := by
  rw [ones_eq, count, List.countP_eq_length_filter]

theorem count_eq_succ (hw : w ≠ 0) : count w = count (dropLowest w) + 1 := by
  rw [← length_ones, ones, if_neg hw, List.length_cons, length_ones]

/-- Taking the lowest bit again and again leaves nothing after as many turns as there are bits, and
no sooner. -/
theorem iterate_dropLowest_eq_zero_iff (n : Nat) (w : UInt64) :
    dropLowest^[n] w = 0 ↔ count w ≤ n := by
  induction n generalizing w with
  | zero =>
    by_cases hw : w = 0
    · subst hw
      decide
    · simp [hw, count_eq_succ hw]
  | succ n ih =>
    rw [Function.iterate_succ_apply, ih]
    by_cases hw : w = 0
    · subst hw
      have hzero : count (dropLowest 0) = 0 ∧ count 0 = 0 := by decide
      simp [hzero]
    · rw [count_eq_succ hw, Nat.add_le_add_iff_right]

end Word

/-! ## Sets -/

namespace BitSet

/-- The words of a list, one after the other. -/
theorem flatMap_ones_eq (ws : List UInt64) :
    (ws.zipIdx.flatMap fun (w, i) => (Word.ones w).map (i * 64 + ·)) =
      (List.range (64 * ws.length)).filter fun j => Word.test (ws.getD (j / 64) 0) (j % 64) := by
  induction ws using List.reverseRecOn with
  | nil => rfl
  | append_singleton ws w ih =>
    rw [List.zipIdx_append, List.flatMap_append, ih, List.length_append, List.length_singleton,
      Nat.mul_add, List.range_add, List.filter_append]
    refine congr (congrArg _ (List.filter_congr fun j hj => ?_)) ?_
    · have hlt : j / 64 < ws.length := by
        rw [List.mem_range] at hj
        omega
      rw [List.getD_eq_getElem?_getD, List.getD_eq_getElem?_getD, List.getElem?_append_left hlt]
    · have hword : ∀ k ∈ List.range 64, Word.test w k =
          Word.test ((ws ++ [w]).getD ((64 * ws.length + k) / 64) 0) ((64 * ws.length + k) % 64) := by
        intro k hk
        rw [List.mem_range] at hk
        have hdiv : (64 * ws.length + k) / 64 = ws.length := by omega
        have hmod : (64 * ws.length + k) % 64 = k := by omega
        rw [hdiv, hmod, List.getD_eq_getElem?_getD, List.getElem?_concat_length, Option.getD_some]
      rw [Nat.mul_one, List.filter_map, Function.comp_def, ← List.filter_congr hword]
      simp [Word.ones_eq, Nat.mul_comm]

/-- The members of a set, ascending. -/
theorem ones_eq (s : BitSet) : s.ones = (List.range (64 * s.words.size)).filter s.hasBit := by
  rw [ones, flatMap_ones_eq]
  refine List.filter_congr fun j _ => ?_
  rw [hasBit, Array.getD_eq_getD_getElem?, List.getD_eq_getElem?_getD, Array.getElem?_toList]

theorem length_flatMap_ones (ws : List UInt64) (k : Nat) :
    ((ws.zipIdx k).flatMap fun (w, i) => (Word.ones w).map (i * 64 + ·)).length =
      ws.foldr (Word.count · + ·) 0 := by
  induction ws generalizing k with
  | nil => rfl
  | cons w ws ih =>
    rw [List.zipIdx_cons, List.flatMap_cons, List.length_append, List.length_map, Word.length_ones,
      ih, List.foldr_cons]

theorem length_ones (s : BitSet) : s.ones.length = s.count := length_flatMap_ones _ 0

theorem get_eq_ok_true_iff {s : BitSet} {i : Nat} :
    s.get i = .ok true ↔ i < s.len ∧ s.hasBit i = true := by
  unfold get
  split
  next hi => simp [hi]
  next hi => simp [hi]

theorem mem_ones_iff {s : BitSet} (hs : s.WellFormed) {i : Nat} :
    i ∈ s.ones ↔ s.get i = .ok true := by
  rw [ones_eq, List.mem_filter, List.mem_range, get_eq_ok_true_iff]
  refine and_congr_left fun hbit => ⟨fun _ => ?_, fun hi => ?_⟩
  · by_contra hi
    rw [hs.2 i (Nat.not_lt.mp hi)] at hbit
    cases hbit
  · rw [hs.1, wordsFor]
    omega

/-- Whatever requests made a set, reading off its members ends, after as many turns for a word as
the word has bits.  The members come in ascending order, are just the positions that are in the
set, and are as many as are counted. -/
theorem ones_enumerates (qs : List SetRequest) (r : Nat) :
    let s := (ops.run (fun _ => empty 0) qs).1 r
    (∀ w ∈ s.words, ∀ n, Word.dropLowest^[n] w = 0 ↔ Word.count w ≤ n) ∧
      s.ones.Pairwise (· < ·) ∧ (∀ i ∈ s.ones, i < s.len) ∧
      (∀ i, i ∈ s.ones ↔ s.get i = .ok true) ∧ s.ones.length = s.count := by
  intro s
  obtain ⟨hshows, -⟩ := ops_refines.run (fun _ => ops_refines.empty 0) qs
  have hs : s.WellFormed := (hshows r).sized.wellFormed
  refine ⟨fun w _ n => Word.iterate_dropLowest_eq_zero_iff n w, ?_, fun i hi => ?_,
    fun i => mem_ones_iff hs, length_ones s⟩
  · rw [ones_eq]
    exact List.pairwise_lt_range.filter _
  · exact (get_eq_ok_true_iff.mp ((mem_ones_iff hs).mp hi)).1

end BitSet

end SsaFlow
