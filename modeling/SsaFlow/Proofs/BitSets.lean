import Mathlib.Data.Finset.Card
import SsaFlow.BitSet
import SsaFlow.Proofs.Recording

/-!
# Bit sets as sets

`BitSet.Over n s` says that `s` is a well-formed set over `n` positions.  Such a
set is told by its members (`BitSet.Over.ext`).  Each operation on sets over `n`
positions gives a set over `n` positions, with the members one expects.

All of it comes down to single bits of single words.  Position `j` is bit
`j % 64` of word `j / 64`, and the operations on words work bit by bit.
-/

namespace SsaFlow

/-! ## Bits of words -/

namespace Word

theorem toBitVec_bit {k : Nat} (hk : k < 64) : (bit k).toBitVec = BitVec.twoPow 64 k := by
  have hmod : k % 18446744073709551616 % 64 = k := by omega
  simp [bit, BitVec.twoPow_eq, BitVec.shiftLeft_eq', hmod]

theorem test_eq (w : UInt64) {k : Nat} (hk : k < 64) : test w k = w.toBitVec.getLsbD k := by
  have hne : BitVec.twoPow 64 k ≠ 0#64 := by
    intro h
    have hbit := congrArg (BitVec.getLsbD · k) h
    simp [hk] at hbit
  rw [test, Bool.eq_iff_iff, bne_iff_ne, ne_eq, ← UInt64.toBitVec_inj, UInt64.toBitVec_and,
    toBitVec_bit hk, BitVec.and_twoPow]
  cases hw : w.toBitVec.getLsbD k with
  | false => simp
  | true => simpa using hne

theorem test_zero {k : Nat} (hk : k < 64) : test 0 k = false := by
  rw [test_eq 0 hk]
  simp

theorem test_or (a b : UInt64) {k : Nat} (hk : k < 64) :
    test (a ||| b) k = (test a k || test b k) := by
  simp only [test_eq _ hk, UInt64.toBitVec_or, BitVec.getLsbD_or]

theorem test_and (a b : UInt64) {k : Nat} (hk : k < 64) :
    test (a &&& b) k = (test a k && test b k) := by
  simp only [test_eq _ hk, UInt64.toBitVec_and, BitVec.getLsbD_and]

theorem test_bit {j k : Nat} (hj : j < 64) (hk : k < 64) : test (bit k) j = decide (j = k) := by
  rw [test_eq _ hj, toBitVec_bit hk, BitVec.getLsbD_twoPow]
  simp [hk, eq_comm]

theorem test_not_bit {j k : Nat} (hj : j < 64) (hk : k < 64) :
    test (~~~bit k) j = decide (j ≠ k) := by
  rw [test_eq _ hj, UInt64.toBitVec_not, BitVec.getLsbD_not, ← test_eq _ hj, test_bit hj hk]
  simp [hj]

/-- Words with the same bits are equal. -/
theorem ext_test {a b : UInt64} (h : ∀ k < 64, test a k = test b k) : a = b := by
  refine UInt64.toBitVec_inj.mp (BitVec.eq_of_getLsbD_eq fun k hk => ?_)
  rw [← test_eq a hk, ← test_eq b hk, h k hk]

end Word

namespace BitSet

/-! ## Well-formed sets -/

/-- A well-formed set over `n` positions. -/
structure Over (n : Nat) (s : BitSet) : Prop where
  wellFormed : s.WellFormed
  len : s.len = n

variable {n : Nat} {s t u : BitSet}

theorem contains_eq_hasBit (hs : s.WellFormed) (j : Nat) : s.contains j = s.hasBit j := by
  by_cases hj : j < s.len
  · simp [contains, hj]
  · simp [contains, hj, hs.2 j (Nat.not_lt.mp hj)]

theorem hasBit_of_size_le {j : Nat} (hj : 64 * s.words.size ≤ j) : s.hasBit j = false := by
  have hword : s.words.getD (j / 64) 0 = 0 := by
    rw [Array.getD_eq_getD_getElem?, Array.getElem?_eq_none (by omega), Option.getD_none]
  rw [hasBit, hword, Word.test_zero (Nat.mod_lt j (by decide))]

/-- Bits past the last word are not set, so those below are all to look at. -/
theorem wellFormed_iff : s.WellFormed ↔
    s.words.size = wordsFor s.len ∧ ∀ j < 64 * s.words.size, s.len ≤ j → s.hasBit j = false := by
  refine and_congr_right fun _ => ⟨fun h j _ => h j, fun h j hj => ?_⟩
  by_cases hlt : j < 64 * s.words.size
  · exact h j hlt hj
  · exact hasBit_of_size_le (Nat.not_lt.mp hlt)

instance : Decidable s.WellFormed := decidable_of_iff _ wellFormed_iff.symm

instance : Decidable (s.Over n) :=
  decidable_of_iff (s.WellFormed ∧ s.len = n) ⟨fun h => ⟨h.1, h.2⟩, fun h => ⟨h.1, h.2⟩⟩

/-- Sets over the same positions with the same members are equal. -/
theorem Over.ext (hs : s.Over n) (ht : t.Over n) (h : ∀ j, s.contains j = t.contains j) :
    s = t := by
  obtain ⟨ws, len⟩ := s
  obtain ⟨vs, len'⟩ := t
  obtain rfl : len = n := hs.len
  obtain rfl : len' = len := ht.len
  have hsize : ws.size = vs.size := hs.wellFormed.1.trans ht.wellFormed.1.symm
  have hwords : ws = vs := by
    refine Array.ext hsize fun i hi hi' => Word.ext_test fun k hk => ?_
    have hbit := h (64 * i + k)
    rw [contains_eq_hasBit hs.wellFormed, contains_eq_hasBit ht.wellFormed] at hbit
    have hdiv : (64 * i + k) / 64 = i := by omega
    have hmod : (64 * i + k) % 64 = k := by omega
    simpa [hasBit, hdiv, hmod, hi, hi'] using hbit
  rw [hwords]

theorem hasBit_empty (n j : Nat) : (empty n).hasBit j = false := by
  have hword : (empty n).words.getD (j / 64) 0 = 0 := by
    simp only [empty, Array.getD_eq_getD_getElem?, Array.getElem?_replicate]
    split <;> rfl
  rw [hasBit, hword, Word.test_zero (Nat.mod_lt j (by decide))]

theorem over_empty (n : Nat) : (empty n).Over n :=
  ⟨⟨by simp [empty], fun j _ => hasBit_empty n j⟩, rfl⟩

@[simp] theorem contains_empty (n j : Nat) : (empty n).contains j = false := by
  simp [contains, hasBit_empty]

/-! ## Single members -/

theorem getD_modify (ws : Array UInt64) (f : UInt64 → UInt64) {i : Nat} (hi : i < ws.size)
    (j : Nat) : (ws.modify i f).getD j 0 = if j = i then f (ws.getD j 0) else ws.getD j 0 := by
  rw [Array.getD_eq_getD_getElem?, Array.getD_eq_getD_getElem?, Array.getElem?_modify]
  by_cases hij : i = j
  · subst hij
    simp [hi]
  · rw [if_neg hij, if_neg (Ne.symm hij)]

theorem set_eq_ok {i : Nat} {m : Bool} :
    s.set i m = .ok t ↔ i < s.len ∧ ⟨s.words.modify (i / 64) fun w =>
      if m then w ||| Word.bit (i % 64) else w &&& ~~~(Word.bit (i % 64)), s.len⟩ = t := by
  unfold BitSet.set
  split
  next hi => simp [hi]
  next hi => simp [hi]

theorem hasBit_set {i : Nat} {m : Bool} (hs : s.WellFormed) (h : s.set i m = .ok t) (j : Nat) :
    t.hasBit j = if j = i then m else s.hasBit j := by
  obtain ⟨hi, rfl⟩ := set_eq_ok.mp h
  have hword : i / 64 < s.words.size := by
    rw [hs.1, wordsFor]
    omega
  have hj : j % 64 < 64 := Nat.mod_lt j (by decide)
  have hi' : i % 64 < 64 := Nat.mod_lt i (by decide)
  simp only [hasBit, getD_modify _ _ hword]
  by_cases hdiv : j / 64 = i / 64
  · -- the same word, so the same position if and only if the same bit
    have hpos : j % 64 = i % 64 ↔ j = i := by omega
    rw [if_pos hdiv]
    cases m with
    | true =>
      rw [if_pos rfl, Word.test_or _ _ hj, Word.test_bit hj hi']
      by_cases hji : j = i <;> simp [hpos, hji]
    | false =>
      rw [if_neg Bool.false_ne_true, Word.test_and _ _ hj, Word.test_not_bit hj hi']
      by_cases hji : j = i <;> simp [hpos, hji]
  · have hji : j ≠ i := fun h => hdiv (by rw [h])
    rw [if_neg hdiv, if_neg hji]

/-- Putting a position in or taking it out changes no other. -/
theorem Over.set {i : Nat} {m : Bool} (hs : s.Over n) (h : s.set i m = .ok t) :
    t.Over n ∧ i < n ∧ ∀ j, t.contains j = if j = i then m else s.contains j := by
  have hbit := hasBit_set hs.wellFormed h
  obtain ⟨hi, ht⟩ := set_eq_ok.mp h
  have hlen : t.len = s.len := by rw [← ht]
  have hwf : t.WellFormed := by
    refine ⟨?_, fun j hj => ?_⟩
    · rw [hlen, ← hs.wellFormed.1, ← ht]
      exact Array.size_modify
    · rw [hlen] at hj
      have hji : j ≠ i := by omega
      rw [hbit, if_neg hji, hs.wellFormed.2 j hj]
  refine ⟨⟨hwf, hlen.trans hs.len⟩, hs.len ▸ hi, fun j => ?_⟩
  rw [contains_eq_hasBit hwf, contains_eq_hasBit hs.wellFormed, hbit]

theorem Over.set_ok {i : Nat} (hs : s.Over n) (hi : i < n) (m : Bool) :
    ∃ t, s.set i m = .ok t :=
  ⟨_, set_eq_ok.mpr ⟨hs.len.symm ▸ hi, rfl⟩⟩

/-- Putting in a position that exists succeeds. -/
theorem Over.insert_ok {i : Nat} (hs : s.Over n) (hi : i < n) :
    ∃ t, s.insert i = .ok t ∧ t.Over n ∧
      ∀ j, t.contains j = true ↔ s.contains j = true ∨ j = i := by
  obtain ⟨t, ht⟩ := hs.set_ok hi true
  obtain ⟨hover, -, hmem⟩ := hs.set ht
  refine ⟨t, ht, hover, fun j => ?_⟩
  rw [hmem]
  split
  next hj => simp [hj]
  next hj => simp [hj]

/-- Taking out a position that exists succeeds. -/
theorem Over.erase_ok {i : Nat} (hs : s.Over n) (hi : i < n) :
    ∃ t, s.erase i = .ok t ∧ t.Over n ∧
      ∀ j, t.contains j = true ↔ s.contains j = true ∧ j ≠ i := by
  obtain ⟨t, ht⟩ := hs.set_ok hi false
  obtain ⟨hover, -, hmem⟩ := hs.set ht
  refine ⟨t, ht, hover, fun j => ?_⟩
  rw [hmem]
  split
  next hj => simp [hj]
  next hj => simp [hj]

theorem Over.insertAll_ok : ∀ {is : List Nat} {s : BitSet}, s.Over n → (∀ i ∈ is, i < n) →
    ∃ t, s.insertAll is = .ok t ∧ t.Over n ∧
      ∀ j, t.contains j = true ↔ s.contains j = true ∨ j ∈ is
  | [], s, hs, _ => ⟨s, rfl, hs, by simp⟩
  | i :: is, s, hs, h => by
    obtain ⟨u, hu, huover, humem⟩ := hs.insert_ok (h i List.mem_cons_self)
    obtain ⟨t, ht, htover, htmem⟩ := insertAll_ok huover fun j hj => h j (List.mem_cons_of_mem _ hj)
    refine ⟨t, ?_, htover, fun j => by simp [htmem, humem, or_assoc]⟩
    rw [BitSet.insertAll, List.foldlM_cons, hu]
    exact ht

theorem Over.eraseAll_ok : ∀ {is : List Nat} {s : BitSet}, s.Over n → (∀ i ∈ is, i < n) →
    ∃ t, s.eraseAll is = .ok t ∧ t.Over n ∧
      ∀ j, t.contains j = true ↔ s.contains j = true ∧ j ∉ is
  | [], s, hs, _ => ⟨s, rfl, hs, by simp⟩
  | i :: is, s, hs, h => by
    obtain ⟨u, hu, huover, humem⟩ := hs.erase_ok (h i List.mem_cons_self)
    obtain ⟨t, ht, htover, htmem⟩ := eraseAll_ok huover fun j hj => h j (List.mem_cons_of_mem _ hj)
    refine ⟨t, ?_, htover, fun j => by simp [htmem, humem, and_assoc]⟩
    rw [BitSet.eraseAll, List.foldlM_cons, hu]
    exact ht

/-! ## Two sets -/

theorem hasBit_combine {f : UInt64 → UInt64 → UInt64} {op : Bool → Bool → Bool} {c : Bool}
    (hf : ∀ a b k, k < 64 → Word.test (f a b) k = op (Word.test a k) (Word.test b k))
    (hop : op false false = false) (hs : s.Over n) (ht : t.Over n)
    (h : combine f s t = .ok (u, c)) (j : Nat) : u.hasBit j = op (s.hasBit j) (t.hasBit j) := by
  have hj : j % 64 < 64 := Nat.mod_lt j (by decide)
  have hsize : s.words.size = t.words.size := by
    rw [hs.wellFormed.1, ht.wellFormed.1, hs.len, ht.len]
  rw [combine, if_pos (hs.len.trans ht.len.symm)] at h
  cases h
  simp only [hasBit, Array.getD_eq_getD_getElem?, Array.getElem?_zipWith]
  by_cases hlt : j / 64 < s.words.size
  · rw [Array.getElem?_eq_getElem hlt, Array.getElem?_eq_getElem (hsize ▸ hlt)]
    exact hf _ _ _ hj
  · rw [Array.getElem?_eq_none (Nat.not_lt.mp hlt),
      Array.getElem?_eq_none (hsize ▸ Nat.not_lt.mp hlt)]
    simp [Word.test_zero hj, hop]

/-- Two sets over the same positions can be combined, position by position. -/
theorem Over.combine {f : UInt64 → UInt64 → UInt64} {op : Bool → Bool → Bool}
    (hf : ∀ a b k, k < 64 → Word.test (f a b) k = op (Word.test a k) (Word.test b k))
    (hop : op false false = false) (hs : s.Over n) (ht : t.Over n) :
    ∃ u c, BitSet.combine f s t = .ok (u, c) ∧ u.Over n ∧
      ∀ j, u.contains j = op (s.contains j) (t.contains j) := by
  have hlen : s.len = t.len := hs.len.trans ht.len.symm
  obtain ⟨⟨u, c⟩, hu⟩ : ∃ r, BitSet.combine f s t = .ok r := ⟨_, by rw [BitSet.combine, if_pos hlen]⟩
  have hbit := hasBit_combine hf hop hs ht hu
  rw [BitSet.combine, if_pos hlen] at hu
  have hulen : u.len = s.len := by
    cases hu
    rfl
  have husize : u.words.size = s.words.size := by
    cases hu
    rw [Array.size_zipWith, hs.wellFormed.1, ht.wellFormed.1, hlen, Nat.min_self]
  have hwf : u.WellFormed := by
    refine ⟨by rw [husize, hulen, hs.wellFormed.1], fun j hj => ?_⟩
    rw [hulen] at hj
    rw [hbit, hs.wellFormed.2 j hj, ht.wellFormed.2 j (hlen ▸ hj), hop]
  refine ⟨u, c, by rw [BitSet.combine, if_pos hlen, hu], ⟨hwf, hulen.trans hs.len⟩, fun j => ?_⟩
  rw [contains_eq_hasBit hwf, contains_eq_hasBit hs.wellFormed, contains_eq_hasBit ht.wellFormed,
    hbit]

/-- The union of two sets over the same positions exists and has the members of both. -/
theorem Over.union (hs : s.Over n) (ht : t.Over n) :
    ∃ u c, s.union t = .ok (u, c) ∧ u.Over n ∧
      ∀ j, u.contains j = (s.contains j || t.contains j) :=
  hs.combine (fun a b _ hk => Word.test_or a b hk) rfl ht

/-- The intersection exists and has the members that both have. -/
theorem Over.inter (hs : s.Over n) (ht : t.Over n) :
    ∃ u c, s.inter t = .ok (u, c) ∧ u.Over n ∧
      ∀ j, u.contains j = (s.contains j && t.contains j) :=
  hs.combine (fun a b _ hk => Word.test_and a b hk) rfl ht

/-! ## Departures -/

/-- On the way from `s` to `u`: `t` differs from `s` at most where `u` does. -/
def Between (s t u : BitSet) : Prop := ∀ j, t.contains j = s.contains j ∨ t.contains j = u.contains j

/-- The number of positions below `n` at which two sets differ. -/
def distance (n : Nat) (s t : BitSet) : Nat :=
  ((Finset.range n).filter fun j => t.contains j ≠ s.contains j).card

instance : HasSubset BitSet := ⟨fun s t => ∀ j, s.contains j = true → t.contains j = true⟩

/-- On the way from the empty set, sets grow. -/
theorem between_empty : Between (empty n) s t ↔ s ⊆ t := by
  refine forall_congr' fun j => ?_
  rw [contains_empty]
  cases s.contains j with
  | false => simp
  | true => simp [eq_comm (a := true)]

theorem between_self (s t : BitSet) : Between s t t := fun _ => .inr rfl

theorem Between.trans {v : BitSet} (ht : Between s t u) (hu : Between s u v) : Between s t v := by
  intro j
  cases ht j with
  | inl h => exact .inl h
  | inr h =>
    cases hu j with
    | inl h' => exact .inl (h.trans h')
    | inr h' => exact .inr (h.trans h')

theorem distance_le (n : Nat) (s t : BitSet) : distance n s t ≤ n := by
  have hle := Finset.card_filter_le (Finset.range n) fun j => t.contains j ≠ s.contains j
  rwa [Finset.card_range] at hle

theorem Over.lt_of_contains_ne (hs : s.Over n) (ht : t.Over n) {j : Nat}
    (h : s.contains j ≠ t.contains j) : j < n := by
  by_contra hj
  have hlen : s.len = n := hs.len
  have hlen' : t.len = n := ht.len
  simp [contains, hlen, hlen', hj] at h

/-- What lies between has the smaller distance. -/
theorem distance_lt (ht : t.Over n) (hu : u.Over n) (h : Between s t u) (hne : t ≠ u) :
    distance n s t < distance n s u := by
  obtain ⟨j, hj⟩ : ∃ j, t.contains j ≠ u.contains j := by
    by_contra hall
    exact hne (ht.ext hu fun j => by_contra fun hj => hall ⟨j, hj⟩)
  have htj : t.contains j = s.contains j := (h j).resolve_right hj
  refine Finset.card_lt_card (Finset.ssubset_iff_of_subset ?_ |>.mpr ⟨j, ?_, ?_⟩)
  · intro i hi
    rw [Finset.mem_filter] at hi ⊢
    have hiu : t.contains i = u.contains i := (h i).resolve_left hi.2
    exact ⟨hi.1, hiu ▸ hi.2⟩
  · rw [Finset.mem_filter, Finset.mem_range]
    exact ⟨ht.lt_of_contains_ne hu hj, fun huj => hj (htj.trans huj.symm)⟩
  · rw [Finset.mem_filter]
    exact fun hmem => hmem.2 htj

end BitSet

end SsaFlow
