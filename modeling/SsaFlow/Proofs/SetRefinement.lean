import Mathlib.Data.Finset.Lattice.Basic
import SsaFlow.Proofs.BitSets

/-!
# Bit sets refine finite sets

`PositionSet` is a finite set of positions below a length, with no words in it.
Both kinds of set answer the same requests (`SetOps`), which name the sets they
are about by number and replace what is held under a number.  `BitSet.Shows`
relates a bit set to the finite set it stands for: it is well-formed, has the same
length and the same members.

A request that is served for both kinds gets the same reply and leaves sets that
are related again (`SetOps.Refines.serve`).  So no sequence of requests can tell
the two apart.

A request that fails changes nothing.  This is not proved but put into the model:
operations on either kind of set give a new set or an error, and only a new set is
held (`SetOps.hold`).
-/

namespace SsaFlow

/-! ## Finite sets -/

/-- A finite set of positions below `len`. -/
structure PositionSet where
  /-- The number of positions. -/
  len : Nat
  /-- The positions in the set. -/
  members : Finset Nat
  below : ∀ i ∈ members, i < len
deriving DecidableEq

namespace PositionSet

/-- The empty set over `n` positions. -/
def empty (n : Nat) : PositionSet := ⟨n, ∅, nofun⟩

/-- Whether `i` is in the set.  There has to be a position `i`. -/
def get (a : PositionSet) (i : Nat) : Except AnalysisError Bool :=
  if i < a.len then .ok (i ∈ a.members) else .error (.indexOutOfBounds i a.len)

/-- The set with `i` put in. -/
def insert (a : PositionSet) (i : Nat) : Except AnalysisError PositionSet :=
  if h : i < a.len then
    .ok ⟨a.len, Insert.insert i a.members, Finset.forall_mem_insert _ _ _ |>.mpr ⟨h, a.below⟩⟩
  else .error (.indexOutOfBounds i a.len)

/-- The set with `i` taken out. -/
def erase (a : PositionSet) (i : Nat) : Except AnalysisError PositionSet :=
  if i < a.len then
    .ok ⟨a.len, a.members.erase i, fun j hj => a.below j (Finset.mem_of_mem_erase hj)⟩
  else .error (.indexOutOfBounds i a.len)

/-- The union, and whether it differs from the first set. -/
def union (a b : PositionSet) : Except AnalysisError (PositionSet × Bool) :=
  if h : a.len = b.len then
    .ok (⟨a.len, a.members ∪ b.members, fun i hi =>
      (Finset.mem_union.mp hi).elim (a.below i) fun hi => h ▸ b.below i hi⟩,
      a.members ∪ b.members ≠ a.members)
  else .error (.domainMismatch a.len b.len)

/-- The intersection, and whether it differs from the first set. -/
def inter (a b : PositionSet) : Except AnalysisError (PositionSet × Bool) :=
  if a.len = b.len then
    .ok (⟨a.len, a.members ∩ b.members, fun i hi => a.below i (Finset.mem_inter.mp hi).1⟩,
      a.members ∩ b.members ≠ a.members)
  else .error (.domainMismatch a.len b.len)

/-- Whether every member of the first set is one of the second. -/
def isSubset (a b : PositionSet) : Except AnalysisError Bool :=
  if a.len = b.len then .ok (a.members ⊆ b.members) else .error (.domainMismatch a.len b.len)

end PositionSet

/-! ## Requests -/

/-- What can be done with a kind of set. -/
structure SetOps (α : Type) where
  empty : Nat → α
  set : α → Nat → Bool → Except AnalysisError α
  insert : α → Nat → Except AnalysisError α
  erase : α → Nat → Except AnalysisError α
  union : α → α → Except AnalysisError (α × Bool)
  inter : α → α → Except AnalysisError (α × Bool)
  clear : α → α
  get : α → Nat → Except AnalysisError Bool
  contains : α → Nat → Bool
  isSubset : α → α → Except AnalysisError Bool
  same : α → α → Bool

/-- The operations on bit sets. -/
def BitSet.ops : SetOps BitSet where
  empty := empty
  set := set
  insert := insert
  erase := erase
  union := union
  inter := inter
  clear := clear
  get := get
  contains := contains
  isSubset := isSubset
  same s t := s = t

/-- The operations on finite sets. -/
def PositionSet.ops : SetOps PositionSet where
  empty := empty
  set a i member := if member then a.insert i else a.erase i
  insert := insert
  erase := erase
  union := union
  inter := inter
  clear a := empty a.len
  get := get
  contains a i := i ∈ a.members
  isSubset := isSubset
  same a b := a.len = b.len ∧ a.members = b.members

/-- A request about the sets held under `r` and `s`.  What changes is held under `r`. -/
inductive SetRequest where
  | new (r n : Nat)
  | copy (r s : Nat)
  | clear (r : Nat)
  | set (r i : Nat) (member : Bool)
  | insert (r i : Nat)
  | erase (r i : Nat)
  | union (r s : Nat)
  | inter (r s : Nat)
  | get (r i : Nat)
  | contains (r i : Nat)
  | isSubset (r s : Nat)
  | same (r s : Nat)

/-- An error, or a success that may tell a truth value. -/
abbrev SetReply := Except AnalysisError (Option Bool)

namespace SetOps

variable {α β : Type}

/-- Holds a new set under `r`.  With an error comes no set, and what was held stays. -/
def hold (store : Nat → α) (r : Nat) : Except AnalysisError α → (Nat → α) × SetReply
  | .ok a => (Function.update store r a, .ok none)
  | .error e => (store, .error e)

/-- Holds a new set under `r` and passes on what was told with it, unless there is an error. -/
def holdTold (store : Nat → α) (r : Nat) :
    Except AnalysisError (α × Bool) → (Nat → α) × SetReply
  | .ok (a, told) => (Function.update store r a, .ok (some told))
  | .error e => (store, .error e)

/-- The sets after a request, and the reply to it. -/
def serve (K : SetOps α) (store : Nat → α) : SetRequest → (Nat → α) × SetReply
  | .new r n => hold store r (.ok (K.empty n))
  | .copy r s => hold store r (.ok (store s))
  | .clear r => hold store r (.ok (K.clear (store r)))
  | .set r i member => hold store r (K.set (store r) i member)
  | .insert r i => hold store r (K.insert (store r) i)
  | .erase r i => hold store r (K.erase (store r) i)
  | .union r s => holdTold store r (K.union (store r) (store s))
  | .inter r s => holdTold store r (K.inter (store r) (store s))
  | .get r i => (store, some <$> K.get (store r) i)
  | .contains r i => (store, .ok (some (K.contains (store r) i)))
  | .isSubset r s => (store, some <$> K.isSubset (store r) (store s))
  | .same r s => (store, .ok (some (K.same (store r) (store s))))

/-- The sets after a sequence of requests, and the replies to them. -/
def run (K : SetOps α) (store : Nat → α) : List SetRequest → (Nat → α) × List SetReply
  | [] => (store, [])
  | q :: qs =>
    let served := K.serve store q
    let rest := K.run served.1 qs
    (rest.1, served.2 :: rest.2)

/-- The same error on both sides, or results that are related. -/
def Agree {γ δ : Type} (R : γ → δ → Prop) : Except AnalysisError γ → Except AnalysisError δ → Prop
  | .ok x, .ok y => R x y
  | .error e, .error e' => e = e'
  | _, _ => False

/-- Related sets are taken to related sets, with the same errors and the same answers. -/
structure Refines (R : α → β → Prop) (K : SetOps α) (L : SetOps β) : Prop where
  empty : ∀ n, R (K.empty n) (L.empty n)
  set : ∀ {s a}, R s a → ∀ i member, Agree R (K.set s i member) (L.set a i member)
  insert : ∀ {s a}, R s a → ∀ i, Agree R (K.insert s i) (L.insert a i)
  erase : ∀ {s a}, R s a → ∀ i, Agree R (K.erase s i) (L.erase a i)
  union : ∀ {s t a b}, R s a → R t b →
    Agree (fun u c => R u.1 c.1 ∧ u.2 = c.2) (K.union s t) (L.union a b)
  inter : ∀ {s t a b}, R s a → R t b →
    Agree (fun u c => R u.1 c.1 ∧ u.2 = c.2) (K.inter s t) (L.inter a b)
  clear : ∀ {s a}, R s a → R (K.clear s) (L.clear a)
  get : ∀ {s a}, R s a → ∀ i, K.get s i = L.get a i
  contains : ∀ {s a}, R s a → ∀ i, K.contains s i = L.contains a i
  isSubset : ∀ {s t a b}, R s a → R t b → K.isSubset s t = L.isSubset a b
  same : ∀ {s t a b}, R s a → R t b → K.same s t = L.same a b

section

variable {R : α → β → Prop} {store : Nat → α} {store' : Nat → β}

/-- What is held under each number is related, and the replies are the same. -/
def Matches {ρ : Type} (R : α → β → Prop) (x : (Nat → α) × ρ) (y : (Nat → β) × ρ) : Prop :=
  (∀ r, R (x.1 r) (y.1 r)) ∧ x.2 = y.2

theorem matches_update {ρ : Type} (h : ∀ r, R (store r) (store' r)) {x : α} {y : β} (hxy : R x y)
    (r : Nat) (reply : ρ) :
    Matches R (Function.update store r x, reply) (Function.update store' r y, reply) := by
  refine ⟨fun q => ?_, rfl⟩
  by_cases hq : q = r
  · subst hq
    simpa using hxy
  · simpa [hq] using h q

theorem matches_hold (h : ∀ r, R (store r) (store' r)) (r : Nat) {x : Except AnalysisError α}
    {y : Except AnalysisError β} (hxy : Agree R x y) :
    Matches R (hold store r x) (hold store' r y) := by
  cases x with
  | ok a =>
    cases y with
    | ok b => exact matches_update h hxy r _
    | error e => cases hxy
  | error e =>
    cases y with
    | ok b => cases hxy
    | error e' =>
      cases hxy
      exact ⟨h, rfl⟩

theorem matches_holdTold (h : ∀ r, R (store r) (store' r)) (r : Nat)
    {x : Except AnalysisError (α × Bool)} {y : Except AnalysisError (β × Bool)}
    (hxy : Agree (fun u c => R u.1 c.1 ∧ u.2 = c.2) x y) :
    Matches R (holdTold store r x) (holdTold store' r y) := by
  cases x with
  | ok u =>
    cases y with
    | ok c =>
      obtain ⟨hR, htold⟩ := hxy
      simp only [holdTold, htold]
      exact matches_update h hR r _
    | error e => cases hxy
  | error e =>
    cases y with
    | ok c => cases hxy
    | error e' =>
      cases hxy
      exact ⟨h, rfl⟩

variable {K : SetOps α} {L : SetOps β}

/-- One request does not tell related sets apart. -/
theorem Refines.serve (hKL : Refines R K L) (h : ∀ r, R (store r) (store' r)) (q : SetRequest) :
    Matches R (K.serve store q) (L.serve store' q) := by
  cases q with
  | new r n => exact matches_update h (hKL.empty n) r _
  | copy r s => exact matches_update h (h s) r _
  | clear r => exact matches_update h (hKL.clear (h r)) r _
  | set r i member => exact matches_hold h r (hKL.set (h r) i member)
  | insert r i => exact matches_hold h r (hKL.insert (h r) i)
  | erase r i => exact matches_hold h r (hKL.erase (h r) i)
  | union r s => exact matches_holdTold h r (hKL.union (h r) (h s))
  | inter r s => exact matches_holdTold h r (hKL.inter (h r) (h s))
  | get r i => exact ⟨h, congrArg (some <$> ·) (hKL.get (h r) i)⟩
  | contains r i => exact ⟨h, congrArg (Except.ok ∘ some) (hKL.contains (h r) i)⟩
  | isSubset r s => exact ⟨h, congrArg (some <$> ·) (hKL.isSubset (h r) (h s))⟩
  | same r s => exact ⟨h, congrArg (Except.ok ∘ some) (hKL.same (h r) (h s))⟩

/-- No sequence of requests tells related sets apart. -/
theorem Refines.run (hKL : Refines R K L) (h : ∀ r, R (store r) (store' r))
    (qs : List SetRequest) : Matches R (K.run store qs) (L.run store' qs) := by
  induction qs generalizing store store' with
  | nil => exact ⟨h, rfl⟩
  | cons q qs ih =>
    obtain ⟨hstore, hreply⟩ := hKL.serve h q
    obtain ⟨hstore, hreplies⟩ := ih hstore
    exact ⟨hstore, congrArg₂ List.cons hreply hreplies⟩

end

end SetOps

/-! ## Words -/

namespace Word

theorem and_not_eq_zero_iff {a b : UInt64} :
    a &&& ~~~b = 0 ↔ ∀ k < 64, test a k = true → test b k = true := by
  have htest : ∀ k < 64, test (a &&& ~~~b) k = (test a k && !test b k) := by
    intro k hk
    simp only [test_eq _ hk, UInt64.toBitVec_and, UInt64.toBitVec_not, BitVec.getLsbD_and,
      BitVec.getLsbD_not, hk, decide_true, Bool.true_and]
  constructor
  · intro h k hk ha
    have hbit := htest k hk
    rw [h, test_zero hk, ha] at hbit
    simpa using hbit.symm
  · intro h
    refine ext_test fun k hk => ?_
    rw [htest k hk, test_zero hk]
    cases ha : test a k with
    | false => rfl
    | true => simp [h k hk ha]

end Word

namespace BitSet

variable {n : Nat} {s t u : BitSet}

theorem Over.clear (hs : s.Over n) : s.clear.Over n ∧ ∀ j, s.clear.contains j = false := by
  have hbit : ∀ j, s.clear.hasBit j = false := by
    intro j
    have hword : s.clear.words.getD (j / 64) 0 = 0 := by
      simp only [BitSet.clear, Array.getD_eq_getD_getElem?, Array.getElem?_map]
      cases s.words[j / 64]? <;> rfl
    rw [hasBit, hword, Word.test_zero (Nat.mod_lt j (by decide))]
  have hwf : s.clear.WellFormed :=
    ⟨by rw [BitSet.clear, Array.size_map]; exact hs.wellFormed.1, fun j _ => hbit j⟩
  exact ⟨⟨hwf, hs.len⟩, fun j => by rw [contains_eq_hasBit hwf, hbit]⟩

theorem Over.size_words_eq (hs : s.Over n) (ht : t.Over n) : s.words.size = t.words.size := by
  rw [hs.wellFormed.1, ht.wellFormed.1, hs.len, ht.len]

/-- A change of some word is a change of the set. -/
theorem combine_changed_iff {f : UInt64 → UInt64 → UInt64} {c : Bool} (hs : s.Over n)
    (ht : t.Over n) (h : combine f s t = .ok (u, c)) : c = true ↔ u ≠ s := by
  have hsize := hs.size_words_eq ht
  rw [combine, if_pos (hs.len.trans ht.len.symm)] at h
  cases h
  rw [← Bool.not_eq_false, not_iff_not, Array.any_eq_false]
  constructor
  · intro hall
    have hwords : Array.zipWith f s.words t.words = s.words := by
      refine Array.ext (by simp [hsize]) fun i hi hi' => ?_
      have hword := hall i (by simpa [hsize] using hi')
      rw [Array.getElem_zip] at hword
      simpa using hword
    rw [hwords]
  · intro heq i hi
    have hi' : i < s.words.size ∧ i < t.words.size := by simpa using hi
    obtain ⟨his, hit⟩ := hi'
    have hword : some (f s.words[i] t.words[i]) = some s.words[i] := by
      have hwords : (Array.zipWith f s.words t.words)[i]? = s.words[i]? :=
        congrArg (fun u : BitSet => u.words[i]?) heq
      simpa [Array.getElem?_zipWith, his, hit] using hwords
    simpa using hword

/-- Inclusion of all words is inclusion of the sets. -/
theorem Over.isSubset (hs : s.Over n) (ht : t.Over n) :
    ∃ c, s.isSubset t = .ok c ∧ (c = true ↔ s ⊆ t) := by
  have hsize := hs.size_words_eq ht
  refine ⟨_, by rw [BitSet.isSubset, if_pos (hs.len.trans ht.len.symm)], ?_⟩
  rw [Array.all_eq_true]
  constructor
  · intro hall j
    rw [contains_eq_hasBit hs.wellFormed, contains_eq_hasBit ht.wellFormed]
    intro hj
    have hlt : j / 64 < s.words.size := by
      by_contra hge
      simp [hasBit, hge, Word.test_zero (Nat.mod_lt j (by decide : 0 < 64))] at hj
    have hword := hall (j / 64) (by simpa [← hsize] using hlt)
    simp only [Array.getElem_zip, beq_iff_eq, Word.and_not_eq_zero_iff] at hword
    have hlt' : j / 64 < t.words.size := hsize ▸ hlt
    simp only [hasBit, Array.getD_eq_getD_getElem?, Array.getElem?_eq_getElem hlt,
      Array.getElem?_eq_getElem hlt', Option.getD_some] at hj ⊢
    exact hword (j % 64) (Nat.mod_lt j (by decide)) hj
  · intro hsub i hi
    have hi' : i < s.words.size ∧ i < t.words.size := by simpa using hi
    obtain ⟨his, hit⟩ := hi'
    simp only [Array.getElem_zip, beq_iff_eq, Word.and_not_eq_zero_iff]
    intro k hk hbit
    have hmem := hsub (64 * i + k)
    have hdiv : (64 * i + k) / 64 = i := by omega
    have hmod : (64 * i + k) % 64 = k := by omega
    rw [contains_eq_hasBit hs.wellFormed, contains_eq_hasBit ht.wellFormed] at hmem
    simp only [hasBit, hdiv, hmod, Array.getD_eq_getD_getElem?, Array.getElem?_eq_getElem his,
      Array.getElem?_eq_getElem hit, Option.getD_some] at hmem
    exact hmem hbit

/-! ## Refinement -/

/-- The bit set stands for the finite set. -/
structure Shows (s : BitSet) (a : PositionSet) : Prop where
  sized : s.Over a.len
  mem : ∀ i, s.contains i = true ↔ i ∈ a.members

variable {a b : PositionSet}

theorem Shows.contains_eq (h : s.Shows a) (i : Nat) : s.contains i = decide (i ∈ a.members) := by
  rw [Bool.eq_iff_iff, h.mem, decide_eq_true_iff]

/-- Equal lengths and members are equality, since bits past the length are clear. -/
theorem Shows.eq_iff (hs : s.Shows a) (ht : t.Shows b) :
    s = t ↔ a.len = b.len ∧ a.members = b.members := by
  constructor
  · intro h
    subst h
    exact ⟨hs.sized.len.symm.trans ht.sized.len,
      Finset.ext fun i => (hs.mem i).symm.trans (ht.mem i)⟩
  · intro ⟨hlen, hmem⟩
    refine hs.sized.ext (hlen ▸ ht.sized) fun i => ?_
    rw [hs.contains_eq, ht.contains_eq, hmem]

theorem Shows.subset_iff (hs : s.Shows a) (ht : t.Shows b) : s ⊆ t ↔ a.members ⊆ b.members := by
  constructor
  · intro h i hi
    exact (ht.mem i).mp (h i ((hs.mem i).mpr hi))
  · intro h i hi
    exact (ht.mem i).mpr (h ((hs.mem i).mp hi))

theorem Shows.insert (h : s.Shows a) (i : Nat) :
    SetOps.Agree Shows (s.insert i) (a.insert i) := by
  by_cases hi : i < a.len
  · obtain ⟨t, ht, hover, hmem⟩ := h.sized.insert_ok hi
    rw [ht, PositionSet.insert, dif_pos hi]
    refine ⟨hover, fun j => ?_⟩
    rw [hmem, h.mem, Finset.mem_insert, or_comm]
  · rw [BitSet.insert, BitSet.set, h.sized.len, if_neg hi, PositionSet.insert, dif_neg hi]
    rfl

theorem Shows.erase (h : s.Shows a) (i : Nat) :
    SetOps.Agree Shows (s.erase i) (a.erase i) := by
  by_cases hi : i < a.len
  · obtain ⟨t, ht, hover, hmem⟩ := h.sized.erase_ok hi
    rw [ht, PositionSet.erase, if_pos hi]
    refine ⟨hover, fun j => ?_⟩
    rw [hmem, h.mem, Finset.mem_erase, and_comm]
  · rw [BitSet.erase, BitSet.set, h.sized.len, if_neg hi, PositionSet.erase, if_neg hi]
    rfl

theorem Shows.get (h : s.Shows a) (i : Nat) : s.get i = a.get i := by
  rw [BitSet.get, PositionSet.get, h.sized.len, ← contains_eq_hasBit h.sized.wellFormed,
    h.contains_eq]

/-- A combination that changes the members tells so. -/
theorem Shows.combined {f : UInt64 → UInt64 → UInt64} {c : Bool} {v : PositionSet}
    (hs : s.Shows a) (ht : t.Shows b) (hlen : a.len = b.len) (hu : combine f s t = .ok (u, c))
    (huv : u.Shows v) (hv : v.len = a.len) : u.Shows v ∧ c = decide (v.members ≠ a.members) := by
  refine ⟨huv, ?_⟩
  have hne : u ≠ s ↔ v.members ≠ a.members := by
    rw [ne_eq, huv.eq_iff hs]
    simp [hv]
  rw [Bool.eq_iff_iff, decide_eq_true_iff, ← hne]
  exact combine_changed_iff hs.sized (hlen ▸ ht.sized) hu

theorem Shows.union (hs : s.Shows a) (ht : t.Shows b) :
    SetOps.Agree (fun u c => Shows u.1 c.1 ∧ u.2 = c.2) (s.union t) (a.union b) := by
  by_cases hlen : a.len = b.len
  · obtain ⟨u, c, hu, hover, hmem⟩ := hs.sized.union (hlen ▸ ht.sized)
    rw [hu, PositionSet.union, dif_pos hlen]
    refine hs.combined ht hlen hu ⟨hover, fun j => ?_⟩ rfl
    rw [hmem, Bool.or_eq_true, hs.mem, ht.mem, Finset.mem_union]
  · rw [BitSet.union, combine, hs.sized.len, ht.sized.len, if_neg hlen, PositionSet.union,
      dif_neg hlen]
    rfl

theorem Shows.inter (hs : s.Shows a) (ht : t.Shows b) :
    SetOps.Agree (fun u c => Shows u.1 c.1 ∧ u.2 = c.2) (s.inter t) (a.inter b) := by
  by_cases hlen : a.len = b.len
  · obtain ⟨u, c, hu, hover, hmem⟩ := hs.sized.inter (hlen ▸ ht.sized)
    rw [hu, PositionSet.inter, if_pos hlen]
    refine hs.combined ht hlen hu ⟨hover, fun j => ?_⟩ rfl
    rw [hmem, Bool.and_eq_true, hs.mem, ht.mem, Finset.mem_inter]
  · rw [BitSet.inter, combine, hs.sized.len, ht.sized.len, if_neg hlen, PositionSet.inter,
      if_neg hlen]
    rfl

theorem Shows.isSubset (hs : s.Shows a) (ht : t.Shows b) : s.isSubset t = a.isSubset b := by
  by_cases hlen : a.len = b.len
  · obtain ⟨c, hc, hsub⟩ := hs.sized.isSubset (hlen ▸ ht.sized)
    have hdecide : c = decide (a.members ⊆ b.members) := by
      rw [Bool.eq_iff_iff, decide_eq_true_iff, hsub, hs.subset_iff ht]
    rw [hc, PositionSet.isSubset, if_pos hlen, hdecide]
  · rw [BitSet.isSubset, hs.sized.len, ht.sized.len, if_neg hlen, PositionSet.isSubset, if_neg hlen]

theorem ops_refines : SetOps.Refines Shows ops PositionSet.ops where
  empty n := ⟨over_empty n, by simp [ops, PositionSet.ops, PositionSet.empty]⟩
  set h i member := by
    cases member with
    | true => exact h.insert i
    | false => exact h.erase i
  insert h i := h.insert i
  erase h i := h.erase i
  union hs ht := hs.union ht
  inter hs ht := hs.inter ht
  clear h := ⟨h.sized.clear.1,
    fun i => by simp [ops, PositionSet.ops, PositionSet.empty, h.sized.clear.2]⟩
  get h i := h.get i
  contains h i := h.contains_eq i
  isSubset hs ht := hs.isSubset ht
  same hs ht := decide_eq_decide.mpr (hs.eq_iff ht)

/-- Every sequence of requests gets the same replies from bit sets as from finite sets, and leaves
bit sets that are well-formed and stand for the finite sets. -/
theorem run_refines (qs : List SetRequest) :
    SetOps.Matches Shows (ops.run (fun _ => empty 0) qs)
      (PositionSet.ops.run (fun _ => .empty 0) qs) :=
  ops_refines.run (fun _ => ops_refines.empty 0) qs

end BitSet

end SsaFlow
