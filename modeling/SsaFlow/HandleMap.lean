import SsaFlow.Handle

/-!
# Maps keyed by handles

A `HandleMap` holds values for some handles of one kind.  Its entries are kept
in ascending order of the handles, each handle once.  So two maps with the same
lookups are equal (`HandleMap.ext_get?`), and reading the entries out gives them
in order.
-/

namespace SsaFlow

/-- A finite map from the handles of the kind `k`. -/
structure HandleMap (k : Entity) (α : Type) where
  /-- The entries, in ascending order of their handles. -/
  entries : List (Handle k × α)
  /-- Each handle comes before all later ones. -/
  sorted : entries.Pairwise fun a b => a.1.index < b.1.index
deriving DecidableEq

namespace HandleMap

variable {k : Entity} {α : Type}

/-- The map without entries. -/
def empty : HandleMap k α := ⟨[], .nil⟩

instance : Inhabited (HandleMap k α) := ⟨empty⟩

/-- Puts an entry at its place in a sorted list, over an entry of the same handle. -/
def place (h : Handle k) (v : α) : List (Handle k × α) → List (Handle k × α)
  | [] => [(h, v)]
  | e :: rest =>
    if h.index < e.1.index then (h, v) :: e :: rest
    else if h = e.1 then (h, v) :: rest
    else e :: place h v rest

/-- The handles after placing an entry are the old ones and the new one. -/
theorem fst_mem_place {h : Handle k} {v : α} {e : Handle k × α} :
    ∀ {es : List (Handle k × α)}, e ∈ place h v es → e.1 = h ∨ e ∈ es
  | [], he => by simp [place] at he; simp [he]
  | d :: rest, he => by
    simp only [place] at he
    split at he
    · rcases List.mem_cons.mp he with rfl | he
      · exact .inl rfl
      · exact .inr he
    split at he
    · rcases List.mem_cons.mp he with rfl | he
      · exact .inl rfl
      · exact .inr (List.mem_cons_of_mem _ he)
    · rcases List.mem_cons.mp he with rfl | he
      · exact .inr List.mem_cons_self
      · exact (fst_mem_place he).imp_right (List.mem_cons_of_mem _)

/-- Placing keeps the order. -/
theorem sorted_place {h : Handle k} {v : α} :
    ∀ {es : List (Handle k × α)}, es.Pairwise (fun a b => a.1.index < b.1.index) →
      (place h v es).Pairwise fun a b => a.1.index < b.1.index
  | [], _ => by simp [place]
  | e :: rest, hs => by
    obtain ⟨hlt, hrest⟩ := List.pairwise_cons.mp hs
    simp only [place]
    split
    next hh =>
      refine List.pairwise_cons.mpr ⟨fun d hd => ?_, hs⟩
      rcases List.mem_cons.mp hd with rfl | hd
      · exact hh
      · exact Nat.lt_trans hh (hlt d hd)
    next hh =>
      split
      next heq => exact List.pairwise_cons.mpr ⟨fun d hd => heq ▸ hlt d hd, hrest⟩
      next hne =>
        refine List.pairwise_cons.mpr ⟨fun d hd => ?_, sorted_place hrest⟩
        rcases fst_mem_place hd with hd | hd
        · have : h.index ≠ e.1.index := fun hi => hne (by cases h; cases e.1; simp_all)
          rw [hd]; omega
        · exact hlt d hd

/-- The map with `v` at `h`. -/
def insert (m : HandleMap k α) (h : Handle k) (v : α) : HandleMap k α :=
  ⟨place h v m.entries, sorted_place m.sorted⟩

/-- The value at `h`, if there is one. -/
def get? (m : HandleMap k α) (h : Handle k) : Option α := m.entries.lookup h

/-- The value at `h`, or `default` when there is none. -/
def getD (m : HandleMap k α) (h : Handle k) (default : α) : α := (m.get? h).getD default

/-- The number of entries. -/
def size (m : HandleMap k α) : Nat := m.entries.length

/-- Whether there are no entries. -/
def isEmpty (m : HandleMap k α) : Bool := m.entries.isEmpty

/-! ## Lookups -/

/-- The first entry decides for its own handle, and the rest for the others. -/
theorem lookup_cons (d h : Handle k) (w : α) (rest : List (Handle k × α)) :
    ((d, w) :: rest).lookup h = if h = d then some w else rest.lookup h := by
  by_cases hh : h = d
  · simp [hh]
  · rw [List.lookup_cons, beq_false_of_ne hh, if_neg hh]

/-- A handle below all entries has no value. -/
theorem lookup_eq_none_of_lt {h : Handle k} :
    ∀ {es : List (Handle k × α)}, (∀ e ∈ es, h.index < e.1.index) → es.lookup h = none
  | [], _ => rfl
  | (d, _) :: rest, hlt => by
    have hd : h.index < d.index := hlt _ List.mem_cons_self
    rw [lookup_cons, if_neg fun he => by simp [he] at hd]
    exact lookup_eq_none_of_lt fun e he => hlt e (List.mem_cons_of_mem _ he)

/-- Placing an entry changes the value of its own handle only. -/
theorem lookup_place (h h' : Handle k) (v : α) :
    ∀ es : List (Handle k × α),
      (place h v es).lookup h' = if h' = h then some v else es.lookup h'
  | [] => by simp only [place, lookup_cons]
  | (d, w) :: rest => by
    simp only [place]
    split
    · rw [lookup_cons]
    split
    next heq =>
      subst heq
      rw [lookup_cons, lookup_cons]
      split <;> rfl
    next hne =>
      rw [lookup_cons, lookup_cons, lookup_place h h' v rest]
      by_cases hh : h' = d
      · simp [hh, Ne.symm hne]
      · simp [hh]

/-- The value at a handle after an insertion. -/
theorem get?_insert (m : HandleMap k α) (h h' : Handle k) (v : α) :
    (m.insert h v).get? h' = if h' = h then some v else m.get? h' :=
  lookup_place h h' v m.entries

/-- The map without entries has no values. -/
@[simp] theorem get?_empty (h : Handle k) : (empty : HandleMap k α).get? h = none := rfl

/-- The first handle of a sorted list is not above a handle that has a value. -/
theorem le_of_lookup_eq_some {d h : Handle k} {w v : α} {rest : List (Handle k × α)}
    (hs : ((d, w) :: rest).Pairwise fun a b => a.1.index < b.1.index)
    (hv : ((d, w) :: rest).lookup h = some v) : d.index ≤ h.index := by
  refine Nat.le_of_not_lt fun hlt => ?_
  rw [lookup_eq_none_of_lt fun c hc => ?_] at hv
  · cases hv
  · rcases List.mem_cons.mp hc with rfl | hc
    · exact hlt
    · exact Nat.lt_trans hlt ((List.pairwise_cons.mp hs).1 c hc)

/-- Sorted lists with the same lookups are equal. -/
theorem eq_of_lookup_eq :
    ∀ {es ds : List (Handle k × α)}, es.Pairwise (fun a b => a.1.index < b.1.index) →
      ds.Pairwise (fun a b => a.1.index < b.1.index) → (∀ h, es.lookup h = ds.lookup h) → es = ds
  | [], [], _, _, _ => rfl
  | [], (d, w) :: _, _, _, heq => by simpa using heq d
  | (e, v) :: _, [], _, _, heq => by simpa using heq e
  | (e, v) :: es, (d, w) :: ds, hes, hds, heq => by
    have hle := le_of_lookup_eq_some hds ((heq e).symm.trans List.lookup_cons_self)
    have hge := le_of_lookup_eq_some hes ((heq d).trans List.lookup_cons_self)
    obtain rfl : e = d := by
      cases e; cases d
      exact congrArg _ (Nat.le_antisymm hge hle)
    obtain rfl : v = w := by simpa using heq e
    obtain ⟨hes, hes'⟩ := List.pairwise_cons.mp hes
    obtain ⟨hds, hds'⟩ := List.pairwise_cons.mp hds
    rw [eq_of_lookup_eq hes' hds' fun h => ?_]
    by_cases hh : h = e
    · rw [hh, lookup_eq_none_of_lt hes, lookup_eq_none_of_lt hds]
    · simpa only [lookup_cons, if_neg hh] using heq h

/-- Maps with the same lookups are equal. -/
theorem ext_get? {m n : HandleMap k α} (heq : ∀ h, m.get? h = n.get? h) : m = n := by
  obtain ⟨es, hes⟩ := m
  obtain ⟨ds, hds⟩ := n
  obtain rfl := eq_of_lookup_eq hes hds heq
  rfl

end HandleMap

end SsaFlow
