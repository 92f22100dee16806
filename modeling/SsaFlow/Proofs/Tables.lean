import SsaFlow.Proofs.Recording

/-!
# Laws of dense tables

What a table holds is told by `Table.get?`.  Reading succeeds where there is a
slot, a write changes one slot and no other, and neither changes the size.
-/

namespace SsaFlow

namespace Handle

theorem nodup_first (k : Entity) (n : Nat) : (first n : List (Handle k)).Nodup := by
  rw [first]
  refine List.Pairwise.map _ (fun i j hij heq => ?_) List.nodup_range
  cases heq
  exact hij rfl

end Handle

namespace Table

variable {k : Entity} {α β : Type} {t t' : Table k α} {h h' : Handle k} {a : α}

/-- Handles with the same index are equal. -/
theorem handle_eq_iff : h = h' ↔ h.index = h'.index := by
  cases h
  cases h'
  simp

theorem read_eq_ok : t.read h = .ok a ↔ t.get? h = some a := by
  unfold read
  cases t.get? h with
  | none => simp
  | some b => simp

/-- There is a slot for each index below the size. -/
theorem exists_get? (hlt : h.index < t.size) : ∃ a, t.get? h = some a :=
  ⟨_, Array.getElem?_eq_getElem hlt⟩

theorem lt_size (ha : t.get? h = some a) : h.index < t.size := by
  obtain ⟨hlt, _⟩ := Array.getElem?_eq_some_iff.mp ha
  exact hlt

@[simp] theorem mem_handles : h ∈ t.handles ↔ h.index < t.size := by
  simp [handles]

/-- The entries are the slots with their handles. -/
theorem mem_entries : (h, a) ∈ t.entries ↔ t.get? h = some a := by
  simp only [entries, toList, List.mem_map, Prod.exists, List.mem_zipIdx_iff_getElem?]
  constructor
  · rintro ⟨b, i, hb, heq⟩
    cases heq
    simpa [get?] using hb
  · intro ha
    exact ⟨a, h.index, by simpa [get?] using ha, rfl⟩

theorem map_fst_entries : t.entries.map Prod.fst = t.handles := by
  have hindex : t.toList.zipIdx.map Prod.snd = List.range t.size := by
    rw [List.zipIdx_map_snd, List.range_eq_range']
    rfl
  rw [handles, Handle.first, ← hindex, entries, List.map_map, List.map_map]
  rfl

theorem map_snd_entries : t.entries.map Prod.snd = t.toList := by
  simp [entries, Function.comp_def]

theorem getElem?_toList (n : Nat) : t.toList[n]? = t.get? ⟨n⟩ := by
  simp [toList, get?]

theorem getElem?_entries (n : Nat) : t.entries[n]? = (t.get? ⟨n⟩).map fun a => (⟨n⟩, a) := by
  simp only [entries, List.getElem?_map, List.getElem?_zipIdx, getElem?_toList, Option.map_map]
  cases t.get? ⟨n⟩ with
  | none => rfl
  | some a => simp

theorem mem_toList : a ∈ t.toList ↔ ∃ h, t.get? h = some a := by
  rw [toList, Array.mem_toList_iff, Array.mem_iff_getElem?]
  constructor
  · rintro ⟨i, hi⟩
    exact ⟨⟨i⟩, hi⟩
  · rintro ⟨h, hh⟩
    exact ⟨h.index, hh⟩

/-! ## Tables made from others -/

@[simp] theorem size_replicate (n : Nat) : (replicate n a : Table k α).size = n := by
  simp [replicate, size]

@[simp] theorem size_map (f : α → β) : (t.map f).size = t.size := by
  simp [map, size]

theorem get?_map (f : α → β) : (t.map f).get? h = (t.get? h).map f := by
  simp [map, get?]

theorem read_map (f : α → β) : (t.map f).read h = f <$> t.read h := by
  simp only [read, get?_map, missing, size_map]
  cases t.get? h with
  | none => rfl
  | some a => rfl

theorem toList_map (f : α → β) : (t.map f).toList = t.toList.map f := by
  simp [map, toList]

/-- A table made from the entries of another has a slot for each of them. -/
theorem get?_ofList_entries (f : Handle k × α → β) :
    (ofList (t.entries.map f) : Table k β).get? h = (t.get? h).map fun a => f (h, a) := by
  simp only [ofList, get?, entries, toList, List.getElem?_toArray, List.map_map,
    List.getElem?_map, List.getElem?_zipIdx, Array.getElem?_toList]
  cases t.slots[h.index]? with
  | none => rfl
  | some b => simp

theorem size_ofList_entries (f : Handle k × α → β) :
    (ofList (t.entries.map f) : Table k β).size = t.size := by
  simp [ofList, size, entries, toList]

/-! ## Updates -/

theorem update_eq_ok {f : α → α} :
    t.update h f = .ok t' ↔ h.index < t.size ∧ ⟨t.slots.modify h.index f⟩ = t' := by
  unfold update
  split
  next hlt => simp [hlt]
  next hlt => simp [hlt]

theorem size_update {f : α → α} (hu : t.update h f = .ok t') : t'.size = t.size := by
  obtain ⟨_, rfl⟩ := update_eq_ok.mp hu
  simp [size]

/-- An update changes one slot and no other. -/
theorem get?_update {f : α → α} (hu : t.update h f = .ok t') :
    t'.get? h' = if h' = h then (t.get? h').map f else t.get? h' := by
  obtain ⟨_, rfl⟩ := update_eq_ok.mp hu
  simp only [get?, Array.getElem?_modify, handle_eq_iff, eq_comm (a := h.index)]

theorem write_ok (hlt : h.index < t.size) (a : α) : ∃ t', t.write h a = .ok t' :=
  ⟨_, update_eq_ok.mpr ⟨hlt, rfl⟩⟩

theorem lt_size_of_write (hw : t.write h a = .ok t') : h.index < t.size :=
  (update_eq_ok.mp hw).1

theorem size_write (hw : t.write h a = .ok t') : t'.size = t.size := size_update hw

/-- A write changes one slot and no other. -/
theorem get?_write (hw : t.write h a = .ok t') :
    t'.get? h' = if h' = h then some a else t.get? h' := by
  rw [get?_update hw]
  split
  next heq =>
    obtain ⟨b, hb⟩ := exists_get? (lt_size_of_write hw)
    rw [heq, hb, Option.map_some]
  next => rfl

/-- Tables of one size with the same slots are equal. -/
theorem ext_get? (hsize : t.size = t'.size)
    (hget : ∀ h : Handle k, h.index < t.size → t.get? h = t'.get? h) : t = t' := by
  obtain ⟨as⟩ := t
  obtain ⟨bs⟩ := t'
  refine congrArg Table.mk (Array.ext hsize fun i hi hi' => ?_)
  have hget' : as[i]? = bs[i]? := hget ⟨i⟩ hi
  rw [Array.getElem?_eq_getElem hi, Array.getElem?_eq_getElem hi'] at hget'
  exact Option.some.inj hget'

/-- Tables of one size with the same slots give the same answers. -/
theorem read_congr (hsize : t.size = t'.size) (hget : t.get? h = t'.get? h) :
    t.read h = t'.read h := by
  simp only [read, hget, missing, hsize]

end Table

end SsaFlow
