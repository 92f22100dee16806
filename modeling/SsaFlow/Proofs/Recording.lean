import Mathlib.Data.List.Forall2
import SsaFlow.Dataflow.Problem

/-!
# Computations that succeed

`Yields x s a s'` says that the recording computation `x`, started on the
record `s`, succeeds with `a` and leaves the record `s'`.  A successful sequence
of steps is a sequence of successful steps (`yields_bind`), so statements about
success are opened from the outside in, one step at a time.

The same laws hold of computations that record nothing.  A step that can fail in
fewer ways than the whole is lifted, and lifting does not change when it
succeeds.

A loop over a list keeps what each of its rounds keeps (`foldlM_induction`).
-/

namespace SsaFlow

variable {σ α β ε : Type}

/-! ## Without a record -/

theorem bind_eq_ok {x : Except ε α} {f : α → Except ε β} {b : β} :
    x >>= f = .ok b ↔ ∃ a, x = .ok a ∧ f a = .ok b := by
  cases x with
  | error e => simp [bind, Except.bind]
  | ok a => simp [bind, Except.bind]

theorem pure_eq_ok {a b : α} : (pure a : Except ε α) = .ok b ↔ a = b := by
  simp [pure, Except.pure]

theorem map_eq_ok {x : Except ε α} {f : α → β} {b : β} :
    f <$> x = .ok b ↔ ∃ a, x = .ok a ∧ f a = b := by
  cases x with
  | error e => simp [Functor.map, Except.map]
  | ok a => simp [Functor.map, Except.map]

instance decidableEqOk [DecidableEq α] {x : Except ε α} {a : α} : Decidable (x = .ok a) :=
  match x with
  | .error _ => isFalse nofun
  | .ok b => decidable_of_iff (b = a) (by rw [Except.ok.injEq])

/-- Lifting a step that may fault does not change when it succeeds. -/
theorem liftFault_eq_ok {x : Except Fault α} {a : α} :
    (liftM x : Except Failure α) = .ok a ↔ x = .ok a := by
  cases x with
  | error f =>
    constructor
    · intro h; cases h
    · intro h; cases h
  | ok b =>
    constructor
    · intro h; cases h; rfl
    · intro h; cases h; rfl

/-- Lifting a step that may end in an analysis error does not change when it succeeds. -/
theorem liftError_eq_ok {x : Except AnalysisError α} {a : α} :
    (liftM x : Except Failure α) = .ok a ↔ x = .ok a := by
  cases x with
  | error e =>
    constructor
    · intro h; cases h
    · intro h; cases h
  | ok b =>
    constructor
    · intro h; cases h; rfl
    · intro h; cases h; rfl

theorem mapM_eq_ok {f : α → Except ε β} {xs : List α} {ys : List β} :
    xs.mapM f = .ok ys ↔ List.Forall₂ (fun x y => f x = .ok y) xs ys := by
  induction xs generalizing ys with
  | nil => rw [List.mapM_nil, pure_eq_ok, List.forall₂_nil_left_iff, eq_comm]
  | cons x xs ih =>
    simp only [List.mapM_cons, bind_eq_ok, pure_eq_ok, ih, List.forall₂_cons_left_iff]
    constructor
    · rintro ⟨y, hy, zs, hzs, rfl⟩
      exact ⟨y, zs, hy, hzs, rfl⟩
    · rintro ⟨y, zs, hy, hzs, rfl⟩
      exact ⟨y, hy, zs, hzs, rfl⟩

theorem exists_left_of_mem {R : α → β → Prop} {xs : List α} {ys : List β}
    (h : List.Forall₂ R xs ys) {y : β} (hy : y ∈ ys) : ∃ x ∈ xs, R x y := by
  induction h with
  | nil => cases hy
  | @cons x z xs zs hx _ ih =>
    cases hy with
    | head => exact ⟨x, List.mem_cons_self, hx⟩
    | tail _ hy =>
      obtain ⟨w, hw, hwy⟩ := ih hy
      exact ⟨w, List.mem_cons_of_mem _ hw, hwy⟩

theorem exists_forall₂ {R : α → β → Prop} {xs : List α} (h : ∀ x ∈ xs, ∃ y, R x y) :
    ∃ ys, List.Forall₂ R xs ys := by
  induction xs with
  | nil => exact ⟨[], .nil⟩
  | cons x xs ih =>
    obtain ⟨y, hy⟩ := h x List.mem_cons_self
    obtain ⟨ys, hys⟩ := ih fun z hz => h z (List.mem_cons_of_mem _ hz)
    exact ⟨y :: ys, .cons hy hys⟩

theorem exists_of_forall₂ {R : α → β → Prop} {xs : List α} {ys : List β}
    (h : List.Forall₂ R xs ys) : ∀ x ∈ xs, ∃ y, R x y := by
  intro x hx
  obtain ⟨y, -, hy⟩ := exists_left_of_mem h.flip hx
  exact ⟨y, hy⟩

/-- A map succeeds if each item has a result, and what relates each result to another list relates
all of them. -/
theorem exists_mapM {γ : Type} {f : α → Except ε β} {Q : β → γ → Prop} {xs : List α} {zs : List γ}
    (h : List.Forall₂ (fun x z => ∃ y, f x = .ok y ∧ Q y z) xs zs) :
    ∃ ys, xs.mapM f = .ok ys ∧ List.Forall₂ Q ys zs := by
  simp only [mapM_eq_ok]
  induction h with
  | nil => exact ⟨[], .nil, .nil⟩
  | cons hx _ ih =>
    obtain ⟨y, hy, hz⟩ := hx
    obtain ⟨ys, hys, hzs⟩ := ih
    exact ⟨y :: ys, .cons hy hys, .cons hz hzs⟩

/-- What every round of a loop keeps holds at its end. -/
theorem foldlM_induction {P : β → Prop} {f : β → α → Except ε β} :
    ∀ {xs : List α} {b c : β}, P b → (∀ x ∈ xs, ∀ b c, P b → f b x = .ok c → P c) →
      xs.foldlM f b = .ok c → P c
  | [], b, c, hb, _, h => by
    rw [List.foldlM_nil, pure_eq_ok] at h
    exact h ▸ hb
  | x :: xs, b, c, hb, hstep, h => by
    rw [List.foldlM_cons, bind_eq_ok] at h
    obtain ⟨d, hd, h⟩ := h
    exact foldlM_induction (hstep x List.mem_cons_self b d hb hd)
      (fun y hy => hstep y (List.mem_cons_of_mem _ hy)) h

/-! ## With a record -/

/-- The computation succeeds from the record `s` with `a`, and leaves the record `s'`. -/
def Yields (x : ExceptT ε (StateM σ) α) (s : σ) (a : α) (s' : σ) : Prop :=
  x.run.run s = (.ok a, s')

section

variable {s s' : σ} {a : α} {b : β}

instance decidableYields [DecidableEq α] [DecidableEq σ] {x : ExceptT ε (StateM σ) α} :
    Decidable (Yields x s a s') :=
  decidable_of_iff ((x.run.run s).1 = .ok a ∧ (x.run.run s).2 = s')
    (by rw [Yields, Prod.ext_iff])

theorem yields_pure {a' : α} :
    Yields (pure a : ExceptT ε (StateM σ) α) s a' s' ↔ a = a' ∧ s = s' := by
  constructor
  · intro h; cases h; exact ⟨rfl, rfl⟩
  · rintro ⟨rfl, rfl⟩; rfl

theorem yields_bind {x : ExceptT ε (StateM σ) α} {f : α → ExceptT ε (StateM σ) β} :
    Yields (x >>= f) s b s' ↔ ∃ a u, Yields x s a u ∧ Yields (f a) u b s' := by
  simp only [Yields, ExceptT.run_bind, StateT.run_bind]
  cases hx : x.run.run s with
  | mk r u =>
    cases r with
    | error e =>
      constructor
      · intro h; cases h
      · rintro ⟨a, v, hv, _⟩; cases hv
    | ok a =>
      constructor
      · intro h; exact ⟨a, u, rfl, h⟩
      · rintro ⟨a', v, hv, h⟩; cases hv; exact h

theorem not_yields_throw {e : ε} : ¬ Yields (throw e : ExceptT ε (StateM σ) α) s a s' := by
  intro h
  cases h

theorem yields_lift {x : Except ε α} :
    Yields (liftM x : ExceptT ε (StateM σ) α) s a s' ↔ x = .ok a ∧ s = s' := by
  cases x with
  | error e =>
    constructor
    · intro h; cases h
    · rintro ⟨h, _⟩; cases h
  | ok b =>
    constructor
    · intro h; cases h; exact ⟨rfl, rfl⟩
    · rintro ⟨h, rfl⟩; cases h; rfl

theorem yields_liftFault {x : Except Fault α} :
    Yields (liftM x : Recording σ α) s a s' ↔ x = .ok a ∧ s = s' := by
  rw [← liftFault_eq_ok]
  exact yields_lift

theorem yields_liftError {x : Except AnalysisError α} :
    Yields (liftM x : Recording σ α) s a s' ↔ x = .ok a ∧ s = s' := by
  rw [← liftError_eq_ok]
  exact yields_lift

theorem yields_get {t : σ} :
    Yields (get : ExceptT ε (StateM σ) σ) s t s' ↔ s = t ∧ s = s' := by
  constructor
  · intro h; cases h; exact ⟨rfl, rfl⟩
  · rintro ⟨rfl, rfl⟩; rfl

theorem yields_set {t : σ} {a : Unit} :
    Yields (set t : ExceptT ε (StateM σ) Unit) s a s' ↔ t = s' := by
  constructor
  · intro h; cases h; rfl
  · rintro rfl; rfl

/-- A computation succeeds in one way only. -/
theorem Yields.unique {x : ExceptT ε (StateM σ) α} {a' : α} {s'' : σ} (h : Yields x s a s')
    (h' : Yields x s a' s'') : a = a' ∧ s' = s'' := by
  have heq := h.symm.trans h'
  cases heq
  exact ⟨rfl, rfl⟩

end

end SsaFlow
