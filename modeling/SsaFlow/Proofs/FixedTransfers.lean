import Mathlib.Order.Interval.Set.Basic
import SsaFlow.Proofs.Failures

/-!
# The transfer of a block as a fixed function

What a block does to a live set is fixed by the graph: it takes out one set of
numbers and then puts in another.  It takes out what any of its instructions writes
(`Domain.killSet`).  It puts in what an instruction reads and none before it
writes (`Domain.genSet`).  An instruction that reads its own result counts as a
reader, and one that is listed more than once counts at every place.

Whether the transfer fails is fixed as well, and so is the error.  Of all its steps
only three can fail on a set over the domain: reading the facts of an instruction,
looking up a value, and finding the place of an instruction on record.
`Domain.checkBlock` takes these steps and no others.  It sees neither a live set nor
a record, so two transfers of a block end alike.

This needs records of the right shape (`LiveTables.Fits`).  Every computation on
records keeps the shape, whether it succeeds or not (`Keeps`).
-/

namespace SsaFlow

variable {σ α β ε : Type}

/-! ## Runs that may fail -/

/-- Every run of the computation keeps what holds of the record, also a run that fails. -/
def Keeps (P : σ → Prop) (m : ExceptT ε (StateM σ) α) : Prop := ∀ s, P s → P (m.run.run s).2

/-- The outcome is the same error, or both are successes and the result has `Q`. -/
def EndAlike (Q : α → Prop) : Except ε Unit → Except ε α → Prop
  | .ok (), r => ∃ a, r = .ok a ∧ Q a
  | .error e, r => r = .error e

/-- From every record with `P`, the computation ends as the check does, and a success has `Q`. -/
def EndsAs (P : σ → Prop) (Q : α → Prop) (m : ExceptT ε (StateM σ) α) (v : Except ε Unit) : Prop :=
  ∀ s, P s → EndAlike Q v (m.run.run s).1

section

variable {P : σ → Prop} {Q : α → Prop} {R : β → Prop} {m : ExceptT ε (StateM σ) α}
  {f : α → ExceptT ε (StateM σ) β}

theorem keeps_pure {a : α} : Keeps P (pure a : ExceptT ε (StateM σ) α) := fun _ hs => hs

theorem keeps_lift {x : Except ε α} : Keeps P (liftM x : ExceptT ε (StateM σ) α) := by
  intro s hs
  cases x with
  | error e => exact hs
  | ok a => exact hs

theorem Keeps.bind (hm : Keeps P m) (hf : ∀ a, Keeps P (f a)) : Keeps P (m >>= f) := by
  intro s hs
  have hu := hm s hs
  cases hrun : m.run.run s with
  | mk r u =>
    rw [hrun] at hu
    cases r with
    | error e =>
      rw [run_bind_of_error hrun]
      exact hu
    | ok a =>
      rw [run_bind_of_yields hrun]
      exact hf a u hu

theorem keeps_foldrM {f : β → α → ExceptT ε (StateM σ) α} (hf : ∀ b a, Keeps P (f b a)) :
    ∀ {bs : List β} {a : α}, Keeps P (bs.foldrM f a)
  | [], _ => keeps_pure
  | b :: bs, a => by
    rw [List.foldrM_cons]
    exact (keeps_foldrM hf).bind (hf b)

theorem endsAs_pure {a : α} (ha : Q a) :
    EndsAs P Q (pure a : ExceptT ε (StateM σ) α) (.ok ()) := fun _ _ => ⟨a, rfl, ha⟩

theorem endsAs_lift {x : Except ε α} {v : Except ε Unit} (h : EndAlike Q v x) :
    EndsAs P Q (liftM x : ExceptT ε (StateM σ) α) v := by
  intro s _
  cases x with
  | error e => exact h
  | ok a => exact h

/-- Two sequences end alike if they do so step by step. -/
theorem EndsAs.bind {v w : Except ε Unit} (hm : EndsAs P Q m v) (hkeeps : Keeps P m)
    (hf : ∀ a, Q a → EndsAs P R (f a) w) : EndsAs P R (m >>= f) (v >>= fun _ => w) := by
  intro s hs
  have hv := hm s hs
  have hu := hkeeps s hs
  cases hrun : m.run.run s with
  | mk r u =>
    rw [hrun] at hv hu
    cases v with
    | error e =>
      obtain rfl : r = .error e := hv
      rw [run_bind_of_error hrun]
      exact rfl
    | ok _ =>
      obtain ⟨a, rfl, ha⟩ := hv
      rw [run_bind_of_yields hrun]
      exact hf a ha u hu

theorem EndsAs.bind_pure {v : Except ε Unit} {b : β} (hm : EndsAs P Q m v) (hkeeps : Keeps P m)
    (hb : R b) : EndsAs P R (m >>= fun _ => pure b) v := by
  have hv : (v >>= fun _ => .ok ()) = v := bind_pure_unit
  rw [← hv]
  exact hm.bind hkeeps fun _ _ => endsAs_pure hb

/-- A first step that both sequences share may hand on its result. -/
theorem endsAs_bind_lift {x : Except ε α} {w : α → Except ε Unit}
    (hf : ∀ a, x = .ok a → EndsAs P R (f a) (w a)) :
    EndsAs P R ((liftM x : ExceptT ε (StateM σ) α) >>= f) (x >>= w) := by
  intro s hs
  cases x with
  | error e => exact rfl
  | ok a => exact hf a rfl s hs

theorem EndAlike.of_ok {x : Except ε α} {f : α → Except ε β} {a : α} {v : Except ε Unit}
    (hx : x = .ok a) (h : EndAlike R v (f a)) : EndAlike R v (x >>= f) := by
  subst hx
  exact h

theorem EndAlike.imp {Q' : α → Prop} {v : Except ε Unit} {r : Except ε α} (h : EndAlike Q v r)
    (hQ : ∀ a, r = .ok a → Q' a) : EndAlike Q' v r := by
  cases v with
  | error e => exact h
  | ok _ =>
    obtain ⟨a, ha, -⟩ := h
    exact ⟨a, ha, hQ a ha⟩

theorem EndAlike.map_eq {v : Except ε Unit} {r : Except ε α} (h : EndAlike Q v r) :
    r.map (fun _ => ()) = v := by
  cases v with
  | error e =>
    obtain rfl : r = .error e := h
    rfl
  | ok _ =>
    obtain ⟨a, rfl, -⟩ := h
    rfl

end

theorem Run.keeps_finish [DecidableEq α] {P : σ → Prop} {p : Problem σ α}
    (hp : ∀ b x, Keeps P (p.transfer b x)) (g : FlowGraph) (fuel : Nat) (r : Run α) :
    Keeps P (finish p g fuel r) := by
  induction fuel generalizing r with
  | zero =>
    unfold finish
    split
    next => exact keeps_pure
    next => exact fun _ hs => hs
    next h => cases h
  | succ fuel ih =>
    unfold finish
    split
    next => exact keeps_pure
    next h => cases h
    next h =>
      cases h
      have hvisit : ∀ r b, Keeps P (visit p g r b) := fun r b =>
        keeps_lift.bind fun x => (hp b x).bind fun y => keeps_lift
      exact (hvisit _ _).bind ih

theorem Problem.keeps_solve [DecidableEq α] {P : σ → Prop} {p : Problem σ α}
    (hp : ∀ b x, Keeps P (p.transfer b x)) (g : FlowGraph) (fuel : Nat) :
    Keeps P (p.solve g fuel) := by
  have hedges : Keeps P (liftM g.checkEdges : Recording σ Unit) :=
    keeps_lift (x := (liftM g.checkEdges : Except Failure Unit))
  have horder : Keeps P (liftM (g.seedOrder p.direction) : Recording σ (List Block)) :=
    keeps_lift (x := (liftM (g.seedOrder p.direction) : Except Failure (List Block)))
  exact hedges.bind fun _ => horder.bind fun _ => Run.keeps_finish hp g fuel _

/-! ## The shape of a record -/

theorem PhiInputs.entry_put (t : PhiInputs) (pred q : Block) (s : BitSet) :
    (t.put pred s).entry q = if q = pred then s else t.entry q := by
  unfold entry
  rw [get?_put]
  split
  next => rfl
  next => rfl

theorem PhiInputs.run_mark_error {t : PhiInputs} {pred : Block} {k : Nat} {e : AnalysisError}
    (h : (t.entry pred).insert k = .error e) :
    (mark pred k).run.run t = (.error e, t.put pred (t.entry pred)) := by
  show (liftM ((t.entry pred).insert k) >>= fun s => set (t.put pred s) :
    ExceptT AnalysisError (StateM PhiInputs) Unit).run.run (t.put pred (t.entry pred)) = _
  rw [h]
  rfl

theorem BitSet.len_insert {s t : BitSet} {k : Nat} (h : s.insert k = .ok t) : t.len = s.len := by
  obtain ⟨-, rfl⟩ := set_eq_ok.mp h
  rfl

/-- There is a place for each instruction, and the inputs from each block are a set of numbers of
the domain.  Nothing is said of what these places and sets hold. -/
structure LiveTables.Fits (d : Domain) (numInsts : Nat) (t : LiveTables) : Prop where
  size : t.before.size = numInsts
  len : ∀ pred, (t.phiInputs.entry pred).len = d.size

namespace LiveTables

variable {d : Domain} {n : Nat} {i : Inst} {x : BitSet}

theorem fits_empty : (empty d n).Fits d n := ⟨Table.size_replicate _, fun _ => rfl⟩

theorem run_record_ok {t : LiveTables} {before : Table .inst BitSet}
    (h : t.before.write i x = .ok before) :
    (record i x).run.run t = (.ok (), { t with before }) :=
  Domain.record_yields_iff.mpr ⟨h, rfl⟩

theorem run_record_error {t : LiveTables} {f : Fault} (h : t.before.write i x = .error f) :
    (record i x).run.run t = (.error (.error (.unknownValue (.inst i))), t) := by
  rw [record, run_bind_of_yields (yields_get.mpr ⟨rfl, rfl⟩), h]
  rfl

theorem run_mark {t : LiveTables} {pred : Block} {k : Nat} {r : Except AnalysisError Unit}
    {u : PhiInputs} (h : (PhiInputs.mark pred k).run.run t.phiInputs = (r, u)) :
    (mark pred k).run.run t = (liftM r, { t with phiInputs := u }) := by
  rw [mark, run_bind_of_yields (yields_get.mpr ⟨rfl, rfl⟩), h]
  cases r with
  | error e => rfl
  | ok a => rfl

theorem Fits.put {t : LiveTables} (ht : t.Fits d n) (pred : Block) {s : BitSet}
    (hs : s.len = d.size) :
    ({ t with phiInputs := t.phiInputs.put pred s } : LiveTables).Fits d n := by
  refine ⟨ht.size, fun q => ?_⟩
  rw [PhiInputs.entry_put]
  split
  next => exact hs
  next => exact ht.len q

theorem keeps_record : Keeps (Fits d n) (record i x) := by
  intro t ht
  cases hw : t.before.write i x with
  | error f =>
    rw [run_record_error hw]
    exact ht
  | ok before =>
    rw [run_record_ok hw]
    exact ⟨(Table.size_write hw).trans ht.size, ht.len⟩

theorem keeps_mark {pred : Block} {k : Nat} : Keeps (Fits d n) (mark pred k) := by
  intro t ht
  cases hs : (t.phiInputs.entry pred).insert k with
  | error e =>
    rw [run_mark (PhiInputs.run_mark_error hs)]
    exact ht.put pred (ht.len pred)
  | ok s =>
    rw [run_mark (PhiInputs.mark_yields hs)]
    exact ht.put pred ((BitSet.len_insert hs).trans (ht.len pred))

/-- A set is put on record if there is a place for the instruction. -/
theorem record_endsAs : EndsAs (Fits d n) (fun _ => True) (record i x)
    (if i.index < n then .ok () else .error (.error (.unknownValue (.inst i)))) := by
  intro t ht
  split
  next hlt =>
    obtain ⟨before, hw⟩ := Table.write_ok (ht.size.symm ▸ hlt) x
    rw [run_record_ok hw]
    exact ⟨(), rfl, trivial⟩
  next hlt =>
    cases hw : t.before.write i x with
    | ok before => exact absurd (ht.size ▸ Table.lt_size_of_write hw) hlt
    | error f =>
      rw [run_record_error hw]
      rfl

/-- A number of the domain can be marked. -/
theorem mark_endsAs {pred : Block} {k : Nat} (hk : k < d.size) :
    EndsAs (Fits d n) (fun _ => True) (mark pred k) (.ok ()) := by
  intro t ht
  obtain ⟨s, hs⟩ : ∃ s, (t.phiInputs.entry pred).insert k = .ok s :=
    ⟨_, BitSet.set_eq_ok.mpr ⟨(ht.len pred).symm ▸ hk, rfl⟩⟩
  rw [run_mark (PhiInputs.mark_yields hs)]
  exact ⟨(), rfl, trivial⟩

end LiveTables

/-! ## What can fail -/

namespace Domain

open LiveTables

variable {d : Domain} {g : FlowGraph} {i : Inst} {b : Block} {x y : BitSet} {n : Nat}

/-- Looks up values one after the other. -/
def lookupAll (d : Domain) (g : FlowGraph) (vs : List Value) : Except Failure Unit :=
  vs.forM fun v => do
    let _ ← d.lookup g v

/-- The steps of the transfer of an instruction that can fail. -/
def checkInst (d : Domain) (g : FlowGraph) (i : Inst) : Except Failure Unit := do
  let facts ← g.facts.read i
  d.lookupAll g (sought facts)
  if i.index < g.numInsts then .ok () else .error (.error (.unknownValue (.inst i)))

/-- The steps of the transfer of a block that can fail, from the last instruction to the first. -/
def checkBlock (d : Domain) (g : FlowGraph) (b : Block) : Except Failure Unit := do
  (← g.insts b).foldrM (fun i _ => d.checkInst g i) ()

theorem lookupAll_cons (v : Value) (vs : List Value) :
    d.lookupAll g (v :: vs) = d.lookup g v >>= fun _ => d.lookupAll g vs := by
  show ((d.lookup g v >>= fun _ => pure ()) >>= fun _ => d.lookupAll g vs) = _
  rw [bind_assoc]
  rfl

theorem gen_endAlike : ∀ {vs : List Value} {x : BitSet}, x.Over d.size →
    EndAlike (BitSet.Over d.size) (d.lookupAll g vs) (d.gen g x vs)
  | [], x, hx => ⟨x, rfl, hx⟩
  | v :: vs, x, hx => by
    rw [lookupAll_cons, gen, List.foldlM_cons]
    cases hr : d.lookup g v with
    | error e => rfl
    | ok r =>
      obtain ⟨z, hz, hover, -⟩ := insert_ok hx hr
      exact EndAlike.of_ok (bind_eq_ok.mpr ⟨r, rfl, hz⟩) (gen_endAlike hover)

theorem keeps_markInputs : ∀ {es : List (Value × Block)}, Keeps (Fits d n) (d.markInputs g es)
  | [] => keeps_pure
  | (v, pred) :: es => by
    show Keeps _ (_ >>= fun _ => d.markInputs g es)
    refine (keeps_lift.bind fun r => ?_).bind fun _ => keeps_markInputs
    cases r with
    | none => exact keeps_pure
    | some k => exact keeps_mark

theorem markInputs_endsAs : ∀ {es : List (Value × Block)},
    EndsAs (Fits d n) (fun _ => True) (d.markInputs g es) (d.lookupAll g (es.map Prod.fst))
  | [] => endsAs_pure trivial
  | (v, pred) :: es => by
    rw [List.map_cons, lookupAll_cons]
    show EndsAs _ _ ((liftM (d.lookup g v) >>= _) >>= fun _ => d.markInputs g es) _
    rw [bind_assoc]
    refine endsAs_bind_lift fun r hr => ?_
    cases r with
    | none => exact markInputs_endsAs
    | some k =>
      have hk : k < d.size := lt_size_of_indexOf? (indexOf?_of_lookup hr)
      exact (mark_endsAs hk).bind keeps_mark fun _ _ => markInputs_endsAs

theorem keeps_withReads {facts : InstFacts} : Keeps (Fits d n) (d.withReads g facts x) := by
  unfold withReads
  split
  next => exact keeps_markInputs.bind fun _ => keeps_pure
  next => exact keeps_lift

theorem withReads_endsAs {facts : InstFacts} (hx : x.Over d.size) :
    EndsAs (Fits d n) (BitSet.Over d.size) (d.withReads g facts x)
      (d.lookupAll g (sought facts)) := by
  unfold withReads sought
  split
  next => exact markInputs_endsAs.bind_pure keeps_markInputs hx
  next => exact endsAs_lift (gen_endAlike hx)

theorem keeps_transferInst : Keeps (Fits d n) (d.transferInst g i x) := by
  rw [transferInst_eq]
  have hfacts : Keeps (Fits d n) (liftM (g.facts.read i) : Recording LiveTables InstFacts) :=
    keeps_lift (x := (liftM (g.facts.read i) : Except Failure InstFacts))
  have hkill : ∀ facts, Keeps (Fits d n)
      (liftM (d.unwritten facts i x) : Recording LiveTables BitSet) := fun facts =>
    keeps_lift (x := (liftM (d.unwritten facts i x) : Except Failure BitSet))
  exact hfacts.bind fun facts => (hkill facts).bind fun _ => keeps_withReads.bind fun _ =>
    keeps_record.bind fun _ => keeps_pure

theorem transferInst_endsAs (hx : x.Over d.size) :
    EndsAs (Fits d g.numInsts) (BitSet.Over d.size) (d.transferInst g i x) (d.checkInst g i) := by
  rw [transferInst_eq]
  refine endsAs_bind_lift (x := (liftM (g.facts.read i) : Except Failure InstFacts))
    fun facts hread => ?_
  have hfacts : g.facts.get? i = some facts := Table.read_eq_ok.mp (liftFault_eq_ok.mp hread)
  -- a number of the domain can always be taken out of a set over it
  obtain ⟨z, hz, hover, -⟩ := unwritten_ok hfacts hx
  rw [hz]
  show EndsAs _ _ (d.withReads g facts z >>= fun y => record i y >>= fun _ => pure y) _
  exact (withReads_endsAs hover).bind keeps_withReads fun y hy =>
    record_endsAs.bind_pure keeps_record hy

theorem foldrM_endsAs (hx : x.Over d.size) : ∀ {is : List Inst},
    EndsAs (Fits d g.numInsts) (BitSet.Over d.size) (is.foldrM (d.transferInst g) x)
      (is.foldrM (fun i _ => d.checkInst g i) ())
  | [] => endsAs_pure hx
  | i :: is => by
    rw [List.foldrM_cons, List.foldrM_cons]
    exact (foldrM_endsAs hx).bind (keeps_foldrM fun _ _ => keeps_transferInst) fun _ hy =>
      transferInst_endsAs hy

theorem transferBlock_eq : d.transferBlock g b x =
    (liftM (liftM (g.insts b) : Except Failure (List Inst)) : Recording LiveTables (List Inst)) >>=
      fun is => is.foldrM (d.transferInst g) x := by
  unfold transferBlock
  simp only [List.foldlM_reverse]
  rfl

theorem keeps_transferBlock : Keeps (Fits d n) (d.transferBlock g b x) := by
  rw [transferBlock_eq]
  exact keeps_lift.bind fun _ => keeps_foldrM fun _ _ => keeps_transferInst

/-- The transfer of a block ends as its check does. -/
theorem transferBlock_endsAs (hx : x.Over d.size) :
    EndsAs (Fits d g.numInsts) (BitSet.Over d.size) (d.transferBlock g b x)
      (d.checkBlock g b) := by
  rw [transferBlock_eq]
  exact endsAs_bind_lift fun _ _ => foldrM_endsAs hx

/-! ## What is taken out and put in -/

/-- An instruction reads the value of a number, and none before it writes it. -/
def Exposed (d : Domain) (g : FlowGraph) (is : List Inst) (k : Nat) : Prop :=
  ∃ pre i post, is = pre ++ i :: post ∧ d.Gens g i k ∧ ∀ j ∈ pre, ¬ d.Kills g j k

/-- The numbers that a block puts in. -/
def genSet (d : Domain) (g : FlowGraph) (b : Block) : Set Nat :=
  {k | ∃ n, g.nodes.get? b = some n ∧ d.Exposed g n.insts k}

/-- The numbers that a block takes out. -/
def killSet (d : Domain) (g : FlowGraph) (b : Block) : Set Nat :=
  {k | ∃ n, g.nodes.get? b = some n ∧ ∃ i ∈ n.insts, d.Kills g i k}

theorem exposed_cons {is : List Inst} {k : Nat} :
    d.Exposed g (i :: is) k ↔ d.Gens g i k ∨ d.Exposed g is k ∧ ¬ d.Kills g i k := by
  constructor
  · rintro ⟨pre, j, post, hsplit, hgen, hpre⟩
    cases pre with
    | nil =>
      cases hsplit
      exact .inl hgen
    | cons c pre =>
      cases hsplit
      rw [List.forall_mem_cons] at hpre
      exact .inr ⟨⟨pre, j, post, rfl, hgen, hpre.2⟩, hpre.1⟩
  · rintro (hgen | ⟨⟨pre, j, post, rfl, hgen, hpre⟩, hkill⟩)
    · exact ⟨[], i, is, rfl, hgen, fun _ h => absurd h List.not_mem_nil⟩
    · exact ⟨i :: pre, j, post, rfl, hgen, List.forall_mem_cons.mpr ⟨hkill, hpre⟩⟩

/-- A walk over instructions comes down to one set put in and one taken out. -/
theorem liveThrough_iff {after : Nat → Prop} {is : List Inst} {k : Nat} :
    d.LiveThrough g after is k ↔
      d.Exposed g is k ∨ after k ∧ ¬ ∃ i ∈ is, d.Kills g i k := by
  induction is with
  | nil => simp [LiveThrough, Exposed]
  | cons i is ih =>
    rw [LiveThrough, ih, exposed_cons, List.exists_mem_cons_iff]
    by_cases hkill : d.Kills g i k
    · simp [hkill]
    · simp [hkill, or_assoc]

theorem lt_size_of_gens {k : Nat} (h : d.Gens g i k) : k < d.size := by
  obtain ⟨v, -, hv⟩ := h
  exact lt_size_of_indexOf? (indexOf?_of_lookup hv)

theorem lt_size_of_kills {k : Nat} (h : d.Kills g i k) : k < d.size := by
  obtain ⟨v, -, hv⟩ := h
  exact lt_size_of_indexOf? hv

theorem transferInst_live {s s' : LiveTables} (hx : x.Over d.size)
    (h : Yields (d.transferInst g i x) s y s') : y.Over d.size ∧
      ∀ k, y.contains k = true ↔ d.Gens g i k ∨ x.contains k = true ∧ ¬ d.Kills g i k := by
  rw [transferInst_eq] at h
  simp only [yields_bind, yields_liftFault, yields_liftError, Table.read_eq_ok, yields_pure] at h
  obtain ⟨facts, _, ⟨hfacts, rfl⟩, z, _, ⟨hz, rfl⟩, w, _, hw, _, _, -, rfl, -⟩ := h
  obtain ⟨z', hz', hover, hmem⟩ := unwritten_ok hfacts hx
  obtain rfl := Except.ok.inj (hz.symm.trans hz')
  obtain ⟨hover', hmem'⟩ := withReads_live hfacts hover hw
  refine ⟨hover', fun k => ?_⟩
  rw [hmem', hmem]

theorem foldrM_live (hx : x.Over d.size) : ∀ {is : List Inst} {y : BitSet} {s s' : LiveTables},
    Yields (is.foldrM (d.transferInst g) x) s y s' → y.Over d.size ∧
      ∀ k, y.contains k = true ↔ d.LiveThrough g (x.contains · = true) is k
  | [], y, s, s', h => by
    obtain ⟨rfl, -⟩ := yields_pure.mp h
    exact ⟨hx, fun k => Iff.rfl⟩
  | i :: is, y, s, s', h => by
    rw [List.foldrM_cons] at h
    obtain ⟨z, u, hz, hy⟩ := yields_bind.mp h
    obtain ⟨hover, hmem⟩ := foldrM_live hx hz
    obtain ⟨hover', hmem'⟩ := transferInst_live hover hy
    refine ⟨hover', fun k => ?_⟩
    rw [hmem', hmem, LiveThrough]

/-- The set `y` is made of `x` by taking out `kill` and then putting in `gen`. -/
structure GenKilled (d : Domain) (gen kill : Set Nat) (x y : BitSet) : Prop where
  sized : y.Over d.size
  members : ∀ k, y.contains k = true ↔ k ∈ gen ∨ x.contains k = true ∧ k ∉ kill

namespace GenKilled

variable {gen kill : Set Nat} {x x' y y' u z : BitSet}

theorem mono (hy : d.GenKilled gen kill x y) (hy' : d.GenKilled gen kill x' y') (h : x ⊆ x') :
    y ⊆ y' := by
  intro k hk
  rw [hy'.members]
  exact ((hy.members k).mp hk).imp_right fun hx => ⟨h k hx.1, hx.2⟩

theorem union (hx : d.GenKilled gen kill x x') (hy : d.GenKilled gen kill y y')
    (hz : d.GenKilled gen kill u z) (hu : ∀ k, u.contains k = (x.contains k || y.contains k)) :
    ∃ c, x'.union y' = .ok (z, c) := by
  obtain ⟨w, c, hw, hover, hmem⟩ := hx.sized.union hy.sized
  have hwz : w = z := by
    refine hover.ext hz.sized fun k => ?_
    rw [Bool.eq_iff_iff, hmem, hz.members, Bool.or_eq_true, hx.members, hy.members, hu,
      Bool.or_eq_true, or_and_right]
    exact or_or_distrib_left.symm
  exact ⟨c, hwz ▸ hw⟩

end GenKilled

theorem transferBlock_live {s s' : LiveTables} (hx : x.Over d.size)
    (h : Yields (d.transferBlock g b x) s y s') :
    d.GenKilled (d.genSet g b) (d.killSet g b) x y := by
  rw [transferBlock_eq] at h
  simp only [yields_bind, yields_lift, liftFault_eq_ok, FlowGraph.insts, bind_eq_ok, pure_eq_ok,
    Table.read_eq_ok] at h
  obtain ⟨_, _, ⟨⟨n, hn, rfl⟩, rfl⟩, h⟩ := h
  obtain ⟨hover, hmem⟩ := foldrM_live hx h
  refine ⟨hover, fun k => ?_⟩
  rw [hmem, liveThrough_iff]
  simp [genSet, killSet, hn]

end Domain

/-! ## Liveness problems -/

namespace LiveState

variable {d : Domain} {g : FlowGraph} {b : Block} {x y : BitSet} {s s₁ s₂ s₃ : LiveState}

/-- A state of the liveness problem of a graph, after any transfers and runs.  These may have
failed, and may have been given other graphs and sets over any number of positions. -/
inductive Built (g : FlowGraph) : LiveState → Prop where
  | new {s : LiveState} (h : LiveState.new g = .ok s) : Built g s
  | transfer {s : LiveState} (h : Built g s) (f : FlowGraph) (b : Block) (x : BitSet) :
    Built g (s.transfer f b x).2
  | solve {s : LiveState} (h : Built g s) (f : FlowGraph) : Built g (s.solve f).2

/-- A state over the domain, with a record of the shape that the graph asks for. -/
structure Suits (d : Domain) (g : FlowGraph) (s : LiveState) : Prop where
  domain : s.domain = d
  tables : s.tables.Fits d g.numInsts

theorem Built.suits (hd : Domain.build g = .ok d) (h : Built g s) : s.Suits d g := by
  induction h with
  | new h =>
    obtain ⟨d', hd', h⟩ := bind_eq_ok.mp h
    cases h
    obtain rfl := Except.ok.inj (hd.symm.trans hd')
    exact ⟨rfl, LiveTables.fits_empty⟩
  | @transfer s _ f b x ih =>
    obtain ⟨rfl, hfits⟩ := ih
    exact ⟨rfl, Domain.keeps_transferBlock s.tables hfits⟩
  | @solve s _ f ih =>
    obtain ⟨rfl, hfits⟩ := ih
    have hkeeps : ∀ b x, Keeps (LiveTables.Fits s.domain g.numInsts)
        ((s.domain.liveness f).transfer b x) := fun _ _ => Domain.keeps_transferBlock
    exact ⟨rfl, Problem.keeps_solve hkeeps f _ s.tables hfits⟩

theorem transfer_live (hs : s.domain = d) (hx : x.Over d.size)
    (hy : (s.transfer g b x).1 = .ok y) :
    d.GenKilled (d.genSet g b) (d.killSet g b) x y := by
  subst hs
  have hrun : Yields (s.domain.transferBlock g b x) s.tables y (s.transfer g b x).2.tables :=
    Prod.ext hy rfl
  exact Domain.transferBlock_live hx hrun

theorem Suits.transfer (hs : s.Suits d g) (hx : x.Over d.size) :
    EndAlike (d.GenKilled (d.genSet g b) (d.killSet g b) x) (d.checkBlock g b)
      (s.transfer g b x).1 := by
  have hends : EndAlike (BitSet.Over d.size) (d.checkBlock g b) (s.transfer g b x).1 := by
    obtain ⟨rfl, hfits⟩ := hs
    exact Domain.transferBlock_endsAs hx s.tables hfits
  exact hends.imp fun y hy => transfer_live hs.domain hx hy

theorem Suits.transfer_union (h₁ : s₁.Suits d g) (h₂ : s₂.Suits d g) (h₃ : s₃.Suits d g)
    (hx : x.Over d.size) (hy : y.Over d.size) :
    (do
      let u ← Prod.fst <$> x.union y
      (s₃.transfer g b u).1 : Except Failure BitSet) = (do
      let x' ← (s₁.transfer g b x).1
      let y' ← (s₂.transfer g b y).1
      Prod.fst <$> x'.union y') := by
  obtain ⟨u, c, hu, hover, hmem⟩ := hx.union hy
  have hx' := h₁.transfer (b := b) hx
  have hy' := h₂.transfer (b := b) hy
  have hu' := h₃.transfer (b := b) hover
  rw [hu]
  show (s₃.transfer g b u).1 = _
  cases hcheck : d.checkBlock g b with
  | error e =>
    rw [hcheck] at hx' hu'
    obtain hx' : (s₁.transfer g b x).1 = .error e := hx'
    obtain hu' : (s₃.transfer g b u).1 = .error e := hu'
    rw [hx', hu']
    rfl
  | ok _ =>
    rw [hcheck] at hx' hy' hu'
    obtain ⟨x', hx', hlive⟩ := hx'
    obtain ⟨y', hy', hlive'⟩ := hy'
    obtain ⟨z, hz, hlive''⟩ := hu'
    obtain ⟨c', hunion⟩ := hlive.union hlive' hlive'' hmem
    rw [hx', hy', hz]
    show _ = Prod.fst <$> (liftM (x'.union y') : Except Failure (BitSet × Bool))
    rw [hunion]
    rfl

end LiveState

namespace Domain

variable {d : Domain} {g : FlowGraph}

/-- The transfer of a block takes out one set and puts in another, and fails or succeeds as the
verdict says, whatever set it is given and whatever is on record. -/
structure FixedTransfer (d : Domain) (g : FlowGraph) (b : Block) (gen kill : Set Nat)
    (verdict : Except Failure Unit) : Prop where
  numbers : gen ∪ kill ⊆ Set.Iio d.size
  built : ∀ s, LiveState.Built g s → s.Suits d g
  value : ∀ (s : LiveState) x y, s.domain = d → x.Over d.size → (s.transfer g b x).1 = .ok y →
    d.GenKilled gen kill x y
  ends : ∀ (s : LiveState) x, s.Suits d g → x.Over d.size →
    (s.transfer g b x).1.map (fun _ => ()) = verdict
  mono : ∀ (s s' : LiveState) x x' y, s.Suits d g → s'.Suits d g → x.Over d.size →
    x'.Over d.size → x ⊆ x' →
    (s.transfer g b x).1 = .ok y → ∃ y', (s'.transfer g b x').1 = .ok y' ∧ y ⊆ y'
  union : ∀ (s₁ s₂ s₃ : LiveState) x y, s₁.Suits d g → s₂.Suits d g → s₃.Suits d g →
    x.Over d.size → y.Over d.size →
    (do
      let u ← Prod.fst <$> x.union y
      (s₃.transfer g b u).1 : Except Failure BitSet) = (do
      let x' ← (s₁.transfer g b x).1
      let y' ← (s₂.transfer g b y).1
      Prod.fst <$> x'.union y')

/-- What the transfer of a block does is fixed by the graph. -/
theorem transfer_fixed (hd : build g = .ok d) (b : Block) :
    d.FixedTransfer g b (d.genSet g b) (d.killSet g b) (d.checkBlock g b) where
  numbers := by
    rintro k (⟨n, -, pre, i, post, -, hgen, -⟩ | ⟨n, -, i, -, hkill⟩)
    · exact lt_size_of_gens hgen
    · exact lt_size_of_kills hkill
  built _ hs := hs.suits hd
  value _ _ _ hs hx hy := LiveState.transfer_live hs hx hy
  ends _ _ hs hx := (hs.transfer hx).map_eq
  mono s s' x x' y hs hs' hx hx' hsub hy := by
    have hends := hs.transfer (b := b) hx
    have hends' := hs'.transfer (b := b) hx'
    cases hcheck : d.checkBlock g b with
    | error e =>
      rw [hcheck] at hends
      exact absurd (hy.symm.trans hends) nofun
    | ok _ =>
      rw [hcheck] at hends'
      obtain ⟨y', hy', hlive'⟩ := hends'
      exact ⟨y', hy', (LiveState.transfer_live hs.domain hx hy).mono hlive' hsub⟩
  union _ _ _ _ _ h₁ h₂ h₃ hx hy := h₁.transfer_union h₂ h₃ hx hy

/-- One block that lists its first instruction twice.  That one reads its own result, and so does
the terminator, which has a number and is never taken out. -/
def ownReads : FlowGraph where
  entry := ⟨0⟩
  numArgs := 1
  numInsts := 3
  nodes := .ofList [{ insts := [⟨0⟩, ⟨1⟩, ⟨0⟩, ⟨2⟩], succs := [⟨0⟩], preds := [⟨0⟩] }]
  facts := .ofList [
    { hasResult := true, operands := [.inst ⟨0⟩, .arg ⟨0⟩] },
    { hasResult := true, operands := [.inst ⟨0⟩] },
    { kind := .terminator, hasResult := true, operands := [.inst ⟨2⟩, .inst ⟨1⟩] }]

def ownReadsDomain : Domain := ⟨[.arg ⟨0⟩, .inst ⟨0⟩, .inst ⟨1⟩, .inst ⟨2⟩]⟩

theorem transfer_fixed_ownReads :
    build ownReads = .ok ownReadsDomain ∧
      ownReadsDomain.FixedTransfer ownReads ⟨0⟩ (ownReadsDomain.genSet ownReads ⟨0⟩)
        (ownReadsDomain.killSet ownReads ⟨0⟩) (ownReadsDomain.checkBlock ownReads ⟨0⟩) ∧
      ((LiveState.mk ownReadsDomain (.empty ownReadsDomain 3)).transfer ownReads ⟨0⟩
        ownReadsDomain.emptySet).1.map BitSet.ones = .ok [0, 1, 3] := by
  have hd : build ownReads = .ok ownReadsDomain := by decide +kernel
  exact ⟨hd, transfer_fixed hd ⟨0⟩, by decide +kernel⟩

end Domain

end SsaFlow
