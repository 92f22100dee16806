import SsaFlow.Proofs.Domains
import SsaFlow.Proofs.PhiTables

/-!
# The transfer of a block

Going over an instruction takes out the number of what it writes and puts in the
numbers of what it reads.  So a number is live before a list of instructions if
it is read on the way, or live after them, and not written earlier
(`Domain.LiveThrough`).

Whether the transfer of an instruction succeeds does not depend on the set it is
given, nor on what is on record (`Domain.Covers`).  If it does, then `Domain.Passed`
says what it gives and what it leaves on record.
-/

namespace SsaFlow

namespace FlowGraph

/-- The instruction reads the value.  A phi does not read its inputs where it stands. -/
def Reads (g : FlowGraph) (i : Inst) (v : Value) : Prop :=
  ∃ facts, g.facts.get? i = some facts ∧ facts.kind ≠ .phi ∧ v ∈ facts.operands

/-- The instruction writes the value, which is then its own result. -/
def Writes (g : FlowGraph) (i : Inst) (v : Value) : Prop :=
  ∃ facts, g.facts.get? i = some facts ∧ facts.kind ≠ .terminator ∧ v = .inst i

/-- The instruction is a phi with the value as its input from `pred`. -/
def Joins (g : FlowGraph) (i : Inst) (v : Value) (pred : Block) : Prop :=
  ∃ facts, g.facts.get? i = some facts ∧ facts.kind = .phi ∧ (v, pred) ∈ facts.incoming

variable {g : FlowGraph} {i : Inst} {facts : InstFacts} {v : Value}

theorem reads_iff (hfacts : g.facts.get? i = some facts) :
    g.Reads i v ↔ facts.kind ≠ .phi ∧ v ∈ facts.operands := by
  simp [Reads, hfacts]

theorem writes_iff (hfacts : g.facts.get? i = some facts) :
    g.Writes i v ↔ facts.kind ≠ .terminator ∧ v = .inst i := by
  simp [Writes, hfacts]

theorem joins_iff {pred : Block} (hfacts : g.facts.get? i = some facts) :
    g.Joins i v pred ↔ facts.kind = .phi ∧ (v, pred) ∈ facts.incoming := by
  simp [Joins, hfacts]

end FlowGraph

namespace Domain

variable {d : Domain} {g : FlowGraph} {i : Inst} {x y : BitSet} {s s' : LiveTables}

/-- The instruction reads the value of a number. -/
def Gens (d : Domain) (g : FlowGraph) (i : Inst) (k : Nat) : Prop :=
  ∃ v, g.Reads i v ∧ d.lookup g v = .ok (some k)

/-- The instruction writes the value of a number. -/
def Kills (d : Domain) (g : FlowGraph) (i : Inst) (k : Nat) : Prop :=
  ∃ v, g.Writes i v ∧ d.indexOf? v = some k

/-- The instruction is a phi that has the value of a number as its input from `pred`. -/
def Feeds (d : Domain) (g : FlowGraph) (i : Inst) (pred : Block) (k : Nat) : Prop :=
  ∃ v, g.Joins i v pred ∧ d.lookup g v = .ok (some k)

/-- The values that the transfer of an instruction looks up. -/
def sought (facts : InstFacts) : List Value :=
  if facts.kind = .phi then facts.incoming.map Prod.fst else facts.operands

/-- The instruction has facts, and all that its transfer looks up is known. -/
def Covers (d : Domain) (g : FlowGraph) (i : Inst) : Prop :=
  ∃ facts, g.facts.get? i = some facts ∧ ∀ v ∈ sought facts, ∃ r, d.lookup g v = .ok r

/-! ## Live sets -/

theorem kill_ok (hx : x.Over d.size) (i : Inst) :
    ∃ y, d.kill i x = .ok y ∧ y.Over d.size ∧
      ∀ k, y.contains k = true ↔ x.contains k = true ∧ d.indexOf? (.inst i) ≠ some k := by
  unfold kill
  cases hn : d.indexOf? (.inst i) with
  | none => exact ⟨x, rfl, hx, fun k => by simp⟩
  | some n =>
    obtain ⟨y, hy, hover, hmem⟩ := hx.erase_ok (lt_size_of_indexOf? hn)
    refine ⟨y, hy, hover, fun k => ?_⟩
    rw [hmem, ne_eq, ne_eq, Option.some.injEq, eq_comm (a := k)]

theorem insert_ok (hx : x.Over d.size) {v : Value} {r : Option Nat} (hr : d.lookup g v = .ok r) :
    ∃ y, (match r with
        | some n => liftM (x.insert n)
        | none => pure x : Except Failure BitSet) = .ok y ∧ y.Over d.size ∧
      ∀ k, y.contains k = true ↔ x.contains k = true ∨ r = some k := by
  cases r with
  | none => exact ⟨x, rfl, hx, fun k => by simp⟩
  | some n =>
    obtain ⟨y, hy, hover, hmem⟩ := hx.insert_ok (lt_size_of_indexOf? (indexOf?_of_lookup hr))
    refine ⟨y, liftError_eq_ok.mpr hy, hover, fun k => ?_⟩
    rw [hmem, Option.some.injEq, eq_comm (a := k)]

/-- Operands that are all known can be put in. -/
theorem gen_ok : ∀ {vs : List Value} {x : BitSet}, x.Over d.size →
    (∀ v ∈ vs, ∃ r, d.lookup g v = .ok r) →
    ∃ y, d.gen g x vs = .ok y ∧ y.Over d.size ∧
      ∀ k, y.contains k = true ↔
        x.contains k = true ∨ ∃ v ∈ vs, d.lookup g v = .ok (some k)
  | [], x, hx, _ => ⟨x, rfl, hx, fun k => by simp⟩
  | v :: vs, x, hx, hvs => by
    obtain ⟨r, hr⟩ := hvs v List.mem_cons_self
    obtain ⟨z, hz, hover, hmem⟩ := insert_ok hx hr
    obtain ⟨y, hy, hover', hmem'⟩ :=
      gen_ok hover fun w hw => hvs w (List.mem_cons_of_mem _ hw)
    refine ⟨y, ?_, hover', fun k => ?_⟩
    · unfold gen
      rw [List.foldlM_cons, bind_eq_ok]
      exact ⟨z, bind_eq_ok.mpr ⟨r, hr, hz⟩, hy⟩
    · rw [hmem', hmem, or_assoc]
      simp [hr]

theorem lookup_of_gen : ∀ {vs : List Value} {x y : BitSet}, d.gen g x vs = .ok y →
    ∀ v ∈ vs, ∃ r, d.lookup g v = .ok r
  | [], _, _, _, v, hv => absurd hv List.not_mem_nil
  | w :: vs, x, y, h, v, hv => by
    unfold gen at h
    rw [List.foldlM_cons, bind_eq_ok] at h
    obtain ⟨z, hz, h⟩ := h
    rcases List.mem_cons.mp hv with rfl | hv
    · obtain ⟨r, hr, -⟩ := bind_eq_ok.mp hz
      exact ⟨r, hr⟩
    · exact lookup_of_gen h v hv

/-! ## Inputs of phis -/

theorem mark_yields (hs : s.phiInputs.Sound d.size) {v : Value} {r : Option Nat}
    (hr : d.lookup g v = .ok r) (pred : Block) :
    ∃ t, Yields (match r with
        | some n => LiveTables.mark pred n
        | none => pure () : Recording LiveTables Unit) s () { s with phiInputs := t } ∧
      t.Sound d.size ∧
      ∀ q k, t.Supplies q k ↔ s.phiInputs.Supplies q k ∨ q = pred ∧ r = some k := by
  cases r with
  | none => exact ⟨s.phiInputs, yields_pure.mpr ⟨rfl, rfl⟩, hs, fun q k => by simp⟩
  | some n =>
    obtain ⟨t, ht, hsound, hsupplies⟩ :=
      hs.mark (lt_size_of_indexOf? (indexOf?_of_lookup hr)) pred
    refine ⟨t, ?_, hsound, fun q k => ?_⟩
    · have hrun : (PhiInputs.mark pred n).run.run s.phiInputs = (.ok (), t) := ht
      simp only [LiveTables.mark, yields_bind, yields_get]
      refine ⟨s, s, ⟨rfl, rfl⟩, ?_⟩
      rw [hrun]
      exact yields_bind.mpr ⟨(), _, yields_set.mpr rfl, yields_liftError.mpr ⟨rfl, rfl⟩⟩
    · rw [hsupplies, Option.some.injEq, eq_comm (a := k)]

/-- Inputs that are all known can be marked. -/
theorem markInputs_yields : ∀ {es : List (Value × Block)} {s : LiveTables},
    s.phiInputs.Sound d.size → (∀ e ∈ es, ∃ r, d.lookup g e.1 = .ok r) →
    ∃ t, Yields (d.markInputs g es) s () { s with phiInputs := t } ∧ t.Sound d.size ∧
      ∀ pred k, t.Supplies pred k ↔
        s.phiInputs.Supplies pred k ∨ ∃ v, (v, pred) ∈ es ∧ d.lookup g v = .ok (some k)
  | [], s, hs, _ => ⟨s.phiInputs, yields_pure.mpr ⟨rfl, rfl⟩, hs, fun pred k => by simp⟩
  | (v, q) :: es, s, hs, hes => by
    obtain ⟨r, hr⟩ := hes (v, q) List.mem_cons_self
    obtain ⟨t, ht, hsound, hsupplies⟩ := mark_yields hs hr q
    obtain ⟨t', ht', hsound', hsupplies'⟩ :=
      markInputs_yields (s := { s with phiInputs := t }) hsound
        fun e he => hes e (List.mem_cons_of_mem _ he)
    refine ⟨t', ?_, hsound', fun pred k => ?_⟩
    · show Yields (_ >>= fun _ => d.markInputs g es) s () _
      exact yields_bind.mpr ⟨(), _, yields_bind.mpr ⟨r, s, yields_lift.mpr ⟨hr, rfl⟩, ht⟩, ht'⟩
    · rw [hsupplies', hsupplies, or_assoc]
      refine or_congr_right ?_
      constructor
      · rintro (⟨rfl, rfl⟩ | ⟨w, hw, hk⟩)
        · exact ⟨v, List.mem_cons_self, hr⟩
        · exact ⟨w, List.mem_cons_of_mem _ hw, hk⟩
      · rintro ⟨w, hw, hk⟩
        rcases List.mem_cons.mp hw with heq | hw
        · cases heq
          exact .inl ⟨rfl, Except.ok.inj (hr.symm.trans hk)⟩
        · exact .inr ⟨w, hw, hk⟩

theorem lookup_of_markInputs : ∀ {es : List (Value × Block)} {s s' : LiveTables},
    Yields (d.markInputs g es) s () s' → ∀ e ∈ es, ∃ r, d.lookup g e.1 = .ok r
  | [], _, _, _, e, he => absurd he List.not_mem_nil
  | (v, q) :: es, s, s', h, e, he => by
    have h : Yields (_ >>= fun _ => d.markInputs g es) s () s' := h
    obtain ⟨_, u, hu, h⟩ := yields_bind.mp h
    rcases List.mem_cons.mp he with rfl | he
    · obtain ⟨r, _, hr, -⟩ := yields_bind.mp hu
      exact ⟨r, (yields_lift.mp hr).1⟩
    · exact lookup_of_markInputs h e he

/-! ## Single instructions -/

/-- The first half of a transfer, which takes out what the instruction writes. -/
def unwritten (d : Domain) (facts : InstFacts) (i : Inst) (x : BitSet) :
    Except AnalysisError BitSet :=
  if facts.kind = .terminator then .ok x else d.kill i x

/-- The second half, which puts in what the instruction reads, or marks the inputs of a phi. -/
def withReads (d : Domain) (g : FlowGraph) (facts : InstFacts) (x : BitSet) :
    Recording LiveTables BitSet :=
  if facts.kind = .phi then d.markInputs g facts.incoming >>= fun _ => pure x
  else liftM (d.gen g x facts.operands)

theorem transferInst_eq : d.transferInst g i x = (do
    let facts ← g.facts.read i
    let z ← d.unwritten facts i x
    let y ← d.withReads g facts z
    LiveTables.record i y
    return y) := by
  unfold transferInst
  congr 1
  funext facts
  simp only [unwritten, withReads]
  split
  next =>
    split
    next => simp; rfl
    next => simp; rfl
  next =>
    split
    next => simp
    next => simp

theorem unwritten_ok {facts : InstFacts} (hfacts : g.facts.get? i = some facts)
    (hx : x.Over d.size) :
    ∃ z, d.unwritten facts i x = .ok z ∧ z.Over d.size ∧
      ∀ k, z.contains k = true ↔ x.contains k = true ∧ ¬ d.Kills g i k := by
  unfold unwritten
  split
  next hterm =>
    refine ⟨x, rfl, hx, fun k => ?_⟩
    have hkill : ¬ d.Kills g i k := by
      simp [Kills, FlowGraph.writes_iff hfacts, hterm]
    simp [hkill]
  next hterm =>
    obtain ⟨z, hz, hover, hmem⟩ := kill_ok hx i
    refine ⟨z, hz, hover, fun k => ?_⟩
    have hkill : d.Kills g i k ↔ d.indexOf? (.inst i) = some k := by
      simp [Kills, FlowGraph.writes_iff hfacts, hterm]
    rw [hmem, hkill]

/-- What the second half makes of a set does not depend on the record. -/
theorem withReads_live {facts : InstFacts} (hfacts : g.facts.get? i = some facts)
    (hx : x.Over d.size) (h : Yields (d.withReads g facts x) s y s') :
    y.Over d.size ∧ ∀ k, y.contains k = true ↔ d.Gens g i k ∨ x.contains k = true := by
  unfold withReads at h
  split at h
  next hphi =>
    obtain ⟨_, _, -, h⟩ := yields_bind.mp h
    obtain ⟨rfl, -⟩ := yields_pure.mp h
    refine ⟨hx, fun k => ?_⟩
    have hgen : ¬ d.Gens g i k := by
      simp [Gens, FlowGraph.reads_iff hfacts, hphi]
    simp [hgen]
  next hphi =>
    obtain ⟨hy, -⟩ := yields_lift.mp h
    obtain ⟨z, hz, hover, hmem⟩ := gen_ok hx (lookup_of_gen hy)
    obtain rfl := Except.ok.inj (hz.symm.trans hy)
    refine ⟨hover, fun k => ?_⟩
    have hgen : d.Gens g i k ↔ ∃ v ∈ facts.operands, d.lookup g v = .ok (some k) := by
      simp [Gens, FlowGraph.reads_iff hfacts, hphi]
    rw [hmem, or_comm, hgen]

theorem withReads_yields {facts : InstFacts} (hfacts : g.facts.get? i = some facts)
    (hsought : ∀ v ∈ sought facts, ∃ r, d.lookup g v = .ok r) (hx : x.Over d.size)
    (hs : s.phiInputs.Sound d.size) :
    ∃ y t, Yields (d.withReads g facts x) s y { s with phiInputs := t } ∧ y.Over d.size ∧
      (∀ k, y.contains k = true ↔ d.Gens g i k ∨ x.contains k = true) ∧ t.Sound d.size ∧
      ∀ pred k, t.Supplies pred k ↔ s.phiInputs.Supplies pred k ∨ d.Feeds g i pred k := by
  have hrun : ∃ y t, Yields (d.withReads g facts x) s y { s with phiInputs := t } ∧
      t.Sound d.size ∧
      ∀ pred k, t.Supplies pred k ↔ s.phiInputs.Supplies pred k ∨ d.Feeds g i pred k := by
    unfold withReads
    unfold sought at hsought
    split
    next hphi =>
      rw [if_pos hphi] at hsought
      obtain ⟨t, ht, hsound, hsupplies⟩ :=
        markInputs_yields (g := g) hs fun e he => hsought e.1 (List.mem_map_of_mem he)
      refine ⟨x, t, yields_bind.mpr ⟨(), _, ht, yields_pure.mpr ⟨rfl, rfl⟩⟩, hsound,
        fun pred k => ?_⟩
      have hfeeds : d.Feeds g i pred k ↔
          ∃ v, (v, pred) ∈ facts.incoming ∧ d.lookup g v = .ok (some k) := by
        simp [Feeds, FlowGraph.joins_iff hfacts, hphi]
      rw [hsupplies, hfeeds]
    next hphi =>
      rw [if_neg hphi] at hsought
      obtain ⟨y, hy, -⟩ := gen_ok hx hsought
      refine ⟨y, s.phiInputs, yields_lift.mpr ⟨hy, rfl⟩, hs, fun pred k => ?_⟩
      have hfeeds : ¬ d.Feeds g i pred k := by
        simp [Feeds, FlowGraph.joins_iff hfacts, hphi]
      simp [hfeeds]
  obtain ⟨y, t, hy, hsound, hsupplies⟩ := hrun
  obtain ⟨hover, hmem⟩ := withReads_live hfacts hx hy
  exact ⟨y, t, hy, hover, hmem, hsound, hsupplies⟩

theorem lookup_of_withReads {facts : InstFacts} (h : Yields (d.withReads g facts x) s y s') :
    ∀ v ∈ sought facts, ∃ r, d.lookup g v = .ok r := by
  unfold withReads at h
  unfold sought
  split at h
  next hphi =>
    rw [if_pos hphi]
    intro v hv
    obtain ⟨e, he, rfl⟩ := List.mem_map.mp hv
    obtain ⟨_, _, hmark, -⟩ := yields_bind.mp h
    exact lookup_of_markInputs hmark e he
  next hphi =>
    rw [if_neg hphi]
    exact lookup_of_gen (yields_lift.mp h).1

theorem record_yields_iff {live : BitSet} :
    Yields (LiveTables.record i live) s () s' ↔
      s.before.write i live = .ok s'.before ∧ s'.phiInputs = s.phiInputs := by
  simp only [LiveTables.record, yields_bind, yields_get]
  constructor
  · rintro ⟨_, _, ⟨rfl, rfl⟩, h⟩
    split at h
    next before hbefore =>
      obtain rfl := yields_set.mp h
      exact ⟨hbefore, rfl⟩
    next => exact absurd h not_yields_throw
  · rintro ⟨hbefore, hphi⟩
    refine ⟨s, s, ⟨rfl, rfl⟩, ?_⟩
    rw [hbefore]
    refine yields_set.mpr ?_
    rw [← hphi]

/-- What the transfer of an instruction makes of a set, and what it leaves on record. -/
structure Passed (d : Domain) (g : FlowGraph) (i : Inst) (x : BitSet) (s : LiveTables) (y : BitSet)
    (s' : LiveTables) : Prop where
  sized : y.Over d.size
  live : ∀ k, y.contains k = true ↔ d.Gens g i k ∨ x.contains k = true ∧ ¬ d.Kills g i k
  before : s.before.write i y = .ok s'.before
  sound : s'.phiInputs.Sound d.size
  supplies : ∀ pred k,
    s'.phiInputs.Supplies pred k ↔ s.phiInputs.Supplies pred k ∨ d.Feeds g i pred k

/-- The transfer of an instruction succeeds if all it looks up is known. -/
theorem Covers.transferInst (hi : d.Covers g i) (hlt : i.index < s.before.size)
    (hx : x.Over d.size) (hs : s.phiInputs.Sound d.size) :
    ∃ y s', Yields (d.transferInst g i x) s y s' ∧ d.Passed g i x s y s' := by
  obtain ⟨facts, hfacts, hsought⟩ := hi
  obtain ⟨z, hz, hzover, hzmem⟩ := unwritten_ok hfacts hx
  obtain ⟨y, t, hy, hyover, hymem, hsound, hsupplies⟩ := withReads_yields hfacts hsought hzover hs
  obtain ⟨before, hbefore⟩ := Table.write_ok hlt y
  refine ⟨y, ⟨before, t⟩, ?_, hyover, fun k => ?_, hbefore, hsound, hsupplies⟩
  · rw [transferInst_eq]
    simp only [yields_bind, yields_liftFault, yields_liftError, Table.read_eq_ok]
    exact ⟨facts, s, ⟨hfacts, rfl⟩, z, s, ⟨hz, rfl⟩, y, _, hy, (), ⟨before, t⟩,
      record_yields_iff.mpr ⟨hbefore, rfl⟩, yields_pure.mpr ⟨rfl, rfl⟩⟩
  · rw [hymem, hzmem]

/-- The transfer of an instruction succeeds only then. -/
theorem passed_of_transferInst (h : Yields (d.transferInst g i x) s y s') (hx : x.Over d.size)
    (hs : s.phiInputs.Sound d.size) : d.Covers g i ∧ d.Passed g i x s y s' := by
  have hrun := h
  rw [transferInst_eq] at h
  simp only [yields_bind, yields_liftFault, yields_liftError, Table.read_eq_ok] at h
  obtain ⟨facts, _, ⟨hfacts, rfl⟩, z, _, ⟨hz, rfl⟩, w, u, hw, _, v, hv, -⟩ := h
  have hsought := lookup_of_withReads hw
  -- putting in what is read leaves the sets on record alone, so the slot of `i` is there from the
  -- start
  have hlt : i.index < s.before.size := by
    obtain ⟨z', hz', hover, -⟩ := unwritten_ok hfacts hx
    obtain rfl := Except.ok.inj (hz.symm.trans hz')
    obtain ⟨w', t, hw', -⟩ := withReads_yields hfacts hsought hover hs
    obtain ⟨-, rfl⟩ := hw.unique hw'
    exact Table.lt_size_of_write (record_yields_iff.mp hv).1
  have hi : d.Covers g i := ⟨facts, hfacts, hsought⟩
  obtain ⟨y', u', hrun', hpassed⟩ := hi.transferInst hlt hx hs
  obtain ⟨rfl, rfl⟩ := hrun.unique hrun'
  exact ⟨hi, hpassed⟩

/-! ## Lists of instructions -/

/-- The value of a number is live before the instructions, if the numbers in `after` are those live
after them. -/
def LiveThrough (d : Domain) (g : FlowGraph) (after : Nat → Prop) : List Inst → Nat → Prop
  | [], k => after k
  | i :: is, k => d.Gens g i k ∨ d.LiveThrough g after is k ∧ ¬ d.Kills g i k

/-- What the transfer of a list of instructions makes of a set, and what it leaves on record.  Of an
instruction that is there more than once, the first occurrence is on record. -/
structure PassedAll (d : Domain) (g : FlowGraph) (is : List Inst) (x : BitSet) (s : LiveTables)
    (y : BitSet) (s' : LiveTables) : Prop where
  sized : y.Over d.size
  live : ∀ k, y.contains k = true ↔ d.LiveThrough g (x.contains · = true) is k
  size : s'.before.size = s.before.size
  other : ∀ i, i ∉ is → s'.before.get? i = s.before.get? i
  before : ∀ pre i post, is = pre ++ i :: post → i ∉ pre → ∃ z, s'.before.get? i = some z ∧
    z.Over d.size ∧ ∀ k, z.contains k = true ↔ d.LiveThrough g (x.contains · = true) (i :: post) k
  sound : s'.phiInputs.Sound d.size
  supplies : ∀ pred k, s'.phiInputs.Supplies pred k ↔
    s.phiInputs.Supplies pred k ∨ ∃ i ∈ is, d.Feeds g i pred k

theorem PassedAll.nil (hx : x.Over d.size) (hs : s.phiInputs.Sound d.size) :
    d.PassedAll g [] x s x s where
  sized := hx
  live _ := Iff.rfl
  size := rfl
  other _ _ := rfl
  before pre i post h := by
    cases pre <;> cases h
  sound := hs
  supplies pred k := by simp

theorem PassedAll.cons {is : List Inst} {z : BitSet} {u : LiveTables}
    (hrest : d.PassedAll g is x s y u) (hi : d.Passed g i y u z s') :
    d.PassedAll g (i :: is) x s z s' where
  sized := hi.sized
  live k := by
    rw [hi.live, hrest.live]
    rfl
  size := (Table.size_write hi.before).trans hrest.size
  other j hj := by
    rw [List.mem_cons, not_or] at hj
    rw [Table.get?_write hi.before, if_neg hj.1, hrest.other j hj.2]
  before pre j post h hj := by
    rw [Table.get?_write hi.before]
    cases pre with
    | nil =>
      cases h
      refine ⟨z, if_pos rfl, hi.sized, fun k => ?_⟩
      rw [hi.live, hrest.live]
      rfl
    | cons c pre =>
      cases h
      rw [List.mem_cons, not_or] at hj
      rw [if_neg hj.1]
      exact hrest.before pre j post rfl hj.2
  sound := hi.sound
  supplies pred k := by
    have hcons : (∃ j ∈ i :: is, d.Feeds g j pred k) ↔
        d.Feeds g i pred k ∨ ∃ j ∈ is, d.Feeds g j pred k := by simp
    rw [hi.supplies, hrest.supplies, hcons, or_assoc, or_comm (a := d.Feeds g i pred k)]

/-- Instructions that are all covered can be gone through. -/
theorem passedAll_yields : ∀ {is : List Inst},
    (∀ i ∈ is, d.Covers g i ∧ i.index < s.before.size) → x.Over d.size →
    s.phiInputs.Sound d.size →
    ∃ y s', Yields (is.foldrM (d.transferInst g) x) s y s' ∧ d.PassedAll g is x s y s'
  | [], _, hx, hs => ⟨x, s, yields_pure.mpr ⟨rfl, rfl⟩, .nil hx hs⟩
  | i :: is, his, hx, hs => by
    obtain ⟨y, u, hy, hrest⟩ :=
      passedAll_yields (fun j hj => his j (List.mem_cons_of_mem _ hj)) hx hs
    obtain ⟨hi, hlt⟩ := his i List.mem_cons_self
    obtain ⟨z, s', hz, hpassed⟩ :=
      hi.transferInst (s := u) (hrest.size.symm ▸ hlt) hrest.sized hrest.sound
    refine ⟨z, s', ?_, hrest.cons hpassed⟩
    rw [List.foldrM_cons]
    exact yields_bind.mpr ⟨y, u, hy, hz⟩

theorem passedAll_of_yields : ∀ {is : List Inst} {y : BitSet} {s' : LiveTables},
    Yields (is.foldrM (d.transferInst g) x) s y s' → x.Over d.size → s.phiInputs.Sound d.size →
    (∀ i ∈ is, d.Covers g i ∧ i.index < s.before.size) ∧ d.PassedAll g is x s y s'
  | [], y, s', h, hx, hs => by
    obtain ⟨rfl, rfl⟩ := yields_pure.mp h
    exact ⟨fun i hi => absurd hi List.not_mem_nil, .nil hx hs⟩
  | i :: is, z, s', h, hx, hs => by
    rw [List.foldrM_cons] at h
    obtain ⟨y, u, hy, hz⟩ := yields_bind.mp h
    obtain ⟨his, hrest⟩ := passedAll_of_yields hy hx hs
    obtain ⟨hi, hpassed⟩ := passed_of_transferInst hz hrest.sized hrest.sound
    have hlt : i.index < s.before.size := hrest.size ▸ Table.lt_size_of_write hpassed.before
    exact ⟨List.forall_mem_cons.mpr ⟨⟨hi, hlt⟩, his⟩, hrest.cons hpassed⟩

/-- The transfer of a block goes through its instructions from the last to the first. -/
theorem transferBlock_yields_iff {b : Block} {n : Node} (hn : g.nodes.get? b = some n) :
    Yields (d.transferBlock g b x) s y s' ↔
      Yields (n.insts.foldrM (d.transferInst g) x) s y s' := by
  simp only [transferBlock, yields_bind, yields_liftFault, FlowGraph.insts, bind_eq_ok, pure_eq_ok,
    Table.read_eq_ok, hn, Option.some.injEq, exists_eq_left']
  constructor
  · rintro ⟨is, _, ⟨rfl, rfl⟩, h⟩
    rwa [List.foldlM_reverse] at h
  · intro h
    refine ⟨n.insts, s, ⟨rfl, rfl⟩, ?_⟩
    rwa [List.foldlM_reverse]

end Domain

end SsaFlow
