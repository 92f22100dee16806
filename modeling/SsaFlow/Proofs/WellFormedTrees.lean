import SsaFlow.Proofs.Lowering

/-!
# Trees that describe a procedure

A tree describes a procedure just when it is `ProcTree.WellFormed`: no value and no block is
named twice, each block ends in its only terminator, and all that instructions name is in
the tree, be it above or below them.

Each level of a tree has its own equivalence, and the next one up is put together from
it: operands and labels (`Scope.exists_value_iff`, `Scope.exists_block_iff`), instructions
(`Scope.exists_operation_iff`), blocks (`BlockTree.exists_operations_iff`) and the tree
(`ProcTree.exists_lower_iff_wellFormed`).
-/

namespace SsaFlow

namespace ActionTree

/-- The operands that an instruction names, those of a phi included. -/
def operands : ActionTree → List OperandTree
  | compute _ args => args
  | phi incoming => incoming.map Prod.fst
  | br _ => []
  | condBr cond _ _ => [cond]
  | switch value _ _ => [value]
  | ret values => values
  | unreachable => []

/-- The labels that an instruction names, those of a phi included. -/
def labels : ActionTree → List String
  | compute _ _ => []
  | phi incoming => incoming.map Prod.snd
  | br target => [target]
  | condBr _ ifTrue ifFalse => [ifTrue, ifFalse]
  | switch _ default targets => default :: targets
  | ret _ => []
  | unreachable => []

end ActionTree

instance BlockTree.decidableEnded (b : BlockTree) : Decidable b.Ended :=
  inferInstanceAs (Decidable (_ ∧ _))

namespace ProcTree

/-- The names of arguments and of results, in the order they are written. -/
def valueNames (t : ProcTree) : List String := t.args ++ t.insts.filterMap InstTree.result

/-- The labels of the blocks, in the order they are written. -/
def blockLabels (t : ProcTree) : List String := t.blocks.map BlockTree.label

/-- The operand is a constant, or a name that the tree gives to a value. -/
def Defines (t : ProcTree) : OperandTree → Prop
  | .name n => n ∈ t.valueNames
  | .int _ => True

instance decidableDefines (t : ProcTree) : (o : OperandTree) → Decidable (t.Defines o)
  | .name n => inferInstanceAs (Decidable (n ∈ t.valueNames))
  | .int _ => isTrue trivial

/-- No name is given twice, each block ends in its only terminator, and all that instructions name
is in the tree. -/
structure WellFormed (t : ProcTree) : Prop where
  values : t.valueNames.Nodup
  labels : t.blockLabels.Nodup
  ended : ∀ b ∈ t.blocks, b.Ended
  operands : ∀ i ∈ t.insts, ∀ o ∈ i.action.operands, t.Defines o
  targets : ∀ i ∈ t.insts, ∀ l ∈ i.action.labels, l ∈ t.blockLabels

instance decidableWellFormed (t : ProcTree) : Decidable t.WellFormed :=
  decidable_of_iff
    (t.valueNames.Nodup ∧ t.blockLabels.Nodup ∧ (∀ b ∈ t.blocks, b.Ended) ∧
      (∀ i ∈ t.insts, ∀ o ∈ i.action.operands, t.Defines o) ∧
      ∀ i ∈ t.insts, ∀ l ∈ i.action.labels, l ∈ t.blockLabels)
    ⟨fun ⟨h₁, h₂, h₃, h₄, h₅⟩ => ⟨h₁, h₂, h₃, h₄, h₅⟩,
      fun ⟨h₁, h₂, h₃, h₄, h₅⟩ => ⟨h₁, h₂, h₃, h₄, h₅⟩⟩

end ProcTree

/-! ## Scopes -/

namespace ProcTree

variable {t : ProcTree} {s : Scope}

theorem map_fst_argNames (t : ProcTree) : t.argNames.map Prod.fst = t.args := by
  rw [argNames, List.map_map]
  exact List.zipIdx_map_fst 0 t.args

theorem map_fst_resultNames (t : ProcTree) :
    t.resultNames.map Prod.fst = t.insts.filterMap InstTree.result := by
  have hresult : ∀ e : InstTree × Nat,
      (e.1.result.map fun n => (n, Value.inst ⟨e.2⟩)).map Prod.fst = e.1.result := by
    intro e
    rw [Option.map_map]
    exact Option.map_id'
  rw [resultNames, List.map_filterMap]
  simp only [hresult]
  rw [← Function.comp_def InstTree.result Prod.fst, ← List.filterMap_map, List.zipIdx_map_fst]

theorem map_fst_labelNames (t : ProcTree) : t.labelNames.map Prod.fst = t.blockLabels := by
  rw [labelNames, List.map_map]
  exact map_fst_zipIdx BlockTree.label t.blocks

/-- There is a scope if the names differ, and it has just these names. -/
theorem exists_scope_iff :
    (∃ s, t.scope = .ok s) ↔ t.valueNames.Nodup ∧ t.blockLabels.Nodup := by
  simp only [scope_eq_ok, List.map_append, map_fst_argNames, map_fst_resultNames,
    map_fst_labelNames]
  exact exists_eq_left

end ProcTree

namespace Scope

variable {t : ProcTree} {s : Scope} {i : InstTree}

theorem exists_value_iff (hs : t.scope = .ok s) {o : OperandTree} :
    (∃ v, s.value o = .ok v) ↔ t.Defines o := by
  obtain ⟨rfl, -, -⟩ := ProcTree.scope_eq_ok.mp hs
  cases o with
  | int k => exact ⟨fun _ => trivial, fun _ => ⟨.const k, rfl⟩⟩
  | name n =>
    have hmem : ((t.argNames ++ t.resultNames).lookup n).isSome = true ↔ n ∈ t.valueNames := by
      rw [isSome_lookup, List.map_append, ProcTree.map_fst_argNames, ProcTree.map_fst_resultNames,
        ProcTree.valueNames]
    rw [ProcTree.Defines, ← hmem, value]
    cases (t.argNames ++ t.resultNames).lookup n with
    | none => simp
    | some v => simp

theorem exists_block_iff (hs : t.scope = .ok s) {l : String} :
    (∃ b, s.block l = .ok b) ↔ l ∈ t.blockLabels := by
  obtain ⟨rfl, -, -⟩ := ProcTree.scope_eq_ok.mp hs
  rw [← ProcTree.map_fst_labelNames, ← isSome_lookup, block]
  cases t.labelNames.lookup l with
  | none => simp
  | some b => simp

/-! ## Instructions and blocks -/

/-- What an operation was made from is all in the scope. -/
theorem Operates.exists_of_mem {op : Operation} (h : s.Operates i op) :
    (∀ o ∈ i.action.operands, ∃ v, s.value o = .ok v) ∧
      ∀ l ∈ i.action.labels, ∃ b, s.block l = .ok b := by
  cases h with
  | compute opcode hvs => exact ⟨exists_of_forall₂ hvs, List.forall_mem_nil _⟩
  | phi hpairs =>
    constructor
    · intro o ho
      obtain ⟨e, he, rfl⟩ := List.mem_map.mp ho
      obtain ⟨pair, hv, -⟩ := exists_of_forall₂ hpairs e he
      exact ⟨pair.1, hv⟩
    · intro l hl
      obtain ⟨e, he, rfl⟩ := List.mem_map.mp hl
      obtain ⟨pair, -, hb⟩ := exists_of_forall₂ hpairs e he
      exact ⟨pair.2, hb⟩
  | br hb => exact ⟨List.forall_mem_nil _, List.forall_mem_singleton.mpr ⟨_, hb⟩⟩
  | condBr hv hb hc =>
    exact ⟨List.forall_mem_singleton.mpr ⟨_, hv⟩,
      List.forall_mem_cons.mpr ⟨⟨_, hb⟩, List.forall_mem_singleton.mpr ⟨_, hc⟩⟩⟩
  | switch hv hb hbs =>
    exact ⟨List.forall_mem_singleton.mpr ⟨_, hv⟩,
      List.forall_mem_cons.mpr ⟨⟨_, hb⟩, exists_of_forall₂ hbs⟩⟩
  | ret hvs => exact ⟨exists_of_forall₂ hvs, List.forall_mem_nil _⟩
  | unreachable => exact ⟨List.forall_mem_nil _, List.forall_mem_nil _⟩

/-- An operation can be made of whatever is in the scope. -/
theorem exists_operates (hvalues : ∀ o ∈ i.action.operands, ∃ v, s.value o = .ok v)
    (hblocks : ∀ l ∈ i.action.labels, ∃ b, s.block l = .ok b) : ∃ op, s.Operates i op := by
  obtain ⟨result, action⟩ := i
  cases action with
  | compute opcode args =>
    obtain ⟨vs, hvs⟩ := exists_forall₂ hvalues
    exact ⟨_, .compute opcode hvs⟩
  | phi incoming =>
    have hpair : ∀ e ∈ incoming, ∃ pair : Value × Block,
        s.value e.1 = .ok pair.1 ∧ s.block e.2 = .ok pair.2 := by
      intro e he
      obtain ⟨v, hv⟩ := hvalues e.1 (List.mem_map_of_mem he)
      obtain ⟨b, hb⟩ := hblocks e.2 (List.mem_map_of_mem he)
      exact ⟨(v, b), hv, hb⟩
    obtain ⟨pairs, hpairs⟩ := exists_forall₂ hpair
    exact ⟨_, .phi hpairs⟩
  | br target =>
    obtain ⟨b, hb⟩ := hblocks target List.mem_cons_self
    exact ⟨_, .br hb⟩
  | condBr cond ifTrue ifFalse =>
    obtain ⟨v, hv⟩ := hvalues cond List.mem_cons_self
    obtain ⟨b, hb⟩ := hblocks ifTrue List.mem_cons_self
    obtain ⟨c, hc⟩ := hblocks ifFalse (List.mem_cons_of_mem _ List.mem_cons_self)
    exact ⟨_, .condBr hv hb hc⟩
  | switch value default targets =>
    obtain ⟨v, hv⟩ := hvalues value List.mem_cons_self
    obtain ⟨b, hb⟩ := hblocks default List.mem_cons_self
    obtain ⟨bs, hbs⟩ := exists_forall₂ fun l hl => hblocks l (List.mem_cons_of_mem default hl)
    exact ⟨_, .switch hv hb hbs⟩
  | ret values =>
    obtain ⟨vs, hvs⟩ := exists_forall₂ hvalues
    exact ⟨_, .ret hvs⟩
  | unreachable => exact ⟨_, .unreachable⟩

/-- None of the seven kinds of instruction lets a name through that is not there, or refuses one
that is. -/
theorem exists_operation_iff (hs : t.scope = .ok s) :
    (∃ op, s.operation i = .ok op) ↔
      (∀ o ∈ i.action.operands, t.Defines o) ∧ ∀ l ∈ i.action.labels, l ∈ t.blockLabels := by
  simp only [← exists_value_iff hs, ← exists_block_iff hs]
  constructor
  · rintro ⟨op, hop⟩
    exact (operates_of_operation hop).exists_of_mem
  · rintro ⟨hvalues, hblocks⟩
    obtain ⟨op, hop⟩ := exists_operates hvalues hblocks
    exact ⟨op, operation_of_operates hop⟩

end Scope

theorem BlockTree.exists_operations_iff {s : Scope} {b : BlockTree} :
    (∃ ops, b.operations s = .ok ops) ↔
      b.Ended ∧ ∀ i ∈ b.insts, ∃ op, s.operation i = .ok op := by
  simp only [operations_eq_ok, exists_and_left]
  exact and_congr_right fun _ => ⟨fun ⟨_, hops⟩ => exists_of_forall₂ hops, exists_forall₂⟩

/-! ## Trees -/

namespace ProcTree

variable {t : ProcTree} {s : Scope}

theorem exists_lower_iff_of_scope (hs : t.scope = .ok s) :
    (∃ p, t.lower = .ok p) ↔ ∀ b ∈ t.blocks, ∃ ops, b.operations s = .ok ops := by
  constructor
  · rintro ⟨p, hp⟩
    obtain ⟨rows, hrows⟩ := exists_operations_of_lower hp
    obtain ⟨s', hs', hrows⟩ := exists_scope_of_operations hrows
    obtain rfl : s = s' := Except.ok.inj (hs.symm.trans hs')
    exact exists_of_forall₂ hrows
  · intro h
    obtain ⟨rows, hrows⟩ := exists_forall₂ h
    exact exists_lower_of_operations (bind_eq_ok.mpr ⟨s, hs, mapM_eq_ok.mpr hrows⟩)

theorem forall_mem_insts {P : InstTree → Prop} :
    (∀ b ∈ t.blocks, ∀ i ∈ b.insts, P i) ↔ ∀ i ∈ t.insts, P i := by
  simp only [insts, List.mem_flatMap]
  constructor
  · rintro h i ⟨b, hb, hi⟩
    exact h b hb i hi
  · intro h b hb i hi
    exact h i ⟨b, hb, hi⟩

/-- A tree describes a procedure just when it is well formed. -/
theorem exists_lower_iff_wellFormed (t : ProcTree) : (∃ p, t.lower = .ok p) ↔ t.WellFormed := by
  constructor
  · rintro ⟨p, hp⟩
    obtain ⟨rows, hrows⟩ := exists_operations_of_lower hp
    obtain ⟨s, hs, -⟩ := exists_scope_of_operations hrows
    obtain ⟨hvalues, hlabels⟩ := exists_scope_iff.mp ⟨s, hs⟩
    have hblocks := (exists_lower_iff_of_scope hs).mp ⟨p, hp⟩
    have hinsts : ∀ i ∈ t.insts, ∃ op, s.operation i = .ok op :=
      forall_mem_insts.mp fun b hb => (BlockTree.exists_operations_iff.mp (hblocks b hb)).2
    exact {
      values := hvalues
      labels := hlabels
      ended := fun b hb => (BlockTree.exists_operations_iff.mp (hblocks b hb)).1
      operands := fun i hi => ((Scope.exists_operation_iff hs).mp (hinsts i hi)).1
      targets := fun i hi => ((Scope.exists_operation_iff hs).mp (hinsts i hi)).2 }
  · intro h
    obtain ⟨s, hs⟩ := exists_scope_iff.mpr ⟨h.values, h.labels⟩
    have hinsts : ∀ i ∈ t.insts, ∃ op, s.operation i = .ok op := fun i hi =>
      (Scope.exists_operation_iff hs).mpr ⟨h.operands i hi, h.targets i hi⟩
    apply (exists_lower_iff_of_scope hs).mpr
    intro b hb
    exact BlockTree.exists_operations_iff.mpr ⟨h.ended b hb, forall_mem_insts.mpr hinsts b hb⟩

-- A result may be used above the line that names it.
example : WellFormed ⟨"f", [], [⟨"b", [⟨some "x", .compute "copy" [.name "y"]⟩,
    ⟨some "y", .compute "zero" []⟩, ⟨none, .ret []⟩]⟩]⟩ := by decide

end ProcTree

end SsaFlow
