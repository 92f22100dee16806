import SsaFlow.Proofs.PrintedTrees
import SsaFlow.Proofs.RecomputedEdges

/-!
# Procedures that were read are well formed

`Procedure.WellFormed` gathers what holds of every procedure that was made from a text.
Instructions are numbered as they are listed, each block ends in its only terminator, and
the edges are those of the terminators in layout order.  So there is nothing for
`Build.recomputeEdges` to change (`WellFormed.recomputeEdges_yields`).

None of this holds along the way.  Instructions are placeholders first, in no block, and
edges come one by one as terminators are placed.  What the passes leave together is
`ProcTree.lower_eq_assemble`, and the parts are taken from there (`ProcTree.Lowered`).

That results and names go together is due to the grammar: a tree could have a phi without a
name, but no text has.
-/

namespace SsaFlow

namespace Procedure

/-- No slot is left open, instructions are numbered as they are listed and placed where they are
listed, each block ends in its only terminator, results are what is named, what instructions read
is there, and the edges are those of the terminators in layout order. -/
structure WellFormed (p : Procedure) : Prop where
  filled : ∀ d ∈ p.insts.toList, d.op ≠ .placeholder
  listed : p.listed = p.insts.handles
  placed : ∀ {b blk}, p.blocks.get? b = some blk → ∀ i ∈ blk.insts, p.blockOf i = b
  ended : ∀ blk ∈ p.blocks.toList, ∃ is last t, blk.insts = is ++ [last] ∧
    (∀ i ∈ is, p.terminatorAt? i = none) ∧ p.terminatorAt? last = some t ∧
      blk.succs = t.successors
  named : ∀ d ∈ p.insts.toList, d.op.hasResult = d.name.isSome
  values : ∀ d ∈ p.insts.toList, ∀ v ∈ d.op.operands ++ d.op.incoming.map Prod.fst, p.Provides v
  targets : ∀ blk ∈ p.blocks.toList, ∀ a ∈ blk.succs, a.index < p.blocks.size
  preds : ∀ {b blk}, p.blocks.get? b = some blk →
    blk.preds = edgesInto (p.blocks.entries.map fun e => (e.1, e.2.succs)) b

namespace WellFormed

variable {p : Procedure} {b : Block} {blk : BasicBlock}

theorem succs_eq (h : p.WellFormed) (hb : p.blocks.get? b = some blk) :
    blk.succs = p.exits blk := by
  obtain ⟨is, last, t, hinsts, -, hlast, hsuccs⟩ := h.ended blk (Table.mem_toList.mpr ⟨b, hb⟩)
  rw [exits, hinsts, List.getLast?_concat, Option.bind_some, hlast, hsuccs]
  rfl

/-- Rebuilding the edges changes nothing. -/
theorem recomputeEdges_yields (h : p.WellFormed) : Yields Build.recomputeEdges p () p := by
  have hself : p.reconnected = p := reconnected_eq_self h.succs_eq h.preds
  have hyields : Yields Build.recomputeEdges p () p.reconnected := by
    apply Build.recomputeEdges_yields
    · intro b blk hb i hi
      have hmem : i ∈ p.listed := mem_listed hb (List.mem_of_getLast? hi)
      exact Table.mem_handles.mp (h.listed ▸ hmem)
    · intro b blk hb t ht
      rw [← h.succs_eq hb] at ht
      exact h.targets blk (Table.mem_toList.mpr ⟨b, hb⟩) t ht
  rwa [hself] at hyields

end WellFormed

end Procedure

/-! ## From trees -/

theorem FlowGraph.predsFrom_eq_edgesInto {p : Procedure} (b : Block) :
    predsFrom (p.blocks.toList.map BasicBlock.succs) b =
      edgesInto (p.blocks.entries.map fun e => (e.1, e.2.succs)) b := by
  rw [predsFrom, edgesInto, Table.entries, List.zipIdx_map, List.map_map, List.flatMap_map,
    List.flatMap_map]
  refine List.flatMap_congr fun e _ => ?_
  have hcount : (e.1.succs.filter (· = b)).length = e.1.succs.count b := by
    simp [List.count_eq_length_filter, BEq.beq]
  show (e.1.succs.filter (· = b)).map (fun _ => (⟨e.2⟩ : Block)) = _
  rw [List.map_const', hcount]
  rfl

namespace ProcTree

variable {t : ProcTree} {s : Scope} {p : Procedure}

/-- A block ends in the one terminator that its lines end in, and leads where that says. -/
theorem LoweredBlock.ended {bt : BlockTree} {e : Block × BasicBlock}
    (h : LoweredBlock s p bt e) : ∃ is last t, e.2.insts = is ++ [last] ∧
      (∀ i ∈ is, p.terminatorAt? i = none) ∧ p.terminatorAt? last = some t ∧
        e.2.succs = t.successors := by
  obtain ⟨ops, hops, hsuccs⟩ := h.succs
  obtain ⟨⟨⟨last, hlast, hterm⟩, hfront⟩, hops⟩ := BlockTree.operations_eq_ok.mp hops
  obtain ⟨front, hinsts⟩ := List.getLast?_eq_some_iff.mp hlast
  rw [hinsts, List.dropLast_concat] at hfront
  obtain ⟨is, i, his, hisFront, op, hop, hlastOp⟩ := exists_concat_of_forall₂ (hinsts ▸ h.insts)
  obtain ⟨ops', op', hconcat, -, hlastOp'⟩ :=
    exists_concat_of_forall₂ (.flip (hinsts ▸ hops))
  obtain rfl : op = op' := Except.ok.inj (hlastOp.symm.trans hlastOp')
  have hsome : op.terminator?.isSome = true := (Scope.isSome_terminator? hlastOp).trans hterm
  obtain ⟨u, hu⟩ := Option.isSome_iff_exists.mp hsome
  refine ⟨is, i, u, his, ?_, ?_, ?_⟩
  · intro j hj
    obtain ⟨jt, hjt, op', hop', hjop⟩ := exists_left_of_mem hisFront.flip hj
    have hnone : op'.terminator?.isSome = false :=
      (Scope.isSome_terminator? hjop).trans (hfront jt hjt)
    rw [Procedure.terminatorAt?, hop', Option.bind_some]
    exact Option.not_isSome_iff_eq_none.mp (Bool.eq_false_iff.mp hnone)
  · rw [Procedure.terminatorAt?, hop, Option.bind_some, hu]
  · rw [hsuccs, successorsOf, hconcat, List.getLast?_concat, Option.bind_some, hu]
    rfl

/-- A value of the scope is a constant, an argument or a result. -/
theorem Lowered.provides (h : t.Lowered s p)
    (hnamed : ∀ d ∈ p.insts.toList, d.op.hasResult = d.name.isSome) {o : OperandTree} {v : Value}
    (hv : s.value o = .ok v) : p.Provides v := by
  rcases value_cases h.scope hv with ⟨k, -, rfl⟩ | ⟨i, n, -, hi, rfl⟩ | ⟨k, it, n, -, hit, hn, rfl⟩
  · exact .inr ⟨k, rfl⟩
  · have hlt : i < p.args.size := by
      rw [h.args]
      exact (List.getElem?_eq_some_iff.mp hi).1
    exact .inl (List.mem_append_left _ (List.mem_map_of_mem (Table.mem_handles.mpr hlt)))
  · have hlt : k < p.insts.size := h.size_insts ▸ (List.getElem?_eq_some_iff.mp hit).1
    obtain ⟨d, hd⟩ := Table.exists_get? (t := p.insts) (h := ⟨k⟩) hlt
    obtain ⟨it', hit', hname, -⟩ := h.exists_inst hd
    obtain rfl : it = it' := Option.some.inj (hit.symm.trans hit')
    have hresult : d.op.hasResult = true := by
      rw [hnamed d (Table.mem_toList.mpr ⟨_, hd⟩), hname, hn]
      rfl
    have hlisted : (⟨k⟩ : Inst) ∈ p.listed := by
      rw [Procedure.listed, h.listed]
      exact Handle.mem_first.mpr hlt
    refine .inl (List.mem_append_right _ (List.mem_map_of_mem (List.mem_filter.mpr ⟨hlisted, ?_⟩)))
    rw [Procedure.opAt, hd]
    exact hresult

theorem wellFormed_of_lower (ht : t.Readable) (hp : t.lower = .ok p) : p.WellFormed := by
  obtain ⟨s, h⟩ := lowered_of_lower ht.blocks_ne_nil hp
  have hinst : ∀ d ∈ p.insts.toList, ∃ i ∈ t.insts, d.name = i.result ∧ s.operation i = .ok d.op :=
    fun d hd => exists_left_of_mem h.insts hd
  have hblock : ∀ blk ∈ p.blocks.toList, ∃ b bt, p.blocks.get? b = some blk ∧
      LoweredBlock s p bt (b, blk) := by
    intro blk hblk
    obtain ⟨b, hb⟩ := Table.mem_toList.mp hblk
    obtain ⟨bt, -, hlow⟩ := h.exists_block hb
    exact ⟨b, bt, hb, hlow⟩
  have hnamed : ∀ d ∈ p.insts.toList, d.op.hasResult = d.name.isSome := by
    intro d hd
    obtain ⟨i, hi, hname, hop⟩ := hinst d hd
    obtain ⟨bt, hbt, hi⟩ := List.mem_flatMap.mp hi
    obtain ⟨⟨ts, hts⟩, -⟩ := ht.inst hbt hi
    rw [hname, hasResult_of_operation hts hop]
  have hplaced : ∀ {b blk}, p.blocks.get? b = some blk → ∀ i ∈ blk.insts, p.blockOf i = b :=
    fun hb i hi => blockOf_of_lower ht.blocks_ne_nil hp hb hi
  refine ⟨?_, h.listed, hplaced, ?_, hnamed, ?_, ?_, ?_⟩
  · intro d hd
    obtain ⟨i, -, -, hop⟩ := hinst d hd
    exact Scope.ne_placeholder hop
  · intro blk hblk
    obtain ⟨b, bt, -, hlow⟩ := hblock blk hblk
    exact hlow.ended
  · intro d hd v hv
    obtain ⟨i, -, -, hop⟩ := hinst d hd
    obtain ⟨o, ho⟩ := Scope.value_of_operation hop hv
    exact h.provides hnamed ho
  · intro blk hblk a ha
    obtain ⟨b, bt, hb, -⟩ := hblock blk hblk
    exact h.lt_size_of_succ hb ha
  · intro b blk hb
    obtain ⟨bt, -, hlow⟩ := h.exists_block hb
    exact hlow.preds.trans (FlowGraph.predsFrom_eq_edgesInto b)

end ProcTree

/-! ## From texts -/

namespace Program

variable {m : Program} {text : String}

/-- A procedure of a program that was read comes from a tree that can be written. -/
theorem exists_readable (h : parse text = .ok m) {p : Procedure} (hp : p ∈ m.funcs.toList) :
    ∃ t : ProcTree, t.Readable ∧ t.lower = .ok p := by
  obtain ⟨tokens, trees, htokens, htrees, hm⟩ := parse_eq_ok.mp h
  obtain ⟨ps, hps, hlower⟩ := forall₂_lower hm
  obtain ⟨t, ht, hlow⟩ := exists_left_of_mem hlower (hps ▸ hp)
  obtain ⟨us, hus, hsub⟩ := htrees.exists_derives t ht
  refine ⟨t, ⟨us, hus, fun u hu => ?_⟩, hlow⟩
  obtain ⟨e, he, rfl⟩ := List.mem_map.mp (hsub hu)
  exact valid_of_lexFrom htokens e he

/-- The procedures of a program that was read are well formed, and rebuilding their edges leaves
them as they are. -/
theorem wellFormed_of_parse (h : parse text = .ok m) :
    ∀ p ∈ m.funcs.toList, p.WellFormed ∧ Yields Build.recomputeEdges p () p := by
  intro p hp
  obtain ⟨t, ht, hlow⟩ := exists_readable h hp
  have hwell := ProcTree.wellFormed_of_lower ht hlow
  exact ⟨hwell, hwell.recomputeEdges_yields⟩

theorem wellFormed_countdown :
    parse countdownText = .ok countdown ∧ ∀ p ∈ countdown.funcs.toList,
      p.WellFormed ∧ Yields Build.recomputeEdges p () p :=
  ⟨parse_countdownText, wellFormed_of_parse parse_countdownText⟩

end Program

end SsaFlow
