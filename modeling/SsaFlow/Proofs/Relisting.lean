import SsaFlow.Proofs.PrintedTrees

/-!
# Reading back what was built

A procedure that was put together call by call has instructions without names, in any order, and
maybe some that no block lists.  Its text gives every result a name, and says the order in which
instructions are listed.  So the procedure that is read back is the same one, with its listed
instructions numbered in that order (`Procedure.Relists`).  Each name leads back to the value that
it was printed for, since the scope of the tree is the one it was printed with
(`Procedure.Printable.scope_tree`).
-/

namespace SsaFlow

/-! ## Positions -/

theorem zipIdx_of_nodup {α : Type} [DecidableEq α] {xs : List α} (h : xs.Nodup) :
    xs.zipIdx = xs.map fun a => (a, xs.idxOf a) := by
  refine List.ext_getElem (by simp) fun n hn hn' => ?_
  simp [h.idxOf_getElem]

theorem zipIdx_first {k : Entity} (n : Nat) :
    (Handle.first n : List (Handle k)).zipIdx = (Handle.first n).map fun h => (h, h.index) := by
  refine List.ext_getElem (by simp) fun i hi hi' => ?_
  simp [Handle.first]

theorem Table.zipIdx_entries {k : Entity} {α : Type} (t : Table k α) :
    t.entries.zipIdx = t.entries.map fun e => (e, e.1.index) := by
  refine List.ext_getElem (by simp) fun i hi hi' => ?_
  simp [entries]

/-- The rows of two tables are related at each handle, if they are as lists. -/
theorem Table.eq_of_map_toList {k : Entity} {α β γ : Type} {t : Table k α} {u : Table k β} {f : α → γ}
    {g : β → γ} (h : t.toList.map f = u.toList.map g) {x : Handle k} {a : α} {b : β}
    (ha : t.get? x = some a) (hb : u.get? x = some b) : f a = g b := by
  have hx := congrArg (·[x.index]?) h
  simp only [List.getElem?_map, getElem?_toList] at hx
  rw [ha, hb] at hx
  exact Option.some.inj hx

namespace Procedure

variable {p : Procedure}

/-- The position of an instruction among those that blocks list. -/
def renumber (p : Procedure) (i : Inst) : Inst := ⟨p.listed.idxOf i⟩

theorem map_renumber_listed (h : p.listed.Nodup) :
    p.listed.map p.renumber = Handle.first p.listed.length := by
  refine List.ext_getElem (by simp) fun n hn hn' => ?_
  simp [renumber, Handle.first, h.idxOf_getElem]

/-! ## The scope of the tree -/

theorem argNames_tree (p : Procedure) :
    p.tree.argNames = p.args.handles.map fun a => (p.bareName (.arg a), .arg a) := by
  rw [ProcTree.argNames, tree, List.zipIdx_map, Table.handles, zipIdx_first, List.map_map,
    List.map_map]
  rfl

theorem labelNames_tree (p : Procedure) :
    p.tree.labelNames = p.blocks.handles.map fun b => (p.labelOf b, b) := by
  rw [ProcTree.labelNames, tree, List.zipIdx_map, Table.zipIdx_entries, ← Table.map_fst_entries,
    List.map_map, List.map_map, List.map_map]
  rfl

theorem insts_tree (p : Procedure) : p.tree.insts = p.listed.map p.instTree := by
  rw [ProcTree.insts, tree, List.flatMap_map, listed, List.map_flatMap, ← Table.map_snd_entries,
    List.flatMap_map]

theorem resultNames_tree (h : p.listed.Nodup) :
    p.tree.resultNames = (p.listed.filter fun i => (p.opAt i).hasResult).map
      fun i => (p.bareName (.inst i), .inst (p.renumber i)) := by
  rw [ProcTree.resultNames, insts_tree, List.zipIdx_map, zipIdx_of_nodup h, List.map_map,
    List.filterMap_map, ← List.filterMap_eq_map, List.filterMap_filter]
  refine List.filterMap_congr fun i _ => ?_
  simp only [Function.comp_apply, Prod.map_apply, instTree, id_eq]
  split
  next => rfl
  next => rfl

namespace Printable

/-- The names of the tree are those it was printed with. -/
theorem scope_tree (h : p.Printable) : p.tree.scope = .ok (p.scope p.renumber) := by
  have hvalues : (p.scope p.renumber).values = p.tree.argNames ++ p.tree.resultNames := by
    rw [argNames_tree, resultNames_tree h.listedOnce, scope, namedValues, List.map_append,
      List.map_map, List.map_map]
    rfl
  have hblocks : (p.scope p.renumber).blocks = p.tree.labelNames := (labelNames_tree p).symm
  obtain ⟨hnodup, hnodup'⟩ := h.nodup_scope (f := p.renumber)
  rw [ProcTree.scope_eq_ok, ← hvalues, ← hblocks]
  exact ⟨rfl, hnodup, hnodup'⟩

end Printable

end Procedure

/-! ## Lowering the tree -/

namespace Procedure

variable {p q : Procedure} {b : Block} {blk : BasicBlock} {i : Inst}

/-- The operations of a block with their instructions renumbered. -/
def relistedOps (p : Procedure) (blk : BasicBlock) : List Operation :=
  blk.insts.map fun i => (p.opAt i).rename p.renumber

namespace Printable

theorem exists_last (h : p.Printable) (hb : p.blocks.get? b = some blk) :
    ∃ is last, blk.insts = is ++ [last] ∧ (p.opAt last).kind = .terminator ∧
      ∀ i ∈ is, (p.opAt i).kind ≠ .terminator := by
  obtain ⟨⟨last, hlast, hkind⟩, hfront⟩ := h.ended blk (Table.mem_toList.mpr ⟨b, hb⟩)
  obtain ⟨is, hinsts⟩ := List.getLast?_eq_some_iff.mp hlast
  refine ⟨is, last, hinsts, hkind, ?_⟩
  rwa [hinsts, List.dropLast_concat] at hfront

theorem operations_ok (h : p.Printable) (hb : p.blocks.get? b = some blk) :
    BlockTree.operations (p.scope p.renumber) ⟨p.labelOf b, blk.insts.map p.instTree⟩ =
      .ok (p.relistedOps blk) := by
  obtain ⟨is, last, hinsts, hlast, hfront⟩ := h.exists_last hb
  have hmem : ∀ i ∈ is ++ [last], i ∈ p.listed := fun i hi => mem_listed hb (hinsts ▸ hi)
  have hterm : ∀ i ∈ is ++ [last], (p.instTree i).action.isTerminator =
      ((p.opAt i).kind == .terminator) := fun i hi => isTerminator_actionTree (h.ops i (hmem i hi))
  have hends : BlockTree.endsInTerminator ⟨p.labelOf b, blk.insts.map p.instTree⟩ = true := by
    simp [BlockTree.endsInTerminator, hinsts, hterm, hlast]
  rw [BlockTree.operations, if_pos hends, relistedOps, hinsts]
  refine Scope.operations_eq_ok.mpr ⟨?_, ?_⟩
  · rw [List.forall₂_map_left_iff, List.forall₂_map_right_iff, List.forall₂_same]
    exact fun i hi => h.operation_instTree (hmem i hi)
  · rw [List.map_append, List.map_singleton, List.dropLast_concat]
    intro j hj
    obtain ⟨i, hi, rfl⟩ := List.mem_map.mp hj
    rw [hterm i (List.mem_append_left _ hi)]
    exact beq_false_of_ne (hfront i hi)

theorem lower_tree (h : p.Printable) : ∃ q, p.tree.lower = .ok q := by
  have hops : p.tree.blocks.mapM (·.operations (p.scope p.renumber)) =
      .ok (p.blocks.entries.map fun e => p.relistedOps e.2) := by
    rw [mapM_eq_ok, tree, List.forall₂_map_left_iff, List.forall₂_map_right_iff, List.forall₂_same]
    exact fun e he => h.operations_ok (Table.mem_entries.mp he)
  exact ProcTree.exists_lower_of_operations (bind_eq_ok.mpr ⟨_, h.scope_tree, hops⟩)

/-- Control leaves a block through its last instruction only. -/
theorem successorsOf_relistedOps (h : p.Printable) (hb : p.blocks.get? b = some blk) :
    ProcTree.successorsOf (p.relistedOps blk) = p.targets blk.insts := by
  obtain ⟨is, last, hinsts, hlast, hfront⟩ := h.exists_last hb
  have hterm : ∀ i, p.terminatorAt? i = (p.opAt i).terminator? := by
    intro i
    rw [terminatorAt?, opAt]
    cases p.insts.get? i <;> rfl
  have hnone : is.filterMap p.terminatorAt? = [] := by
    refine List.filterMap_eq_nil_iff.mpr fun i hi => ?_
    have hkind := hfront i hi
    rw [hterm]
    cases hop : p.opAt i with
    | terminator t => exact absurd (hop ▸ rfl) hkind
    | _ => rfl
  cases hop : p.opAt last with
  | terminator t =>
    have hsuccs : (t.rename p.renumber).successors = t.successors := by cases t <;> rfl
    simp [ProcTree.successorsOf, relistedOps, targets, hinsts, hnone, hterm, hop, Operation.rename,
      Operation.terminator?, hsuccs]
  | _ =>
    rw [hop] at hlast
    cases hlast

end Printable

/-! ## The procedure that is read back -/

/-- `q` is `p` with its listed instructions numbered in the order in which they are listed, and
printed with the same names. -/
structure Relists (q p : Procedure) : Prop where
  name : q.name = p.name
  entry : q.entry = p.entry
  args : q.args.size = p.args.size
  argNames : ∀ a : Arg, a.index < p.args.size → q.valueName (.arg a) = p.valueName (.arg a)
  numbers : p.listed.map p.renumber = q.insts.handles
  ops : ∀ i ∈ p.listed, ∃ name,
    q.insts.get? (p.renumber i) = some ⟨name, (p.opAt i).rename p.renumber⟩
  resultNames : ∀ i ∈ p.listed, (p.opAt i).hasResult = true →
    q.valueName (.inst (p.renumber i)) = p.valueName (.inst i)
  blocks : q.blocks.size = p.blocks.size
  labels : ∀ b : Block, b.index < p.blocks.size → q.blockLabel b = p.blockLabel b
  insts : ∀ b blk blk', p.blocks.get? b = some blk → q.blocks.get? b = some blk' →
    blk'.insts = blk.insts.map p.renumber ∧ ∀ i ∈ blk.insts, q.blockOf (p.renumber i) = b
  succs : ∀ b blk blk', p.blocks.get? b = some blk → q.blocks.get? b = some blk' →
    blk'.succs = p.targets blk.insts
  preds : ∀ b blk', q.blocks.get? b = some blk' →
    blk'.preds = FlowGraph.predsFrom (p.blocks.toList.map fun blk => p.targets blk.insts) b

namespace Printable

variable {s : Scope}

/-- What becomes of a block. -/
theorem forall₂_lowered (hlow : p.tree.Lowered s q) :
    List.Forall₂ (fun e e' => p.blocks.get? e.1 = some e.2 ∧
      ProcTree.LoweredBlock s q ⟨p.labelOf e.1, e.2.insts.map p.instTree⟩ e')
      p.blocks.entries q.blocks.entries := by
  refine (List.forall₂_and_left _ _).mpr ⟨fun e he => Table.mem_entries.mp he, ?_⟩
  exact List.forall₂_map_left_iff.mp hlow.blocks

theorem size_blocks_lowered (hlow : p.tree.Lowered s q) : q.blocks.size = p.blocks.size := by
  have hlength := (forall₂_lowered hlow).length_eq
  simpa [Table.entries, Table.toList, Table.size] using hlength.symm

theorem size_insts_lowered (hlow : p.tree.Lowered s q) : q.insts.size = p.listed.length := by
  rw [hlow.size_insts, insts_tree, List.length_map]

/-- What becomes of an instruction. -/
theorem get?_lowered (h : p.Printable) (hlow : p.tree.Lowered (p.scope p.renumber) q)
    (hi : i ∈ p.listed) :
    q.insts.get? (p.renumber i) =
      some ⟨(p.instTree i).result, (p.opAt i).rename p.renumber⟩ := by
  have hlt : p.listed.idxOf i < p.listed.length := List.idxOf_lt_length_iff.mpr hi
  obtain ⟨⟨name, op⟩, hd⟩ := Table.exists_get? (t := q.insts) (h := p.renumber i)
    (size_insts_lowered hlow ▸ hlt)
  obtain ⟨it, hit, hname, hop⟩ := hlow.exists_inst hd
  have htree : it = p.instTree i := by
    rw [insts_tree, List.getElem?_map, renumber, List.getElem?_eq_getElem hlt,
      List.getElem_idxOf] at hit
    exact (Option.some.inj hit).symm
  subst htree
  obtain rfl : (p.opAt i).rename p.renumber = op :=
    Except.ok.inj ((h.operation_instTree hi).symm.trans hop)
  obtain rfl : name = (p.instTree i).result := hname
  exact hd

theorem insts_lowered (h : p.Printable) (hlow : p.tree.Lowered s q) :
    q.blocks.toList.map BasicBlock.insts =
      p.blocks.toList.map fun blk => blk.insts.map p.renumber := by
  -- both number the listed instructions in order, in rows of the same lengths
  refine List.eq_iff_flatten_eq.mpr ⟨?_, ?_⟩
  · rw [← List.flatMap_def, hlow.listed, size_insts_lowered hlow,
      ← map_renumber_listed h.listedOnce, listed, List.map_flatMap, List.flatMap_def]
  · rw [← Table.map_snd_entries, ← Table.map_snd_entries, List.map_map, List.map_map, List.map_map,
      List.map_map, ← List.forall₂_eq_eq_eq, List.forall₂_map_left_iff, List.forall₂_map_right_iff]
    refine .flip ((forall₂_lowered hlow).imp fun e e' he => ?_)
    have hlength := he.2.insts.length_eq
    rw [List.length_map] at hlength
    show e'.2.insts.length = (e.2.insts.map p.renumber).length
    rw [List.length_map, hlength]

theorem succs_lowered (h : p.Printable) (hlow : p.tree.Lowered (p.scope p.renumber) q) :
    q.blocks.toList.map BasicBlock.succs = p.blocks.toList.map fun blk => p.targets blk.insts := by
  rw [← Table.map_snd_entries, ← Table.map_snd_entries, List.map_map, List.map_map,
    ← List.forall₂_eq_eq_eq, List.forall₂_map_left_iff, List.forall₂_map_right_iff]
  refine .flip ((forall₂_lowered hlow).imp fun e e' ⟨hb, he⟩ => ?_)
  obtain ⟨ops, hops, hsuccs⟩ := he.succs
  rw [h.operations_ok hb] at hops
  cases hops
  exact hsuccs.trans (h.successorsOf_relistedOps hb)

theorem valueName_arg_lowered (h : p.Printable) (hlow : p.tree.Lowered s q) {a : Arg}
    (ha : a.index < p.args.size) : q.valueName (.arg a) = p.valueName (.arg a) := by
  have hget : q.args.get? a = some (p.bareName (.arg a)) := by
    have hfirst : p.args.handles[a.index]? = some a := by
      simp [Table.handles, Handle.first, ha]
    rw [hlow.args, ← Table.getElem?_toList]
    show (p.args.handles.map fun a => p.bareName (.arg a))[a.index]? = _
    rw [List.getElem?_map, hfirst]
    rfl
  have hne : p.bareName (.arg a) ≠ "" := (h.valid_name (arg_mem_values.mpr ha)).1
  have hgiven : q.givenName? (.arg a) = some (p.bareName (.arg a)) := by
    simp [givenName?, hget, hne]
  rw [valueName_arg, valueName_arg, bareName_of_given hgiven]

theorem blockLabel_lowered (h : p.Printable) (hlow : p.tree.Lowered s q)
    (hb : p.blocks.get? b = some blk) : q.blockLabel b = p.blockLabel b := by
  have hbt : p.tree.blocks[b.index]? = some ⟨p.labelOf b, blk.insts.map p.instTree⟩ := by
    show (p.blocks.entries.map _)[b.index]? = _
    rw [List.getElem?_map, Table.getElem?_entries, hb]
    rfl
  rw [hlow.blockLabel h.readable_tree hbt, blockLabel_of_lt (Table.lt_size hb)]

/-- What is read back is the procedure with its instructions numbered in order. -/
theorem relists (h : p.Printable) (hq : p.tree.lower = .ok q) : q.Relists p := by
  obtain ⟨s, hlow⟩ := ProcTree.lowered_of_lower h.readable_tree.blocks_ne_nil hq
  obtain rfl : p.scope p.renumber = s := Except.ok.inj (h.scope_tree.symm.trans hlow.scope)
  refine ⟨hlow.name, hlow.entry.trans h.entry.symm, ?_, fun a => h.valueName_arg_lowered hlow, ?_,
    fun i hi => ⟨_, h.get?_lowered hlow hi⟩, ?_, size_blocks_lowered hlow, ?_, ?_, ?_, ?_⟩
  · rw [hlow.args]
    simp [Table.ofList, Table.size, tree, Table.handles]
  · rw [map_renumber_listed h.listedOnce, Table.handles, size_insts_lowered hlow]
  · intro i hi hr
    have hgiven : q.givenName? (.inst (p.renumber i)) = some (p.bareName (.inst i)) := by
      simp [givenName?, h.get?_lowered hlow hi, instTree, hr]
    rw [valueName_inst, valueName_inst, bareName_of_given hgiven]
  · intro b hb
    obtain ⟨blk, hblk⟩ := Table.exists_get? hb
    exact h.blockLabel_lowered hlow hblk
  · intro b blk blk' hb hb'
    have hinsts := Table.eq_of_map_toList (h.insts_lowered hlow) hb' hb
    refine ⟨hinsts, fun i hi => ProcTree.blockOf_of_lower h.readable_tree.blocks_ne_nil hq hb' ?_⟩
    rw [hinsts]
    exact List.mem_map_of_mem hi
  · exact fun b blk blk' hb hb' => Table.eq_of_map_toList (h.succs_lowered hlow) hb' hb
  · intro b blk' hb'
    obtain ⟨bt, -, hblock⟩ := hlow.exists_block hb'
    rw [← h.succs_lowered hlow]
    exact hblock.preds

end Printable

end Procedure

/-! ## Edges -/

namespace FlowGraph

theorem count_predsFrom_zipIdx (succs : List (List Block)) (k : Nat) (a b : Block) :
    ((succs.zipIdx k).flatMap fun (targets, i) =>
      (targets.filter (· = b)).map fun _ => (⟨i⟩ : Block)).count a =
        if k ≤ a.index then ((succs[a.index - k]?).getD []).count b else 0 := by
  induction succs generalizing k with
  | nil => simp
  | cons targets succs ih =>
    have hhead : ((targets.filter (· = b)).map fun _ => (⟨k⟩ : Block)).count a =
        if a.index = k then targets.count b else 0 := by
      have hcount : (targets.filter (· = b)).length = targets.count b := by
        simp [List.count_eq_length_filter, BEq.beq]
      rw [List.map_const', List.count_replicate, hcount]
      by_cases hk : a.index = k
      · subst hk
        simp
      · have hne : (⟨k⟩ : Block) ≠ a := fun heq => hk (heq ▸ rfl)
        simp [hk, hne]
    rw [List.zipIdx_cons, List.flatMap_cons, List.count_append, ih, hhead]
    rcases Nat.lt_trichotomy a.index k with hlt | heq | hgt
    · rw [if_neg (by omega), if_neg (by omega), if_neg (by omega)]
    · rw [if_pos heq, if_neg (by omega), if_pos (by omega), heq, Nat.sub_self]
      rfl
    · have hsub : a.index - k = a.index - (k + 1) + 1 := by omega
      rw [if_neg (by omega), if_pos (by omega), if_pos (by omega), hsub, Nat.zero_add,
        List.getElem?_cons_succ]

theorem count_predsFrom (succs : List (List Block)) (a b : Block) :
    (predsFrom succs b).count a = ((succs[a.index]?).getD []).count b := by
  have h := count_predsFrom_zipIdx succs 0 a b
  rwa [if_pos (Nat.zero_le _), Nat.sub_zero] at h

end FlowGraph

namespace Procedure

variable {p q : Procedure} {b : Block} {blk blk' : BasicBlock}

/-- If the edges of a procedure are those of its terminators, they are read back. -/
theorem Relists.edges (h : q.Relists p) (hp : p.Coherent) (hb : p.blocks.get? b = some blk)
    (hb' : q.blocks.get? b = some blk') : blk'.succs = blk.succs ∧ blk'.preds.Perm blk.preds := by
  refine ⟨(h.succs b blk blk' hb hb').trans (hp.succs hb).symm, ?_⟩
  refine List.perm_iff_count.mpr fun a => ?_
  rw [h.preds b blk' hb', FlowGraph.count_predsFrom, List.getElem?_map, Table.getElem?_toList]
  cases ha : p.blocks.get? a with
  | some ablk =>
    show (p.targets ablk.insts).count b = _
    rw [← hp.succs ha, hp.mirrored ha hb]
  | none =>
    have hnot : a ∉ blk.preds := by
      intro hmem
      obtain ⟨ablk, hablk⟩ := Table.exists_get? (hp.inRange hb a (List.mem_append_right _ hmem))
      exact absurd (ha.symm.trans hablk) nofun
    show ([] : List Block).count b = _
    rw [List.count_eq_zero.mpr hnot]
    rfl

/-- A text with the canonical tokens of a tree is read as the procedure of the tree. -/
theorem parse_of_ends {t : ProcTree} {text : String} (ht : t.Readable)
    (hends : Ends text (lineTokens t.lines)) (hq : t.lower = .ok q) :
    Program.parse text = .ok ⟨.ofList [q]⟩ := by
  obtain ⟨ts, hts, -⟩ := ht
  have hderives : ProgramDerives [t] (lineTokens t.lines) := by
    simpa using (ProgramDerives.cons hts .nil).canonical
  exact Program.parse_of_derives hends hderives hq

/-- A procedure that can be printed is read back as it is, with its listed instructions numbered in
order, and with the same edges if it had those of its terminators. -/
theorem parse_render_relists (h : p.Printable) :
    ∃ text q, p.render "" = .ok text ∧ Program.parse text = .ok ⟨.ofList [q]⟩ ∧ q.Relists p ∧
      (p.Coherent → ∀ b blk blk', p.blocks.get? b = some blk → q.blocks.get? b = some blk' →
        blk'.succs = blk.succs ∧ blk'.preds.Perm blk.preds) := by
  obtain ⟨text, htext, hends⟩ := h.render_ok
  obtain ⟨q, hq⟩ := h.lower_tree
  have hrelists := h.relists hq
  exact ⟨text, q, htext, parse_of_ends h.readable_tree hends hq, hrelists,
    fun hp _ _ _ hb hb' => hrelists.edges hp hb hb'⟩

/-- A loop whose blocks are ended in the wrong order.  The names that unnamed values would have are
given to others. -/
def clashing : List Build.Call :=
  [.addArg "", .addArg "v1", .addBlock "", .addBlock "exit", .endBlock ⟨2⟩ (.ret [.inst ⟨1⟩]),
    .appendPhi ⟨1⟩ [(.arg ⟨0⟩, ⟨0⟩)], .appendOp ⟨1⟩ "add" [.inst ⟨1⟩, .arg ⟨1⟩] true,
    .setName ⟨2⟩ "v1_", .addIncoming ⟨1⟩ (.inst ⟨2⟩) ⟨1⟩,
    .appendOp ⟨1⟩ "store" [.inst ⟨2⟩, .const (-1)] false,
    .endBlock ⟨1⟩ (.condBr (.inst ⟨2⟩) ⟨1⟩ ⟨2⟩), .endBlock ⟨0⟩ (.br ⟨1⟩)]

theorem parse_render_relists_clashing :
    (clashing.foldl Build.Call.leaves (.new "f")).Printable ∧
      (clashing.foldl Build.Call.leaves (.new "f")).Coherent ∧
      ∃ text q, (clashing.foldl Build.Call.leaves (.new "f")).render "" = .ok text ∧
        Program.parse text = .ok ⟨.ofList [q]⟩ ∧
        q.Relists (clashing.foldl Build.Call.leaves (.new "f")) := by
  have hprintable : (clashing.foldl Build.Call.leaves (.new "f")).Printable := by
    constructor <;> decide +kernel
  have hlegal : Build.Call.Legal (.new "f") clashing := by decide
  have hcoherent := Build.Call.coherent_foldl_leaves (coherent_new "f") hlegal
  obtain ⟨text, q, htext, hparse, hrelists, -⟩ := parse_render_relists hprintable
  exact ⟨hprintable, hcoherent, text, q, htext, hparse, hrelists⟩

end Procedure

end SsaFlow
