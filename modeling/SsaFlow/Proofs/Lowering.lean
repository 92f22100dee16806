import Mathlib.Data.List.Nodup
import SsaFlow.Proofs.LoweringSteps

/-!
# Procedures from trees

The passes over a tree leave one closed form (`ProcTree.assemble`, by
`ProcTree.lower_eq_assemble`).  Its instructions are those of the tree in the order they
are written, and the blocks list them in that order too, so each is listed once.  A block
leads where its last operation does, and its predecessors come in layout order.

`ProcTree.Lowered` says the same of the single parts, and is what later modules use.  How
tables are put together matters in `ProcTree.lowered_of_lower` and
`ProcTree.blockOf_of_lower` only.
-/

namespace SsaFlow

/-! ## Lists -/

theorem forall₂_getElem? {α β : Type} {R : α → β → Prop} {xs : List α} {ys : List β} {n : Nat}
    {x : α} {y : β} (h : List.Forall₂ R xs ys) (hx : xs[n]? = some x) (hy : ys[n]? = some y) :
    R x y :=
  List.forall₂_zip h (List.mem_of_getElem? (List.getElem?_zip_eq_some.mpr ⟨hx, hy⟩))

theorem forall₂_zip_self {α β : Type} {R : α → β → Prop} {xs : List α} {ys : List β}
    (h : List.Forall₂ R xs ys) :
    List.Forall₂ (fun x e => e.1 = x ∧ R x e.2) xs (xs.zip ys) := by
  induction h with
  | nil => exact .nil
  | cons hx _ ih => exact .cons ⟨rfl, hx⟩ ih

theorem exists_concat_of_forall₂ {α β : Type} {R : α → β → Prop} {xs : List α} {ys : List β}
    {y : β} (h : List.Forall₂ R xs (ys ++ [y])) :
    ∃ zs x, xs = zs ++ [x] ∧ List.Forall₂ R zs ys ∧ R x y := by
  induction ys generalizing xs with
  | nil =>
    obtain ⟨x, _, hx, hnil, rfl⟩ := List.forall₂_cons_right_iff.mp h
    cases hnil
    exact ⟨[], x, rfl, .nil, hx⟩
  | cons z ys ih =>
    obtain ⟨w, _, hw, hrest, rfl⟩ := List.forall₂_cons_right_iff.mp h
    obtain ⟨zs, x, rfl, hzs, hx⟩ := ih hrest
    exact ⟨w :: zs, x, rfl, .cons hw hzs, hx⟩

theorem map_fst_zipIdx {α β : Type} (f : α → β) (xs : List α) :
    (xs.zipIdx.map fun e => f e.1) = xs.map f := by
  have hmap : (xs.zipIdx.map fun e => f e.1) = (xs.zipIdx.map Prod.fst).map f := by
    rw [List.map_map]
    rfl
  rw [hmap, List.zipIdx_map_fst]

/-! ## What filling in leaves -/

/-- A block `c` after some instructions were filled in. -/
def BasicBlock.filled (fs : List Fill) (c : Block) (blk : BasicBlock) : BasicBlock where
  name := blk.name
  insts := blk.insts ++ (fs.filter (·.block = c)).map Fill.inst
  succs := blk.succs ++ (fs.filter (·.block = c)).flatMap (·.op.targets)
  preds := blk.preds ++ fs.flatMap fun f => List.replicate (f.op.targets.count c) f.block

theorem BasicBlock.filled_cons {f : Fill} {fs : List Fill} {c : Block} (blk : BasicBlock) :
    (blk.filled [f] c).filled fs c = blk.filled (f :: fs) c := by
  by_cases hc : f.block = c
  · simp [filled, hc]
  · simp [filled, hc]

namespace Procedure

variable {p : Procedure} {f : Fill} {fs : List Fill} {c : Block} {i : Inst}

theorem get?_blocks_filled :
    (p.filled f).blocks.get? c = (p.blocks.get? c).map (BasicBlock.filled [f] c) := by
  rw [filled, get?_blocks_linked, get?_blocks_appended, Option.map_map]
  congr 1
  funext blk
  by_cases hc : c = f.block
  · simp [BasicBlock.filled, BasicBlock.linked, hc]
  · simp [BasicBlock.filled, BasicBlock.linked, hc, Ne.symm hc]

theorem get?_blocks_foldl_filled :
    (fs.foldl filled p).blocks.get? c = (p.blocks.get? c).map (BasicBlock.filled fs c) := by
  induction fs generalizing p with
  | nil =>
    rw [List.foldl_nil]
    cases p.blocks.get? c with
    | none => rfl
    | some blk => simp [BasicBlock.filled]
  | cons f fs ih =>
    rw [List.foldl_cons, ih, get?_blocks_filled, Option.map_map]
    exact congrArg (Option.map · _) (funext BasicBlock.filled_cons)

theorem get?_insts_filled :
    (p.filled f).insts.get? i =
      if i = f.inst then (p.insts.get? i).map fun d => { d with op := f.op } else p.insts.get? i :=
  Table.get?_adjust _

/-- Only what is filled in changes. -/
theorem get?_insts_foldl_of_not_mem (hi : i ∉ fs.map Fill.inst) :
    (fs.foldl filled p).insts.get? i = p.insts.get? i := by
  induction fs generalizing p with
  | nil => rfl
  | cons f fs ih =>
    rw [List.map_cons, List.mem_cons, not_or] at hi
    rw [List.foldl_cons, ih hi.2, get?_insts_filled, if_neg hi.1]

theorem get?_insts_foldl_filled (hnodup : (fs.map Fill.inst).Nodup) (hf : f ∈ fs) :
    (fs.foldl filled p).insts.get? f.inst =
      (p.insts.get? f.inst).map fun d => { d with op := f.op } := by
  induction fs generalizing p with
  | nil => cases hf
  | cons g fs ih =>
    rw [List.map_cons, List.nodup_cons] at hnodup
    rw [List.foldl_cons]
    cases hf with
    | head => rw [get?_insts_foldl_of_not_mem hnodup.1, get?_insts_filled, if_pos rfl]
    | tail _ hf =>
      have hne : f.inst ≠ g.inst := fun heq => hnodup.1 (heq ▸ List.mem_map_of_mem hf)
      rw [ih hnodup.2 hf, get?_insts_filled, if_neg hne]

theorem placed_foldl_filled :
    (fs.foldl filled p).placed = fs.foldl (fun m f => m.insert f.inst f.block) p.placed := by
  induction fs generalizing p with
  | nil => rfl
  | cons f fs ih => exact ih

/-- Filling in changes neither the name nor the arguments nor the entry. -/
theorem foldl_filled_eq :
    fs.foldl filled p = { p with
      blocks := (fs.foldl filled p).blocks
      insts := (fs.foldl filled p).insts
      placed := (fs.foldl filled p).placed } := by
  induction fs generalizing p with
  | nil => rfl
  | cons f fs ih => exact ih

end Procedure

/-! ## Rows of operations -/

variable {b c : Block} {k n : Nat} {ops : List Operation} {rows : List (List Operation)}

theorem map_inst_rowFills :
    (rowFills b n ops).map Fill.inst = (List.range' n ops.length).map Handle.mk := by
  rw [rowFills, List.map_map, ← List.zipIdx_map_snd n ops, List.map_map]
  rfl

theorem map_op_rowFills : (rowFills b n ops).map Fill.op = ops := by
  rw [rowFills, List.map_map]
  exact List.zipIdx_map_fst n ops

theorem flatMap_targets_rowFills :
    (rowFills b n ops).flatMap (·.op.targets) = ops.flatMap Operation.targets := by
  have hops : ((rowFills b n ops).map Fill.op).flatMap Operation.targets =
      ops.flatMap Operation.targets := by rw [map_op_rowFills]
  rwa [List.flatMap_map] at hops

theorem block_of_mem_rowFills {f : Fill} (hf : f ∈ rowFills b n ops) : f.block = b := by
  obtain ⟨e, -, rfl⟩ := List.mem_map.mp hf
  rfl

theorem block_of_mem_fillsFrom {f : Fill} (hf : f ∈ fillsFrom k n rows) : k ≤ f.block.index := by
  induction rows generalizing k n with
  | nil => cases hf
  | cons ops rows ih =>
    rcases List.mem_append.mp hf with hf | hf
    · exact Nat.le_of_eq (congrArg Handle.index (block_of_mem_rowFills hf)).symm
    · exact Nat.le_of_succ_le (ih hf)

theorem map_inst_fillsFrom :
    (fillsFrom k n rows).map Fill.inst = (List.range' n rows.flatten.length).map Handle.mk := by
  induction rows generalizing k n with
  | nil => rfl
  | cons ops rows ih =>
    rw [fillsFrom, List.map_append, map_inst_rowFills, ih, ← List.map_append, List.range'_append_1,
      List.flatten_cons, List.length_append]

theorem inst_of_getElem? {f : Fill} {j : Nat} (hf : (fillsFrom k n rows)[j]? = some f) :
    f.inst = ⟨n + j⟩ := by
  have hget : ((fillsFrom k n rows).map Fill.inst)[j]? = some f.inst := by
    rw [List.getElem?_map, hf]
    rfl
  rw [map_inst_fillsFrom, List.getElem?_map, Option.map_eq_some_iff] at hget
  obtain ⟨m, hm, heq⟩ := hget
  obtain ⟨_, hm⟩ := List.getElem?_eq_some_iff.mp hm
  rw [← heq, ← hm, List.getElem_range', Nat.one_mul]

theorem map_op_fillsFrom : (fillsFrom k n rows).map Fill.op = rows.flatten := by
  induction rows generalizing k n with
  | nil => rfl
  | cons ops rows ih =>
    rw [fillsFrom, List.map_append, map_op_rowFills, ih, List.flatten_cons]

/-- What goes to a block is its row. -/
theorem filter_fillsFrom {j : Nat} {ns : List Nat}
    (hns : (numbering n (rows.map List.length))[j]? = some ns) (hops : rows[j]? = some ops) :
    ∃ m, (fillsFrom k n rows).filter (·.block = ⟨k + j⟩) = rowFills ⟨k + j⟩ m ops ∧
      ns = List.range' m ops.length := by
  induction rows generalizing k n j with
  | nil => cases hops
  | cons row rows ih =>
    rw [fillsFrom, List.filter_append]
    cases j with
    | zero =>
      obtain rfl : row = ops := by simpa using hops
      obtain rfl : List.range' n row.length = ns := by simpa [numbering] using hns
      have hrow : (rowFills ⟨k⟩ n row).filter (·.block = ⟨k⟩) = rowFills ⟨k⟩ n row :=
        List.filter_eq_self.mpr fun f hf => decide_eq_true (block_of_mem_rowFills hf)
      have hrest : (fillsFrom (k + 1) (n + row.length) rows).filter (·.block = ⟨k⟩) = [] := by
        refine List.filter_eq_nil_iff.mpr fun f hf heq => ?_
        have hle := block_of_mem_fillsFrom hf
        rw [of_decide_eq_true heq] at hle
        exact Nat.lt_irrefl k hle
      exact ⟨n, by rw [Nat.add_zero, hrow, hrest, List.append_nil], rfl⟩
    | succ j =>
      have hrow : (rowFills ⟨k⟩ n row).filter (·.block = ⟨k + (j + 1)⟩) = [] := by
        refine List.filter_eq_nil_iff.mpr fun f hf heq => ?_
        have hk : (⟨k⟩ : Block) = ⟨k + (j + 1)⟩ :=
          (block_of_mem_rowFills hf).symm.trans (of_decide_eq_true heq)
        have := Handle.mk.inj hk
        omega
      have hk : k + (j + 1) = k + 1 + j := by omega
      rw [hrow, List.nil_append, hk]
      exact ih (by simpa [numbering] using hns) (by simpa using hops)

/-- Rows of instructions are placed one after the other. -/
theorem foldl_insert_fillsFrom {m : HandleMap .inst Block} :
    (fillsFrom k n rows).foldl (fun m f => m.insert f.inst f.block) m =
      (((numbering n (rows.map List.length)).map fun ns => ns.map Handle.mk).zipIdx k).foldl
        (fun m e => e.1.foldl (·.insert · ⟨e.2⟩) m) m := by
  induction rows generalizing k n m with
  | nil => rfl
  | cons ops rows ih =>
    have hrow : (rowFills ⟨k⟩ n ops).foldl (fun m f => m.insert f.inst f.block) m =
        ((List.range' n ops.length).map Handle.mk).foldl (·.insert · ⟨k⟩) m := by
      rw [← map_inst_rowFills (b := ⟨k⟩), rowFills, List.map_map, List.foldl_map, List.foldl_map]
      rfl
    rw [fillsFrom, List.foldl_append, hrow, ih]
    rfl

namespace ProcTree

/-- The successors of a block with the given operations. -/
def successorsOf (ops : List Operation) : List Block :=
  ((ops.getLast?.bind Operation.terminator?).map Terminator.successors).getD []

/-- The procedure with the given operations, block by block. -/
def assemble (t : ProcTree) (ops : List (List Operation)) : Procedure :=
  let insts : List (List Inst) :=
    (numbering 0 (ops.map List.length)).map fun ns => ns.map Handle.mk
  let succs := ops.map successorsOf
  { name := t.name
    args := .ofList t.args
    entry := ⟨0⟩
    blocks := .ofList <| (t.blocks.zip (insts.zip succs)).zipIdx.map fun ((b, is, ss), n) =>
      { name := b.label, insts := is, succs := ss, preds := FlowGraph.predsFrom succs ⟨n⟩ }
    insts := .ofList <| (t.insts.zip ops.flatten).map fun (i, op) => { name := i.result, op }
    placed := insts.zipIdx.foldl (fun m (is, n) => is.foldl (·.insert · ⟨n⟩) m) .empty }

variable {t : ProcTree} {s : Scope} {p : Procedure} {rows : List (List Operation)}

theorem successorsOf_concat (ops : List Operation) (op : Operation) :
    successorsOf (ops ++ [op]) = op.targets := by
  rw [successorsOf, List.getLast?_concat, Option.bind_some, Operation.targets]

/-- Only the last operation of a block leads anywhere. -/
theorem flatMap_targets_eq {b : BlockTree} {ops : List Operation} (h : b.operations s = .ok ops) :
    ops.flatMap Operation.targets = successorsOf ops := by
  obtain ⟨⟨⟨last, hlast, -⟩, hfront⟩, hops⟩ := BlockTree.operations_eq_ok.mp h
  obtain ⟨front, hinsts⟩ := List.getLast?_eq_some_iff.mp hlast
  rw [hinsts, List.dropLast_concat] at hfront
  obtain ⟨before, op, rfl, hbefore, -⟩ := exists_concat_of_forall₂ (.flip (hinsts ▸ hops))
  have hnone : before.flatMap Operation.targets = [] := by
    refine List.flatMap_eq_nil_iff.mpr fun op hop => ?_
    obtain ⟨i, hi, hiop⟩ := exists_left_of_mem hbefore.flip hop
    exact Scope.targets_eq_nil hiop (hfront i hi)
  rw [successorsOf_concat, List.flatMap_append, hnone, List.nil_append, List.flatMap_singleton]

theorem flatMap_preds_rowFills {b c : Block} {n : Nat} {ops : List Operation} :
    (rowFills b n ops).flatMap (fun f => List.replicate (f.op.targets.count c) f.block) =
      List.replicate ((ops.flatMap Operation.targets).count c) b := by
  induction ops generalizing n with
  | nil => rfl
  | cons op ops ih =>
    have hcons : rowFills b n (op :: ops) = ⟨b, ⟨n⟩, op⟩ :: rowFills b (n + 1) ops := rfl
    rw [hcons, List.flatMap_cons, ih, List.flatMap_cons, List.count_append,
      List.replicate_append_replicate]

/-- Edges are added in layout order. -/
theorem flatMap_preds_fillsFrom {c : Block} {k n : Nat}
    (h : ∀ ops ∈ rows, ops.flatMap Operation.targets = successorsOf ops) :
    (fillsFrom k n rows).flatMap (fun f => List.replicate (f.op.targets.count c) f.block) =
      ((rows.map successorsOf).zipIdx k).flatMap fun e =>
        (e.1.filter (· = c)).map fun _ => ⟨e.2⟩ := by
  induction rows generalizing k n with
  | nil => rfl
  | cons ops rows ih =>
    obtain ⟨hops, hrows⟩ := List.forall_mem_cons.mp h
    have hcount : (successorsOf ops).count c = ((successorsOf ops).filter (· = c)).length := by
      simp [List.count_eq_length_filter, BEq.beq]
    rw [fillsFrom, List.flatMap_append, flatMap_preds_rowFills, ih hrows, hops, hcount,
      ← List.map_const']
    rfl

theorem flatten_numbering {α : Type} (n : Nat) (rows : List (List α)) :
    (numbering n (rows.map List.length)).flatten = List.range' n rows.flatten.length := by
  induction rows generalizing n with
  | nil => rfl
  | cons row rows ih =>
    rw [List.map_cons, numbering, List.flatten_cons, ih, List.flatten_cons, List.length_append,
      List.range'_append_1]

theorem length_numbering (n : Nat) (ks : List Nat) : (numbering n ks).length = ks.length := by
  induction ks generalizing n with
  | nil => rfl
  | cons k ks ih => rw [numbering, List.length_cons, ih, List.length_cons]

/-- The numbers of a block lead to its instructions and their operations, where `before` and `after`
are those of the other blocks. -/
theorem forall₂_range' {R : InstTree → Operation → Prop} {is : List InstTree}
    {ops : List Operation} (h : List.Forall₂ R is ops)
    (before after : List (InstTree × Operation)) :
    List.Forall₂ (fun n i => ∃ op, (before ++ is.zip ops ++ after)[n]? = some (i, op) ∧ R i op)
      (List.range' before.length ops.length) is := by
  induction h generalizing before with
  | nil => exact .nil
  | @cons i op is ops hi _ ih =>
    rw [List.length_cons, List.range'_succ]
    refine .cons ⟨op, by simp, hi⟩ ?_
    have hrest := ih (before ++ [(i, op)])
    simpa using hrest

theorem forall₂_numbering {R : InstTree → Operation → Prop} {bs : List BlockTree}
    {ops : List (List Operation)} (h : List.Forall₂ (fun b os => List.Forall₂ R b.insts os) bs ops)
    (before : List (InstTree × Operation)) :
    List.Forall₂ (fun ns b => List.Forall₂ (fun n i => ∃ op,
        (before ++ (bs.flatMap BlockTree.insts).zip ops.flatten)[n]? = some (i, op) ∧ R i op) ns
          b.insts)
      (numbering before.length (ops.map List.length)) bs := by
  induction h generalizing before with
  | nil => exact .nil
  | @cons b os bs ops hb _ ih =>
    have hzip : ((b :: bs).flatMap BlockTree.insts).zip (os :: ops).flatten =
        b.insts.zip os ++ (bs.flatMap BlockTree.insts).zip ops.flatten := by
      rw [List.flatMap_cons, List.flatten_cons, List.zip_append hb.length_eq]
    rw [hzip, List.map_cons, numbering, ← List.append_assoc]
    refine .cons (forall₂_range' hb before _) ?_
    have hrest := ih (before ++ b.insts.zip os)
    rwa [List.length_append, List.length_zip, hb.length_eq, Nat.min_self] at hrest

theorem getElem?_entries_assemble {ops : List (List Operation)} {n : Nat}
    {e : Block × BasicBlock} (he : (t.assemble ops).blocks.entries[n]? = some e) :
    ∃ b ns os, t.blocks[n]? = some b ∧ (numbering 0 (ops.map List.length))[n]? = some ns ∧
      ops[n]? = some os ∧ e = (⟨n⟩, ⟨b.label, ns.map Handle.mk, successorsOf os,
        FlowGraph.predsFrom (ops.map successorsOf) ⟨n⟩⟩) := by
  simp only [Table.entries, assemble, Table.ofList, Table.toList, List.getElem?_map,
    List.getElem?_zipIdx, Option.map_eq_some_iff, List.getElem?_zip_eq_some] at he
  obtain ⟨_, ⟨_, ⟨_, ⟨⟨b, is, ss⟩, ⟨hb, ⟨ns, hns, rfl⟩, os, hos, rfl⟩, rfl⟩, rfl⟩, rfl⟩, rfl⟩ := he
  refine ⟨b, ns, os, hb, hns, hos, ?_⟩
  simp

theorem map_succs_assemble {ops : List (List Operation)} (hlen : t.blocks.length = ops.length) :
    (t.assemble ops).blocks.toList.map BasicBlock.succs = ops.map successorsOf := by
  simp only [assemble, Table.ofList, Table.toList, List.map_map, Function.comp_def]
  rw [map_fst_zipIdx fun e : BlockTree × List Inst × List Block => e.2.2]
  have hsnd : ∀ l : List (BlockTree × List Inst × List Block),
      (l.map fun e => e.2.2) = (l.map Prod.snd).map Prod.snd := fun l => by simp
  rw [hsnd, List.map_snd_zip, List.map_snd_zip]
  · simp [length_numbering]
  · simp [length_numbering, hlen]

theorem flatMap_insts_assemble {ops : List (List Operation)} (hlen : t.blocks.length = ops.length) :
    (t.assemble ops).blocks.toList.flatMap BasicBlock.insts =
      Handle.first ops.flatten.length := by
  rw [List.flatMap_def]
  simp only [assemble, Table.ofList, Table.toList, List.map_map, Function.comp_def]
  rw [map_fst_zipIdx fun e : BlockTree × List Inst × List Block => e.2.1]
  have hfst : ∀ l : List (BlockTree × List Inst × List Block),
      (l.map fun e => e.2.1) = (l.map Prod.snd).map Prod.fst := fun l => by simp
  rw [hfst, List.map_snd_zip, List.map_fst_zip, ← List.map_flatten, flatten_numbering,
    Handle.first, List.range_eq_range']
  · simp [length_numbering]
  · simp [length_numbering, hlen]

/-! ## The closed form -/

/-- The blocks have the operations that the scope gives them. -/
theorem exists_scope_of_operations (h : t.operations = .ok rows) :
    ∃ s, t.scope = .ok s ∧ List.Forall₂ (fun b ops => b.operations s = .ok ops) t.blocks rows := by
  obtain ⟨s, hs, hrows⟩ := bind_eq_ok.mp h
  exact ⟨s, hs, mapM_eq_ok.mp hrows⟩

theorem forall₂_rows (h : List.Forall₂ (fun b ops => b.operations s = .ok ops) t.blocks rows) :
    List.Forall₂ (fun b ops => List.Forall₂ (fun i op => s.operation i = .ok op) b.insts ops)
      t.blocks rows :=
  h.imp fun _ _ hops => (BlockTree.operations_eq_ok.mp hops).2

theorem forall₂_insts (h : List.Forall₂ (fun b ops => b.operations s = .ok ops) t.blocks rows) :
    List.Forall₂ (fun i op => s.operation i = .ok op) t.insts rows.flatten :=
  List.rel_flatten (List.forall₂_map_left_iff.mpr (forall₂_rows h))

theorem opened_of_ne_nil (hne : t.blocks ≠ []) :
    t.opened = .ofList (t.blocks.map fun b => { name := b.label }) := by
  rw [opened]
  split
  next h => exact absurd h hne
  next => rfl

theorem blocks_foldl_filled (hne : t.blocks ≠ [])
    (h : List.Forall₂ (fun b ops => b.operations s = .ok ops) t.blocks rows) :
    ((fillsFrom 0 0 rows).foldl Procedure.filled t.reserved).blocks = (t.assemble rows).blocks := by
  have hopened : t.reserved.blocks = .ofList (t.blocks.map fun b => { name := b.label }) :=
    opened_of_ne_nil hne
  have htargets : ∀ ops ∈ rows, ops.flatMap Operation.targets = successorsOf ops := by
    intro ops hops
    obtain ⟨b, -, hb⟩ := exists_left_of_mem h hops
    exact flatMap_targets_eq hb
  have hsize : (t.assemble rows).blocks.size = t.blocks.length := by
    simp [assemble, Table.ofList, Table.size, length_numbering, h.length_eq]
  refine Table.ext_get? ?_ fun c hc => ?_
  · rw [Procedure.size_blocks_foldl_filled, hopened, hsize]
    simp [Table.ofList, Table.size]
  · rw [Procedure.size_blocks_foldl_filled, hopened] at hc
    have hlt : c.index < (t.assemble rows).blocks.size := by
      rw [hsize]
      simpa [Table.ofList, Table.size] using hc
    obtain ⟨blk, hblk⟩ := Table.exists_get? hlt
    have he : (t.assemble rows).blocks.entries[c.index]? = some (c, blk) := by
      rw [Table.getElem?_entries, hblk]
      rfl
    obtain ⟨b, ns, ops, hb, hns, hops, heq⟩ := getElem?_entries_assemble he
    cases heq
    have hget : t.reserved.blocks.get? c = some { name := b.label } := by
      simp [hopened, Table.ofList, Table.get?, hb]
    obtain ⟨m, hfilter, rfl⟩ := filter_fillsFrom (k := 0) hns hops
    rw [Nat.zero_add] at hfilter
    have hfilter : (fillsFrom 0 0 rows).filter (·.block = c) = rowFills c m ops := hfilter
    have hsuccs : (rowFills c m ops).flatMap (·.op.targets) = successorsOf ops := by
      rw [flatMap_targets_rowFills, htargets ops (List.mem_of_getElem? hops)]
    rw [hblk, Procedure.get?_blocks_foldl_filled, hget, Option.map_some, BasicBlock.filled, hfilter,
      map_inst_rowFills, hsuccs, flatMap_preds_fillsFrom htargets]
    rfl

theorem insts_foldl_filled
    (h : List.Forall₂ (fun b ops => b.operations s = .ok ops) t.blocks rows) :
    ((fillsFrom 0 0 rows).foldl Procedure.filled t.reserved).insts = (t.assemble rows).insts := by
  have hlen : t.insts.length = rows.flatten.length := (forall₂_insts h).length_eq
  have hnodup : ((fillsFrom 0 0 rows).map Fill.inst).Nodup := by
    rw [map_inst_fillsFrom]
    exact (List.nodup_range' 1).map fun _ _ => Handle.mk.inj
  refine Table.ext_get? ?_ fun i hi => ?_
  · rw [Procedure.size_insts_foldl_filled]
    simp [reserved, assemble, Table.ofList, Table.size, hlen]
  · rw [Procedure.size_insts_foldl_filled] at hi
    obtain ⟨it, hit⟩ : ∃ it, t.insts[i.index]? = some it :=
      ⟨_, List.getElem?_eq_getElem (by simpa [reserved, Table.ofList, Table.size] using hi)⟩
    obtain ⟨op, hop⟩ : ∃ op, rows.flatten[i.index]? = some op :=
      ⟨_, List.getElem?_eq_getElem (hlen ▸ (List.getElem?_eq_some_iff.mp hit).1)⟩
    obtain ⟨f, hf, rfl⟩ : ∃ f, (fillsFrom 0 0 rows)[i.index]? = some f ∧ f.op = op := by
      rwa [← map_op_fillsFrom (k := 0) (n := 0), List.getElem?_map, Option.map_eq_some_iff] at hop
    have hinst : f.inst = i := by
      rw [inst_of_getElem? hf, Nat.zero_add]
    have hreserved : t.reserved.insts.get? i = some (Lowering.reserved it) := by
      simp [reserved, Table.ofList, Table.get?, hit]
    have hzip : (t.insts.zip rows.flatten)[i.index]? = some (it, f.op) :=
      List.getElem?_zip_eq_some.mpr ⟨hit, hop⟩
    have hassemble : (t.assemble rows).insts.get? i = some ⟨it.result, f.op⟩ := by
      simp only [assemble, Table.ofList, Table.get?, List.getElem?_toArray, List.getElem?_map, hzip]
      rfl
    rw [hassemble]
    subst hinst
    rw [Procedure.get?_insts_foldl_filled hnodup (List.mem_of_getElem? hf), hreserved]
    rfl

/-- The passes leave the closed form. -/
theorem lower_eq_assemble (hne : t.blocks ≠ []) : t.lower = t.assemble <$> t.operations := by
  rw [lower_eq]
  cases hrows : t.operations with
  | error e => rfl
  | ok rows =>
    obtain ⟨s, -, h⟩ := exists_scope_of_operations hrows
    have hplaced : ((fillsFrom 0 0 rows).foldl Procedure.filled t.reserved).placed =
        (t.assemble rows).placed := by
      rw [Procedure.placed_foldl_filled, foldl_insert_fillsFrom]
      rfl
    refine congrArg Except.ok ?_
    show (fillsFrom 0 0 rows).foldl Procedure.filled t.reserved = t.assemble rows
    rw [Procedure.foldl_filled_eq, blocks_foldl_filled hne h, insts_foldl_filled h, hplaced]
    rfl

/-! ## Parts of a procedure -/

/-- What becomes of a block. -/
structure LoweredBlock (s : Scope) (p : Procedure) (b : BlockTree) (e : Block × BasicBlock) :
    Prop where
  name : e.2.name = b.label
  insts : List.Forall₂ (fun h i => ∃ op, p.insts.get? h = some ⟨i.result, op⟩ ∧
    s.operation i = .ok op) e.2.insts b.insts
  succs : ∃ ops, b.operations s = .ok ops ∧ e.2.succs = successorsOf ops
  preds : e.2.preds = FlowGraph.predsFrom (p.blocks.toList.map BasicBlock.succs) e.1

/-- What becomes of a tree. -/
structure Lowered (t : ProcTree) (s : Scope) (p : Procedure) : Prop where
  scope : t.scope = .ok s
  name : p.name = t.name
  args : p.args = .ofList t.args
  entry : p.entry = ⟨0⟩
  insts : List.Forall₂ (fun i d => d.name = i.result ∧ s.operation i = .ok d.op) t.insts
    p.insts.toList
  blocks : List.Forall₂ (LoweredBlock s p) t.blocks p.blocks.entries
  listed : p.blocks.toList.flatMap BasicBlock.insts = Handle.first p.insts.size

theorem lowered_of_lower (hne : t.blocks ≠ []) (h : t.lower = .ok p) : ∃ s, t.Lowered s p := by
  rw [lower_eq_assemble hne, map_eq_ok] at h
  obtain ⟨ops, hops, rfl⟩ := h
  obtain ⟨s, hs, hops⟩ := exists_scope_of_operations hops
  have hflat := forall₂_insts hops
  have hinsts : (t.assemble ops).insts.toList =
      (t.insts.zip ops.flatten).map fun e => ⟨e.1.result, e.2⟩ := rfl
  have hsize : (t.assemble ops).insts.size = ops.flatten.length := by
    have hlen := congrArg List.length hinsts
    rwa [List.length_map, List.length_zip, hflat.length_eq, Nat.min_self] at hlen
  refine ⟨s, hs, rfl, rfl, rfl, ?_, ?_, ?_⟩
  · rw [hinsts, List.forall₂_map_right_iff]
    exact (forall₂_zip_self hflat).imp fun i e he => ⟨he.1 ▸ rfl, he.2⟩
  · refine List.forall₂_iff_zip.mpr ⟨?_, fun {b e} hbe => ?_⟩
    · simp [Table.entries, assemble, Table.ofList, Table.toList, length_numbering, hops.length_eq]
    · obtain ⟨n, hn⟩ := List.mem_iff_getElem?.mp hbe
      obtain ⟨hb, he⟩ := List.getElem?_zip_eq_some.mp hn
      obtain ⟨b', ns, os, hb', hns, hos, rfl⟩ := getElem?_entries_assemble he
      obtain rfl : b = b' := Option.some.inj (hb.symm.trans hb')
      have hos := forall₂_getElem? hops hb hos
      refine ⟨rfl, ?_, ⟨os, hos, rfl⟩, ?_⟩
      · have hns := forall₂_getElem? (forall₂_numbering (forall₂_rows hops) []) hns hb
        refine List.forall₂_map_left_iff.mpr (hns.imp ?_)
        rintro n i ⟨op, hop, hi⟩
        refine ⟨op, ?_, hi⟩
        have hget : ((t.insts.zip ops.flatten).map fun e => (⟨e.1.result, e.2⟩ : Instruction))[n]? =
            some ⟨i.result, op⟩ := by
          rw [List.getElem?_map]
          exact congrArg _ hop
        simpa [Table.get?, assemble, Table.ofList] using hget
      · rw [map_succs_assemble hops.length_eq]
  · rw [hsize, flatMap_insts_assemble hops.length_eq]

/-! ## Placement -/

theorem get?_foldl_insert {is : List Inst} {m : HandleMap .inst Block} {b : Block} {i : Inst} :
    (is.foldl (·.insert · b) m).get? i = if i ∈ is then some b else m.get? i := by
  induction is generalizing m with
  | nil => simp
  | cons j is ih =>
    rw [List.foldl_cons, ih, HandleMap.get?_insert]
    by_cases hi : i ∈ is
    · simp [hi]
    · simp [hi, List.mem_cons]

/-- Rows of instructions are placed one after the other, the first in block `k`. -/
theorem get?_foldl_rows {rows : List (List Inst)} {k : Nat} {m : HandleMap .inst Block} {i : Inst} :
    (i ∉ rows.flatten →
      ((rows.zipIdx k).foldl (fun m e => e.1.foldl (·.insert · ⟨e.2⟩) m) m).get? i = m.get? i) ∧
    (rows.flatten.Nodup → ∀ n is, rows[n]? = some is → i ∈ is →
      ((rows.zipIdx k).foldl (fun m e => e.1.foldl (·.insert · ⟨e.2⟩) m) m).get? i =
        some ⟨k + n⟩) := by
  induction rows generalizing k m with
  | nil => exact ⟨fun _ => rfl, fun _ n is hn => absurd hn (by simp)⟩
  | cons row rows ih =>
    rw [List.zipIdx_cons, List.foldl_cons]
    obtain ⟨hother, hrow⟩ := @ih (k + 1) (row.foldl (·.insert · ⟨k⟩) m)
    constructor
    · intro hi
      rw [List.flatten_cons, List.mem_append, not_or] at hi
      rw [hother hi.2, get?_foldl_insert, if_neg hi.1]
    · intro hnodup n is hn hi
      rw [List.flatten_cons, List.nodup_append] at hnodup
      cases n with
      | zero =>
        obtain rfl : row = is := by simpa using hn
        have hnot : i ∉ rows.flatten := fun hmem => hnodup.2.2 i hi i hmem rfl
        rw [hother hnot, get?_foldl_insert, if_pos hi, Nat.add_zero]
      | succ n =>
        rw [hrow hnodup.2.1 n is (by simpa using hn) hi, Nat.add_right_comm, Nat.add_assoc]

/-- An instruction is placed where it is listed. -/
theorem blockOf_of_lower (hne : t.blocks ≠ []) (h : t.lower = .ok p) {b : Block} {blk : BasicBlock}
    (hb : p.blocks.get? b = some blk) {i : Inst} (hi : i ∈ blk.insts) : p.blockOf i = b := by
  rw [lower_eq_assemble hne, map_eq_ok] at h
  obtain ⟨ops, -, rfl⟩ := h
  have he : (t.assemble ops).blocks.entries[b.index]? = some (b, blk) := by
    rw [Table.getElem?_entries, hb]
    rfl
  obtain ⟨_, ns, _, -, hns, -, heq⟩ := getElem?_entries_assemble he
  cases heq
  have hnodup : ((numbering 0 (ops.map List.length)).map fun ns =>
      (ns.map Handle.mk : List Inst)).flatten.Nodup := by
    rw [← List.map_flatten, flatten_numbering]
    exact (List.nodup_range' 1).map fun _ _ => Handle.mk.inj
  have hplaced := (get?_foldl_rows (k := 0) (m := .empty) (i := i)).2 hnodup b.index _
    (by rw [List.getElem?_map, hns]; rfl) hi
  rw [Nat.zero_add] at hplaced
  show ((t.assemble ops).placed.get? i).getD _ = b
  rw [show (t.assemble ops).placed.get? i = some b from hplaced]
  rfl

end ProcTree

end SsaFlow
