import SsaFlow.Proofs.BlockOrders
import SsaFlow.Proofs.Building

/-!
# Edges rebuilt from terminators

A row of edges is a block with the blocks it leads to.  Adding row after row has one
closed form (`Procedure.joined`): a block gets its own row as successors, and one
predecessor for each time that a row names it, row by row.

Rebuilding drops all edges and adds one row per block in layout order, so what it leaves
depends on the terminators alone (`Procedure.reconnected`).  It changes nothing in a
procedure whose edges are these already (`Procedure.reconnected_eq_self`), so not when
done again.
-/

namespace SsaFlow

/-! ## Rows of edges -/

/-- One entry per edge to `c`, in the order of the rows. -/
def edgesInto (rows : List (Block × List Block)) (c : Block) : List Block :=
  rows.flatMap fun r => List.replicate (r.2.count c) r.1

/-- The blocks that `c` leads to, in the order of the rows. -/
def edgesFrom (rows : List (Block × List Block)) (c : Block) : List Block :=
  rows.flatMap fun r => if c = r.1 then r.2 else []

/-- A block that is in one row leads where that row says. -/
theorem edgesFrom_of_mem {rows : List (Block × List Block)} {c : Block} {ts : List Block}
    (hnodup : (rows.map Prod.fst).Nodup) (hmem : (c, ts) ∈ rows) : edgesFrom rows c = ts := by
  induction rows with
  | nil => cases hmem
  | cons r rows ih =>
    rw [List.map_cons, List.nodup_cons] at hnodup
    rw [edgesFrom, List.flatMap_cons]
    cases hmem with
    | head =>
      have hrest : edgesFrom rows c = [] := by
        refine List.flatMap_eq_nil_iff.mpr fun r hr => if_neg ?_
        intro heq
        exact hnodup.1 (List.mem_map.mpr ⟨r, hr, heq.symm⟩)
      rw [if_pos rfl]
      exact (congrArg (ts ++ ·) hrest).trans (List.append_nil ts)
    | tail _ hmem =>
      have hne : c ≠ r.1 := fun heq => hnodup.1 (heq ▸ List.mem_map_of_mem hmem)
      rw [if_neg hne]
      exact ih hnodup.2 hmem

/-- An edge is counted at both of its ends. -/
theorem count_edgesInto (rows : List (Block × List Block)) (s c : Block) :
    (edgesInto rows c).count s = (edgesFrom rows s).count c := by
  induction rows with
  | nil => rfl
  | cons r rows ih =>
    rw [edgesInto, edgesFrom] at ih
    rw [edgesInto, edgesFrom, List.flatMap_cons, List.flatMap_cons, List.count_append,
      List.count_append, ih, List.count_replicate]
    by_cases hs : s = r.1
    · simp [hs]
    · simp [hs, Ne.symm hs]

/-- A block `c` with the edges of all rows added. -/
def BasicBlock.joined (rows : List (Block × List Block)) (c : Block) (blk : BasicBlock) :
    BasicBlock :=
  { blk with
    succs := blk.succs ++ edgesFrom rows c
    preds := blk.preds ++ edgesInto rows c }

theorem BasicBlock.joined_cons {r : Block × List Block} {rows : List (Block × List Block)}
    {c : Block} (blk : BasicBlock) :
    (blk.linked r.1 r.2 c).joined rows c = blk.joined (r :: rows) c := by
  by_cases hc : c = r.1
  · simp [joined, linked, edgesFrom, edgesInto, hc]
  · simp [joined, linked, edgesFrom, edgesInto, hc]

namespace Procedure

/-- The procedure with the edges of all rows added. -/
def joined (p : Procedure) (rows : List (Block × List Block)) : Procedure :=
  { p with blocks := .ofList (p.blocks.entries.map fun e => e.2.joined rows e.1) }

variable {p : Procedure} {b c : Block} {blk : BasicBlock} {rows : List (Block × List Block)}

@[simp] theorem size_blocks_joined : (p.joined rows).blocks.size = p.blocks.size :=
  Table.size_ofList_entries _

theorem get?_blocks_joined :
    (p.joined rows).blocks.get? c = (p.blocks.get? c).map (BasicBlock.joined rows c) :=
  Table.get?_ofList_entries _

theorem joined_nil : p.joined [] = p := by
  refine eq_of_blocks rfl size_blocks_joined fun c => ?_
  rw [get?_blocks_joined]
  cases p.blocks.get? c with
  | none => rfl
  | some blk => simp [BasicBlock.joined, edgesFrom, edgesInto]

theorem joined_cons {r : Block × List Block} :
    (p.linked r.1 r.2).joined rows = p.joined (r :: rows) := by
  refine eq_of_blocks rfl (by simp) fun c => ?_
  rw [get?_blocks_joined, get?_blocks_joined, get?_blocks_linked, Option.map_map]
  exact congrArg (Option.map · _) (funext BasicBlock.joined_cons)

end Procedure

/-- Rows of edges between existing blocks can be added one after the other. -/
theorem Build.addRows_yields {p : Procedure} {rows : List (Block × List Block)}
    (hrows : ∀ r ∈ rows, r.1.index < p.blocks.size ∧ ∀ t ∈ r.2, t.index < p.blocks.size) :
    Yields ((rows.flatMap fun r => r.2.map (r.1, ·)).forM fun e => addEdge e.1 e.2) p ()
      (p.joined rows) := by
  induction rows generalizing p with
  | nil =>
    rw [Procedure.joined_nil]
    exact yields_pure.mpr ⟨rfl, rfl⟩
  | cons r rows ih =>
    obtain ⟨⟨hb, hts⟩, hrest⟩ := List.forall_mem_cons.mp hrows
    rw [List.flatMap_cons, List.forM_eq_forM, List.forM_append, yields_bind]
    refine ⟨(), p.linked r.1 r.2, ?_, ?_⟩
    · rw [List.forM_map]
      exact addEdges_yields hb hts
    · rw [← Procedure.joined_cons]
      exact ih (by simpa using hrest)

/-! ## Rebuilding -/

namespace Procedure

/-- The blocks that a block leads to by its last instruction, none if that is no terminator. -/
def exits (p : Procedure) (blk : BasicBlock) : List Block :=
  ((blk.insts.getLast?.bind p.terminatorAt?).map Terminator.successors).getD []

/-- The blocks in layout order, each with its exits. -/
def exitRows (p : Procedure) : List (Block × List Block) :=
  p.blocks.entries.map fun e => (e.1, p.exits e.2)

/-- The procedure with the edges of its last instructions and no others. -/
def reconnected (p : Procedure) : Procedure :=
  { p with blocks := .ofList (p.blocks.entries.map fun e =>
      { e.2 with succs := p.exits e.2, preds := edgesInto p.exitRows e.1 }) }

/-- The procedure without edges. -/
def unlinked (p : Procedure) : Procedure :=
  { p with blocks := p.blocks.map fun blk => { blk with succs := [], preds := [] } }

variable {p : Procedure} {b c : Block} {blk : BasicBlock}

theorem get?_blocks_reconnected :
    p.reconnected.blocks.get? c = (p.blocks.get? c).map fun blk =>
      { blk with succs := p.exits blk, preds := edgesInto p.exitRows c } :=
  Table.get?_ofList_entries _

theorem get?_blocks_unlinked :
    p.unlinked.blocks.get? c = (p.blocks.get? c).map fun blk =>
      { blk with succs := [], preds := [] } :=
  Table.get?_map _

theorem exitRows_unlinked : p.unlinked.exitRows = p.exitRows := by
  simp only [exitRows, Table.entries, unlinked, Table.toList_map, List.zipIdx_map, List.map_map]
  rfl

theorem map_fst_exitRows : p.exitRows.map Prod.fst = p.blocks.handles := by
  rw [exitRows, List.map_map, ← Table.map_fst_entries]
  rfl

theorem edgesFrom_exitRows (hb : p.blocks.get? b = some blk) :
    edgesFrom p.exitRows b = p.exits blk := by
  apply edgesFrom_of_mem
  · rw [map_fst_exitRows]
    exact Handle.nodup_first .block p.blocks.size
  · exact List.mem_map.mpr ⟨(b, blk), Table.mem_entries.mpr hb, rfl⟩

/-- Adding the edges of all last instructions to none gives these edges. -/
theorem joined_unlinked : p.unlinked.joined p.exitRows = p.reconnected := by
  refine eq_of_blocks rfl ?_ fun c => ?_
  · rw [size_blocks_joined, unlinked, Table.size_map]
    exact (Table.size_ofList_entries _).symm
  · rw [get?_blocks_joined, get?_blocks_unlinked, get?_blocks_reconnected]
    cases hc : p.blocks.get? c with
    | none => rfl
    | some blk => simp [BasicBlock.joined, edgesFrom_exitRows hc]

/-- Edges that are those of the last instructions, in layout order, are rebuilt as they were. -/
theorem reconnected_eq_self (hsuccs : ∀ {b blk}, p.blocks.get? b = some blk →
      blk.succs = p.exits blk)
    (hpreds : ∀ {b blk}, p.blocks.get? b = some blk → blk.preds =
      edgesInto (p.blocks.entries.map fun e => (e.1, e.2.succs)) b) :
    p.reconnected = p := by
  have hrows : p.exitRows = p.blocks.entries.map fun e => (e.1, e.2.succs) :=
    List.map_congr_left fun e he => by rw [hsuccs (Table.mem_entries.mp he)]
  refine eq_of_blocks rfl (Table.size_ofList_entries _) fun c => ?_
  rw [get?_blocks_reconnected]
  cases hc : p.blocks.get? c with
  | none => rfl
  | some blk =>
    rw [Option.map_some, hrows, ← hsuccs hc, ← hpreds hc]

theorem terminator_ok (hb : p.blocks.get? b = some blk)
    (hlast : ∀ i ∈ blk.insts.getLast?, i.index < p.insts.size) :
    p.terminator b = .ok (blk.insts.getLast?.bind p.terminatorAt?) := by
  rw [terminator, bind_eq_ok]
  refine ⟨blk, Table.read_eq_ok.mpr hb, ?_⟩
  cases hi : blk.insts.getLast? with
  | none => rfl
  | some i =>
    obtain ⟨d, hd⟩ := Table.exists_get? (hlast i hi)
    refine bind_eq_ok.mpr ⟨d, Table.read_eq_ok.mpr hd, ?_⟩
    rw [Option.bind_some, terminatorAt?, hd]
    rfl

end Procedure

theorem mapM_yields {ε σ α β : Type} {f : α → ExceptT ε (StateM σ) β} {g : α → β} {s : σ}
    {xs : List α} (h : ∀ x ∈ xs, Yields (f x) s (g x) s) : Yields (xs.mapM f) s (xs.map g) s := by
  induction xs with
  | nil => exact yields_pure.mpr ⟨rfl, rfl⟩
  | cons x xs ih =>
    obtain ⟨hx, hxs⟩ := List.forall_mem_cons.mp h
    rw [List.mapM_cons, yields_bind]
    refine ⟨g x, s, hx, yields_bind.mpr ⟨xs.map g, s, ih hxs, ?_⟩⟩
    exact yields_pure.mpr ⟨rfl, rfl⟩

namespace Procedure

/-- Last instructions are allocated and lead to existing blocks.  The edges may be anything. -/
def Rebuildable (p : Procedure) : Prop :=
  ∀ e ∈ p.blocks.entries, (∀ i ∈ e.2.insts.getLast?, i.index < p.insts.size) ∧
    ∀ t ∈ p.exits e.2, t.index < p.blocks.size

instance decidableRebuildable {p : Procedure} : Decidable p.Rebuildable :=
  inferInstanceAs (Decidable (∀ e ∈ p.blocks.entries,
    (∀ i ∈ e.2.insts.getLast?, i.index < p.insts.size) ∧
      ∀ t ∈ p.exits e.2, t.index < p.blocks.size))

/-- Successors are those of the last instruction in their order.  Predecessors come in layout
order, one for each time that a block leads here.  All else is as it was. -/
structure Rebuilt (p q : Procedure) : Prop where
  rest : q = { p with blocks := q.blocks }
  size : q.blocks.size = p.blocks.size
  block : ∀ b blk, p.blocks.get? b = some blk → q.blocks.get? b = some
    { blk with
      succs := p.exits blk
      preds := edgesInto (q.blocks.entries.map fun e => (e.1, e.2.succs)) b }

end Procedure

/-- Whatever edges there were, rebuilding them leaves those of the last instructions. -/
theorem Build.recomputeEdges_yields {p : Procedure}
    (hlast : ∀ {b blk}, p.blocks.get? b = some blk →
      ∀ i ∈ blk.insts.getLast?, i.index < p.insts.size)
    (hexits : ∀ {b blk}, p.blocks.get? b = some blk →
      ∀ t ∈ p.exits blk, t.index < p.blocks.size) :
    Yields recomputeEdges p () p.reconnected := by
  have hsize : p.unlinked.blocks.size = p.blocks.size := Table.size_map _
  rw [recomputeEdges, yields_bind]
  refine ⟨(), p.unlinked, rfl, ?_⟩
  rw [yields_bind]
  refine ⟨p.unlinked, p.unlinked, yields_get.mpr ⟨rfl, rfl⟩, ?_⟩
  rw [yields_bind]
  refine ⟨p.exitRows.map fun r => r.2.map (r.1, ·), p.unlinked, ?_, ?_⟩
  · rw [← Table.map_fst_entries, List.mapM_map, ← Procedure.exitRows_unlinked, Procedure.exitRows,
      List.map_map]
    refine mapM_yields fun e he => ?_
    obtain ⟨blk, hblk, hclear⟩ := Option.map_eq_some_iff.mp
      (Procedure.get?_blocks_unlinked.symm.trans (Table.mem_entries.mp he))
    have hlt := hlast hblk
    have hterm : p.unlinked.terminator e.1 = .ok (e.2.insts.getLast?.bind p.terminatorAt?) := by
      apply Procedure.terminator_ok (Table.mem_entries.mp he)
      rw [← hclear]
      exact hlt
    rw [Function.comp_apply, yields_bind]
    refine ⟨_, p.unlinked, yields_lift.mpr ⟨hterm, rfl⟩, ?_⟩
    exact yields_pure.mpr ⟨rfl, rfl⟩
  · rw [← List.flatMap_def, ← Procedure.joined_unlinked]
    apply addRows_yields
    intro r hr
    obtain ⟨⟨b, blk⟩, he, rfl⟩ := List.mem_map.mp hr
    have hb := Table.mem_entries.mp he
    rw [hsize]
    exact ⟨Table.lt_size hb, hexits hb⟩

namespace Procedure

variable {p : Procedure}

theorem size_blocks_reconnected : p.reconnected.blocks.size = p.blocks.size :=
  Table.size_ofList_entries _

theorem exits_reconnected {blk : BasicBlock} : p.reconnected.exits blk = p.exits blk := rfl

theorem map_succs_reconnected :
    p.reconnected.blocks.entries.map (fun e => (e.1, e.2.succs)) = p.exitRows := by
  refine List.ext_getElem? fun n => ?_
  rw [exitRows, List.getElem?_map, List.getElem?_map, Table.getElem?_entries,
    Table.getElem?_entries, get?_blocks_reconnected]
  cases p.blocks.get? ⟨n⟩ with
  | none => rfl
  | some blk => rfl

theorem rebuilt_reconnected : p.Rebuilt p.reconnected where
  rest := rfl
  size := size_blocks_reconnected
  block b blk hb := by
    rw [get?_blocks_reconnected, hb, map_succs_reconnected, Option.map_some]

theorem reconnected_reconnected : p.reconnected.reconnected = p.reconnected := by
  apply reconnected_eq_self
  · intro b blk hb
    rw [get?_blocks_reconnected, Option.map_eq_some_iff] at hb
    obtain ⟨old, -, rfl⟩ := hb
    exact exits_reconnected.symm
  · intro b blk hb
    rw [get?_blocks_reconnected, Option.map_eq_some_iff] at hb
    obtain ⟨old, -, rfl⟩ := hb
    rw [map_succs_reconnected]

theorem Rebuildable.reconnected (h : p.Rebuildable) : p.reconnected.Rebuildable := by
  intro e he
  have hget := Table.mem_entries.mp he
  rw [get?_blocks_reconnected, Option.map_eq_some_iff] at hget
  obtain ⟨blk, hblk, heq⟩ := hget
  rw [← heq, size_blocks_reconnected]
  exact h (e.1, blk) (Table.mem_entries.mpr hblk)

theorem Rebuildable.yields (h : p.Rebuildable) :
    Yields Build.recomputeEdges p () p.reconnected :=
  Build.recomputeEdges_yields (fun hb => (h _ (Table.mem_entries.mpr hb)).1)
    fun hb => (h _ (Table.mem_entries.mpr hb)).2

end Procedure

end SsaFlow
