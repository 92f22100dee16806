import SsaFlow.Proofs.Building
import SsaFlow.Proofs.GrowingSets
import SsaFlow.Proofs.LoopFree
import SsaFlow.Proofs.ResolvedGraphs
import SsaFlow.Recipe

/-!
# Every recipe makes a procedure that can be analysed

A recipe says which instructions are added, in which order, to which blocks, and what
they read.  `Recipe.log` writes that down without building anything: the values at hand
for an instruction are the arguments and the results before it.  The bytes of a recipe
are taken modulo what they choose from, so every block and every value that a building
call names is there, and no call faults.

`Recipe.Draft` says how far the procedure has come with its log.  One call takes it one
step on (`Draft.grown`), and so the loops that add the phis, the other instructions and
the terminators take it to the end.

Nothing dangles in the graph of a coherent procedure whose instructions read values that
are there.  So it can be analysed, and the result passes its own check.
-/

namespace SsaFlow

/-! ## Loops that succeed -/

section

variable {σ β ε : Type} {s : σ}

/-- A loop over numbers succeeds if each round does, and comes to what holds at the last number. -/
theorem forM_range'_yields {P : Nat → σ → Prop} {f : Nat → ExceptT ε (StateM σ) Unit} {k n m : Nat}
    (hm : k + n = m) (hstep : ∀ i s, i < m → P i s → ∃ s', Yields (f i) s () s' ∧ P (i + 1) s')
    (h : P k s) : ∃ s', Yields ((List.range' k n).forM f) s () s' ∧ P m s' := by
  induction n generalizing k s with
  | zero =>
    obtain rfl : k = m := hm
    exact ⟨s, yields_pure.mpr ⟨rfl, rfl⟩, h⟩
  | succ n ih =>
    obtain ⟨u, hu, hP⟩ := hstep k s (by omega) h
    obtain ⟨s', hs', hP'⟩ := ih (by omega) hP
    rw [List.range'_succ, List.forM_eq_forM, List.forM_cons]
    exact ⟨s', yields_bind.mpr ⟨(), u, hu, hs'⟩, hP'⟩

/-- The same with a result of each round. -/
theorem mapM_range'_yields {P : Nat → σ → Prop} {f : Nat → ExceptT ε (StateM σ) β} {v : Nat → β}
    {k n m : Nat} (hm : k + n = m)
    (hstep : ∀ i s, i < m → P i s → ∃ s', Yields (f i) s (v i) s' ∧ P (i + 1) s') (h : P k s) :
    ∃ s', Yields ((List.range' k n).mapM f) s ((List.range' k n).map v) s' ∧ P m s' := by
  induction n generalizing k s with
  | zero =>
    obtain rfl : k = m := hm
    exact ⟨s, yields_pure.mpr ⟨rfl, rfl⟩, h⟩
  | succ n ih =>
    obtain ⟨u, hu, hP⟩ := hstep k s (by omega) h
    obtain ⟨s', hs', hP'⟩ := ih (by omega) hP
    rw [List.range'_succ, List.mapM_cons]
    refine ⟨s', ?_, hP'⟩
    exact yields_bind.mpr ⟨v k, u, hu, yields_bind.mpr ⟨_, s', hs', yields_pure.mpr ⟨rfl, rfl⟩⟩⟩

end

/-! ## The graphs of coherent procedures -/

namespace Procedure

/-- The value is a constant, an argument or an allocated instruction. -/
def Holds (p : Procedure) : Value → Prop
  | .const _ => True
  | .arg a => a.index < p.args.size
  | .inst i => i.index < p.insts.size

/-- All values that allocated instructions read are there. -/
def ReadsHeld (p : Procedure) : Prop :=
  ∀ i d, p.insts.get? i = some d → ∀ v ∈ d.op.operands ++ d.op.incoming.map Prod.fst, p.Holds v

namespace Coherent

variable {p : Procedure}

theorem mem_listed_graph (h : p.Coherent) {i : Inst} :
    i ∈ p.graph.listed ↔ i.index < p.insts.size := by
  rw [FlowGraph.mem_listed]
  constructor
  · rintro ⟨b, n, hn, hi⟩
    obtain ⟨blk, hblk, rfl⟩ := get?_nodes_graph.mp hn
    exact (h.of_mem hblk hi).1
  · intro hi
    obtain ⟨blk, hblk⟩ := Table.exists_get? (h.placed hi)
    have hcount : blk.insts.count i = 1 := by rw [h.listed hblk, if_pos ⟨hi, rfl⟩]
    have hmem : i ∈ blk.insts := List.count_pos_iff.mp (by omega)
    exact ⟨_, _, get?_nodes_graph.mpr ⟨blk, hblk, rfl⟩, hmem⟩

theorem resolved_graph (h : p.Coherent) (hentry : p.entry.index < p.blocks.size)
    (hreads : p.ReadsHeld) : p.graph.Resolved where
  inRange := by
    have hsize : p.graph.numBlocks = p.blocks.size := Table.size_map _
    refine ⟨fun _ => hsize ▸ hentry, ?_, ?_⟩
    · intro b n hn a ha
      obtain ⟨blk, hblk, rfl⟩ := get?_nodes_graph.mp hn
      exact hsize ▸ h.inRange hblk a (List.mem_append_left _ ha)
    · intro b n hn a ha
      obtain ⟨blk, hblk, rfl⟩ := get?_nodes_graph.mp hn
      exact hsize ▸ h.inRange hblk a (List.mem_append_right _ ha)
  facts := Table.size_map _
  listed i hi := h.mem_listed_graph.mp hi
  sought i hi facts hfacts v hv := by
    rw [graph, Table.get?_map, Option.map_eq_some_iff] at hfacts
    obtain ⟨d, hd, rfl⟩ := hfacts
    have hheld := hreads i d hd v (Domain.mem_of_mem_sought hv)
    cases v with
    | const k => trivial
    | arg a => exact hheld
    | inst j => exact ⟨hheld, fun _ _ _ => h.mem_listed_graph.mpr hheld⟩

theorem mem_succs_iff (h : p.Coherent) {b c : Block} {blk cblk : BasicBlock}
    (hb : p.blocks.get? b = some blk) (hc : p.blocks.get? c = some cblk) :
    c ∈ blk.succs ↔ b ∈ cblk.preds := by
  rw [← List.count_pos_iff, ← List.count_pos_iff, h.mirrored hb hc]

theorem mirrored_graph (h : p.Coherent) : p.graph.Mirrored .backward := by
  intro a m b n hm hn hab
  obtain ⟨ablk, hablk, rfl⟩ := get?_nodes_graph.mp hm
  obtain ⟨bblk, hbblk, rfl⟩ := get?_nodes_graph.mp hn
  exact (h.mem_succs_iff hbblk hablk).mp hab

theorem nodup_listed_graph (h : p.Coherent) : p.graph.listed.Nodup := by
  have hlisted : p.graph.listed = p.blocks.entries.flatMap fun e => e.2.insts := by
    rw [FlowGraph.listed, graph, Table.toList_map, List.flatMap_map, ← Table.map_snd_entries,
      List.flatMap_map]
  have hhandles : (p.blocks.entries.map Prod.fst).Nodup := by
    rw [Table.map_fst_entries]
    exact Handle.nodup_first .block p.blocks.size
  rw [hlisted, List.nodup_flatMap]
  constructor
  · rintro ⟨b, blk⟩ he
    refine List.nodup_iff_count_le_one.mpr fun i => ?_
    rw [h.listed (Table.mem_entries.mp he)]
    split
    next => exact Nat.le_refl 1
    next => exact Nat.zero_le 1
  · -- an instruction of two lists would have been placed last in two blocks
    refine (List.pairwise_map.mp hhandles).imp_of_mem ?_
    rintro ⟨b, blk⟩ ⟨c, cblk⟩ hb hc hne i hi hi'
    exact hne ((h.of_mem (Table.mem_entries.mp hb) hi).2.symm.trans
      (h.of_mem (Table.mem_entries.mp hc) hi').2)

end Coherent

end Procedure

/-! ## Visits -/

/-- The visits to a block that a result counts. -/
theorem Liveness.visits_le {g : FlowGraph} {l : Liveness} (hg : g.InRange)
    (hl : analyze g = .ok l) {b : Block} {n : Node} (hn : g.nodes.get? b = some n)
    (hsuccs : ∀ s m, g.nodes.get? s = some m → b ∈ m.preds → s ∈ n.succs) :
    ∃ v, l.solution.visits.get? b = some v ∧ v ≤ 1 + n.succs.length * l.domain.size := by
  obtain ⟨r, s, calls, o, t, hacc, hrising, hends, hall⟩ :=
    (Domain.liveness_bounded (d := l.domain) hg).solve_ends hg
      (Domain.liveness_ascending.rising_start Domain.ready_empty)
  have hrun : (o, t) = (.ok l.solution, l.tables) :=
    (hall _ (Nat.le_refl _)).1.symm.trans (solve_of_analyze hl).2
  have hsolution : ∀ sol, o = .ok sol → r.solution = sol := by
    rintro sol rfl
    cases hends
    rfl
  obtain ⟨v, hv, -, -, hle⟩ := Domain.liveness_visits hg hacc hrising hn
  rw [hsolution _ (congrArg Prod.fst hrun)] at hv
  refine ⟨v, hv, ?_⟩
  rw [Nat.mul_comm]
  exact hle hsuccs

/-! ## Logs -/

/-- To keep items with their places is to keep the items. -/
theorem map_filter_zipIdx {α β : Type} (xs : List α) (q : α → Bool) (f : α → β) :
    (xs.zipIdx.filter fun e => q e.1).map (fun e => f e.1) = (xs.filter q).map f := by
  have hxs : xs.zipIdx.map Prod.fst = xs := List.zipIdx_map_fst 0 xs
  conv_rhs => rw [← hxs, List.filter_map, List.map_map]
  rfl

/-- Items that are all mapped to the same are so many copies of it. -/
theorem map_filter_filter {α β : Type} {q q' : α → Bool} {f : α → β} {c : β}
    (h : ∀ a, q a = true → f a = c) (xs : List α) :
    ((xs.filter q).filter q').map f = List.replicate (xs.countP fun a => q a && q' a) c := by
  rw [List.filter_filter, List.eq_replicate_iff, List.length_map, List.countP_eq_length_filter]
  refine ⟨?_, fun y hy => ?_⟩
  · simp only [Bool.and_comm]
  · obtain ⟨a, ha, rfl⟩ := List.mem_map.mp hy
    exact h a (Bool.and_eq_true_iff.mp (List.mem_filter.mp ha).2).2

namespace Procedure

/-- The kind of an allocated instruction. -/
def kindAt? (p : Procedure) (i : Inst) : Option InstKind := (p.insts.get? i).map fun d => d.op.kind

/-- Operations with the blocks they were added to, the first one first. -/
abbrev Log := List (Block × Operation)

/-- The instructions that were added to a block. -/
def listedIn (log : Log) (b : Block) : List Inst :=
  (log.zipIdx.filter (·.1.1 = b)).map fun e => ⟨e.2⟩

theorem listedIn_concat (log : Log) (b c : Block) (op : Operation) :
    listedIn (log ++ [(b, op)]) c = listedIn log c ++ if b = c then [⟨log.length⟩] else [] := by
  simp only [listedIn, List.zipIdx_append, List.filter_append, List.map_append]
  by_cases hc : b = c
  · simp [hc]
  · simp [hc]

/-- The instructions of the procedure are those of the log, in its order and without names, and each
block has those that were added to it. -/
structure Logged (p : Procedure) (log : Log) : Prop where
  insts : p.insts.toList = log.map fun e => { op := e.2 }
  listed : ∀ {b blk}, p.blocks.get? b = some blk → blk.insts = listedIn log b
  succs : ∀ {b blk}, p.blocks.get? b = some blk →
    blk.succs = (log.filter (·.1 = b)).flatMap fun e => e.2.targets

variable {p : Procedure} {log : Log} {b : Block} {op : Operation}

theorem Logged.size (h : p.Logged log) : p.insts.size = log.length := by
  have hlength := congrArg List.length h.insts
  rwa [List.length_map, Table.toList, Array.length_toList] at hlength

theorem Logged.get? (h : p.Logged log) (i : Inst) :
    p.insts.get? i = (log[i.index]?).map fun e => { op := e.2 } := by
  rw [← List.getElem?_map, ← h.insts, Table.getElem?_toList]

theorem Logged.grown (h : p.Logged log) : (p.grown b op).Logged (log ++ [(b, op)]) where
  insts := by
    have hpush : (p.grown b op).insts.toList = p.insts.toList ++ [{ op := op }] :=
      Array.toList_push
    rw [hpush, h.insts, List.map_append, List.map_singleton]
  listed {c blk} hc := by
    rw [get?_blocks_grown, Option.map_eq_some_iff] at hc
    obtain ⟨cblk, hcblk, rfl⟩ := hc
    rw [listedIn_concat, ← h.listed hcblk, ← h.size]
    by_cases hcb : c = b
    · simp [BasicBlock.grown, hcb, Table.next]
    · simp [BasicBlock.grown, hcb, Ne.symm hcb]
  succs {c blk} hc := by
    rw [get?_blocks_grown, Option.map_eq_some_iff] at hc
    obtain ⟨cblk, hcblk, rfl⟩ := hc
    rw [List.filter_append, List.flatMap_append, ← h.succs hcblk]
    by_cases hcb : c = b
    · simp [BasicBlock.grown, hcb]
    · simp [BasicBlock.grown, hcb, Ne.symm hcb]

/-- The kinds of the instructions of a block. -/
theorem Logged.map_kindAt? (h : p.Logged log) {blk : BasicBlock} (hb : p.blocks.get? b = some blk) :
    blk.insts.map p.kindAt? = (log.filter (·.1 = b)).map fun e => some e.2.kind := by
  rw [h.listed hb, listedIn, List.map_map,
    ← map_filter_zipIdx log (fun e => decide (e.1 = b)) fun e => some e.2.kind]
  refine List.map_congr_left fun e he => ?_
  have hget : log[e.2]? = some e.1 :=
    List.mem_zipIdx_iff_getElem?.mp (List.mem_of_mem_filter he)
  simp [kindAt?, h.get?, hget]

theorem Holds.grown {v : Value} (h : p.Holds v) : (p.grown b op).Holds v := by
  cases v with
  | const k => trivial
  | arg a => exact h
  | inst i =>
    show i.index < (p.grown b op).insts.size
    rw [size_insts_grown]
    exact Nat.lt_succ_of_lt h

end Procedure

/-! ## What a recipe says -/

namespace Recipe

open Procedure (Log)

/-- The instructions in the order they are added. -/
def ordered (r : Recipe) : List RecipeInst := r.insts.filter (·.phi) ++ r.insts.filter (!·.phi)

/-- The values at hand after the first `k` instructions: the arguments, and the results of these. -/
def atHand (r : Recipe) (k : Nat) : List Value :=
  (Handle.first r.argCount).map .arg ++
    ((r.ordered.take k).zipIdx.filter fun e => e.1.phi || e.1.hasResult).map fun e => .inst ⟨e.2⟩

/-- What an instruction does with the values at hand. -/
def operation (r : Recipe) (pool : List Value) (i : RecipeInst) : Operation :=
  if i.phi then .phi (r.incoming pool i)
  else .compute "op" (i.operands.map (pick pool)) i.hasResult

/-- The first `k` instructions. -/
def body (r : Recipe) (k : Nat) : Log :=
  (r.ordered.take k).zipIdx.map fun e =>
    (r.chosenBlock e.1.block, r.operation (r.atHand e.2) e.1)

/-- How block `n` ends, with all values at hand. -/
def ending (r : Recipe) (n : Nat) : Terminator :=
  terminatorFor (pick (r.atHand r.ordered.length) (.ofNat n)) (r.succs ⟨n⟩)

/-- The terminators of the first `n` blocks. -/
def ends (r : Recipe) (n : Nat) : Log :=
  (List.range n).map fun b => (⟨b⟩, .terminator (r.ending b))

/-- All that the procedure has, in the order it is added. -/
def log (r : Recipe) : Log := r.body r.ordered.length ++ r.ends r.blockCount

variable {r : Recipe} {p : Procedure} {b : Block} {i : RecipeInst} {k : Nat} {log : Log}

theorem blockCount_pos : 0 < r.blockCount :=
  Nat.lt_of_lt_of_le Nat.zero_lt_one (Nat.le_max_left _ _)

theorem chosenBlock_lt (n : UInt8) : (r.chosenBlock n).index < r.blockCount :=
  Nat.mod_lt _ blockCount_pos

theorem zipIdx_take_succ (hi : r.ordered[k]? = some i) :
    (r.ordered.take (k + 1)).zipIdx = (r.ordered.take k).zipIdx ++ [(i, k)] := by
  have hk : k < r.ordered.length := (List.getElem?_eq_some_iff.mp hi).1
  rw [List.take_add_one, hi, Option.toList_some, List.zipIdx_append, List.length_take_of_le hk.le,
    Nat.zero_add, List.zipIdx_singleton]

theorem atHand_succ (hi : r.ordered[k]? = some i) :
    r.atHand (k + 1) =
      if i.phi || i.hasResult then r.atHand k ++ [.inst ⟨k⟩] else r.atHand k := by
  rw [atHand, zipIdx_take_succ hi, List.filter_append, List.map_append, ← List.append_assoc,
    ← atHand]
  by_cases h : (i.phi || i.hasResult) = true
  · simp [h]
  · simp [h]

theorem body_succ (hi : r.ordered[k]? = some i) :
    r.body (k + 1) =
      r.body k ++ [(r.chosenBlock i.block, r.operation (r.atHand k) i)] := by
  rw [body, zipIdx_take_succ hi, List.map_append, List.map_singleton, ← body]

theorem length_body (hk : k ≤ r.ordered.length) : (r.body k).length = k := by
  rw [body, List.length_map, List.length_zipIdx, List.length_take_of_le hk]

theorem ends_succ (n : Nat) :
    r.ends (n + 1) = r.ends n ++ [(⟨n⟩, .terminator (r.ending n))] := by
  rw [ends, List.range_succ, List.map_append, List.map_singleton, ← ends]

/-! ## Drafts -/

/-- The procedure of a recipe under way: all arguments and blocks are there, with the instructions
of the log.  They read values that are there, and each phi has an input for each predecessor that
its block will have. -/
structure Draft (r : Recipe) (log : Log) (p : Procedure) : Prop where
  coherent : p.Coherent
  args : p.args.size = r.argCount
  blocks : p.blocks.size = r.blockCount
  entry : p.entry = ⟨0⟩
  logged : p.Logged log
  reads : p.ReadsHeld
  inputs : ∀ i pairs, (∃ d, p.insts.get? i = some d ∧ d.op = .phi pairs) →
    pairs.map Prod.snd = r.preds (p.blockOf i)

/-- One more instruction keeps a draft, if it reads values that are there and has the inputs that
its block needs. -/
theorem Draft.grown {op : Operation} (h : r.Draft log p) (hb : b.index < r.blockCount)
    (htargets : ∀ a ∈ op.targets, a.index < r.blockCount)
    (hreads : ∀ v ∈ op.operands ++ op.incoming.map Prod.fst, p.Holds v)
    (hinputs : ∀ pairs, op = .phi pairs → pairs.map Prod.snd = r.preds b) :
    r.Draft (log ++ [(b, op)]) (p.grown b op) where
  coherent := h.coherent.grown (h.blocks ▸ hb) (h.blocks ▸ htargets)
  args := h.args
  blocks := Procedure.size_blocks_grown.trans h.blocks
  entry := h.entry
  logged := h.logged.grown
  reads i d hd v hv := by
    rw [Procedure.get?_insts_grown] at hd
    split at hd
    next =>
      cases hd
      exact (hreads v hv).grown
    next => exact (h.reads i d hd v hv).grown
  inputs i pairs := by
    rintro ⟨d, hd, hop⟩
    rw [Procedure.blockOf_grown]
    rw [Procedure.get?_insts_grown] at hd
    split at hd
    next heq =>
      cases hd
      rw [if_pos heq]
      exact hinputs pairs hop
    next hne =>
      rw [if_neg hne]
      exact h.inputs i pairs ⟨d, hd, hop⟩

theorem holds_pick {pool : List Value} (h : ∀ v ∈ pool, p.Holds v) (n : UInt8) :
    p.Holds (pick pool n) := by
  unfold pick
  cases hv : pool[n.toNat % pool.length]? with
  | none => trivial
  | some v => exact h v (List.mem_of_getElem? hv)

/-- What is at hand after `k` instructions is there. -/
theorem Draft.holds_atHand (h : r.Draft log p) (hk : k ≤ log.length) :
    ∀ v ∈ r.atHand k, p.Holds v := by
  intro v hv
  rcases List.mem_append.mp hv with hv | hv
  · obtain ⟨a, ha, rfl⟩ := List.mem_map.mp hv
    show a.index < p.args.size
    rw [h.args]
    exact Handle.mem_first.mp ha
  · obtain ⟨e, he, rfl⟩ := List.mem_map.mp hv
    show e.2 < p.insts.size
    have hlt : e.2 < (r.ordered.take k).length :=
      List.snd_lt_of_mem_zipIdx (List.mem_of_mem_filter he)
    rw [h.logged.size]
    exact Nat.lt_of_lt_of_le hlt ((List.length_take_le k _).trans hk)

/-! ## Single instructions -/

section

variable {pool : List Value}

theorem map_snd_incoming (pool : List Value) (i : RecipeInst) :
    (r.incoming pool i).map Prod.snd = r.preds (r.chosenBlock i.block) := by
  simp [incoming, Function.comp_def]

theorem holds_incoming (h : ∀ v ∈ pool, p.Holds v) (i : RecipeInst) :
    ∀ v ∈ (r.incoming pool i).map Prod.fst, p.Holds v := by
  intro v hv
  simp only [incoming, List.map_map, List.mem_map] at hv
  obtain ⟨_, -, rfl⟩ := hv
  exact holds_pick h _

theorem targets_operation (pool : List Value) (i : RecipeInst) :
    (r.operation pool i).targets = [] := by
  unfold operation
  split
  next => rfl
  next => rfl

theorem kind_operation (pool : List Value) (i : RecipeInst) :
    (r.operation pool i).kind = if i.phi then .phi else .ordinary := by
  unfold operation
  split
  next => rfl
  next => rfl

theorem inputs_operation {pairs : List (Value × Block)} (h : r.operation pool i = .phi pairs) :
    pairs.map Prod.snd = r.preds (r.chosenBlock i.block) := by
  unfold operation at h
  split at h
  next =>
    cases h
    exact map_snd_incoming pool i
  next => cases h

theorem holds_operation (h : ∀ v ∈ pool, p.Holds v) (i : RecipeInst) :
    ∀ v ∈ (r.operation pool i).operands ++ (r.operation pool i).incoming.map Prod.fst,
      p.Holds v := by
  unfold operation
  split
  next => exact holds_incoming h i
  next =>
    intro v hv
    have hv : v ∈ i.operands.map (pick pool) := by
      simpa [Operation.operands, Operation.incoming] using hv
    obtain ⟨n, -, rfl⟩ := List.mem_map.mp hv
    exact holds_pick h n

/-- Phis and computations are added alike. -/
theorem addTo_eq (pool : List Value) (i : RecipeInst) :
    r.addTo pool i = Build.appendNew (r.chosenBlock i.block) (r.operation pool i) >>= fun v =>
      pure (if i.phi || i.hasResult then pool ++ [.inst v] else pool) := by
  unfold addTo operation
  cases i.phi with
  | true => rfl
  | false => rfl

end

/-- The next instruction of the recipe follows those before it. -/
theorem addTo_yields (hi : r.ordered[k]? = some i) (h : r.Draft (r.body k) p) :
    ∃ p', Yields (r.addTo (r.atHand k) i) p (r.atHand (k + 1)) p' ∧
      r.Draft (r.body (k + 1)) p' := by
  have hb : (r.chosenBlock i.block).index < r.blockCount := chosenBlock_lt _
  have hlength : (r.body k).length = k :=
    length_body (List.getElem?_eq_some_iff.mp hi).1.le
  have hnext : p.insts.next = ⟨k⟩ := Table.handle_eq_iff.mpr (h.logged.size.trans hlength)
  refine ⟨p.grown (r.chosenBlock i.block) (r.operation (r.atHand k) i), ?_, ?_⟩
  · rw [addTo_eq, atHand_succ hi, ← hnext]
    exact yields_bind.mpr ⟨_, _, Build.appendNew_yields (h.blocks ▸ hb) (targets_operation _ _),
      yields_pure.mpr ⟨rfl, rfl⟩⟩
  · rw [body_succ hi]
    refine h.grown hb ?_ (holds_operation (h.holds_atHand hlength.ge) i)
      fun pairs => inputs_operation
    rw [targets_operation]
    exact List.forall_mem_nil _

theorem successors_terminatorFor (v : Value) (ts : List Block) :
    (terminatorFor v ts).successors = ts := by
  match ts with
  | [] => rfl
  | [_] => rfl
  | [_, _] => rfl
  | _ :: _ :: _ :: _ => rfl

theorem eq_of_mem_operands_terminatorFor {v w : Value} {ts : List Block}
    (h : w ∈ (terminatorFor v ts).operands) : w = v := by
  match ts with
  | [] => exact List.mem_singleton.mp h
  | [_] => cases h
  | [_, _] => exact List.mem_singleton.mp h
  | _ :: _ :: _ :: _ => exact List.mem_singleton.mp h

theorem lt_of_mem_succs {a : Block} (h : a ∈ r.succs b) : a.index < r.blockCount := by
  simp only [succs, blockEdges, List.mem_map, List.mem_filter] at h
  obtain ⟨_, ⟨⟨e, -, rfl⟩, -⟩, rfl⟩ := h
  exact chosenBlock_lt e.2

theorem successors_ending (r : Recipe) (n : Nat) : (r.ending n).successors = r.succs ⟨n⟩ :=
  successors_terminatorFor _ _

/-- Block `n` is ended after the blocks before it. -/
theorem endBlock_yields {n : Nat} (hn : n < r.blockCount)
    (h : r.Draft (r.body r.ordered.length ++ r.ends n) p) :
    ∃ p', Yields (do let _ ← Build.endBlock ⟨n⟩ (r.ending n)) p () p' ∧
      r.Draft (r.body r.ordered.length ++ r.ends (n + 1)) p' := by
  have hlt : ∀ a ∈ (r.ending n).successors, a.index < r.blockCount := by
    intro a ha
    rw [successors_ending] at ha
    exact lt_of_mem_succs ha
  have hlength : r.ordered.length ≤ (r.body r.ordered.length ++ r.ends n).length := by
    rw [List.length_append, length_body (Nat.le_refl _)]
    exact Nat.le_add_right _ _
  refine ⟨_, Build.Call.yields_unit (Build.endBlock_yields (h.blocks ▸ hn) (h.blocks ▸ hlt)), ?_⟩
  rw [ends_succ, ← List.append_assoc]
  refine h.grown hn hlt (fun v hv => ?_) nofun
  have hv : v ∈ (r.ending n).operands := by
    simpa [Operation.operands, Operation.incoming] using hv
  rw [eq_of_mem_operands_terminatorFor hv]
  exact holds_pick (h.holds_atHand hlength) _

/-! ## The whole procedure -/

/-- There are `a` arguments and `n` blocks, and nothing else. -/
structure Blank (p : Procedure) (a n : Nat) : Prop where
  coherent : p.Coherent
  args : p.args.size = a
  blocks : p.blocks.size = n
  entry : p.entry = ⟨0⟩
  insts : p.insts.size = 0

theorem blank_new (name : String) : Blank (.new name) 0 1 :=
  ⟨Procedure.coherent_new name, rfl, rfl, rfl, rfl⟩

theorem Blank.addArg {a n : Nat} (h : Blank p a n) (name : String) :
    Blank { p with args := p.args.push name } (a + 1) n :=
  ⟨h.coherent.addArg name, by simp [h.args], h.blocks, h.entry, h.insts⟩

theorem Blank.addBlock {a n : Nat} (h : Blank p a n) (name : String) :
    Blank { p with blocks := p.blocks.push { name } } a (n + 1) :=
  ⟨h.coherent.addBlock name, h.args, by simp [h.blocks], h.entry, h.insts⟩

/-- Without instructions there is nothing to go wrong. -/
theorem Blank.draft (h : Blank p r.argCount r.blockCount) : r.Draft (r.body 0) p where
  coherent := h.coherent
  args := h.args
  blocks := h.blocks
  entry := h.entry
  logged := by
    have hnil : ∀ {b blk}, p.blocks.get? b = some blk → blk.insts = [] := by
      intro b blk hb
      refine List.eq_nil_iff_forall_not_mem.mpr fun i hi => ?_
      exact absurd (h.insts ▸ (h.coherent.of_mem hb hi).1) (Nat.not_lt_zero _)
    refine ⟨?_, fun hb => hnil hb, fun hb => ?_⟩
    · exact List.length_eq_zero_iff.mp ((Array.length_toList).trans h.insts)
    · rw [h.coherent.succs hb, hnil hb]
      rfl
  reads i d hd := absurd (h.insts ▸ Table.lt_size hd) (Nat.not_lt_zero _)
  inputs i pairs := fun ⟨_, hd, _⟩ => absurd (h.insts ▸ Table.lt_size hd) (Nat.not_lt_zero _)

theorem addArgs_yields (r : Recipe) :
    ∃ p, Yields ((List.range r.argCount).mapM fun i => Build.addArg ("a" ++ toString i))
      (.new "fuzz") (r.atHand 0) p ∧ Blank p r.argCount 1 := by
  have hpool : r.atHand 0 = (List.range' 0 r.argCount).map fun n => .arg ⟨n⟩ := by
    simp [atHand, Handle.first, List.range_eq_range', Function.comp_def]
  rw [hpool, List.range_eq_range']
  refine mapM_range'_yields (P := fun i p => Blank p i 1) (Nat.zero_add _) (fun i p hi h => ?_)
    (blank_new "fuzz")
  have hnext : p.args.next = ⟨i⟩ := Table.handle_eq_iff.mpr h.args
  rw [← hnext]
  exact ⟨_, rfl, h.addArg _⟩

theorem addBlocks_yields (h : Blank p r.argCount 1) :
    ∃ p', Yields ((List.range' 1 (r.blockCount - 1)).forM fun i => do
        let _ ← Build.addBlock ("b" ++ toString i)) p () p' ∧
      Blank p' r.argCount r.blockCount := by
  refine forM_range'_yields (P := fun i p => Blank p r.argCount i)
    (Nat.add_sub_cancel' blockCount_pos) (fun i p _ h => ?_) h
  exact ⟨_, Build.Call.yields_unit rfl, h.addBlock _⟩

/-- From any instruction on, all that follow are added. -/
theorem addAll_yields {is : List RecipeInst} (hk : r.ordered.drop k = is)
    (h : r.Draft (r.body k) p) :
    ∃ p', Yields (is.foldlM r.addTo (r.atHand k)) p (r.atHand r.ordered.length) p' ∧
      r.Draft (r.body r.ordered.length) p' := by
  induction is generalizing k p with
  | nil =>
    have hle : r.ordered.length ≤ k := List.drop_eq_nil_iff.mp hk
    have htake : r.ordered.take k = r.ordered.take r.ordered.length := by
      rw [List.take_of_length_le hle, List.take_length]
    rw [body, htake, ← body] at h
    refine ⟨p, ?_, h⟩
    rw [atHand, htake, ← atHand]
    exact yields_pure.mpr ⟨rfl, rfl⟩
  | cons i is ih =>
    have hi : r.ordered[k]? = some i := by
      rw [← List.head?_drop, hk, List.head?_cons]
    have hdrop : r.ordered.drop (k + 1) = is := by
      rw [← List.tail_drop, hk, List.tail_cons]
    obtain ⟨p₁, hadd, hdraft⟩ := addTo_yields hi h
    obtain ⟨p', hrest, hdraft'⟩ := ih hdrop hdraft
    exact ⟨p', yields_bind.mpr ⟨_, _, hadd, hrest⟩, hdraft'⟩

theorem endBlocks_yields (h : r.Draft (r.body r.ordered.length) p) :
    ∃ p', Yields ((List.range r.blockCount).forM fun n => do
        let _ ← Build.endBlock ⟨n⟩ (r.ending n)) p () p' ∧ r.Draft r.log p' := by
  rw [List.range_eq_range']
  refine forM_range'_yields (Nat.zero_add r.blockCount)
    (P := fun n p => r.Draft (r.body r.ordered.length ++ r.ends n) p)
    (fun n p hn h => endBlock_yields hn h) ?_
  rwa [ends, List.range_zero, List.map_nil, List.append_nil]

/-- Every recipe can be built, and the procedure has all that the recipe says. -/
theorem exists_draft (r : Recipe) : ∃ p, r.procedure = .ok p ∧ r.Draft r.log p := by
  obtain ⟨p₁, hargs, hblank₁⟩ := r.addArgs_yields
  obtain ⟨p₂, hblocks, hblank₂⟩ := addBlocks_yields hblank₁
  obtain ⟨p₃, hall, hdraft₃⟩ := addAll_yields (List.drop_zero) hblank₂.draft
  obtain ⟨p₄, hends, hdraft₄⟩ := endBlocks_yields hdraft₃
  rw [ordered, List.foldlM_append] at hall
  obtain ⟨pool, u, hphis, hothers⟩ := yields_bind.mp hall
  have hbuild : Yields r.build (.new "fuzz") () p₄ :=
    yields_bind.mpr ⟨_, _, hargs, yields_bind.mpr ⟨_, _, hblocks, yields_bind.mpr ⟨_, _, hphis,
      yields_bind.mpr ⟨_, _, hothers, hends⟩⟩⟩⟩
  refine ⟨p₄, ?_, hdraft₄⟩
  simp only [procedure, show r.build.run.run (.new "fuzz") = (.ok (), p₄) from hbuild]
  rfl

/-! ## What the procedure is -/

/-- An edge is as often among the predecessors as among the successors. -/
theorem count_preds (r : Recipe) (b c : Block) : (r.preds b).count c = (r.succs c).count b := by
  simp only [preds, succs, List.count, List.countP_map, List.countP_filter, Function.comp_def]
  refine List.countP_congr fun e _ => ?_
  simp [and_comm]

theorem filter_ends (r : Recipe) (b : Block) (n : Nat) :
    (r.ends n).filter (·.1 = b) =
      if b.index < n then [(b, .terminator (r.ending b.index))] else [] := by
  induction n with
  | zero => rfl
  | succ n ih =>
    rw [ends_succ, List.filter_append, ih]
    rcases Nat.lt_trichotomy b.index n with hlt | heq | hgt
    · have hne : (⟨n⟩ : Block) ≠ b := fun h => Nat.ne_of_gt hlt (congrArg Handle.index h)
      simp [hlt, Nat.lt_succ_of_lt hlt, hne]
    · have hb : (⟨n⟩ : Block) = b := Table.handle_eq_iff.mpr heq.symm
      simp [hb, heq]
    · have hne : (⟨n⟩ : Block) ≠ b := fun h => Nat.ne_of_lt hgt (congrArg Handle.index h)
      simp [hne, Nat.not_lt_of_gt hgt, Nat.not_lt_of_ge hgt]

/-- The instructions that a recipe has in a block, with what does not depend on the values at
hand. -/
theorem map_filter_body {β : Type} (r : Recipe) (b : Block) {f : Operation → β}
    {g : RecipeInst → β} (hf : ∀ pool i, f (r.operation pool i) = g i) :
    ((r.body r.ordered.length).filter (·.1 = b)).map (fun e => f e.2) =
      (r.ordered.filter fun i => decide (r.chosenBlock i.block = b)).map g := by
  rw [body, List.take_length, List.filter_map, List.map_map,
    ← map_filter_zipIdx r.ordered (fun i => decide (r.chosenBlock i.block = b)) g]
  exact List.map_congr_left fun e _ => hf _ _

/-- A block ends with the edges of the recipe. -/
theorem Draft.succs_eq (h : r.Draft r.log p) {blk : BasicBlock} (hb : p.blocks.get? b = some blk) :
    blk.succs = r.succs b := by
  have hlt : b.index < r.blockCount := h.blocks ▸ Table.lt_size hb
  have hbody :
      ((r.body r.ordered.length).filter (·.1 = b)).flatMap (fun e => e.2.targets) = [] := by
    rw [List.flatMap_def, r.map_filter_body b (g := fun _ => []) targets_operation]
    simp
  rw [h.logged.succs hb, log, List.filter_append, List.flatMap_append, hbody, filter_ends,
    if_pos hlt]
  simpa [Operation.targets, Operation.terminator?] using r.successors_ending b.index

/-- The predecessors that the recipe lists for a block are those it has. -/
theorem Draft.perm_preds (h : r.Draft r.log p) {blk : BasicBlock}
    (hb : p.blocks.get? b = some blk) : (r.preds b).Perm blk.preds := by
  refine List.perm_iff_count.mpr fun c => ?_
  rw [r.count_preds]
  by_cases hc : c.index < p.blocks.size
  · obtain ⟨cblk, hcblk⟩ := Table.exists_get? hc
    rw [← h.succs_eq hcblk, h.coherent.mirrored hcblk hb]
  · -- a block that does not exist is on neither list
    have hpreds : c ∉ blk.preds := fun hmem =>
      hc (h.coherent.inRange hb c (List.mem_append_right _ hmem))
    have hrecipe : c ∉ r.preds b := by
      simp only [preds, blockEdges, List.mem_map, List.mem_filter]
      rintro ⟨_, ⟨⟨e, -, rfl⟩, -⟩, rfl⟩
      exact hc (h.blocks ▸ chosenBlock_lt e.1)
    rw [← r.count_preds, List.count_eq_zero.mpr hpreds, List.count_eq_zero.mpr hrecipe]

/-- The kinds of the instructions of a block, with the numbers that the recipe says. -/
theorem Draft.map_kindAt? (h : r.Draft r.log p) {blk : BasicBlock}
    (hb : p.blocks.get? b = some blk) :
    blk.insts.map p.kindAt? =
      List.replicate (r.insts.countP fun i => i.phi && r.chosenBlock i.block = b) (some .phi) ++
      List.replicate (r.insts.countP fun i => !i.phi && r.chosenBlock i.block = b)
        (some .ordinary) ++ [some .terminator] := by
  have hlt : b.index < r.blockCount := h.blocks ▸ Table.lt_size hb
  have hkind : ∀ pool i, some (r.operation pool i).kind =
      some (if i.phi then InstKind.phi else .ordinary) := fun pool i => by rw [kind_operation]
  rw [h.logged.map_kindAt? hb, log, List.filter_append, List.map_append, filter_ends, if_pos hlt,
    r.map_filter_body b (f := fun op => some op.kind) hkind, ordered, List.filter_append,
    List.map_append, map_filter_filter (c := some .phi) fun i hi => by rw [if_pos hi],
    map_filter_filter (c := some .ordinary) fun i hi => by
      rw [if_neg (by simpa using hi)]]
  rfl

/-- The procedure has the blocks, the edges and the instructions of the recipe.  Each block has its
phis first, each with one input for each edge into the block, and its only terminator last. -/
structure Describes (r : Recipe) (p : Procedure) : Prop where
  blocks : p.blocks.size = max 1 (r.numBlocks.toNat % 16)
  succs : ∀ b blk, p.blocks.get? b = some blk → blk.succs =
    (r.edges.filter fun e => e.1.toNat % p.blocks.size = b.index).map
      fun e => ⟨e.2.toNat % p.blocks.size⟩
  inputs : ∀ b blk, p.blocks.get? b = some blk → ∀ i ∈ blk.insts, ∀ name pairs,
    p.insts.get? i = some ⟨name, .phi pairs⟩ → (pairs.map Prod.snd).Perm blk.preds
  order : ∀ b blk, p.blocks.get? b = some blk → ∃ phis others last,
    blk.insts = phis ++ others ++ [last] ∧ (∀ i ∈ phis, p.kindAt? i = some .phi) ∧
      (∀ i ∈ others, p.kindAt? i = some .ordinary) ∧ p.kindAt? last = some .terminator ∧
      phis.length = r.insts.countP (fun i => i.phi && i.block.toNat % p.blocks.size = b.index) ∧
      others.length = r.insts.countP fun i => !i.phi && i.block.toNat % p.blocks.size = b.index
  insts : p.insts.toList = r.log.map fun e => { op := e.2 }
  listed : ∀ b blk, p.blocks.get? b = some blk → blk.insts = Procedure.listedIn r.log b

theorem Draft.describes (h : r.Draft r.log p) : r.Describes p where
  blocks := h.blocks
  succs b blk hb := by
    rw [h.succs_eq hb, h.blocks, succs, blockEdges, List.filter_map, List.map_map]
    congr 1
    refine List.filter_congr fun e _ => ?_
    simp [chosenBlock, Table.handle_eq_iff]
  inputs b blk hb i hi name pairs hd := by
    rw [h.inputs i pairs ⟨_, hd, rfl⟩, (h.coherent.of_mem hb hi).2]
    exact h.perm_preds hb
  order b blk hb := by
    have hchosen : ∀ n : UInt8, r.chosenBlock n = b ↔ n.toNat % p.blocks.size = b.index := by
      intro n
      rw [h.blocks, Table.handle_eq_iff]
      rfl
    have hkinds := h.map_kindAt? hb
    simp only [hchosen] at hkinds
    obtain ⟨front, ends, hinsts, hfront, hends⟩ := List.map_eq_append_iff.mp hkinds
    obtain ⟨phis, others, rfl, hphis, hothers⟩ := List.map_eq_append_iff.mp hfront
    obtain ⟨last, rfl, hlast⟩ := List.map_eq_singleton_iff.mp hends
    refine ⟨phis, others, last, hinsts, ?_, ?_, hlast, ?_, ?_⟩
    · exact fun i hi => List.eq_of_mem_replicate (hphis ▸ List.mem_map_of_mem hi)
    · exact fun i hi => List.eq_of_mem_replicate (hothers ▸ List.mem_map_of_mem hi)
    · rw [← List.length_map (f := p.kindAt?), hphis, List.length_replicate]
    · rw [← List.length_map (f := p.kindAt?), hothers, List.length_replicate]
  insts := h.logged.insts
  listed b blk hb := h.logged.listed hb

/-- Every recipe makes the procedure it describes.  That can be analysed, the result passes its own
check, nothing is live where control leaves, and no block is visited too often. -/
theorem analyze_procedure (r : Recipe) :
    ∃ p l, r.procedure = .ok p ∧ r.Describes p ∧ Liveness.analyze p.graph = .ok l ∧
      l.check p.graph = .ok () ∧ ∀ b blk, p.blocks.get? b = some blk →
        (blk.succs = [] → l.liveOut b = .ok l.domain.emptySet) ∧
        ∃ v, l.solution.visits.get? b = some v ∧ v ≤ 1 + blk.succs.length * l.domain.size := by
  obtain ⟨p, hp, h⟩ := r.exists_draft
  have hentry : p.entry.index < p.blocks.size := by
    rw [h.entry, h.blocks]
    exact blockCount_pos
  have hresolved := h.coherent.resolved_graph hentry h.reads
  obtain ⟨l, hl, hcheck⟩ := Liveness.analyze_and_check_ok hresolved h.coherent.mirrored_graph
    h.coherent.nodup_listed_graph
  refine ⟨p, l, hp, h.describes, hl, hcheck, fun b blk hb => ?_⟩
  have hn : p.graph.nodes.get? b = some ⟨blk.insts, blk.succs, blk.preds⟩ :=
    Procedure.get?_nodes_graph.mpr ⟨blk, hb, rfl⟩
  refine ⟨fun hnil => Liveness.liveOut_of_exit hl hn hnil, ?_⟩
  refine Liveness.visits_le hresolved.inRange hl hn fun s m hm hpred => ?_
  obtain ⟨sblk, hsblk, rfl⟩ := Procedure.get?_nodes_graph.mp hm
  exact (h.coherent.mem_succs_iff hb hsblk).mpr hpred

end Recipe

end SsaFlow
