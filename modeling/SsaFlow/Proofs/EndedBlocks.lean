import SsaFlow.Proofs.RecomputedEdges

/-!
# Blocks that are ended once

A block gets its edges when it is ended.  If nothing is added to it afterwards, the
instruction that ended it is its last one, and rebuilding the edges gives the same
successors (`Procedure.Ended`).  The predecessors come in the order in which blocks were
ended before, and in layout order after.

Steps are the building calls and the parts they are made of.  The blocks ended so far
are carried along a sequence of steps (`Build.Step.Tidy`).
-/

namespace SsaFlow

/-! ## Blocks that have their edges -/

namespace Procedure

/-- The blocks of a list have the edges of their last instruction, the others none so far. -/
structure Ended (p : Procedure) (ended : List Block) : Prop where
  exist : ∀ b ∈ ended, b.index < p.blocks.size
  last : ∀ {b blk}, p.blocks.get? b = some blk → b ∈ ended →
    ∃ i, blk.insts.getLast? = some i ∧ i.index < p.insts.size ∧ blk.succs = p.exits blk
  unended : ∀ {b blk}, p.blocks.get? b = some blk → b ∉ ended → blk.succs = []
  agree : p.EdgesAgree

variable {p : Procedure} {b : Block} {i : Inst} {blk : BasicBlock} {d : Instruction}

theorem exits_of_getLast? (hlast : blk.insts.getLast? = some i) :
    p.exits blk = ((p.terminatorAt? i).map Terminator.successors).getD [] := by
  rw [exits, hlast, Option.bind_some]

theorem terminatorAt?_of_get? (hd : p.insts.get? i = some d) :
    p.terminatorAt? i = d.op.terminator? := by
  rw [terminatorAt?, hd, Option.bind_some]

theorem exits_eq_targets (hlast : blk.insts.getLast? = some i) (hd : p.insts.get? i = some d) :
    p.exits blk = d.op.targets := by
  rw [exits_of_getLast? hlast, terminatorAt?_of_get? hd, Operation.targets]

theorem targets_singleton (hd : p.insts.get? i = some d) : p.targets [i] = d.op.targets := by
  rw [targets, Operation.targets, ← terminatorAt?_of_get? hd]
  cases hi : p.terminatorAt? i with
  | none => simp [hi]
  | some t => simp [hi]

theorem getLast?_appended (hb : (p.appended b i).blocks.get? b = some blk) :
    blk.insts.getLast? = some i := by
  rw [get?_blocks_appended, Option.map_eq_some_iff] at hb
  obtain ⟨old, -, rfl⟩ := hb
  rw [if_pos rfl]
  exact List.getLast?_concat

theorem ended_new (name : String) : (new name).Ended [] where
  exist := nofun
  last _ hb := nomatch hb
  unended hb _ := (get?_blocks_new hb).2.1
  agree := (coherent_new name).edgesAgree

namespace Ended

variable {ended : List Block}

theorem addArg (h : p.Ended ended) (name : String) :
    Ended { p with args := p.args.push name } ended :=
  ⟨h.exist, h.last, h.unended, ⟨h.agree.mirrored, h.agree.inRange⟩⟩

theorem addBlock (h : p.Ended ended) (name : String) :
    Ended { p with blocks := p.blocks.push { name } } ended := by
  have hnew : p.blocks.next ∉ ended := fun hmem => Nat.lt_irrefl _ (h.exist _ hmem)
  refine ⟨fun b hb => ?_, fun hb hmem => ?_, fun hb hnot => ?_, h.agree.addBlock name⟩
  · rw [Table.size_push]
    exact Nat.lt_succ_of_lt (h.exist b hb)
  · rcases Table.get?_push_eq_some hb with ⟨rfl, -⟩ | hb
    · exact absurd hmem hnew
    · exact h.last hb hmem
  · rcases Table.get?_push_eq_some hb with ⟨-, rfl⟩ | hb
    · rfl
    · exact h.unended hb hnot

/-- Instructions may be added or changed, as long as the terminators stay what they are. -/
theorem withInsts (h : p.Ended ended) {insts : Table .inst Instruction}
    (hsize : p.insts.size ≤ insts.size)
    (hterm : ∀ i : Inst, i.index < p.insts.size →
      terminatorAt? { p with insts } i = p.terminatorAt? i) :
    Ended { p with insts } ended := by
  refine ⟨h.exist, fun hb hmem => ?_, h.unended, ⟨h.agree.mirrored, h.agree.inRange⟩⟩
  obtain ⟨i, hlast, hi, hsuccs⟩ := h.last hb hmem
  refine ⟨i, hlast, Nat.lt_of_lt_of_le hi hsize, ?_⟩
  rw [hsuccs, exits_of_getLast? hlast, exits_of_getLast? hlast, hterm i hi]

theorem addInst (h : p.Ended ended) (d : Instruction) :
    Ended { p with insts := p.insts.push d } ended := by
  refine h.withInsts (by simp) fun i hi => ?_
  have hne : i ≠ p.insts.next := by
    rintro rfl
    exact Nat.lt_irrefl _ hi
  rw [terminatorAt?, Table.get?_push, if_neg hne, terminatorAt?]

theorem adjustInst (h : p.Ended ended) {f : Instruction → Instruction}
    (hf : ∀ d, p.insts.get? i = some d → (f d).op.terminator? = d.op.terminator?) :
    Ended { p with insts := p.insts.adjust i f } ended :=
  h.withInsts (by simp) fun _ _ => congrFun (terminatorAt?_adjust hf) _

theorem appended (h : p.Ended ended) (hb : b ∉ ended) (i : Inst) :
    (p.appended b i).Ended ended := by
  have hget : ∀ {c cblk}, (p.appended b i).blocks.get? c = some cblk →
      ∃ blk, p.blocks.get? c = some blk ∧ cblk.succs = blk.succs ∧ (c ≠ b → cblk = blk) := by
    intro c cblk hc
    rw [get?_blocks_appended, Option.map_eq_some_iff] at hc
    obtain ⟨blk, hblk, rfl⟩ := hc
    refine ⟨blk, hblk, ?_, fun hne => if_neg hne⟩
    split
    next => rfl
    next => rfl
  refine ⟨fun c hc => ?_, fun {c cblk} hc hmem => ?_, fun hc hnot => ?_, h.agree.appended b i⟩
  · rw [size_blocks_appended]
    exact h.exist c hc
  · obtain ⟨blk, hblk, -, hsame⟩ := hget hc
    have hne : c ≠ b := fun heq => hb (heq ▸ hmem)
    rw [hsame hne]
    exact h.last hblk hmem
  · obtain ⟨blk, hblk, hsuccs, -⟩ := hget hc
    rw [hsuccs]
    exact h.unended hblk hnot

/-- A block that had no edges gets those of the instruction placed last. -/
theorem placed (h : p.Ended ended) (hlt : b.index < p.blocks.size) (hb : b ∉ ended)
    (hd : p.insts.get? i = some d) (ht : ∀ a ∈ d.op.targets, a.index < p.blocks.size) :
    ((p.appended b i).linked b d.op.targets).Ended (b :: ended) := by
  have hopen := h.appended hb i
  refine ⟨fun c hc => ?_, fun {c cblk} hc hmem => ?_, fun {c cblk} hc hnot => ?_,
    hopen.agree.linked (by simpa using hlt) (by simpa using ht)⟩
  · rw [size_blocks_linked, size_blocks_appended]
    rcases List.mem_cons.mp hc with rfl | hc
    · exact hlt
    · exact h.exist c hc
  · obtain ⟨blk, hblk, rfl⟩ := exists_of_linked hc
    by_cases hcb : c = b
    · -- the block had no edges, so it has just those of `i`
      subst hcb
      have hlast : (blk.linked c d.op.targets c).insts.getLast? = some i :=
        show blk.insts.getLast? = some i from getLast?_appended hblk
      have hexits : ((p.appended c i).linked c d.op.targets).exits
          (blk.linked c d.op.targets c) = d.op.targets := exits_eq_targets hlast hd
      refine ⟨i, hlast, Table.lt_size hd, ?_⟩
      rw [hexits]
      simp only [BasicBlock.linked, hopen.unended hblk hb, List.nil_append, if_pos]
    · obtain ⟨j, hlast, hj, hsuccs⟩ :=
        hopen.last hblk ((List.mem_cons.mp hmem).resolve_left hcb)
      refine ⟨j, hlast, hj, ?_⟩
      simp only [BasicBlock.linked, if_neg hcb]
      exact hsuccs
  · obtain ⟨blk, hblk, rfl⟩ := exists_of_linked hc
    rw [List.mem_cons, not_or] at hnot
    obtain ⟨hcb, hnot⟩ := hnot
    simp only [BasicBlock.linked, if_neg hcb]
    exact hopen.unended hblk hnot

end Ended

end Procedure

/-! ## Steps -/

namespace Build

/-- A building call, or one of the parts that calls are made of. -/
inductive Step where
  | call (c : Call)
  | addInst (d : Instruction)
  | append (b : Block) (i : Inst)
  | placeTerminator (b : Block) (i : Inst)

/-- The block that a call adds an instruction to. -/
def Call.block? : Call → Option Block
  | appendOp b _ _ _ => some b
  | appendPhi b _ => some b
  | endBlock b _ => some b
  | _ => none

/-- The block that a call ends. -/
def Call.ends? : Call → Option Block
  | endBlock b _ => some b
  | _ => none

namespace Step

/-- Takes the step. -/
def perform : Step → Build Unit
  | call c => c.perform
  | addInst d => do let _ ← Build.addInst d
  | append b i => Build.append b i
  | placeTerminator b i => Build.placeTerminator b i

/-- The procedure after a step, which may have ended in a fault. -/
def leaves (p : Procedure) (s : Step) : Procedure := (s.perform.run.run p).2

/-- The block that a step adds an instruction to. -/
def block? : Step → Option Block
  | call c => c.block?
  | addInst _ => none
  | append b _ => some b
  | placeTerminator b _ => some b

/-- The block that a step ends. -/
def ends? : Step → Option Block
  | call c => c.ends?
  | placeTerminator b _ => some b
  | _ => none

/-- The blocks exist.  An instruction that is to end a block is allocated, and the blocks it leads
to exist. -/
def Fits (p : Procedure) : Step → Prop
  | call c => c.BlocksExist p
  | addInst _ => True
  | append b _ => b.index < p.blocks.size
  | placeTerminator b i => b.index < p.blocks.size ∧ i.index < p.insts.size ∧
      ∀ t ∈ p.targets [i], t.index < p.blocks.size

/-- Every step fits and adds to no block that was ended, and in the end all blocks were. -/
def Tidy : Procedure → List Block → List Step → Prop
  | p, ended, [] => ∀ b ∈ p.blocks.handles, b ∈ ended
  | p, ended, s :: ss => s.Fits p ∧ (∀ b ∈ s.block?, b ∉ ended) ∧
      Tidy (s.leaves p) (s.ends?.toList ++ ended) ss

instance decidableFits {p : Procedure} : ∀ s : Step, Decidable (s.Fits p)
  | call c => inferInstanceAs (Decidable (c.BlocksExist p))
  | addInst _ => .isTrue trivial
  | append b _ => inferInstanceAs (Decidable (b.index < p.blocks.size))
  | placeTerminator b i => inferInstanceAs (Decidable (b.index < p.blocks.size ∧
      i.index < p.insts.size ∧ ∀ t ∈ p.targets [i], t.index < p.blocks.size))

instance decidableTidy : ∀ (p : Procedure) (ended : List Block) (ss : List Step),
    Decidable (Tidy p ended ss)
  | p, ended, [] => inferInstanceAs (Decidable (∀ b ∈ p.blocks.handles, b ∈ ended))
  | p, ended, s :: ss =>
    have := decidableTidy (s.leaves p) (s.ends?.toList ++ ended) ss
    inferInstanceAs (Decidable (s.Fits p ∧ (∀ b ∈ s.block?, b ∉ ended) ∧
      Tidy (s.leaves p) (s.ends?.toList ++ ended) ss))

end Step

end Build

namespace Procedure.Ended

open Build

variable {p : Procedure} {ended : List Block}

/-- A new instruction that leads nowhere ends no block. -/
theorem grown (h : p.Ended ended) {b : Block} (hb : b ∉ ended) {op : Operation}
    (hop : op.targets = []) : (p.grown b op).Ended ended := by
  rw [grown_eq, hop, linked_nil]
  exact (h.addInst { op }).appended hb _

/-- A call that goes through ends its block, if it is to end one. -/
theorem yields_call (h : p.Ended ended) {c : Build.Call} (hc : c.BlocksExist p)
    (hi : c.InstFits p) (hopen : ∀ b ∈ c.block?, b ∉ ended) :
    ∃ p', Yields c.perform p () p' ∧ p'.Ended (c.ends?.toList ++ ended) := by
  cases c with
  | addArg name => exact ⟨_, Call.yields_unit rfl, h.addArg name⟩
  | addBlock name => exact ⟨_, Call.yields_unit rfl, h.addBlock name⟩
  | appendOp b opcode args hasResult =>
    have hb : b.index < p.blocks.size := hc b List.mem_cons_self
    exact ⟨_, Call.yields_unit (appendNew_yields hb rfl), h.grown (hopen b rfl) rfl⟩
  | appendPhi b incoming =>
    have hb : b.index < p.blocks.size := hc b List.mem_cons_self
    exact ⟨_, Call.yields_unit (appendNew_yields hb rfl), h.grown (hopen b rfl) rfl⟩
  | addIncoming i v pred =>
    obtain ⟨f, hyields, hf⟩ := Call.yields_addIncoming hi
    exact ⟨_, hyields, h.adjustInst hf⟩
  | setName i name => exact ⟨_, updateInst_yields hi _, h.adjustInst fun _ _ => rfl⟩
  | endBlock b t =>
    have hb : b.index < p.blocks.size := hc b List.mem_cons_self
    have ht : ∀ a ∈ t.successors, a.index < p.blocks.size :=
      fun a ha => hc a (List.mem_cons_of_mem _ ha)
    exact ⟨_, Call.yields_unit (endBlock_yields hb ht),
      (h.addInst { op := .terminator t }).placed hb (hopen b rfl)
        (Table.get?_push_next _) ht⟩

theorem call (h : p.Ended ended) {c : Build.Call} (hc : c.BlocksExist p)
    (hopen : ∀ b ∈ c.block?, b ∉ ended) : (c.leaves p).Ended (c.ends?.toList ++ ended) := by
  by_cases hi : c.InstFits p
  · obtain ⟨p', hyields, hp'⟩ := h.yields_call hc hi hopen
    rwa [Call.leaves_of_yields hyields]
  · have hends : c.ends? = none := by
      cases c with
      | endBlock b t => exact absurd trivial hi
      | _ => rfl
    rw [Call.leaves_of_not_fits hi, hends]
    exact h

/-- One step keeps the edges of the blocks that were ended. -/
theorem step (h : p.Ended ended) {s : Step} (hs : s.Fits p) (hopen : ∀ b ∈ s.block?, b ∉ ended) :
    (s.leaves p).Ended (s.ends?.toList ++ ended) := by
  cases s with
  | call c => exact h.call hs hopen
  | addInst d => exact h.addInst d
  | append b i =>
    have hyields := append_yields (i := i) hs
    rw [Step.leaves, Step.perform, show (Build.append b i).run.run p = _ from hyields]
    exact h.appended (hopen b rfl) i
  | placeTerminator b i =>
    obtain ⟨hb, hi, ht⟩ := hs
    obtain ⟨d, hd⟩ := Table.exists_get? hi
    rw [targets_singleton hd] at ht
    have hyields := placeTerminator_yields hb hd ht
    rw [Step.leaves, Step.perform, show (Build.placeTerminator b i).run.run p = _ from hyields]
    exact h.placed hb (hopen b rfl) hd ht

/-- After tidy steps all blocks have the edges of their last instruction. -/
theorem run (h : p.Ended ended) {ss : List Step} (hss : Step.Tidy p ended ss) :
    ∃ all, (ss.foldl Step.leaves p).Ended all ∧
      ∀ b ∈ (ss.foldl Step.leaves p).blocks.handles, b ∈ all := by
  induction ss generalizing p ended with
  | nil => exact ⟨ended, h, hss⟩
  | cons s ss ih => exact ih (h.step hss.1 hss.2.1) hss.2.2

end Procedure.Ended

/-! ## Rebuilding what was built -/

namespace Procedure

/-- Successors are the same, and predecessors up to their order. -/
def SameEdges (p q : Procedure) : Prop :=
  ∀ b blk, p.blocks.get? b = some blk → ∃ blk', q.blocks.get? b = some blk' ∧
    blk'.succs = blk.succs ∧ blk'.preds.Perm blk.preds

variable {p : Procedure} {ended : List Block}

namespace Ended

theorem last_of_all (h : p.Ended ended) (hall : ∀ b ∈ p.blocks.handles, b ∈ ended) {b : Block}
    {blk : BasicBlock} (hb : p.blocks.get? b = some blk) :
    ∃ i, blk.insts.getLast? = some i ∧ i.index < p.insts.size ∧ blk.succs = p.exits blk :=
  h.last hb (hall b (Table.mem_handles.mpr (Table.lt_size hb)))

theorem rebuildable (h : p.Ended ended) (hall : ∀ b ∈ p.blocks.handles, b ∈ ended) :
    p.Rebuildable := by
  rintro ⟨b, blk⟩ he
  have hb := Table.mem_entries.mp he
  obtain ⟨i, hlast, hi, hsuccs⟩ := h.last_of_all hall hb
  constructor
  · intro j hj
    obtain rfl := Option.some.inj (hlast.symm.trans hj)
    exact hi
  · intro t ht
    rw [← hsuccs] at ht
    exact h.agree.inRange hb t (List.mem_append_left _ ht)

/-- The rows name each source of an edge as often as the target stores it. -/
theorem count_preds (h : p.Ended ended) (hall : ∀ b ∈ p.blocks.handles, b ∈ ended) {c : Block}
    {cblk : BasicBlock} (hc : p.blocks.get? c = some cblk) (s : Block) :
    (edgesInto p.exitRows c).count s = cblk.preds.count s := by
  rw [count_edgesInto]
  cases hs : p.blocks.get? s with
  | some blk =>
    obtain ⟨-, -, -, hsuccs⟩ := h.last_of_all hall hs
    rw [edgesFrom_exitRows hs, ← hsuccs]
    exact h.agree.mirrored hs hc
  | none =>
    -- no row and no edge has a source that does not exist
    have hlt : ¬ s.index < p.blocks.size := fun hlt => by
      obtain ⟨blk, hblk⟩ := Table.exists_get? hlt
      rw [hs] at hblk
      cases hblk
    have hrows : edgesFrom p.exitRows s = [] := by
      refine List.flatMap_eq_nil_iff.mpr fun r hr => if_neg ?_
      rintro rfl
      have hmem : r.1 ∈ p.exitRows.map Prod.fst := List.mem_map_of_mem hr
      rw [map_fst_exitRows, Table.mem_handles] at hmem
      exact hlt hmem
    rw [hrows, List.count_nil, eq_comm, List.count_eq_zero]
    exact fun hmem => hlt (h.agree.inRange hc s (List.mem_append_right _ hmem))

theorem sameEdges (h : p.Ended ended) (hall : ∀ b ∈ p.blocks.handles, b ∈ ended) :
    p.SameEdges p.reconnected := by
  intro b blk hb
  obtain ⟨-, -, -, hsuccs⟩ := h.last_of_all hall hb
  refine ⟨_, by rw [get?_blocks_reconnected, hb, Option.map_some], hsuccs.symm, ?_⟩
  exact List.perm_iff_count.mpr (h.count_preds hall hb)

end Ended

end Procedure

namespace Build

/-- Rebuilding gives the edges of the last instructions, whatever edges there were, and a second
time changes nothing.  Where each block was ended once and as its last step, the edges stay the
same up to the order of predecessors. -/
theorem recomputeEdges_rebuilds :
    (∀ p : Procedure, p.Rebuildable →
      ∃ q, Yields recomputeEdges p () q ∧ p.Rebuilt q ∧ Yields recomputeEdges q () q) ∧
    ∀ (name : String) (steps : List Step), Step.Tidy (.new name) [] steps →
      ∃ q, Yields recomputeEdges (steps.foldl Step.leaves (.new name)) () q ∧
        (steps.foldl Step.leaves (.new name)).SameEdges q := by
  constructor
  · intro p hp
    refine ⟨p.reconnected, hp.yields, Procedure.rebuilt_reconnected, ?_⟩
    have hagain := hp.reconnected.yields
    rwa [Procedure.reconnected_reconnected] at hagain
  · intro name steps hsteps
    obtain ⟨ended, hended, hall⟩ := (Procedure.ended_new name).run hsteps
    exact ⟨_, (hended.rebuildable hall).yields, hended.sameEdges hall⟩

/-- Stored edges that no terminator has, one of them to a missing block.  The entry leads twice to
the loop, the loop to itself, and the last block ends in no terminator. -/
def stale : Procedure where
  name := "stale"
  args := .ofList ["n"]
  entry := ⟨0⟩
  blocks := .ofList
    [{ name := "entry", insts := [⟨0⟩], succs := [⟨2⟩, ⟨9⟩] },
      { name := "loop", insts := [⟨2⟩, ⟨1⟩], preds := [⟨2⟩] },
      { name := "rest", insts := [⟨3⟩], succs := [⟨0⟩], preds := [⟨0⟩, ⟨0⟩] }]
  insts := .ofList
    [{ op := .terminator (.condBr (.arg ⟨0⟩) ⟨1⟩ ⟨1⟩) },
      { op := .terminator (.condBr (.inst ⟨2⟩) ⟨2⟩ ⟨1⟩) },
      { op := .phi [(.arg ⟨0⟩, ⟨0⟩)] }, { op := .compute "print" [.inst ⟨2⟩] false }]
  placed := .empty

/-- A loop whose blocks are ended from the last to the first, the entry by its parts. -/
def endedBackwards : List Step :=
  [.call (.addArg "n"), .call (.addBlock "loop"), .call (.addBlock "exit"),
    .addInst { op := .terminator (.condBr (.arg ⟨0⟩) ⟨1⟩ ⟨2⟩) },
    .call (.endBlock ⟨2⟩ (.ret [])), .call (.appendPhi ⟨1⟩ [(.arg ⟨0⟩, ⟨0⟩)]),
    .call (.endBlock ⟨1⟩ (.condBr (.inst ⟨2⟩) ⟨1⟩ ⟨2⟩)),
    .call (.addIncoming ⟨2⟩ (.inst ⟨2⟩) ⟨1⟩), .addInst { op := .compute "nop" [] false },
    .append ⟨0⟩ ⟨4⟩, .call (.setName ⟨9⟩ "nowhere"), .placeTerminator ⟨0⟩ ⟨0⟩]

theorem recomputeEdges_rebuilds_stale :
    stale.Rebuildable ∧ Step.Tidy (.new "back") [] endedBackwards ∧
      (∃ q, Yields recomputeEdges stale () q ∧ stale.Rebuilt q ∧ Yields recomputeEdges q () q) ∧
      ∃ q, Yields recomputeEdges (endedBackwards.foldl Step.leaves (.new "back")) () q ∧
        (endedBackwards.foldl Step.leaves (.new "back")).SameEdges q := by
  have hstale : stale.Rebuildable := by decide
  have htidy : Step.Tidy (.new "back") [] endedBackwards := by decide
  exact ⟨hstale, htidy, recomputeEdges_rebuilds.1 stale hstale,
    recomputeEdges_rebuilds.2 "back" endedBackwards htidy⟩

end Build

end SsaFlow
