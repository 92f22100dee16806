import SsaFlow.Procedure.Build
import SsaFlow.Proofs.Tables

/-!
# Building keeps both copies in step

Where an instruction stands is stored twice, in the list of a block and in `placed`.
So is every edge, with both of its blocks (`Procedure.EdgesAgree`).  A procedure in which
all copies agree is `Procedure.Coherent`.

A building call that names existing blocks goes through, and there is one closed
form for what it leaves (`Procedure.grown` for the calls that add an instruction).
Each of these forms is coherent if the procedure was.  By induction, so is whatever
a sequence of calls leaves (`Build.Call.coherent_leaves`).
-/

namespace SsaFlow

/-! ## Tables -/

namespace Table

variable {k : Entity} {α : Type} {t : Table k α} {h h' : Handle k}

/-- The table with `f` applied to the slot of `h`, if there is one. -/
def adjust (t : Table k α) (h : Handle k) (f : α → α) : Table k α := ⟨t.slots.modify h.index f⟩

theorem update_of_lt (hlt : h.index < t.size) (f : α → α) : t.update h f = .ok (t.adjust h f) :=
  if_pos hlt

@[simp] theorem size_adjust (f : α → α) : (t.adjust h f).size = t.size := by
  simp [adjust, size]

theorem get?_adjust (f : α → α) :
    (t.adjust h f).get? h' = if h' = h then (t.get? h').map f else t.get? h' := by
  simp only [adjust, get?, Array.getElem?_modify, handle_eq_iff, eq_comm (a := h.index)]

@[simp] theorem size_push (a : α) : (t.push a).size = t.size + 1 := by
  simp [push, size]

theorem get?_push (a : α) : (t.push a).get? h = if h = t.next then some a else t.get? h := by
  simp only [push, get?, Array.getElem?_push, next, handle_eq_iff, size]

theorem get?_push_next (a : α) : (t.push a).get? t.next = some a := by
  rw [get?_push, if_pos rfl]

theorem get?_push_eq_some {a b : α} (hb : (t.push a).get? h = some b) :
    h = t.next ∧ b = a ∨ t.get? h = some b := by
  rw [get?_push] at hb
  split at hb
  next heq => exact .inl ⟨heq, (Option.some.inj hb).symm⟩
  next => exact .inr hb

end Table

/-! ## What calls leave -/

namespace Procedure

/-- The terminator that an instruction is, if it is allocated and one. -/
def terminatorAt? (p : Procedure) (i : Inst) : Option Terminator :=
  (p.insts.get? i).bind fun d => d.op.terminator?

/-- The successors of all terminators in a list of instructions. -/
def targets (p : Procedure) (is : List Inst) : List Block :=
  (is.filterMap p.terminatorAt?).flatMap Terminator.successors

end Procedure

/-- The blocks an operation leads to. -/
def Operation.targets (op : Operation) : List Block :=
  (op.terminator?.map Terminator.successors).getD []

/-- A block `c` with edges from `b` to `ts` added. -/
def BasicBlock.linked (b : Block) (ts : List Block) (c : Block) (blk : BasicBlock) : BasicBlock :=
  { blk with
    succs := if c = b then blk.succs ++ ts else blk.succs
    preds := blk.preds ++ List.replicate (ts.count c) b }

/-- A block `c` after `i` was added to `b` with edges to `ts`. -/
def BasicBlock.grown (b : Block) (i : Inst) (ts : List Block) (c : Block) (blk : BasicBlock) :
    BasicBlock where
  name := blk.name
  insts := if c = b then blk.insts ++ [i] else blk.insts
  succs := if c = b then blk.succs ++ ts else blk.succs
  preds := blk.preds ++ List.replicate (ts.count c) b

namespace Procedure

/-- The procedure with edges from `b` to `ts` added. -/
def linked (p : Procedure) (b : Block) (ts : List Block) : Procedure :=
  { p with blocks := .ofList (p.blocks.entries.map fun e => e.2.linked b ts e.1) }

/-- The procedure with `i` placed at the end of `b`. -/
def appended (p : Procedure) (b : Block) (i : Inst) : Procedure :=
  { p with
    blocks := p.blocks.adjust b fun blk => { blk with insts := blk.insts ++ [i] }
    placed := p.placed.insert i b }

/-- The procedure with a new instruction at the end of `b`, and the edges it implies. -/
def grown (p : Procedure) (b : Block) (op : Operation) : Procedure :=
  { p with
    insts := p.insts.push { op }
    placed := p.placed.insert p.insts.next b
    blocks := p.blocks.adjust b fun blk => { blk with insts := blk.insts ++ [p.insts.next] } }.linked
      b op.targets

variable {p : Procedure} {b c : Block} {ts us : List Block} {op : Operation} {i : Inst}

@[simp] theorem size_blocks_linked : (p.linked b ts).blocks.size = p.blocks.size :=
  Table.size_ofList_entries _

theorem get?_blocks_linked :
    (p.linked b ts).blocks.get? c = (p.blocks.get? c).map (BasicBlock.linked b ts c) :=
  Table.get?_ofList_entries _

theorem exists_of_linked {cblk : BasicBlock} (hc : (p.linked b ts).blocks.get? c = some cblk) :
    ∃ blk, p.blocks.get? c = some blk ∧ blk.linked b ts c = cblk := by
  rwa [get?_blocks_linked, Option.map_eq_some_iff] at hc

/-- Procedures that differ in their blocks only are equal if the blocks are. -/
theorem eq_of_blocks {q : Procedure} (hq : { p with blocks := q.blocks } = q)
    (hsize : p.blocks.size = q.blocks.size) (hget : ∀ c, p.blocks.get? c = q.blocks.get? c) :
    p = q := by
  rw [← hq, ← Table.ext_get? hsize fun c _ => hget c]

theorem linked_nil : p.linked b [] = p := by
  refine eq_of_blocks rfl size_blocks_linked fun c => ?_
  rw [get?_blocks_linked]
  cases p.blocks.get? c with
  | none => rfl
  | some blk => simp [BasicBlock.linked]

theorem linked_linked : (p.linked b ts).linked b us = p.linked b (ts ++ us) := by
  refine eq_of_blocks rfl (by simp) fun c => ?_
  rw [get?_blocks_linked, get?_blocks_linked, get?_blocks_linked, Option.map_map]
  congr 1
  funext blk
  by_cases hc : c = b
  · simp [BasicBlock.linked, hc]
  · simp [BasicBlock.linked, hc]

@[simp] theorem size_blocks_appended : (p.appended b i).blocks.size = p.blocks.size :=
  Table.size_adjust _

theorem get?_blocks_appended :
    (p.appended b i).blocks.get? c = (p.blocks.get? c).map fun blk =>
      if c = b then { blk with insts := blk.insts ++ [i] } else blk := by
  rw [appended, Table.get?_adjust]
  split
  next => rfl
  next => exact Option.map_id'.symm

/-- What is not a terminator may change, as long as it does not become one. -/
theorem terminatorAt?_adjust {f : Instruction → Instruction}
    (hf : ∀ d, p.insts.get? i = some d → (f d).op.terminator? = d.op.terminator?) :
    terminatorAt? { p with insts := p.insts.adjust i f } = p.terminatorAt? := by
  funext j
  simp only [terminatorAt?, Table.get?_adjust]
  split
  next heq =>
    subst heq
    cases hd : p.insts.get? j with
    | none => rfl
    | some d => exact hf d hd
  next => rfl

/-- A new instruction is allocated, placed and linked. -/
theorem grown_eq : p.grown b op =
    (Procedure.appended { p with insts := p.insts.push { op } } b p.insts.next).linked
      b op.targets := rfl

@[simp] theorem size_blocks_grown : (p.grown b op).blocks.size = p.blocks.size := by
  simp [grown]

@[simp] theorem size_insts_grown : (p.grown b op).insts.size = p.insts.size + 1 := by
  simp [grown, linked]

theorem get?_insts_grown :
    (p.grown b op).insts.get? i = if i = p.insts.next then some { op } else p.insts.get? i := by
  simp only [grown, linked, Table.get?_push]

/-- A new instruction changes the block it is added to, and the other ends of its edges. -/
theorem get?_blocks_grown :
    (p.grown b op).blocks.get? c =
      (p.blocks.get? c).map (BasicBlock.grown b p.insts.next op.targets c) := by
  rw [grown, get?_blocks_linked, Table.get?_adjust]
  cases p.blocks.get? c with
  | none => simp
  | some blk =>
    by_cases hc : c = b
    · simp [hc, BasicBlock.linked, BasicBlock.grown]
    · simp [hc, BasicBlock.linked, BasicBlock.grown]

theorem blockOf_grown :
    (p.grown b op).blockOf i = if i = p.insts.next then b else p.blockOf i := by
  simp only [grown, linked, blockOf, HandleMap.getD, HandleMap.get?_insert]
  split
  next => rfl
  next => rfl

end Procedure

namespace Build

variable {p : Procedure} {b : Block} {op : Operation}

theorem updateBlock_yields (hb : b.index < p.blocks.size) (f : BasicBlock → BasicBlock) :
    Yields (updateBlock b f) p () { p with blocks := p.blocks.adjust b f } := by
  simp only [updateBlock, yields_bind, yields_get, yields_lift, yields_set]
  exact ⟨p, p, ⟨rfl, rfl⟩, _, p, ⟨Table.update_of_lt hb f, rfl⟩, rfl⟩

theorem updateInst_yields {i : Inst} (hi : i.index < p.insts.size) (f : Instruction → Instruction) :
    Yields (updateInst i f) p () { p with insts := p.insts.adjust i f } := by
  simp only [updateInst, yields_bind, yields_get, yields_lift, yields_set]
  exact ⟨p, p, ⟨rfl, rfl⟩, _, p, ⟨Table.update_of_lt hi f, rfl⟩, rfl⟩

theorem addEdge_yields {t : Block} (hb : b.index < p.blocks.size) (ht : t.index < p.blocks.size) :
    Yields (addEdge b t) p () (p.linked b [t]) := by
  rw [addEdge, yields_bind]
  refine ⟨(), _, updateBlock_yields hb _, ?_⟩
  have hlinked : p.linked b [t] = { p with blocks := (p.blocks.adjust b fun d =>
      { d with succs := d.succs ++ [t] }).adjust t fun d => { d with preds := d.preds ++ [b] } } := by
    refine Procedure.eq_of_blocks rfl (by simp) fun c => ?_
    rw [Procedure.get?_blocks_linked, Table.get?_adjust, Table.get?_adjust]
    by_cases hb : c = b <;> by_cases ht : c = t <;> cases p.blocks.get? c <;>
      simp_all [BasicBlock.linked, eq_comm]
  rw [hlinked]
  exact updateBlock_yields (by simpa using ht) _

theorem addEdges_yields {ts : List Block} (hb : b.index < p.blocks.size)
    (hts : ∀ t ∈ ts, t.index < p.blocks.size) :
    Yields (ts.forM (addEdge b)) p () (p.linked b ts) := by
  induction ts generalizing p with
  | nil =>
    rw [Procedure.linked_nil]
    exact yields_pure.mpr ⟨rfl, rfl⟩
  | cons t ts ih =>
    rw [List.forM_eq_forM, List.forM_cons, yields_bind]
    have hrest := ih (p := p.linked b [t]) (by simpa using hb)
      fun u hu => by simpa using hts u (List.mem_cons_of_mem _ hu)
    rw [Procedure.linked_linked] at hrest
    exact ⟨(), _, addEdge_yields hb (hts t List.mem_cons_self), hrest⟩

theorem append_yields {i : Inst} (hb : b.index < p.blocks.size) :
    Yields (append b i) p () (p.appended b i) := by
  rw [append, yields_bind]
  exact ⟨(), _, updateBlock_yields hb _, rfl⟩

/-- A computation or a phi can be added to any block that exists. -/
theorem appendNew_yields (hb : b.index < p.blocks.size) (hop : op.targets = []) :
    Yields (appendNew b op) p p.insts.next (p.grown b op) := by
  rw [Procedure.grown, hop, Procedure.linked_nil, appendNew, yields_bind]
  refine ⟨p.insts.next, { p with insts := p.insts.push { op } }, rfl, ?_⟩
  rw [yields_bind]
  exact ⟨(), _, append_yields hb, rfl⟩

/-- An allocated instruction can be placed with its edges, if the targets exist. -/
theorem placeTerminator_yields {i : Inst} {d : Instruction} (hb : b.index < p.blocks.size)
    (hd : p.insts.get? i = some d) (ht : ∀ a ∈ d.op.targets, a.index < p.blocks.size) :
    Yields (placeTerminator b i) p () ((p.appended b i).linked b d.op.targets) := by
  rw [placeTerminator, yields_bind]
  refine ⟨(), _, append_yields hb, ?_⟩
  simp only [yields_bind, yields_get, yields_lift]
  refine ⟨_, _, ⟨rfl, rfl⟩, d, _, ⟨Table.read_eq_ok.mpr hd, rfl⟩, ?_⟩
  rw [Operation.targets] at ht ⊢
  cases hterm : d.op.terminator? with
  | none => exact yields_pure.mpr ⟨rfl, Procedure.linked_nil.symm⟩
  | some t =>
    rw [hterm] at ht
    exact addEdges_yields (by simpa using hb) (by simpa using ht)

/-- A block that exists can be ended, if the targets exist, whether or not it was ended before. -/
theorem endBlock_yields {t : Terminator} (hb : b.index < p.blocks.size)
    (ht : ∀ a ∈ t.successors, a.index < p.blocks.size) :
    Yields (endBlock b t) p p.insts.next (p.grown b (.terminator t)) := by
  rw [endBlock, yields_bind]
  refine ⟨p.insts.next, { p with insts := p.insts.push { op := .terminator t } }, rfl, ?_⟩
  rw [yields_bind]
  exact ⟨(), _, placeTerminator_yields hb (Table.get?_push_next _) ht, rfl⟩

theorem addIncoming_yields {i : Inst} {d : Instruction} {pairs : List (Value × Block)}
    (hd : p.insts.get? i = some d) (hop : d.op = .phi pairs) (v : Value) (pred : Block) :
    Yields (addIncoming i v pred) p ()
      { p with insts := p.insts.adjust i fun d => { d with op := .phi (pairs ++ [(v, pred)]) } } := by
  simp only [addIncoming, yields_bind, yields_get, yields_lift]
  refine ⟨p, p, ⟨rfl, rfl⟩, d, p, ⟨Table.read_eq_ok.mpr hd, rfl⟩, ?_⟩
  rw [hop]
  exact updateInst_yields (Table.lt_size hd) _

end Build

/-! ## Edges with both ends -/

namespace Procedure

/-- Each edge is stored as often with its source as with its target, and both exist. -/
structure EdgesAgree (p : Procedure) : Prop where
  mirrored : ∀ {b c blk cblk}, p.blocks.get? b = some blk → p.blocks.get? c = some cblk →
    blk.succs.count c = cblk.preds.count b
  inRange : ∀ {b blk}, p.blocks.get? b = some blk →
    ∀ a ∈ blk.succs ++ blk.preds, a.index < p.blocks.size

namespace EdgesAgree

variable {p q : Procedure} {b : Block} {ts : List Block}

/-- Only the edges matter. -/
theorem of_blocks (h : p.EdgesAgree) (hsize : q.blocks.size = p.blocks.size)
    (hget : ∀ {b blk'}, q.blocks.get? b = some blk' →
      ∃ blk, p.blocks.get? b = some blk ∧ blk'.succs = blk.succs ∧ blk'.preds = blk.preds) :
    q.EdgesAgree := by
  constructor
  · intro b c blk' cblk' hb hc
    obtain ⟨blk, hblk, hsuccs, -⟩ := hget hb
    obtain ⟨cblk, hcblk, -, hpreds⟩ := hget hc
    rw [hsuccs, hpreds]
    exact h.mirrored hblk hcblk
  · intro b blk' hb
    obtain ⟨blk, hblk, hsuccs, hpreds⟩ := hget hb
    rw [hsuccs, hpreds, hsize]
    exact h.inRange hblk

theorem appended (h : p.EdgesAgree) (b : Block) (i : Inst) : (p.appended b i).EdgesAgree := by
  refine h.of_blocks size_blocks_appended fun {c blk'} hc => ?_
  rw [get?_blocks_appended, Option.map_eq_some_iff] at hc
  obtain ⟨blk, hblk, rfl⟩ := hc
  refine ⟨blk, hblk, ?_⟩
  split
  next => exact ⟨rfl, rfl⟩
  next => exact ⟨rfl, rfl⟩

/-- A new block has no edges, since no other names it. -/
theorem addBlock (h : p.EdgesAgree) (name : String) :
    EdgesAgree { p with blocks := p.blocks.push { name } } := by
  have hnew : ∀ {b blk}, p.blocks.get? b = some blk →
      blk.succs.count p.blocks.next = 0 ∧ blk.preds.count p.blocks.next = 0 := by
    intro b blk hb
    have hlt := h.inRange hb
    constructor
    · refine List.count_eq_zero.mpr fun hmem => ?_
      exact Nat.lt_irrefl _ (hlt _ (List.mem_append_left _ hmem))
    · refine List.count_eq_zero.mpr fun hmem => ?_
      exact Nat.lt_irrefl _ (hlt _ (List.mem_append_right _ hmem))
  constructor
  · intro b c blk cblk hb hc
    rcases Table.get?_push_eq_some hb with ⟨rfl, rfl⟩ | hb
    · rcases Table.get?_push_eq_some hc with ⟨rfl, rfl⟩ | hc
      · rfl
      · exact (hnew hc).2.symm
    · rcases Table.get?_push_eq_some hc with ⟨rfl, rfl⟩ | hc
      · exact (hnew hb).1
      · exact h.mirrored hb hc
  · intro b blk hb a ha
    rcases Table.get?_push_eq_some hb with ⟨rfl, rfl⟩ | hb
    · cases ha
    · simpa using Nat.lt_succ_of_lt (h.inRange hb a ha)

/-- New edges are added at both ends. -/
theorem linked (h : p.EdgesAgree) (hb : b.index < p.blocks.size)
    (hts : ∀ a ∈ ts, a.index < p.blocks.size) : (p.linked b ts).EdgesAgree := by
  constructor
  · intro c e cblk eblk hc he
    obtain ⟨blk, hblk, rfl⟩ := exists_of_linked hc
    obtain ⟨blk', hblk', rfl⟩ := exists_of_linked he
    have hold := h.mirrored hblk hblk'
    by_cases hcb : c = b
    · subst hcb
      simp [BasicBlock.linked, hold]
    · simp [BasicBlock.linked, hcb, List.count_replicate, hold, Ne.symm hcb]
  · intro c cblk hc a ha
    obtain ⟨blk, hblk, rfl⟩ := exists_of_linked hc
    rw [size_blocks_linked]
    rcases List.mem_append.mp ha with ha | ha
    · simp only [BasicBlock.linked] at ha
      split at ha
      next =>
        rcases List.mem_append.mp ha with ha | ha
        · exact h.inRange hblk a (List.mem_append_left _ ha)
        · exact hts a ha
      next => exact h.inRange hblk a (List.mem_append_left _ ha)
    · rcases List.mem_append.mp ha with ha | ha
      · exact h.inRange hblk a (List.mem_append_right _ ha)
      · rw [List.eq_of_mem_replicate ha]
        exact hb

end EdgesAgree

end Procedure

/-! ## Coherent procedures -/

namespace Procedure

/-- Both copies of each placement and of each edge agree, and the edges are those of the listed
terminators. -/
structure Coherent (p : Procedure) : Prop where
  placed : ∀ {i : Inst}, i.index < p.insts.size → (p.blockOf i).index < p.blocks.size
  listed : ∀ {b blk}, p.blocks.get? b = some blk → ∀ i : Inst,
    blk.insts.count i = if i.index < p.insts.size ∧ p.blockOf i = b then 1 else 0
  succs : ∀ {b blk}, p.blocks.get? b = some blk → blk.succs = p.targets blk.insts
  mirrored : ∀ {b c blk cblk}, p.blocks.get? b = some blk → p.blocks.get? c = some cblk →
    blk.succs.count c = cblk.preds.count b
  inRange : ∀ {b blk}, p.blocks.get? b = some blk →
    ∀ a ∈ blk.succs ++ blk.preds, a.index < p.blocks.size

variable {p : Procedure} {b : Block} {blk : BasicBlock} {i : Inst} {op : Operation}

theorem get?_blocks_new {name : String} (h : (new name).blocks.get? b = some blk) :
    blk.insts = [] ∧ blk.succs = [] ∧ blk.preds = [] := by
  have hmem : blk ∈ (new name).blocks.toList := Table.mem_toList.mpr ⟨b, h⟩
  obtain rfl := List.mem_singleton.mp hmem
  exact ⟨rfl, rfl, rfl⟩

theorem coherent_new (name : String) : (new name).Coherent := by
  refine ⟨fun hi => absurd hi (Nat.not_lt_zero _), ?_, ?_, ?_, ?_⟩
  · intro b blk h i
    rw [(get?_blocks_new h).1]
    simp [new, Table.size, Table.empty]
  · intro b blk h
    rw [(get?_blocks_new h).1, (get?_blocks_new h).2.1]
    rfl
  · intro b c blk cblk h h'
    rw [(get?_blocks_new h).2.1, (get?_blocks_new h').2.2]
    rfl
  · intro b blk h
    rw [(get?_blocks_new h).2.1, (get?_blocks_new h).2.2]
    exact List.forall_mem_nil _

theorem targets_append (is js : List Inst) :
    p.targets (is ++ js) = p.targets is ++ p.targets js := by
  simp [targets]

namespace Coherent

/-- What a block lists is allocated, and was placed there. -/
theorem of_mem (h : p.Coherent) (hb : p.blocks.get? b = some blk) (hi : i ∈ blk.insts) :
    i.index < p.insts.size ∧ p.blockOf i = b := by
  have hcount := h.listed hb i
  by_contra hnot
  rw [if_neg hnot] at hcount
  exact List.count_eq_zero.mp hcount hi

theorem ne_next (h : p.Coherent) (hb : p.blocks.get? b = some blk) (hi : i ∈ blk.insts) :
    i ≠ p.insts.next := by
  rintro rfl
  exact Nat.lt_irrefl _ (h.of_mem hb hi).1

theorem addArg (h : p.Coherent) (name : String) :
    { p with args := p.args.push name }.Coherent :=
  ⟨h.placed, h.listed, h.succs, h.mirrored, h.inRange⟩

theorem edgesAgree (h : p.Coherent) : p.EdgesAgree := ⟨h.mirrored, h.inRange⟩

theorem addBlock (h : p.Coherent) (name : String) :
    { p with blocks := p.blocks.push { name } }.Coherent := by
  have hedges := h.edgesAgree.addBlock name
  refine ⟨?_, ?_, ?_, hedges.mirrored, hedges.inRange⟩
  · intro i hi
    rw [Table.size_push]
    exact Nat.lt_succ_of_lt (h.placed hi)
  · intro b blk hb i
    rcases Table.get?_push_eq_some hb with ⟨rfl, rfl⟩ | hb
    · have hne : ¬ (i.index < p.insts.size ∧ p.blockOf i = p.blocks.next) := by
        intro ⟨hi, hnext⟩
        have hlt := h.placed hi
        rw [hnext] at hlt
        exact Nat.lt_irrefl _ hlt
      exact (if_neg hne).symm
    · exact h.listed hb i
  · intro b blk hb
    rcases Table.get?_push_eq_some hb with ⟨rfl, rfl⟩ | hb
    · rfl
    · exact h.succs hb

theorem adjustInst (h : p.Coherent) {f : Instruction → Instruction}
    (hf : ∀ d, p.insts.get? i = some d → (f d).op.terminator? = d.op.terminator?) :
    { p with insts := p.insts.adjust i f }.Coherent := by
  refine ⟨?_, ?_, ?_, h.mirrored, h.inRange⟩
  · intro j hj
    rw [Table.size_adjust] at hj
    exact h.placed hj
  · intro b blk hb j
    rw [Table.size_adjust]
    exact h.listed hb j
  · intro b blk hb
    rw [targets, terminatorAt?_adjust hf]
    exact h.succs hb

theorem targets_grown (h : p.Coherent) (hb : p.blocks.get? b = some blk) {c : Block} :
    (p.grown c op).targets blk.insts = p.targets blk.insts := by
  unfold targets
  congr 1
  refine List.filterMap_congr fun i hi => ?_
  rw [terminatorAt?, get?_insts_grown, if_neg (h.ne_next hb hi), terminatorAt?]

theorem targets_grown_next {c : Block} : (p.grown c op).targets [p.insts.next] = op.targets := by
  simp only [targets, terminatorAt?, get?_insts_grown, if_pos, List.filterMap_cons,
    Option.bind_some]
  cases op with
  | terminator t => simp [Operation.targets, Operation.terminator?]
  | _ => rfl

/-- A new instruction is placed once, and its edges are added at both ends. -/
theorem grown (h : p.Coherent) (hb : b.index < p.blocks.size)
    (ht : ∀ a ∈ op.targets, a.index < p.blocks.size) : (p.grown b op).Coherent := by
  have hget : ∀ {c cblk}, (p.grown b op).blocks.get? c = some cblk →
      ∃ blk, p.blocks.get? c = some blk ∧ blk.grown b p.insts.next op.targets c = cblk := by
    intro c cblk hc
    rwa [get?_blocks_grown, Option.map_eq_some_iff] at hc
  have hallocated : EdgesAgree { p with insts := p.insts.push { op } } :=
    ⟨h.mirrored, h.inRange⟩
  have hedges : (p.grown b op).EdgesAgree := by
    rw [grown_eq]
    exact (hallocated.appended b _).linked (by simpa using hb) (by simpa using ht)
  refine ⟨?_, ?_, ?_, hedges.mirrored, hedges.inRange⟩
  · intro i hi
    rw [blockOf_grown, size_blocks_grown]
    split
    next => exact hb
    next hne =>
      refine h.placed (Nat.lt_of_le_of_ne ?_ (mt Table.handle_eq_iff.mpr hne))
      simpa [Nat.lt_succ_iff] using hi
  · intro c cblk hc i
    obtain ⟨blk, hblk, rfl⟩ := hget hc
    rw [blockOf_grown, size_insts_grown]
    have hold := h.listed hblk i
    by_cases hi : i = p.insts.next
    · -- the new instruction was in no list before
      subst hi
      have hfresh : ¬ p.insts.next.index < p.insts.size := Nat.lt_irrefl _
      rw [if_neg fun hand => hfresh hand.1] at hold
      rw [if_pos rfl]
      by_cases hcb : c = b
      · have hlt : p.insts.next.index < p.insts.size + 1 := Nat.lt_succ_self _
        simp [BasicBlock.grown, hcb, hold, hlt]
      · simp [BasicBlock.grown, hcb, Ne.symm hcb, hold]
    · have hlt : i.index < p.insts.size + 1 ↔ i.index < p.insts.size := by
        have hne : i.index ≠ p.insts.size := mt Table.handle_eq_iff.mpr hi
        omega
      by_cases hcb : c = b
      · subst hcb
        simp [BasicBlock.grown, hi, hlt, hold, Ne.symm hi]
      · simp [BasicBlock.grown, hi, hcb, hlt, hold]
  · intro c cblk hc
    obtain ⟨blk, hblk, rfl⟩ := hget hc
    have hold : (p.grown b op).targets blk.insts = blk.succs :=
      (h.targets_grown hblk).trans (h.succs hblk).symm
    by_cases hcb : c = b
    · simp only [BasicBlock.grown, if_pos hcb, targets_append, hold, targets_grown_next]
    · simp only [BasicBlock.grown, if_neg hcb, hold]

end Coherent

end Procedure

/-! ## Sequences of calls -/

namespace Build

/-- A call that builds on a procedure. -/
inductive Call where
  | addArg (name : String)
  | addBlock (name : String)
  | appendOp (b : Block) (opcode : String) (args : List Value) (hasResult : Bool)
  | appendPhi (b : Block) (incoming : List (Value × Block))
  | addIncoming (i : Inst) (v : Value) (pred : Block)
  | setName (i : Inst) (name : String)
  | endBlock (b : Block) (t : Terminator)

namespace Call

/-- Makes the call. -/
def perform : Call → Build Unit
  | addArg name => do let _ ← Build.addArg name
  | addBlock name => do let _ ← Build.addBlock name
  | appendOp b opcode args hasResult => do let _ ← Build.appendOp b opcode args hasResult
  | appendPhi b incoming => do let _ ← Build.appendPhi b incoming
  | addIncoming i v pred => Build.addIncoming i v pred
  | setName i name => Build.setName i name
  | endBlock b t => do let _ ← Build.endBlock b t

/-- The procedure after a call, which may have ended in a fault. -/
def leaves (p : Procedure) (c : Call) : Procedure := (c.perform.run.run p).2

/-- The blocks that a call adds to or leads to. -/
def blocks : Call → List Block
  | addArg _ => []
  | addBlock _ => []
  | appendOp b _ _ _ => [b]
  | appendPhi b _ => [b]
  | addIncoming _ _ _ => []
  | setName _ _ => []
  | endBlock b t => b :: t.successors

/-- These blocks exist. -/
def BlocksExist (p : Procedure) (c : Call) : Prop := ∀ b ∈ c.blocks, b.index < p.blocks.size

/-- An instruction that is named exists, and one that gets a pair is a phi. -/
def InstFits (p : Procedure) : Call → Prop
  | addIncoming i _ _ => ∃ d ∈ p.insts.get? i, d.op.kind = .phi
  | setName i _ => i.index < p.insts.size
  | _ => True

/-- Every call of the sequence finds its blocks when it is made. -/
def Legal : Procedure → List Call → Prop
  | _, [] => True
  | p, c :: cs => c.BlocksExist p ∧ Legal (c.leaves p) cs

instance decidableBlocksExist {p : Procedure} {c : Call} : Decidable (c.BlocksExist p) :=
  inferInstanceAs (Decidable (∀ b ∈ c.blocks, b.index < p.blocks.size))

instance decidableLegal : ∀ (p : Procedure) (cs : List Call), Decidable (Legal p cs)
  | _, [] => .isTrue trivial
  | p, c :: cs =>
    have := decidableLegal (c.leaves p) cs
    inferInstanceAs (Decidable (c.BlocksExist p ∧ Legal (c.leaves p) cs))

variable {p : Procedure} {c : Call}

theorem leaves_of_yields {p' : Procedure} (h : Yields c.perform p () p') : c.leaves p = p' := by
  rw [leaves, show c.perform.run.run p = (.ok (), p') from h]

theorem yields_unit {α : Type} {x : Build α} {a : α} {p' : Procedure} (h : Yields x p a p') :
    Yields (do let _ ← x) p () p' :=
  yields_bind.mpr ⟨a, p', h, rfl⟩

/-- A phi that gets a pair is no terminator before or after. -/
theorem yields_addIncoming {i : Inst} {v : Value} {pred : Block}
    (hi : (addIncoming i v pred).InstFits p) :
    ∃ f : Instruction → Instruction,
      Yields (addIncoming i v pred).perform p () { p with insts := p.insts.adjust i f } ∧
        ∀ d, p.insts.get? i = some d → (f d).op.terminator? = d.op.terminator? := by
  obtain ⟨d, hd, hkind⟩ := hi
  cases hop : d.op with
  | phi pairs =>
    refine ⟨_, addIncoming_yields hd hop v pred, fun e he => ?_⟩
    obtain rfl := Option.some.inj (hd.symm.trans he)
    rw [hop]
    rfl
  | _ =>
    rw [hop] at hkind
    cases hkind

/-- A call that finds its blocks and its instruction goes through. -/
theorem yields_of_fits (hp : p.Coherent) (hc : c.BlocksExist p) (hi : c.InstFits p) :
    ∃ p', Yields c.perform p () p' ∧ p'.Coherent := by
  cases c with
  | addArg name => exact ⟨_, yields_unit rfl, hp.addArg name⟩
  | addBlock name => exact ⟨_, yields_unit rfl, hp.addBlock name⟩
  | appendOp b opcode args hasResult =>
    have hb : b.index < p.blocks.size := hc b List.mem_cons_self
    exact ⟨_, yields_unit (appendNew_yields hb rfl), hp.grown hb nofun⟩
  | appendPhi b incoming =>
    have hb : b.index < p.blocks.size := hc b List.mem_cons_self
    exact ⟨_, yields_unit (appendNew_yields hb rfl), hp.grown hb nofun⟩
  | addIncoming i v pred =>
    obtain ⟨f, hyields, hf⟩ := yields_addIncoming hi
    exact ⟨_, hyields, hp.adjustInst hf⟩
  | setName i name => exact ⟨_, updateInst_yields hi _, hp.adjustInst fun _ _ => rfl⟩
  | endBlock b t =>
    have hb : b.index < p.blocks.size := hc b List.mem_cons_self
    have ht : ∀ a ∈ t.successors, a.index < p.blocks.size :=
      fun a ha => hc a (List.mem_cons_of_mem _ ha)
    exact ⟨_, yields_unit (endBlock_yields hb ht), hp.grown hb ht⟩

theorem run_lift_error {α β : Type} {x : Except Fault α} {e : Fault} (hx : x = .error e)
    (k : α → Build β) : ((liftM x : Build α) >>= k).run.run p = (.error e, p) := by
  subst hx
  rfl

/-- A call that does not find its instruction changes nothing. -/
theorem leaves_of_not_fits (hi : ¬ c.InstFits p) : c.leaves p = p := by
  cases c with
  | addIncoming i v pred =>
    cases hd : p.insts.get? i with
    | none =>
      have hread : p.insts.read i = .error (p.insts.missing i) := by
        rw [Table.read, hd]
      exact congrArg Prod.snd (run_lift_error hread _)
    | some d =>
      have hread : p.insts.read i = .ok d := Table.read_eq_ok.mpr hd
      rw [leaves, perform, Build.addIncoming]
      show (((liftM (p.insts.read i) : Build Instruction) >>= _).run.run p).2 = p
      rw [hread]
      obtain ⟨name, op⟩ := d
      cases op with
      | phi pairs => exact absurd ⟨_, hd, rfl⟩ hi
      | _ => rfl
  | setName i name =>
    have hupdate : p.insts.update i (fun d => { d with name := some name }) =
        .error (p.insts.missing i) := if_neg hi
    exact congrArg Prod.snd (run_lift_error hupdate _)
  | _ => exact absurd trivial hi

/-- One call keeps a procedure coherent, whether it goes through or not. -/
theorem coherent_leaves (hp : p.Coherent) (hc : c.BlocksExist p) : (c.leaves p).Coherent := by
  by_cases hi : c.InstFits p
  · obtain ⟨p', hyields, hp'⟩ := yields_of_fits hp hc hi
    rwa [leaves_of_yields hyields]
  · rwa [leaves_of_not_fits hi]

theorem coherent_foldl_leaves {cs : List Call} (hp : p.Coherent) (hcs : Legal p cs) :
    (cs.foldl leaves p).Coherent := by
  induction cs generalizing p with
  | nil => exact hp
  | cons c cs ih => exact ih (coherent_leaves hp hcs.1) hcs.2

end Call

end Build

/-- Each allocated instruction stands in one list, once, and was placed there.  Each edge is stored
as often with its source as with its target, and as often as a terminator of the source has it. -/
structure Procedure.InStep (p : Procedure) : Prop where
  placed : ∀ i : Inst, i.index < p.insts.size →
    ∃ blk, p.blocks.get? (p.blockOf i) = some blk ∧ blk.insts.count i = 1 ∧
      ∀ b blk', p.blocks.get? b = some blk' → i ∈ blk'.insts → b = p.blockOf i
  edges : ∀ b c blk cblk, p.blocks.get? b = some blk → p.blocks.get? c = some cblk →
    blk.succs.count c = cblk.preds.count b ∧
      blk.succs.count c = (p.targets blk.insts).count c

theorem Procedure.Coherent.inStep {p : Procedure} (h : p.Coherent) : p.InStep where
  placed i hi := by
    obtain ⟨blk, hblk⟩ := Table.exists_get? (h.placed hi)
    refine ⟨blk, hblk, ?_, fun b blk' hb hmem => (h.of_mem hb hmem).2.symm⟩
    rw [h.listed hblk, if_pos ⟨hi, rfl⟩]
  edges b c blk cblk hb hc := ⟨h.mirrored hb hc, by rw [h.succs hb]⟩

namespace Build

/-- After any sequence of calls that find their blocks, the copies are in step, and any further call
that finds its blocks and its instruction goes through. -/
theorem inStep_of_legal {name : String} {cs : List Call} (h : Call.Legal (.new name) cs) :
    (cs.foldl Call.leaves (.new name)).InStep ∧
      ∀ c : Call, c.BlocksExist (cs.foldl Call.leaves (.new name)) →
        c.InstFits (cs.foldl Call.leaves (.new name)) →
        Yields c.perform (cs.foldl Call.leaves (.new name)) ()
          ((cs ++ [c]).foldl Call.leaves (.new name)) := by
  have hcoherent := Call.coherent_foldl_leaves (Procedure.coherent_new name) h
  refine ⟨hcoherent.inStep, fun c hc hi => ?_⟩
  obtain ⟨p', hyields, -⟩ := Call.yields_of_fits hcoherent hc hi
  rw [List.foldl_append, List.foldl_cons, List.foldl_nil, Call.leaves_of_yields hyields]
  exact hyields

/-- A loop that is left by ending its block a second time. -/
def loopTwiceEnded : List Call :=
  [.addArg "n", .addBlock "loop", .endBlock ⟨0⟩ (.br ⟨1⟩), .appendPhi ⟨1⟩ [(.arg ⟨0⟩, ⟨0⟩)],
    .appendOp ⟨1⟩ "sub" [.inst ⟨1⟩, .const 1] true, .addIncoming ⟨1⟩ (.inst ⟨2⟩) ⟨1⟩,
    .endBlock ⟨1⟩ (.condBr (.inst ⟨2⟩) ⟨1⟩ ⟨1⟩), .addBlock "", .setName ⟨2⟩ "next",
    .endBlock ⟨1⟩ (.br ⟨2⟩), .setName ⟨9⟩ "nowhere", .endBlock ⟨2⟩ (.ret [.inst ⟨2⟩])]

theorem inStep_loopTwiceEnded :
    Call.Legal (.new "down") loopTwiceEnded ∧
      (loopTwiceEnded.foldl Call.leaves (.new "down")).InStep := by
  have hlegal : Call.Legal (.new "down") loopTwiceEnded := by decide
  exact ⟨hlegal, (inStep_of_legal hlegal).1⟩

end Build

end SsaFlow
