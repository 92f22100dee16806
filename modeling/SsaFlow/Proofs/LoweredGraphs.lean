import SsaFlow.Proofs.Lexing
import SsaFlow.Proofs.Lowering
import SsaFlow.Proofs.Parsing
import SsaFlow.Proofs.ResolvedGraphs
import SsaFlow.Text.Parse

/-!
# Programs that were read can be analysed

The graph of a procedure that was made from a tree has nothing dangling.  Operands and
labels were found in the scope, so they name arguments, instructions and blocks that
exist, and every instruction is listed once.  The predecessors of a block are made from
the successors of all blocks, so the edges are mirrored.
-/

namespace SsaFlow

namespace FlowGraph

theorem mem_predsFrom {succs : List (List Block)} {a b : Block} :
    a ∈ predsFrom succs b ↔ ∃ targets, succs[a.index]? = some targets ∧ b ∈ targets := by
  simp only [predsFrom, List.mem_flatMap, Prod.exists, List.mem_zipIdx_iff_getElem?, List.mem_map,
    List.mem_filter, decide_eq_true_eq]
  constructor
  · rintro ⟨targets, i, hi, _, ⟨hb, rfl⟩, rfl⟩
    exact ⟨targets, hi, hb⟩
  · rintro ⟨targets, ha, hb⟩
    exact ⟨targets, a.index, ha, b, ⟨hb, rfl⟩, rfl⟩

end FlowGraph

namespace ProcTree

variable {t : ProcTree} {s : Scope} {p : Procedure}

theorem mem_successorsOf {ops : List Operation} {b : Block} (h : b ∈ successorsOf ops) :
    ∃ op ∈ ops, ∃ u, op.terminator? = some u ∧ b ∈ u.successors := by
  simp only [successorsOf] at h
  cases hlast : ops.getLast?.bind Operation.terminator? with
  | none =>
    rw [hlast] at h
    cases h
  | some u =>
    rw [hlast] at h
    obtain ⟨op, hop, hu⟩ := Option.bind_eq_some_iff.mp hlast
    exact ⟨op, List.mem_of_getLast? hop, u, hu, h⟩

namespace Lowered

theorem exists_block (h : t.Lowered s p) {b : Block} {blk : BasicBlock}
    (hb : p.blocks.get? b = some blk) :
    ∃ bt, t.blocks[b.index]? = some bt ∧ LoweredBlock s p bt (b, blk) := by
  have he : p.blocks.entries[b.index]? = some (b, blk) := by
    rw [Table.getElem?_entries, hb]
    rfl
  have hlt : b.index < t.blocks.length := by
    rw [h.blocks.length_eq]
    exact (List.getElem?_eq_some_iff.mp he).1
  exact ⟨_, List.getElem?_eq_getElem hlt,
    forall₂_getElem? h.blocks (List.getElem?_eq_getElem hlt) he⟩

theorem size_blocks (h : t.Lowered s p) : p.blocks.size = t.blocks.length := by
  rw [h.blocks.length_eq]
  simp [Table.entries, Table.toList, Table.size]

theorem size_insts (h : t.Lowered s p) : p.insts.size = t.insts.length := by
  rw [h.insts.length_eq]
  rfl

theorem exists_inst (h : t.Lowered s p) {i : Inst} {d : Instruction}
    (hd : p.insts.get? i = some d) :
    ∃ it, t.insts[i.index]? = some it ∧ d.name = it.result ∧ s.operation it = .ok d.op := by
  have hlt : i.index < t.insts.length := h.size_insts ▸ Table.lt_size hd
  rw [← Table.getElem?_toList] at hd
  have hit := forall₂_getElem? h.insts (List.getElem?_eq_getElem hlt) hd
  exact ⟨_, List.getElem?_eq_getElem hlt, hit⟩

theorem lt_size_of_succ (h : t.Lowered s p) {b : Block} {blk : BasicBlock}
    (hb : p.blocks.get? b = some blk) {a : Block} (ha : a ∈ blk.succs) :
    a.index < p.blocks.size := by
  obtain ⟨bt, -, hlow⟩ := h.exists_block hb
  obtain ⟨ops, hops, hsuccs⟩ := hlow.succs
  obtain ⟨op, hop, u, hu, ha⟩ := mem_successorsOf (hsuccs ▸ ha)
  obtain ⟨i, -, hi⟩ := exists_left_of_mem (BlockTree.operations_eq_ok.mp hops).2 hop
  obtain ⟨l, hl⟩ := Scope.block_of_operation hi hu ha
  obtain ⟨bt', hbt', -⟩ := label_of_block h.scope hl
  rw [h.size_blocks]
  exact (List.getElem?_eq_some_iff.mp hbt').1

theorem mem_preds (h : t.Lowered s p) {a b : Block} {blk : BasicBlock}
    (hb : p.blocks.get? b = some blk) :
    a ∈ blk.preds ↔ ∃ ablk, p.blocks.get? a = some ablk ∧ b ∈ ablk.succs := by
  obtain ⟨bt, -, hlow⟩ := h.exists_block hb
  rw [hlow.preds, FlowGraph.mem_predsFrom]
  simp only [List.getElem?_map, Table.getElem?_toList, Option.map_eq_some_iff]
  constructor
  · rintro ⟨_, ⟨ablk, ha, rfl⟩, hb⟩
    exact ⟨ablk, ha, hb⟩
  · rintro ⟨ablk, ha, hb⟩
    exact ⟨_, ⟨ablk, ha, rfl⟩, hb⟩

theorem listed_graph (h : t.Lowered s p) : p.graph.listed = Handle.first p.insts.size := by
  rw [← h.listed, FlowGraph.listed, Procedure.graph, Table.toList_map, List.flatMap_map]

/-- A value of the scope can be found by an analysis. -/
theorem resolvable (h : t.Lowered s p) {o : OperandTree} {v : Value} (hv : s.value o = .ok v) :
    p.graph.Resolvable v := by
  rcases value_cases h.scope hv with ⟨k, -, rfl⟩ | ⟨i, n, -, hi, rfl⟩ | ⟨k, i, n, -, hi, -, rfl⟩
  · trivial
  · have hlt : i < t.args.length := (List.getElem?_eq_some_iff.mp hi).1
    show i < p.args.size
    rw [h.args]
    exact hlt
  · have hlt : k < p.insts.size := h.size_insts ▸ (List.getElem?_eq_some_iff.mp hi).1
    exact ⟨hlt, fun _ _ _ => h.listed_graph ▸ Handle.mem_first.mpr hlt⟩

theorem inRange_graph (h : t.Lowered s p) : p.graph.InRange where
  entry hpos := by
    show p.entry.index < p.graph.numBlocks
    rw [h.entry]
    exact hpos
  succs b n hn a ha := by
    obtain ⟨blk, hblk, rfl⟩ := Procedure.get?_nodes_graph.mp hn
    rw [FlowGraph.numBlocks, Procedure.graph, Table.size_map]
    exact h.lt_size_of_succ hblk ha
  preds b n hn a ha := by
    obtain ⟨blk, hblk, rfl⟩ := Procedure.get?_nodes_graph.mp hn
    obtain ⟨ablk, hablk, -⟩ := (h.mem_preds hblk).mp ha
    rw [FlowGraph.numBlocks, Procedure.graph, Table.size_map]
    exact Table.lt_size hablk

theorem resolved_graph (h : t.Lowered s p) : p.graph.Resolved where
  inRange := h.inRange_graph
  facts := Table.size_map _
  listed i hi := Handle.mem_first.mp (h.listed_graph ▸ hi)
  sought i hi facts hfacts v hv := by
    rw [Procedure.graph, Table.get?_map, Option.map_eq_some_iff] at hfacts
    obtain ⟨d, hd, rfl⟩ := hfacts
    obtain ⟨it, -, -, hop⟩ := h.exists_inst hd
    obtain ⟨o, ho⟩ := Scope.value_of_operation hop (Domain.mem_of_mem_sought hv)
    exact h.resolvable ho

theorem mirrored_graph (h : t.Lowered s p) : p.graph.Mirrored .backward := by
  intro a m b n hm hn hab
  obtain ⟨ablk, hablk, rfl⟩ := Procedure.get?_nodes_graph.mp hm
  obtain ⟨bblk, hbblk, rfl⟩ := Procedure.get?_nodes_graph.mp hn
  exact (h.mem_preds hablk).mpr ⟨bblk, hbblk, hab⟩

theorem nodup_listed_graph (h : t.Lowered s p) : p.graph.listed.Nodup := by
  rw [h.listed_graph, Handle.first]
  exact List.nodup_range.map fun _ _ => Handle.mk.inj

end Lowered

end ProcTree

/-! ## Programs -/

namespace Program

variable {m m' : Program} {text : String}

/-- A text is a program if its tokens are, and all trees of it can be added one after the other. -/
theorem parse_eq_ok :
    parse text = .ok m ↔ ∃ tokens trees, lexFrom 1 text.toList = .ok tokens ∧
      ProgramDerives trees (tokens.map Prod.fst) ∧ trees.foldlM addTree empty = .ok m := by
  simp only [parse, lex_eq, ofTokens, bind_eq_ok, Parser.foldTokens_eq_ok]
  constructor
  · rintro ⟨tokens, htokens, trees, htrees, hm⟩
    exact ⟨tokens, trees, htokens, htrees, hm⟩
  · rintro ⟨tokens, trees, htokens, htrees, hm⟩
    exact ⟨tokens, htokens, trees, htrees, hm⟩

theorem addTree_eq_ok {t : ProcTree} (h : m.addTree t = .ok m') :
    ∃ p, t.lower = .ok p ∧ m' = m.push p := by
  unfold addTree at h
  split at h
  next => cases h
  next =>
    obtain ⟨p, hp, h⟩ := bind_eq_ok.mp h
    exact ⟨p, hp, (pure_eq_ok.mp h).symm⟩

/-- The procedures of a program are those of its trees. -/
theorem forall₂_lower {trees : List ProcTree} (h : trees.foldlM addTree m = .ok m') :
    ∃ ps, m'.funcs.toList = m.funcs.toList ++ ps ∧
      List.Forall₂ (fun t p => t.lower = .ok p) trees ps := by
  induction trees generalizing m with
  | nil =>
    obtain rfl := pure_eq_ok.mp h
    exact ⟨[], (List.append_nil _).symm, .nil⟩
  | cons t trees ih =>
    rw [List.foldlM_cons, bind_eq_ok] at h
    obtain ⟨_, ht, h⟩ := h
    obtain ⟨p, hp, rfl⟩ := addTree_eq_ok ht
    obtain ⟨ps, hps, hlower⟩ := ih h
    refine ⟨p :: ps, ?_, .cons hp hlower⟩
    rw [hps]
    simp [push, Table.push, Table.toList]

/-- A loop through a label that looks like an opcode, with an input that is written below it. -/
def countdownText : String :=
  "; counts down
func @countdown(%n,) \x7b
entry: br ret
ret:
  %i = phi [%n, entry], [%j, ret]
  %j = add %i, -1
  switch %j, exit, [ret,]
exit: ret \x7d
"

/-- The program of `countdownText`. -/
def countdown : Program where
  funcs := .ofList [{
    name := "countdown"
    args := .ofList ["n"]
    entry := ⟨0⟩
    blocks := .ofList [
      { name := "entry", insts := [⟨0⟩], succs := [⟨1⟩] },
      { name := "ret", insts := [⟨1⟩, ⟨2⟩, ⟨3⟩], succs := [⟨2⟩, ⟨1⟩], preds := [⟨0⟩, ⟨1⟩] },
      { name := "exit", insts := [⟨4⟩], preds := [⟨1⟩] }]
    insts := .ofList [
      { op := .terminator (.br ⟨1⟩) },
      { name := some "i", op := .phi [(.arg ⟨0⟩, ⟨0⟩), (.inst ⟨2⟩, ⟨1⟩)] },
      { name := some "j", op := .compute "add" [.inst ⟨1⟩, .const (-1)] true },
      { op := .terminator (.switch (.inst ⟨2⟩) ⟨2⟩ [⟨1⟩]) },
      { op := .terminator (.ret []) }]
    placed := ((((HandleMap.empty.insert ⟨0⟩ ⟨0⟩).insert ⟨1⟩ ⟨1⟩).insert ⟨2⟩ ⟨1⟩).insert ⟨3⟩ ⟨1⟩).insert
      ⟨4⟩ ⟨2⟩ }]

theorem parse_countdownText : parse countdownText = .ok countdown := by decide +kernel

end Program

namespace Liveness

/-- Every procedure of a program that was read has a result, and it passes its own check. -/
theorem analyzeProgram_of_parse {text : String} {m : Program} (h : Program.parse text = .ok m) :
    ∃ ls, analyzeProgram m = .ok (ls.map .ok) ∧
      List.Forall₂ (fun p l => analyze p.graph = .ok l ∧ l.check p.graph = .ok ())
        m.funcs.toList ls := by
  obtain ⟨_, trees, -, htrees, hm⟩ := Program.parse_eq_ok.mp h
  obtain ⟨ps, hps, hlower⟩ := Program.forall₂_lower hm
  have hall : ∀ p ∈ m.funcs.toList, ∃ l, analyze p.graph = .ok l ∧ l.check p.graph = .ok () := by
    intro p hp
    rw [hps] at hp
    obtain ⟨t, ht, hlow⟩ := exists_left_of_mem hlower hp
    obtain ⟨_, hderives, -⟩ := htrees.exists_derives t ht
    obtain ⟨s, hs⟩ := ProcTree.lowered_of_lower hderives.blocks_ne_nil hlow
    exact analyze_and_check_ok hs.resolved_graph hs.mirrored_graph hs.nodup_listed_graph
  obtain ⟨ls, hls⟩ := exists_forall₂ hall
  refine ⟨ls, ?_, hls⟩
  rw [analyzeProgram, mapM_eq_ok, List.forall₂_map_right_iff]
  refine hls.imp fun p l hl => ?_
  rw [hl.1]

theorem analyzeProgram_countdown :
    Program.parse Program.countdownText = .ok Program.countdown ∧
      ∃ ls, analyzeProgram Program.countdown = .ok (ls.map .ok) ∧
        List.Forall₂ (fun p l => analyze p.graph = .ok l ∧ l.check p.graph = .ok ())
          Program.countdown.funcs.toList ls :=
  ⟨Program.parse_countdownText, analyzeProgram_of_parse Program.parse_countdownText⟩

end Liveness

end SsaFlow
