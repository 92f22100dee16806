import SsaFlow.FlowGraph
import SsaFlow.HandleMap

/-!
# Orders of blocks

A depth-first search from the entry visits every block it can reach.  A block
is finished after all the blocks that were first found through it.  The list of
blocks by the time they are finished is the *postorder*, and backwards it is
the *reverse postorder*.  Successors are tried in the order they are listed.

The search keeps its own stack, so a long chain of blocks does no harm.  A
frame of the stack is a block with the successors not tried yet.  Every step
either drops a successor, or finishes a block, or opens a block that was not
visited.  `FlowGraph.work` counts the steps that are still possible.

`BlockOrder` keeps what the search found, with the blocks it did not reach.
-/

namespace SsaFlow

namespace FlowGraph

/-! ## The search -/

/-- The frames of a search: open blocks with their successors not tried yet, the latest first. -/
abbrev Frames := List (Block × List Block)

/-- The steps that the open blocks can still take. -/
def Frames.work : Frames → Nat
  | [] => 0
  | (_, untried) :: rest => untried.length + 1 + Frames.work rest

/-- The steps that the blocks not visited yet can take. -/
def unvisitedWork (visited : List Block) : List (Block × Node) → Nat
  | [] => 0
  | (b, n) :: rest =>
    (if b ∈ visited then 0 else n.succs.length + 1) + unvisitedWork visited rest

/-- The steps that are still possible in a search. -/
def work (g : FlowGraph) (frames : Frames) (visited : List Block) : Nat :=
  frames.work + unvisitedWork visited g.nodes.entries

/-- Visiting a block adds no steps. -/
theorem unvisitedWork_cons_le (b : Block) (visited : List Block) (entries : List (Block × Node)) :
    unvisitedWork (b :: visited) entries ≤ unvisitedWork visited entries := by
  induction entries with
  | nil => simp [unvisitedWork]
  | cons e rest ih =>
    obtain ⟨c, n⟩ := e
    simp only [unvisitedWork, List.mem_cons]
    by_cases hc : c ∈ visited
    · simpa [hc] using ih
    · by_cases hcb : c = b <;> simp [hc, hcb] <;> omega

/-- Visiting a block takes its steps from those of the blocks not visited yet. -/
theorem unvisitedWork_cons {visited : List Block} {b : Block} {n : Node} (hb : b ∉ visited) :
    ∀ {entries : List (Block × Node)}, (b, n) ∈ entries →
      n.succs.length + 1 + unvisitedWork (b :: visited) entries ≤ unvisitedWork visited entries
  | (c, m) :: rest, hmem => by
    simp only [unvisitedWork, List.mem_cons]
    rcases List.mem_cons.mp hmem with heq | hmem
    · obtain ⟨rfl, rfl⟩ := Prod.mk.injEq .. ▸ heq
      have := unvisitedWork_cons_le b visited rest
      simp [hb]
      omega
    · have := unvisitedWork_cons hb hmem
      by_cases hc : c ∈ visited
      · simpa [hc] using this
      · by_cases hcb : c = b <;> simp [hc, hcb] <;> omega

/-- A block with successors has an entry with them. -/
theorem exists_entry_of_succs {g : FlowGraph} {b : Block} {ss : List Block}
    (h : g.succs b = .ok ss) : ∃ n, (b, n) ∈ g.nodes.entries ∧ n.succs = ss := by
  obtain ⟨i⟩ := b
  simp only [succs, Table.read, Table.get?] at h
  cases hn : g.nodes.slots[i]? with
  | none => simp [hn, bind, Except.bind] at h
  | some n =>
    refine ⟨n, ?_, by simpa [hn, bind, Except.bind, pure, Except.pure] using h⟩
    simp only [Table.entries, Table.toList, List.mem_map, Prod.exists]
    exact ⟨n, i, List.mem_zipIdx_iff_getElem?.mpr (by simpa using hn), rfl⟩

/-- Opening a block that was not visited takes a step. -/
theorem work_open {g : FlowGraph} {visited : List Block} {s : Block} {next : List Block}
    (hv : s ∉ visited) (hs : g.succs s = .ok next) (b : Block) (ss : List Block) (rest : Frames) :
    g.work ((s, next) :: (b, ss) :: rest) (s :: visited) < g.work ((b, s :: ss) :: rest) visited := by
  obtain ⟨n, hn, rfl⟩ := exists_entry_of_succs hs
  have := unvisitedWork_cons hv hn
  simp only [work, Frames.work, List.length_cons]
  omega

/-- Runs a search to its end.  `done` holds the finished blocks, the latest first. -/
def search (g : FlowGraph) (frames : Frames) (visited done : List Block) :
    Except Fault (List Block) :=
  match frames with
  | [] => .ok done
  | (b, []) :: rest => g.search rest visited (b :: done)
  | (b, s :: ss) :: rest =>
    if hv : s ∈ visited then g.search ((b, ss) :: rest) visited done
    else
      match hs : g.succs s with
      | .error f => .error f
      | .ok next =>
        have := work_open hv hs b ss rest
        g.search ((s, next) :: (b, ss) :: rest) (s :: visited) done
termination_by g.work frames visited
decreasing_by
  · simp [work, Frames.work]
  · simp [work, Frames.work]
  · exact this

/-- The blocks reachable from the entry, the latest finished first.  A graph without blocks has
none. -/
def reversePostorder (g : FlowGraph) : Except Fault (List Block) := do
  if g.numBlocks = 0 then return []
  else g.search [(g.entry, ← g.succs g.entry)] [g.entry] []

/-- The blocks reachable from the entry, each after all of its successors but those on a way back. -/
def postorder (g : FlowGraph) : Except Fault (List Block) := do
  return (← g.reversePostorder).reverse

end FlowGraph

/-! ## What a search found -/

/-- The order and the reachability of the blocks of a graph. -/
structure BlockOrder where
  /-- Where control enters. -/
  entry : Block
  /-- The blocks without successors, in layout order. -/
  exits : List Block
  /-- The reachable blocks in reverse postorder. -/
  rpo : Table .rpo Block
  /-- The position of every reachable block in `rpo`. -/
  positions : HandleMap .block RpoIndex
  /-- The blocks that cannot be reached, in layout order. -/
  unreachable : List Block
deriving DecidableEq

namespace BlockOrder

/-- The order of the blocks of a graph. -/
def ofGraph (g : FlowGraph) : Except Fault BlockOrder := do
  let exits := (g.nodes.entries.filter fun e => e.2.succs.isEmpty).map Prod.fst
  let rpo := Table.ofList (← g.reversePostorder)
  let positions := rpo.entries.foldl (fun m (i, b) => m.insert b i) HandleMap.empty
  let unreachable := g.blocks.filter fun b => (positions.get? b).isNone
  return { entry := g.entry, exits, rpo, positions, unreachable }

/-- Whether a block can be reached from the entry. -/
def isReachable (o : BlockOrder) (b : Block) : Bool := (o.positions.get? b).isSome

/-- The reachable blocks in postorder. -/
def postorder (o : BlockOrder) : List Block := o.rpo.toList.reverse

end BlockOrder

end SsaFlow
