import SsaFlow.FlowGraph.Order

/-!
# Dataflow problems

A dataflow problem assigns two values to every block.  The *meet side* of a
block is met together from its neighbours, and the *transfer side* is computed
from the meet side.  In a forward problem the meet side is what holds at the
start of the block and its neighbours are the predecessors.  In a backward
problem it is what holds at the end, and the neighbours are the successors.

A transfer may keep a record on the side, in a state of the type `σ`.  It may
fail, and what it recorded before that stays recorded.
-/

namespace SsaFlow

/-- Which way information flows. -/
inductive Direction where
  /-- From the entry on.  Values are met over predecessors. -/
  | forward
  /-- From the exits back.  Values are met over successors. -/
  | backward
deriving DecidableEq, Repr

/-- The blocks whose transfer sides are met at a block. -/
def Node.sources (n : Node) : Direction → List Block
  | .forward => n.preds
  | .backward => n.succs

/-- The blocks that meet the transfer side of a block. -/
def Node.dependents (n : Node) : Direction → List Block
  | .forward => n.succs
  | .backward => n.preds

/-- Computations that may fail and keep a record of the type `σ`. -/
abbrev Recording (σ : Type) := ExceptT Failure (StateM σ)

/-- A dataflow problem with values in `α`, which records in `σ`. -/
structure Problem (σ α : Type) where
  /-- Which way information flows. -/
  direction : Direction
  /-- What both sides of a block hold at first, and where every meet starts. -/
  initial : Block → α
  /-- The meet side of a block without sources, made from its initial value. -/
  boundary : Block → α → α
  /-- Combines what was met so far with one more value. -/
  meet : α → α → Except AnalysisError α
  /-- The transfer side of a block, from its meet side. -/
  transfer : Block → α → Recording σ α

/-- A call of the transfer function: the block, what it was given and what it gave. -/
structure Call (α : Type) where
  block : Block
  input : α
  output : α
deriving DecidableEq, Repr

namespace Problem

variable {σ α : Type}

/-- The same problem, which records besides every transfer that succeeds. -/
def traced (p : Problem σ α) : Problem (σ × List (Call α)) α where
  direction := p.direction
  initial := p.initial
  boundary := p.boundary
  meet := p.meet
  transfer b x := do
    let (s, calls) ← get
    let (r, s) := (p.transfer b x).run.run s
    match r with
    | .ok y =>
      set (s, calls ++ [{ block := b, input := x, output := y }])
      return y
    | .error e =>
      set (s, calls)
      throw e

end Problem

namespace FlowGraph

/-- The first block named by the entry or by an edge that does not exist.  The entry is looked at
first, then for every block its successors and its predecessors. -/
def badBlock? (g : FlowGraph) : Option Block :=
  if 0 < g.numBlocks ∧ g.numBlocks ≤ g.entry.index then some g.entry
  else (g.nodes.toList.flatMap fun n => n.succs ++ n.preds).find? (g.numBlocks ≤ ·.index)

/-- Refuses a graph whose entry or edges name a block that does not exist. -/
def checkEdges (g : FlowGraph) : Except AnalysisError Unit :=
  match g.badBlock? with
  | some b => .error (.invalidBlock b)
  | none => .ok ()

/-- The order in which blocks are first visited: the reachable ones in the order that settles
fastest, then the others in layout order. -/
def seedOrder (g : FlowGraph) (d : Direction) : Except Fault (List Block) := do
  let o ← BlockOrder.ofGraph g
  match d with
  | .forward => return o.rpo.toList ++ o.unreachable
  | .backward => return o.postorder ++ o.unreachable

end FlowGraph

end SsaFlow
