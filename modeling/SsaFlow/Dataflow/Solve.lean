import SsaFlow.Dataflow.Problem
import SsaFlow.Dataflow.Worklist

/-!
# Solving dataflow problems

Blocks wait on a worklist.  A visit takes the first of them, meets the transfer
sides of its sources, and applies the transfer function.  When the transfer side
of the block changes, the blocks that depend on it are pushed.  The worklist
starts with every block of the graph, and the problem is solved when it is empty.
An order of all blocks has none of them twice, so the worklist starts with that
order as its queue.

Whether that happens is up to the problem, so a run gets a budget of visits.
`visitBudget` is enough when no transfer side changes more often than the
height that is given to it: every block is visited once, and again once for
every change of a source.
-/

namespace SsaFlow

/-- The two sides of every block, and how often each was visited. -/
structure Solution (α : Type) where
  /-- Which way information flows. -/
  direction : Direction
  /-- What was met at each block. -/
  meetSide : Table .block α
  /-- What the transfer function made of it. -/
  transferSide : Table .block α
  /-- The number of visits. -/
  visits : Table .block Nat
deriving DecidableEq

namespace Solution

variable {σ α : Type}

/-- What a run starts from. -/
def start (p : Problem σ α) (g : FlowGraph) : Solution α where
  direction := p.direction
  meetSide := .ofList <| g.nodes.entries.map fun (b, n) =>
    if (n.sources p.direction).isEmpty then p.boundary b (p.initial b) else p.initial b
  transferSide := .ofList <| g.nodes.entries.map fun (b, _) => p.initial b
  visits := .replicate g.numBlocks 0

/-- The transfer sides of `sources`, met together at `b`. -/
def meetOver (s : Solution α) (p : Problem σ α) (b : Block) (sources : List Block) :
    Except Failure α :=
  sources.foldlM (fun met source => do p.meet met (← s.transferSide.read source)) (p.initial b)

/-- The meet side of a block as it is now.  A block without sources keeps what it holds. -/
def inputOf (s : Solution α) (p : Problem σ α) (g : FlowGraph) (b : Block) :
    Except Failure α := do
  let sources := (← g.nodes.read b).sources s.direction
  if sources.isEmpty then s.meetSide.read b else s.meetOver p b sources

/-- What holds at the start of a block. -/
def blockIn (s : Solution α) (b : Block) : Except Fault α :=
  match s.direction with
  | .forward => s.meetSide.read b
  | .backward => s.transferSide.read b

/-- What holds at the end of a block. -/
def blockOut (s : Solution α) (b : Block) : Except Fault α :=
  match s.direction with
  | .forward => s.transferSide.read b
  | .backward => s.meetSide.read b

/-- The number of visits to all blocks. -/
def totalVisits (s : Solution α) : Nat := s.visits.toList.foldr (· + ·) 0

end Solution

/-- A run under way. -/
structure Run (α : Type) where
  /-- What is known so far. -/
  solution : Solution α
  /-- The blocks that wait for a visit. -/
  worklist : Worklist
deriving DecidableEq

namespace Run

variable {σ α : Type} [DecidableEq α]

/-- Stores the outcome of a visit to `b`, and pushes the blocks that depend on it if its transfer
side changed. -/
def store (r : Run α) (g : FlowGraph) (b : Block) (input output : α) : Except Failure (Run α) := do
  let s := r.solution
  let visits ← s.visits.update b (· + 1)
  let meetSide ← s.meetSide.write b input
  if output = (← s.transferSide.read b) then
    return { r with solution := { s with visits, meetSide } }
  else
    let transferSide ← s.transferSide.write b output
    let dependents := (← g.nodes.read b).dependents s.direction
    return {
      solution := { s with visits, meetSide, transferSide }
      worklist := r.worklist.pushAll dependents }

/-- Visits a block that was popped off the worklist. -/
def visit (p : Problem σ α) (g : FlowGraph) (r : Run α) (b : Block) : Recording σ (Run α) := do
  let input ← r.solution.inputOf p g b
  let output ← p.transfer b input
  r.store g b input output

/-- Visits waiting blocks until none is left, `fuel` of them at most. -/
def finish (p : Problem σ α) (g : FlowGraph) : Nat → Run α → Recording σ (Solution α)
  | fuel, r =>
    match r.worklist.pop?, fuel with
    | none, _ => return r.solution
    | some _, 0 => throw .unfinished
    | some (b, rest), fuel + 1 => do
      let r ← visit p g { r with worklist := rest } b
      finish p g fuel r

end Run

namespace Problem

variable {σ α : Type} [DecidableEq α]

/-- Solves a problem over a graph with no more than `fuel` visits. -/
def solve (p : Problem σ α) (g : FlowGraph) (fuel : Nat) : Recording σ (Solution α) := do
  g.checkEdges
  let seeds ← g.seedOrder p.direction
  Run.finish p g fuel { solution := Solution.start p g, worklist := .pushAll .empty seeds }

end Problem

/-- The visits that are enough when no transfer side changes more than `height` times. -/
def FlowGraph.visitBudget (g : FlowGraph) (d : Direction) (height : Nat) : Nat :=
  g.numBlocks + height * g.nodes.toList.foldr (fun n total => (n.dependents d).length + total) 0

namespace Solution

variable {σ α : Type} [DecidableEq α]

/-- Checks that one more visit to a block would change neither of its sides. -/
def checkBlock (s : Solution α) (p : Problem σ α) (g : FlowGraph) (b : Block) :
    Recording σ Unit := do
  let input ← s.inputOf p g b
  if input ≠ (← s.meetSide.read b) then throw (.error (.notAFixpoint b))
  else
    let output ← p.transfer b input
    if output ≠ (← s.transferSide.read b) then throw (.error (.notAFixpoint b))

/-- Checks that one more visit to any block would change nothing.  The first that would is named. -/
def check (s : Solution α) (p : Problem σ α) (g : FlowGraph) : Recording σ Unit := do
  g.checkEdges
  g.blocks.forM (s.checkBlock p g)

end Solution

end SsaFlow
