import SsaFlow.Table

/-!
# Flow graphs

A `FlowGraph` is what an analysis sees of a procedure: the arguments by number,
the blocks with their instructions and their edges, and a few facts of every
instruction.  It is read only.  Any representation of procedures can be
analysed by giving its flow graph.

Nothing is promised about it.  The edges may lead to blocks that do not exist,
the lists of successors and predecessors need not agree, a block may list an
instruction that has no facts, and the stated number of instructions need not
be the number of those with facts.  Analyses check what they need.
-/

namespace SsaFlow

/-- What a block shows to an analysis. -/
structure Node where
  /-- The instructions, in program order. -/
  insts : List Inst := []
  /-- The successors, one entry per edge. -/
  succs : List Block := []
  /-- The predecessors, one entry per edge. -/
  preds : List Block := []
deriving DecidableEq, Repr

/-- What an instruction shows to an analysis. -/
structure InstFacts where
  /-- The shape of the instruction. -/
  kind : InstKind := .ordinary
  /-- Whether it defines a value. -/
  hasResult : Bool := false
  /-- The values it reads. -/
  operands : List Value := []
  /-- Its inputs by edge, if it is a phi. -/
  incoming : List (Value × Block) := []
deriving DecidableEq, Repr

/-- The facts of an operation. -/
def Operation.facts (op : Operation) : InstFacts :=
  { kind := op.kind, hasResult := op.hasResult, operands := op.operands, incoming := op.incoming }

/-- A procedure as an analysis sees it. -/
structure FlowGraph where
  /-- Where control enters. -/
  entry : Block
  /-- The number of arguments. -/
  numArgs : Nat
  /-- The stated number of instructions. -/
  numInsts : Nat
  /-- The blocks, in layout order. -/
  nodes : Table .block Node
  /-- The facts of the instructions. -/
  facts : Table .inst InstFacts
deriving DecidableEq, Repr

namespace FlowGraph

/-- The number of blocks. -/
def numBlocks (g : FlowGraph) : Nat := g.nodes.size

/-- The blocks, in layout order. -/
def blocks (g : FlowGraph) : List Block := g.nodes.handles

/-- The instructions of a block. -/
def insts (g : FlowGraph) (b : Block) : Except Fault (List Inst) := do
  return (← g.nodes.read b).insts

/-- The successors of a block. -/
def succs (g : FlowGraph) (b : Block) : Except Fault (List Block) := do
  return (← g.nodes.read b).succs

/-- The predecessors of a block. -/
def preds (g : FlowGraph) (b : Block) : Except Fault (List Block) := do
  return (← g.nodes.read b).preds

/-- Every instruction that a block lists, in layout and program order. -/
def listed (g : FlowGraph) : List Inst := g.nodes.toList.flatMap Node.insts

/-- The predecessors that a list of successor lists implies for a block: for every block in layout
order, one entry per edge. -/
def predsFrom (succs : List (List Block)) (b : Block) : List Block :=
  succs.zipIdx.flatMap fun (targets, i) => (targets.filter (· = b)).map fun _ => ⟨i⟩

end FlowGraph

end SsaFlow
