import SsaFlow.FlowGraph
import SsaFlow.HandleMap

/-!
# Procedures

A procedure has named arguments, blocks in layout order, and instructions.
Blocks list instructions by handle, so an instruction may be allocated before
it is placed, and every part can refer forward.  `placed` tells in which block
an instruction was placed last.  It reads as the invalid block for an
instruction that never was.

Edges are stored with both of their blocks.  Building steps keep the two sides
together, but nothing forces them to agree.
-/

namespace SsaFlow

/-- A straight run of instructions with its edges. -/
structure BasicBlock where
  /-- The label.  An empty one is replaced by the handle when printed. -/
  name : String
  /-- The instructions, the terminator last. -/
  insts : List Inst := []
  /-- The successors, one entry per edge. -/
  succs : List Block := []
  /-- The predecessors, one entry per edge. -/
  preds : List Block := []
deriving DecidableEq, Repr

/-- A procedure in static single assignment form. -/
structure Procedure where
  /-- The name, without its sigil. -/
  name : String
  /-- The names of the arguments, in order.  An empty one is replaced when printed. -/
  args : Table .arg String
  /-- Where control enters. -/
  entry : Block
  /-- The blocks, in layout order. -/
  blocks : Table .block BasicBlock
  /-- The instructions, placed or not. -/
  insts : Table .inst Instruction
  /-- The block each placed instruction was placed in. -/
  placed : HandleMap .inst Block
deriving DecidableEq

namespace Procedure

/-- A procedure with an entry block and nothing else. -/
def new (name : String) : Procedure where
  name
  args := .empty
  entry := ⟨0⟩
  blocks := .ofList [{ name := "entry" }]
  insts := .empty
  placed := .empty

/-- The block an instruction was placed in. -/
def blockOf (p : Procedure) (i : Inst) : Block := p.placed.getD i .invalid

/-- The terminator of a block, if its last instruction is one. -/
def terminator (p : Procedure) (b : Block) : Except Fault (Option Terminator) := do
  match (← p.blocks.read b).insts.getLast? with
  | none => return none
  | some i => return (← p.insts.read i).op.terminator?

/-- The procedure as an analysis sees it. -/
def graph (p : Procedure) : FlowGraph where
  entry := p.entry
  numArgs := p.args.size
  numInsts := p.insts.size
  nodes := p.blocks.map fun b => { insts := b.insts, succs := b.succs, preds := b.preds }
  facts := p.insts.map fun i => i.op.facts

end Procedure

end SsaFlow
