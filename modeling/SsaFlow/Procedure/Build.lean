import SsaFlow.Procedure

/-!
# Building procedures

A building step changes a procedure and may end in a fault.  What it changed
before the fault stays changed.  `Build` is the monad of such steps.

An edge is stored twice, with the successors of its source and with the
predecessors of its target.  `addEdge` does the first and then the second.  So
a terminator that names a missing block leaves the successor behind when the
step faults.

The steps that allocate an argument, a block or an instruction push it to its
table.  They do not fault at `Handle.limit`, as `Table.push` does not.
-/

namespace SsaFlow

/-- Steps that change a procedure and may fault. -/
abbrev Build := ExceptT Fault (StateM Procedure)

namespace Build

/-- Adds an argument. -/
def addArg (name : String) : Build Value := do
  let p ← get
  set { p with args := p.args.push name }
  return .arg p.args.next

/-- Adds a block without instructions. -/
def addBlock (name : String) : Build Block := do
  let p ← get
  set { p with blocks := p.blocks.push { name } }
  return p.blocks.next

/-- Changes one block. -/
def updateBlock (b : Block) (f : BasicBlock → BasicBlock) : Build Unit := do
  let p ← get
  set { p with blocks := ← p.blocks.update b f }

/-- Changes one instruction. -/
def updateInst (i : Inst) (f : Instruction → Instruction) : Build Unit := do
  let p ← get
  set { p with insts := ← p.insts.update i f }

/-- Appends to the successors of a block. -/
def pushSucc (b target : Block) : Build Unit :=
  updateBlock b fun d => { d with succs := d.succs ++ [target] }

/-- Appends to the predecessors of a block. -/
def pushPred (b source : Block) : Build Unit :=
  updateBlock b fun d => { d with preds := d.preds ++ [source] }

/-- Adds an edge. -/
def addEdge (source target : Block) : Build Unit := do
  pushSucc source target
  pushPred target source

/-- Allocates an instruction without placing it. -/
def addInst (i : Instruction) : Build Inst := do
  let p ← get
  set { p with insts := p.insts.push i }
  return p.insts.next

/-- Places an instruction at the end of a block. -/
def append (b : Block) (i : Inst) : Build Unit := do
  updateBlock b fun d => { d with insts := d.insts ++ [i] }
  modify fun p => { p with placed := p.placed.insert i b }

/-- Allocates an instruction and places it at the end of a block. -/
def appendNew (b : Block) (op : Operation) : Build Inst := do
  let i ← addInst { op }
  append b i
  return i

/-- Appends a computation to a block. -/
def appendOp (b : Block) (opcode : String) (args : List Value) (hasResult : Bool) : Build Inst :=
  appendNew b (.compute opcode args hasResult)

/-- Appends a phi to a block. -/
def appendPhi (b : Block) (incoming : List (Value × Block)) : Build Inst :=
  appendNew b (.phi incoming)

/-- Adds an incoming pair to a phi, for instance when the value of a loop's back edge is known. -/
def addIncoming (i : Inst) (v : Value) (pred : Block) : Build Unit := do
  match (← (← get).insts.read i).op with
  | .phi incoming => updateInst i fun d => { d with op := .phi (incoming ++ [(v, pred)]) }
  | op => throw (.notAPhi i op)

/-- Places an allocated instruction at the end of a block and adds the edges it implies. -/
def placeTerminator (b : Block) (i : Inst) : Build Unit := do
  append b i
  match (← (← get).insts.read i).op.terminator? with
  | some t => t.successors.forM (addEdge b)
  | none => return

/-- Ends a block with a terminator. -/
def endBlock (b : Block) (t : Terminator) : Build Inst := do
  let i ← addInst { op := .terminator t }
  placeTerminator b i
  return i

/-- Removes all edges. -/
def clearEdges : Build Unit :=
  modify fun p => { p with blocks := p.blocks.map fun d => { d with succs := [], preds := [] } }

/-- Rebuilds all edges from the terminators. -/
def recomputeEdges : Build Unit := do
  clearEdges
  let p ← get
  let edges ← p.blocks.handles.mapM fun b => do
    let targets := ((← p.terminator b).map Terminator.successors).getD []
    return targets.map (b, ·)
  edges.flatten.forM fun (source, target) => addEdge source target

/-- Names the result of an instruction. -/
def setName (i : Inst) (name : String) : Build Unit :=
  updateInst i fun d => { d with name := some name }

/-- Gives an instruction another operation.  Edges stay as they are. -/
def redefine (i : Inst) (op : Operation) : Build Unit :=
  updateInst i fun d => { d with op }

/-- Gives a block another label. -/
def setLabel (b : Block) (name : String) : Build Unit :=
  updateBlock b fun d => { d with name }

/-- Gives the entry block another label. -/
def labelEntry (name : String) : Build Block := do
  let p ← get
  setLabel p.entry name
  return p.entry

/-- Lets control enter at another block. -/
def setEntry (b : Block) : Build Unit :=
  modify fun p => { p with entry := b }

end Build

end SsaFlow
