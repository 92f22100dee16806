import SsaFlow.Liveness.Transfer
import SsaFlow.Program

/-!
# Liveness

`Liveness.analyze` solves the liveness problem of a graph.  Every change of a
block's set adds a tracked value, so the size of the domain bounds the changes,
and the run is given visits for that many.

`Liveness.check` tells whether a result still fits a graph, maybe another one
than it was made for.  It goes once more through every block and compares the
sets of the blocks, the sets of the instructions, and the inputs of phis.
-/

namespace SsaFlow

/-- A liveness problem with what it recorded so far. -/
structure LiveState where
  /-- The tracked values. -/
  domain : Domain
  /-- What was recorded. -/
  tables : LiveTables
deriving DecidableEq

/-- What is live where. -/
structure Liveness where
  /-- The tracked values. -/
  domain : Domain
  /-- The live sets of the blocks. -/
  solution : Solution BitSet
  /-- The live sets of the instructions, and the inputs of phis. -/
  tables : LiveTables
deriving DecidableEq

namespace LiveState

/-- The liveness problem of a graph, with nothing recorded. -/
def new (g : FlowGraph) : Except Fault LiveState := do
  let domain ← Domain.build g
  return { domain, tables := .empty domain g.numInsts }

/-- Solves the problem over a graph.  What is recorded on the way stays recorded. -/
def solve (s : LiveState) (g : FlowGraph) : Except Failure Liveness × LiveState :=
  let problem := s.domain.liveness g
  let run := problem.solve g (g.visitBudget .backward s.domain.size)
  let (r, tables) := run.run.run s.tables
  (r.map fun solution => { domain := s.domain, solution, tables }, { s with tables })

/-- Applies the transfer function of one block. -/
def transfer (s : LiveState) (g : FlowGraph) (b : Block) (out : BitSet) :
    Except Failure BitSet × LiveState :=
  let (r, tables) := (s.domain.transferBlock g b out).run.run s.tables
  (r, { s with tables })

/-- What is live before an instruction, by the last visit to its block. -/
def liveBefore (s : LiveState) (i : Inst) : Except Fault BitSet := s.tables.before.read i

end LiveState

namespace Liveness

/-- What is live where in a graph. -/
def analyze (g : FlowGraph) : Except Failure Liveness := do
  let s ← LiveState.new g
  (s.solve g).1

/-- What is live where in each procedure of a program.  A procedure with an analysis error does not
keep the others from their results, but any other failure ends the analysis. -/
def analyzeProgram (m : Program) : Except Failure (List (Except AnalysisError Liveness)) :=
  m.funcs.toList.mapM fun p =>
    match analyze p.graph with
    | .ok l => .ok (.ok l)
    | .error (.error e) => .ok (.error e)
    | .error f => .error f

/-! ## Reading a result -/

/-- What is live at the start of a block. -/
def liveIn (l : Liveness) (b : Block) : Except Fault BitSet := l.solution.blockIn b

/-- What is live at the end of a block. -/
def liveOut (l : Liveness) (b : Block) : Except Fault BitSet := l.solution.blockOut b

/-- What is live before an instruction.  The inputs of a phi are not. -/
def liveBefore (l : Liveness) (i : Inst) : Except Fault BitSet := l.tables.before.read i

/-- The inputs that a block supplies to phis, if a phi names it. -/
def phiEdge? (l : Liveness) (pred : Block) : Option BitSet := l.tables.phiInputs.get? pred

/-- What has to be there when control leaves a block: what is live at its end, and the inputs it
supplies to phis. -/
def liveOutOnEdges (l : Liveness) (pred : Block) : Except Failure BitSet := do
  let live ← l.liveOut pred
  match l.phiEdge? pred with
  | some inputs => Prod.fst <$> live.union inputs
  | none => return live

/-- Whether a value is in a set, and no value that is not tracked is. -/
def holds (l : Liveness) (s : Except Fault BitSet) (v : Value) : Except Fault Bool := do
  match l.domain.indexOf? v with
  | some n => return (← s).contains n
  | none => return false

/-- Whether a value is live at the start of a block. -/
def isLiveIn (l : Liveness) (b : Block) (v : Value) : Except Fault Bool := l.holds (l.liveIn b) v

/-- Whether a value is live at the end of a block. -/
def isLiveOut (l : Liveness) (b : Block) (v : Value) : Except Fault Bool := l.holds (l.liveOut b) v

/-! ## Checking a result -/

/-- The first block with an instruction whose set differs in two tables. -/
def differingBlock? (g : FlowGraph) (t u : LiveTables) : Option Block :=
  (g.nodes.entries.find? fun e =>
    e.2.insts.any fun i => t.before.get? i ≠ u.before.get? i).map Prod.fst

/-- The first predecessor whose inputs differ, first among those of `t`, then among those of `u`. -/
def differingPred? (t u : PhiInputs) : Option Block :=
  ((t.entries ++ u.entries).map Prod.fst).find? fun pred => t.get? pred ≠ u.get? pred

/-- Checks that one more round over a graph changes nothing.  The first block at fault is named. -/
def check (l : Liveness) (g : FlowGraph) : Except Failure Unit := do
  let round := l.solution.check (l.domain.liveness g) g
  let (r, fresh) := round.run.run (.empty l.domain g.numInsts)
  r
  match differingBlock? g l.tables fresh with
  | some b => throw (.error (.notAFixpoint b))
  | none =>
    if l.tables.phiInputs = fresh.phiInputs then return
    else
      let pred := (differingPred? l.tables.phiInputs fresh.phiInputs).getD g.entry
      throw (.error (.notAFixpoint pred))

end Liveness

end SsaFlow
