import SsaFlow.Dataflow.Solve
import SsaFlow.Liveness.Domain
import SsaFlow.Liveness.PhiInputs

/-!
# The liveness problem

A value is live at a point if some path from there reads it before it is
defined again.  This is a backward problem.  What is live at the end of a block
is the union of what is live at the start of its successors.  What is live at
the start follows by going through the instructions from the last to the first:
take out the result of the instruction, then put in its operands.

The inputs of a phi are read on the edges.  So they are put into no live set,
and are recorded by predecessor.  What is live before each instruction is
recorded as well.
-/

namespace SsaFlow

/-- What the liveness problem records. -/
structure LiveTables where
  /-- What is live before each instruction. -/
  before : Table .inst BitSet
  /-- The inputs of phis, by predecessor. -/
  phiInputs : PhiInputs
deriving DecidableEq

namespace LiveTables

/-- Nothing recorded, for `numInsts` instructions. -/
def empty (d : Domain) (numInsts : Nat) : LiveTables where
  before := .replicate numInsts d.emptySet
  phiInputs := .empty d.size

/-- Records what is live before an instruction. -/
def record (i : Inst) (live : BitSet) : Recording LiveTables Unit := do
  let t ← get
  match t.before.write i live with
  | .ok before => set { t with before }
  | .error _ => throw (.error (.unknownValue (.inst i)))

/-- Records that `pred` supplies the value of a number to a phi. -/
def mark (pred : Block) (n : Nat) : Recording LiveTables Unit := do
  let t ← get
  let (r, phiInputs) := (PhiInputs.mark pred n).run.run t.phiInputs
  set { t with phiInputs }
  liftM r

end LiveTables

namespace Domain

/-- Takes the result of an instruction out of a live set. -/
def kill (d : Domain) (i : Inst) (live : BitSet) : Except AnalysisError BitSet :=
  match d.indexOf? (.inst i) with
  | some n => live.erase n
  | none => .ok live

/-- Puts operands into a live set. -/
def gen (d : Domain) (g : FlowGraph) (live : BitSet) (operands : List Value) :
    Except Failure BitSet :=
  operands.foldlM (fun live v => do
    match ← d.lookup g v with
    | some n => live.insert n
    | none => return live) live

/-- Records the inputs of a phi. -/
def markInputs (d : Domain) (g : FlowGraph) (incoming : List (Value × Block)) :
    Recording LiveTables Unit :=
  incoming.forM fun (v, pred) => do
    match ← d.lookup g v with
    | some n => LiveTables.mark pred n
    | none => return

/-- What is live before an instruction, from what is live after it. -/
def transferInst (d : Domain) (g : FlowGraph) (i : Inst) (live : BitSet) :
    Recording LiveTables BitSet := do
  let facts ← g.facts.read i
  let live ← if facts.kind = .terminator then pure live else d.kill i live
  let live ← if facts.kind = .phi then
      d.markInputs g facts.incoming
      pure live
    else d.gen g live facts.operands
  LiveTables.record i live
  return live

/-- What is live at the start of a block, from what is live at its end. -/
def transferBlock (d : Domain) (g : FlowGraph) (b : Block) (out : BitSet) :
    Recording LiveTables BitSet := do
  (← g.insts b).reverse.foldlM (fun live i => d.transferInst g i live) out

/-- The liveness problem of a graph over a domain. -/
def liveness (d : Domain) (g : FlowGraph) : Problem LiveTables BitSet where
  direction := .backward
  initial _ := d.emptySet
  boundary _ _ := d.emptySet
  meet x y := Prod.fst <$> x.union y
  transfer := d.transferBlock g

end Domain

end SsaFlow
