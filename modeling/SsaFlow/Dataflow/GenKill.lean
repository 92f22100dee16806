import SsaFlow.BitSet
import SsaFlow.Dataflow.Solve

/-!
# Gen/kill problems

In a gen/kill problem the values are bit sets.  The transfer function of a
block takes some positions out and puts others in, and sets are met by union or
by intersection.  A block may have a length of its own.  Then its sets cannot
be met with those of blocks of another length.

Each bit of a transfer side changes at most once in a run, so the greatest
length bounds the changes, whatever the initial sets are.
-/

namespace SsaFlow

/-- How sets are met. -/
inductive MeetOp where
  | union
  | inter
deriving DecidableEq, Repr

/-- The description of a gen/kill problem.  Lists by block may be too short, the missing items are
empty. -/
structure GenKill where
  /-- Which way information flows. -/
  direction : Direction
  /-- How sets are met. -/
  meetOp : MeetOp
  /-- The length of the sets of a block without a length of its own. -/
  len : Nat
  /-- The lengths of certain blocks. -/
  lens : List (Option Nat) := []
  /-- The members of every initial set. -/
  init : List Nat := []
  /-- The members of the meet side of a block without sources. -/
  boundary : List Nat := []
  /-- The positions that each block puts in. -/
  gen : List (List Nat) := []
  /-- The positions that each block takes out. -/
  kill : List (List Nat) := []
deriving DecidableEq, Repr

/-- The set over `n` positions of those members that are positions. -/
def BitSet.ofMembers (n : Nat) (members : List Nat) : BitSet :=
  members.foldl (fun s i => (s.insert i).toOption.getD s) (BitSet.empty n)

namespace GenKill

/-- The length of the sets of a block. -/
def lenAt (k : GenKill) (b : Block) : Nat := ((k.lens[b.index]?).join).getD k.len

/-- Takes out what a block kills, then puts in what it generates. -/
def apply (k : GenKill) (b : Block) (x : BitSet) : Except AnalysisError BitSet := do
  let x ← x.eraseAll ((k.kill[b.index]?).getD [])
  x.insertAll ((k.gen[b.index]?).getD [])

/-- The dataflow problem.  It records nothing. -/
def problem (k : GenKill) : Problem Unit BitSet where
  direction := k.direction
  initial b := .ofMembers (k.lenAt b) k.init
  boundary b _ := .ofMembers (k.lenAt b) k.boundary
  meet x y := Prod.fst <$> match k.meetOp with
    | .union => x.union y
    | .inter => x.inter y
  transfer b x := liftM (k.apply b x)

/-- The greatest length of a set. -/
def height (k : GenKill) (g : FlowGraph) : Nat := (g.blocks.map k.lenAt).foldl max 0

/-- Solves the problem over a graph, and tells every call of the transfer function. -/
def solve (k : GenKill) (g : FlowGraph) :
    Except Failure (Solution BitSet × List (Call BitSet)) := do
  let run := k.problem.traced.solve g (g.visitBudget k.direction (k.height g))
  let (r, _, calls) := run.run.run ((), [])
  return (← r, calls)

/-- Checks a solution against the problem over a graph. -/
def check (k : GenKill) (g : FlowGraph) (s : Solution BitSet) : Except Failure Unit :=
  ((s.check k.problem g).run.run ()).1

end GenKill

end SsaFlow
