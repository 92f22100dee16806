import SsaFlow.BitSet
import SsaFlow.HandleMap

/-!
# Inputs of phis, by edge

A phi reads a value only when control comes from the block the value is paired
with.  Such reads belong to the edges out of that block, and not to the block
the phi stands in.  `PhiInputs` collects them by predecessor.  A predecessor
has an entry from the moment an input is marked for it, even when the position
marked does not exist.  A value without a position is never marked, so a block
that phis pair only with such values has no entry.
-/

namespace SsaFlow

/-- For each block that inputs are marked for, the positions of the values it supplies. -/
structure PhiInputs where
  /-- The number of positions of every set. -/
  domainLen : Nat
  /-- The sets, by predecessor. -/
  edges : HandleMap .block BitSet
deriving DecidableEq

namespace PhiInputs

/-- No inputs, over `n` positions. -/
def empty (n : Nat) : PhiInputs := ⟨n, .empty⟩

/-- The inputs that `pred` supplies, if any was marked for it. -/
def get? (t : PhiInputs) (pred : Block) : Option BitSet := t.edges.get? pred

/-- The sets with their predecessors, in ascending order of these. -/
def entries (t : PhiInputs) : List (Block × BitSet) := t.edges.entries

/-- The number of predecessors. -/
def size (t : PhiInputs) : Nat := t.edges.size

/-- Whether no predecessor has an entry. -/
def isEmpty (t : PhiInputs) : Bool := t.edges.isEmpty

/-- The table with `s` for `pred`. -/
def put (t : PhiInputs) (pred : Block) (s : BitSet) : PhiInputs :=
  { t with edges := t.edges.insert pred s }

/-- Records that the value at position `i` is read on the edges out of `pred`. -/
def mark (pred : Block) (i : Nat) : ExceptT AnalysisError (StateM PhiInputs) Unit := do
  let t ← get
  let s := (t.get? pred).getD (BitSet.empty t.domainLen)
  set (t.put pred s)
  set (t.put pred (← s.insert i))

end PhiInputs

end SsaFlow
