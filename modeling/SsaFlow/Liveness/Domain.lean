import SsaFlow.BitSet
import SsaFlow.FlowGraph

/-!
# Domains

The domain of a graph numbers the values that liveness tracks: the arguments,
then every listed instruction that has a result, by its first occurrence.  Live
sets are sets of these numbers.
-/

namespace SsaFlow

/-- The tracked values, by number. -/
structure Domain where
  /-- The values, each once. -/
  values : List Value
deriving DecidableEq, Repr

namespace Domain

/-- Adds a value unless it is there. -/
def add (d : Domain) (v : Value) : Domain := if v ∈ d.values then d else ⟨d.values ++ [v]⟩

/-- The domain of a list of values. -/
def ofValues (vs : List Value) : Domain := vs.foldl add ⟨[]⟩

/-- The domain of a graph.  Every listed instruction has to have facts. -/
def build (g : FlowGraph) : Except Fault Domain := do
  let results ← g.listed.filterM fun i => return (← g.facts.read i).hasResult
  return ofValues ((Handle.first g.numArgs).map .arg ++ results.map .inst)

/-- The number of tracked values. -/
def size (d : Domain) : Nat := d.values.length

/-- The value of a number. -/
def value? (d : Domain) (n : Nat) : Option Value := d.values[n]?

/-- The number of a value. -/
def indexOf? (d : Domain) (v : Value) : Option Nat := d.values.idxOf? v

/-- The empty set of tracked values. -/
def emptySet (d : Domain) : BitSet := .empty d.size

/-- The number of a value that has to be tracked. -/
def known (d : Domain) (v : Value) : Except AnalysisError Nat :=
  match d.indexOf? v with
  | some n => .ok n
  | none => .error (.unknownValue v)

/-- The number of an operand.  Constants and instructions without a result have none.  Any other
value has to be tracked. -/
def lookup (d : Domain) (g : FlowGraph) (v : Value) : Except Failure (Option Nat) := do
  match v with
  | .const _ => return none
  | .arg _ => return some (← d.known v)
  | .inst i =>
    if i.index < g.numInsts then
      if (← g.facts.read i).hasResult then return some (← d.known v) else return none
    else return some (← d.known v)

/-- The values whose numbers are in a set. -/
def valuesIn (d : Domain) (s : BitSet) : List Value := s.ones.filterMap d.value?

end Domain

end SsaFlow
