import SsaFlow.Procedure

/-!
# Printed names

A named value is printed under its name.  A value without a name is printed as
its handle, with as many underscores after it as it takes to differ from every
name in use.  A name in use is passed over at most once each, so their number
bounds the search.

A block without a label is printed as its handle.
-/

namespace SsaFlow

/-- The first of `name`, `name_`, `name__` and so on that is not taken, looking at `fuel` of them
before the last. -/
def untaken (taken : List String) : Nat → String → String
  | 0, name => name
  | fuel + 1, name => if name ∈ taken then untaken taken fuel (name.push '_') else name

namespace Procedure

/-- The names given to arguments and instructions. -/
def givenNames (p : Procedure) : List String :=
  p.args.toList ++ p.insts.toList.filterMap Instruction.name

/-- The name of a value that was given none. -/
def ownName (p : Procedure) (handle : String) : String :=
  let taken := p.givenNames
  untaken taken taken.length handle

/-- The name under which a value is printed, with its sigil.  A constant is printed in decimal. -/
def valueName (p : Procedure) : Value → String
  | .arg a =>
    match p.args.get? a with
    | some name => "%" ++ if name = "" then p.ownName a.text else name
    | none => "%" ++ p.ownName a.text
  | .inst i =>
    match (p.insts.get? i).bind Instruction.name with
    | some name => "%" ++ name
    | none => "%" ++ p.ownName i.text
  | .const k => toString k.toInt

/-- The label under which a block is printed. -/
def blockLabel (p : Procedure) (b : Block) : Except Fault String := do
  let name := (← p.blocks.read b).name
  return if name = "" then b.text else name

end Procedure

end SsaFlow
