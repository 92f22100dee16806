import SsaFlow.Error

/-!
# Trees

What a text says, before names are looked up.  Values and blocks may be used
before the line that defines them, so a procedure is read as a tree first.
-/

namespace SsaFlow

/-- An operand as it is written. -/
inductive OperandTree where
  /-- A value name, without its sigil. -/
  | name (n : String)
  | int (k : Int64)
deriving DecidableEq, Repr

/-- What an instruction does, as it is written. -/
inductive ActionTree where
  | compute (opcode : String) (args : List OperandTree)
  | phi (incoming : List (OperandTree × String))
  | br (target : String)
  | condBr (cond : OperandTree) (ifTrue ifFalse : String)
  | switch (value : OperandTree) (default : String) (targets : List String)
  | ret (values : List OperandTree)
  | unreachable
deriving DecidableEq, Repr

namespace ActionTree

/-- Whether the instruction ends its block. -/
def isTerminator : ActionTree → Bool
  | compute .. => false
  | phi _ => false
  | br _ => true
  | condBr .. => true
  | switch .. => true
  | ret _ => true
  | unreachable => true

/-- Whether the instruction is a phi. -/
def isPhi : ActionTree → Bool
  | phi _ => true
  | _ => false

end ActionTree

/-- An instruction as it is written. -/
structure InstTree where
  /-- The name of the result, without its sigil. -/
  result : Option String
  /-- What the instruction does. -/
  action : ActionTree
deriving DecidableEq, Repr

/-- A label with the instructions under it. -/
structure BlockTree where
  label : String
  insts : List InstTree
deriving DecidableEq, Repr

/-- A procedure as it is written. -/
structure ProcTree where
  /-- The name, without its sigil. -/
  name : String
  /-- The names of the arguments, without their sigils. -/
  args : List String
  blocks : List BlockTree
deriving DecidableEq, Repr

end SsaFlow
