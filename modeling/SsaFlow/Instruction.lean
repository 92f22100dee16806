import SsaFlow.Handle

/-!
# Instructions

An instruction computes a value from operands, selects a value by the edge
control came in on (a *phi*), or ends its block (a *terminator*).  A
*placeholder* keeps a slot for an instruction that is defined later.

Analyses do not look at opcodes.  What they ask of an instruction is its kind,
whether it has a result, its operands and its incoming pairs.  A phi has no
operands, its inputs are only found in its incoming pairs.
-/

namespace SsaFlow

/-- Anything that can be an operand. -/
inductive Value where
  /-- An argument of the enclosing procedure. -/
  | arg (a : Arg)
  /-- The result of an instruction. -/
  | inst (i : Inst)
  /-- A constant.  No analysis tracks it. -/
  | const (k : Int64)
deriving DecidableEq, Repr

/-- The instructions that end a block. -/
inductive Terminator where
  /-- Go to `target`. -/
  | br (target : Block)
  /-- Go to one of two blocks. -/
  | condBr (cond : Value) (ifTrue ifFalse : Block)
  /-- Go to one of `targets` or to `default`. -/
  | switch (value : Value) (default : Block) (targets : List Block)
  /-- Leave the procedure with `values`. -/
  | ret (values : List Value)
  /-- Control never gets here. -/
  | unreachable
deriving DecidableEq, Repr

namespace Terminator

/-- The blocks control may go to, one entry per edge. -/
def successors : Terminator → List Block
  | br target => [target]
  | condBr _ ifTrue ifFalse => [ifTrue, ifFalse]
  | switch _ default targets => default :: targets
  | ret _ => []
  | unreachable => []

/-- The values a terminator reads. -/
def operands : Terminator → List Value
  | br _ => []
  | condBr cond _ _ => [cond]
  | switch value _ _ => [value]
  | ret values => values
  | unreachable => []

end Terminator

/-- What an instruction does. -/
inductive Operation where
  /-- Computes from `args`.  Without a result it is run for its effect. -/
  | compute (opcode : String) (args : List Value) (hasResult : Bool)
  /-- Selects the value paired with the block control came from. -/
  | phi (incoming : List (Value × Block))
  /-- Ends the block. -/
  | terminator (t : Terminator)
  /-- A slot whose instruction is not known yet. -/
  | placeholder
deriving DecidableEq, Repr

/-- The shapes of instruction that an analysis tells apart. -/
inductive InstKind where
  | ordinary
  | phi
  | terminator
deriving DecidableEq, Repr

namespace Operation

/-- The kind of the instruction. -/
def kind : Operation → InstKind
  | compute .. => .ordinary
  | phi _ => .phi
  | terminator _ => .terminator
  | placeholder => .ordinary

/-- Whether the instruction defines a value. -/
def hasResult : Operation → Bool
  | compute _ _ r => r
  | phi _ => true
  | terminator _ => false
  | placeholder => false

/-- The values read by the instruction itself.  A phi reads none. -/
def operands : Operation → List Value
  | compute _ args _ => args
  | phi _ => []
  | terminator t => t.operands
  | placeholder => []

/-- The values of a phi, each with the block it comes from. -/
def incoming : Operation → List (Value × Block)
  | phi pairs => pairs
  | compute .. => []
  | terminator _ => []
  | placeholder => []

/-- The terminator, if the instruction is one. -/
def terminator? : Operation → Option Terminator
  | terminator t => some t
  | compute .. => none
  | phi _ => none
  | placeholder => none

end Operation

/-- An operation with the name its result is printed under, if it has one. -/
structure Instruction where
  /-- The name, without its sigil. -/
  name : Option String := none
  /-- What the instruction does. -/
  op : Operation
deriving DecidableEq, Repr

end SsaFlow
