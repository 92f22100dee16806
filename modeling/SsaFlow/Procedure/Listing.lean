import SsaFlow.Procedure.Names

/-!
# Listings

The listing of a procedure is its text: a header, then for every block a line
with its label and one line per instruction, then a closing brace.  `Notes` are
comment lines woven in.  A listing without notes is the plain text of the
procedure.

A listing faults when a block lists an instruction that was not allocated, or a
label is needed of a block that does not exist.
-/

namespace SsaFlow

namespace Procedure

/-- The names of a list of operands, divided by commas. -/
def operandText (p : Procedure) (vs : List Value) : String :=
  ", ".intercalate (vs.map p.valueName)

/-- The labels of a list of blocks, divided by commas. -/
def labelText (p : Procedure) (bs : List Block) : Except Fault String := do
  return ", ".intercalate (← bs.mapM p.blockLabel)

/-- A word followed by operands, if there are any. -/
def withOperands (p : Procedure) (word : String) (vs : List Value) : String :=
  if vs.isEmpty then word else word ++ " " ++ p.operandText vs

/-- The text of a terminator. -/
def terminatorText (p : Procedure) : Terminator → Except Fault String
  | .br target => do return "br " ++ (← p.blockLabel target)
  | .condBr cond ifTrue ifFalse => do
    return "br " ++ p.valueName cond ++ ", " ++ (← p.labelText [ifTrue, ifFalse])
  | .switch value default targets => do
    let targets ← p.labelText targets
    return "switch " ++ p.valueName value ++ ", " ++ (← p.blockLabel default) ++
      ", [" ++ targets ++ "]"
  | .ret values => return p.withOperands "ret" values
  | .unreachable => return "unreachable"

/-- The text of one pair of a phi. -/
def pairText (p : Procedure) (pair : Value × Block) : Except Fault String := do
  return "[" ++ p.valueName pair.1 ++ ", " ++ (← p.blockLabel pair.2) ++ "]"

/-- The text of an operation, without a result. -/
def operationText (p : Procedure) : Operation → Except Fault String
  | .compute opcode args _ => return p.withOperands opcode args
  | .phi incoming => do return "phi " ++ ", ".intercalate (← incoming.mapM p.pairText)
  | .terminator t => p.terminatorText t
  | .placeholder => return "<placeholder>"

/-- The text of an instruction. -/
def instText (p : Procedure) (i : Inst) : Except Fault String := do
  let op := (← p.insts.read i).op
  let result := if op.hasResult then p.valueName (.inst i) ++ " = " else ""
  return result ++ (← p.operationText op)

/-- The first words of a procedure: its name and its arguments. -/
def headerText (p : Procedure) : String :=
  "func @" ++ p.name ++ "(" ++ p.operandText (p.args.handles.map .arg) ++ ")"

/-- The line that opens a block, with its predecessors in a comment. -/
def blockLine (p : Procedure) (b : Block) : Except Fault String := do
  let preds := (← p.blocks.read b).preds
  let names ← p.labelText preds
  let comment := if preds.isEmpty then "" else "  ; preds: " ++ names
  return (← p.blockLabel b) ++ ":" ++ comment

/-- Comment lines for a listing. -/
structure Notes where
  /-- Lines at the top of a block. -/
  top : Block → Except Fault (List String)
  /-- Lines above an instruction. -/
  above : Inst → Except Fault (List String)
  /-- Lines at the bottom of a block. -/
  bottom : Block → Except Fault (List String)

/-- No comment lines. -/
def Notes.none : Notes where
  top _ := return []
  above _ := return []
  bottom _ := return []

/-- The lines of an instruction. -/
def instLines (p : Procedure) (notes : Notes) (i : Inst) : Except Fault (List String) := do
  let above ← notes.above i
  return above ++ [← p.instText i]

/-- The lines of a block.  All but the first are set in by two blanks. -/
def blockLines (p : Procedure) (notes : Notes) (b : Block) (insts : List Inst) :
    Except Fault (List String) := do
  let first ← p.blockLine b
  let top ← notes.top b
  let body ← insts.mapM (p.instLines notes)
  let bottom ← notes.bottom b
  return first :: (top ++ body.flatten ++ bottom).map ("  " ++ ·)

/-- The lines of a procedure. -/
def lines (p : Procedure) (notes : Notes) : Except Fault (List String) := do
  let blocks ← p.blocks.entries.mapM fun (b, d) => p.blockLines notes b d.insts
  return (p.headerText ++ " \x7b") :: blocks.flatten ++ ["\x7d"]

/-- The listing of a procedure with notes, every line set in by `indent`. -/
def renderWith (p : Procedure) (notes : Notes) (indent : String) : Except Fault String := do
  return String.join ((← p.lines notes).map fun line => indent ++ line ++ "\n")

/-- The text of a procedure, every line set in by `indent`. -/
def render (p : Procedure) (indent : String) : Except Fault String :=
  p.renderWith .none indent

end Procedure

end SsaFlow
