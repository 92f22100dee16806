import SsaFlow.Instruction
import SsaFlow.Text.Quoted

/-!
# Errors and faults

Three things can go wrong, and they are kept apart.

* A `SourceError` says why a text is not a program.
* An `AnalysisError` says why a graph has no result, or why a result does not
  fit a graph.
* A `Fault` says that a step was asked of something that is not there.  A
  caller that keeps to existing handles never sees one.

`Failure` joins the last two with the one way a bounded iteration can end
early.  Every cause has one wording, given by its `message` function.
-/

namespace SsaFlow

/-! ## Wording shared by messages -/

namespace Value

/-- A value with its sort, as messages show it. -/
def described : Value → String
  | arg a => "Arg(" ++ a.text ++ ")"
  | inst i => "Inst(" ++ i.text ++ ")"
  | const k => "Const(" ++ toString k.toInt ++ ")"

end Value

/-- Items between brackets, divided by commas. -/
def bracketed (items : List String) : String := "[" ++ ", ".intercalate items ++ "]"

/-- Named fields between braces after a head word. -/
def fielded (head : String) (fields : List (String × String)) : String :=
  head ++ " \x7b " ++ ", ".intercalate (fields.map fun f => f.1 ++ ": " ++ f.2) ++ " \x7d"

namespace Terminator

/-- A terminator with its fields, as messages show it. -/
def described : Terminator → String
  | br target => fielded "Br" [("target", target.text)]
  | condBr cond ifTrue ifFalse =>
    fielded "CondBr"
      [("cond", cond.described), ("if_true", ifTrue.text), ("if_false", ifFalse.text)]
  | switch value default targets =>
    fielded "Switch"
      [("value", value.described), ("default", default.text),
        ("targets", bracketed (targets.map Handle.text))]
  | ret values => fielded "Return" [("values", bracketed (values.map Value.described))]
  | unreachable => "Unreachable"

end Terminator

namespace Operation

/-- An operation with its fields, as messages show it. -/
def described : Operation → String
  | compute opcode args hasResult =>
    fielded "Operator"
      [("opcode", Text.quoted opcode), ("args", bracketed (args.map Value.described)),
        ("has_result", toString hasResult)]
  | phi pairs =>
    fielded "Phi"
      [("incoming",
        bracketed (pairs.map fun p => "(" ++ p.1.described ++ ", " ++ p.2.text ++ ")"))]
  | terminator t => "Terminator(" ++ t.described ++ ")"
  | placeholder => "Placeholder"

end Operation

/-! ## Causes -/

/-- A step was asked of something that is not there. -/
inductive Fault where
  /-- A table of `len` slots has none at `index`. -/
  | missingSlot (len index : Nat)
  /-- No handle of the kind `k` has the index asked for. -/
  | handleOverflow (k : Entity)
  /-- An incoming pair was added to an instruction that is not a phi. -/
  | notAPhi (inst : Inst) (op : Operation)
deriving DecidableEq, Repr

/-- The wording of a fault. -/
def Fault.message : Fault → String
  | missingSlot len index =>
    "index out of bounds: the len is " ++ toString len ++ " but the index is " ++ toString index
  | handleOverflow k => k.letters ++ " index overflow"
  | notAPhi inst op =>
    "add_phi_incoming: " ++ inst.text ++ " is not a phi: " ++ op.described

/-- Why a graph has no result, or a result does not fit a graph. -/
inductive AnalysisError where
  /-- A set over `len` positions has none at `index`. -/
  | indexOutOfBounds (index len : Nat)
  /-- Two sets over different numbers of positions were combined. -/
  | domainMismatch (left right : Nat)
  /-- The entry, or an end of an edge, is no block of the graph. -/
  | invalidBlock (b : Block)
  /-- A value that should be tracked is not. -/
  | unknownValue (v : Value)
  /-- One more round would change what is stored for this block. -/
  | notAFixpoint (b : Block)
deriving DecidableEq, Repr

/-- The wording of an analysis error. -/
def AnalysisError.message : AnalysisError → String
  | indexOutOfBounds index len =>
    fielded "IndexOutOfBounds" [("index", toString index), ("len", toString len)]
  | domainMismatch left right =>
    fielded "DomainMismatch" [("left", toString left), ("right", toString right)]
  | invalidBlock b => "InvalidBlock(" ++ b.text ++ ")"
  | unknownValue v => "UnknownValue(" ++ v.described ++ ")"
  | notAFixpoint b => "NotAFixpoint(" ++ b.text ++ ")"

/-- Why a text is not a program. -/
inductive SourceError where
  /-- No token starts here. -/
  | lex (line : Nat)
  /-- The tokens are not in an order the grammar allows. -/
  | parse (line : Nat) (expected : String)
  /-- No argument or result has this name. -/
  | undefinedValue (name : String)
  /-- No block has this label. -/
  | undefinedBlock (label : String)
  /-- A procedure, block or value name is given twice. -/
  | redefinition (name : String)
  /-- The block does not end in a terminator. -/
  | missingTerminator (label : String)
  /-- The block has a terminator before its last instruction. -/
  | misplacedTerminator (label : String)
deriving DecidableEq, Repr

/-- The wording of a source error. -/
def SourceError.message : SourceError → String
  | lex line => fielded "Lex" [("line", toString line)]
  | parse line expected =>
    fielded "Parse" [("line", toString line), ("message", Text.quoted expected)]
  | undefinedValue name => "UndefinedValue(" ++ Text.quoted name ++ ")"
  | undefinedBlock label => "UndefinedBlock(" ++ Text.quoted label ++ ")"
  | redefinition name => "Redefinition(" ++ Text.quoted name ++ ")"
  | missingTerminator label => "MissingTerminator(" ++ Text.quoted label ++ ")"
  | misplacedTerminator label => "MisplacedTerminator(" ++ Text.quoted label ++ ")"

/-! ## Failures of an analysis -/

/-- How an analysis can end without a result. -/
inductive Failure where
  /-- The graph or a set is not as the analysis needs it. -/
  | error (e : AnalysisError)
  /-- Something that is not there was read or written. -/
  | fault (f : Fault)
  /-- The budget of visits was used up with blocks still waiting. -/
  | unfinished
deriving DecidableEq, Repr

/-- The wording of a failure. -/
def Failure.message : Failure → String
  | error e => e.message
  | fault f => f.message
  | unfinished => "the budget of visits is used up"

instance : MonadLift (Except AnalysisError) (Except Failure) where
  monadLift := Except.mapError .error

instance : MonadLift (Except Fault) (Except Failure) where
  monadLift := Except.mapError .fault

end SsaFlow
