import SsaFlow.Text.Token
import SsaFlow.Text.Tree

/-!
# Reading trees from tokens

A parser takes tokens from the front of a list.  When the next token is not one
the grammar allows, it reports the line of that token.  At the end of the
tokens it reports `eof`, the line of the last one.

Loops carry a count of the tokens that were left when they began.  Every turn
of a loop takes at least one token, so the count only reaches zero when no
token is left, and a loop answers then as it does for an empty list.
-/

namespace SsaFlow

/-- Parsers take tokens from the front of a list. -/
abbrev Parser := StateT Tokens (Except SourceError)

namespace Parser

/-- The line of the next token. -/
def lineAt (eof : Nat) : Tokens → Nat
  | [] => eof
  | (_, line) :: _ => line

/-- Refuses the next token. -/
def refuse {α : Type} (eof : Nat) (message : String) : Parser α := do
  throw (.parse (lineAt eof (← get)) message)

/-- Takes one certain token. -/
def expect (eof : Nat) (t : Token) (what : String) : Parser Unit := do
  match ← get with
  | (u, _) :: rest => if u = t then set rest else refuse eof ("expected " ++ what)
  | [] => refuse eof ("expected " ++ what)

/-- Takes one certain token if it is next, and tells whether it was. -/
def accept (t : Token) : Parser Bool := do
  match ← get with
  | (u, _) :: rest => if u = t then set rest; return true else return false
  | [] => return false

/-- Takes a bare word. -/
def word (eof : Nat) (what : String) : Parser String := do
  match ← get with
  | (.ident name, _) :: rest => set rest; return name
  | _ => refuse eof ("expected " ++ what)

/-- Takes all line ends up to the next other token. -/
def skipNewlines : Parser Unit :=
  modify (·.dropWhile (·.1 = .newline))

/-- Takes the end of a line.  A closing brace and the end of the tokens will do as well, and
stay. -/
def endOfLine (eof : Nat) : Parser Unit := do
  match ← get with
  | (.newline, _) :: rest => set rest
  | (.rbrace, _) :: _ => return
  | [] => return
  | _ => refuse eof "expected end of line"

/-! ## Operands and labels -/

/-- Takes an operand. -/
def operand (eof : Nat) : Parser OperandTree := do
  match ← get with
  | (.localName n, _) :: rest => set rest; return .name n
  | (.int k, _) :: rest => set rest; return .int k
  | _ => refuse eof "expected operand"

/-- Takes the operands after the first, each behind a comma. -/
def moreOperands (eof : Nat) : Nat → Parser (List OperandTree)
  | 0 => return []
  | n + 1 => do
    if ← accept .comma then
      let v ← operand eof
      return v :: (← moreOperands eof n)
    else return []

/-- Takes operands divided by commas, maybe none. -/
def operands (eof : Nat) : Parser (List OperandTree) := do
  match ← get with
  | (.localName _, _) :: rest | (.int _, _) :: rest =>
    let v ← operand eof
    return v :: (← moreOperands eof rest.length)
  | _ => return []

/-- Takes labels divided by commas, maybe none.  A comma after the last will do. -/
def labels : Nat → Parser (List String)
  | 0 => return []
  | n + 1 => do
    match ← get with
    | (.ident label, _) :: rest =>
      set rest
      if ← accept .comma then return label :: (← labels n) else return [label]
    | _ => return []

/-- Takes argument names divided by commas, maybe none.  A comma after the last will do. -/
def params : Nat → Parser (List String)
  | 0 => return []
  | n + 1 => do
    match ← get with
    | (.localName name, _) :: rest =>
      set rest
      if ← accept .comma then return name :: (← params n) else return [name]
    | _ => return []

/-! ## Instructions -/

/-- Takes one pair of a phi. -/
def incomingPair (eof : Nat) : Parser (OperandTree × String) := do
  expect eof .lbracket "`[`"
  let value ← operand eof
  expect eof .comma "`,`"
  let pred ← word eof "predecessor label"
  expect eof .rbracket "`]`"
  return (value, pred)

/-- Takes the pairs of a phi, divided by commas, at least one. -/
def incomingPairs (eof : Nat) : Nat → Parser (List (OperandTree × String))
  | 0 => refuse eof "expected `[`"
  | n + 1 => do
    let pair ← incomingPair eof
    if ← accept .comma then return pair :: (← incomingPairs eof n) else return [pair]

/-- Takes what follows the word `br`. -/
def branch (eof : Nat) : Parser ActionTree := do
  match ← get with
  | (.ident target, _) :: rest => set rest; return .br target
  | _ =>
    let cond ← operand eof
    expect eof .comma "`,`"
    let ifTrue ← word eof "label"
    expect eof .comma "`,`"
    let ifFalse ← word eof "label"
    return .condBr cond ifTrue ifFalse

/-- Takes what follows the word `switch`. -/
def switchTail (eof : Nat) : Parser ActionTree := do
  let value ← operand eof
  expect eof .comma "`,`"
  let default ← word eof "default label"
  expect eof .comma "`,`"
  expect eof .lbracket "`[`"
  let targets ← labels (← get).length
  expect eof .rbracket "`]`"
  return .switch value default targets

/-- Takes what follows the first word of an instruction. -/
def action (eof : Nat) (opcode : String) : Parser ActionTree := do
  if opcode = "phi" then return .phi (← incomingPairs eof (← get).length)
  else if opcode = "br" then branch eof
  else if opcode = "switch" then switchTail eof
  else if opcode = "ret" then return .ret (← operands eof)
  else if opcode = "unreachable" then return .unreachable
  else return .compute opcode (← operands eof)

/-- Takes a result name and the equals sign after it, if they are next. -/
def result : Parser (Option String) := do
  match ← get with
  | (.localName name, _) :: (.equals, _) :: rest => set rest; return some name
  | _ => return none

/-- Takes an instruction up to the end of its line. -/
def instruction (eof : Nat) : Parser InstTree := do
  let result ← result
  let opcode ← word eof "opcode"
  let action ← action eof opcode
  if result.isSome && action.isTerminator then
    refuse eof "terminators do not produce a result"
  else if result.isNone && action.isPhi then
    refuse eof "phi must produce a result"
  else
    endOfLine eof
    return { result, action }

/-! ## Procedures -/

/-- Takes everything up to the closing brace: the instructions of the block that is open, and the
blocks after it. -/
def items (eof : Nat) : Nat → Parser (List InstTree × List BlockTree)
  | 0 => refuse eof "unterminated function"
  | n + 1 => do
    skipNewlines
    match ← get with
    | [] => refuse eof "unterminated function"
    | (.rbrace, _) :: rest => set rest; return ([], [])
    | (.ident label, _) :: (.colon, _) :: rest =>
      set rest
      let (insts, blocks) ← items eof n
      return ([], { label, insts } :: blocks)
    | _ =>
      let i ← instruction eof
      let (insts, blocks) ← items eof n
      return (i :: insts, blocks)

/-- Takes the blocks of a procedure up to the closing brace.  The first item has to be a label. -/
def blocks (eof : Nat) : Parser (List BlockTree) := do
  skipNewlines
  match ← get with
  | [] => refuse eof "unterminated function"
  | (.rbrace, _) :: rest => set rest; refuse eof "function has no blocks"
  | (.ident label, _) :: (.colon, _) :: rest =>
    set rest
    let (insts, blocks) ← items eof rest.length
    return { label, insts } :: blocks
  | _ =>
    let _ ← instruction eof
    refuse eof "expected block label"

/-- Takes the name of a procedure. -/
def procName (eof : Nat) : Parser String := do
  match ← get with
  | (.globalName name, _) :: rest => set rest; return name
  | _ :: rest => set rest; refuse eof "expected function name"
  | [] => refuse eof "expected function name"

/-- Takes a procedure, if any token but line ends is left. -/
def procedure (eof : Nat) : Parser (Option ProcTree) := do
  skipNewlines
  if (← get).isEmpty then return none
  else if (← word eof "`func`") ≠ "func" then refuse eof "expected `func`"
  else
    let name ← procName eof
    expect eof .lparen "`(`"
    let args ← params (← get).length
    expect eof .rparen "`)`"
    expect eof .lbrace "`\x7b`"
    let blocks ← blocks eof
    return some { name, args, blocks }

/-- Takes all procedures, and hands each to `f` before the next is read. -/
def foldProcedures {σ : Type} (eof : Nat) (f : σ → ProcTree → Except SourceError σ) :
    Nat → σ → Parser σ
  | 0, s => return s
  | n + 1, s => do
    match ← procedure eof with
    | none => return s
    | some t => foldProcedures eof f n (← f s t)

/-- The line reported at the end of some tokens. -/
def endLine (tokens : Tokens) : Nat := (tokens.getLast?.map Prod.snd).getD 1

/-- Reads all of a list of tokens as procedures, handing each to `f` before the next is read. -/
def foldTokens {σ : Type} (f : σ → ProcTree → Except SourceError σ) (s : σ) (tokens : Tokens) :
    Except SourceError σ :=
  (foldProcedures (endLine tokens) f tokens.length s).run' tokens

end Parser

end SsaFlow
