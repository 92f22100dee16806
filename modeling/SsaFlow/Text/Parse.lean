import SsaFlow.Program
import SsaFlow.Text.Lower
import SsaFlow.Text.Parser

/-!
# Reading programs

A text is divided into tokens first.  Then the procedures are read one after
the other.  Each gets its names looked up before the next is read, so the first
fault in a procedure that can be read hides all that comes after it.  Two
procedures of a program never have the same name.
-/

namespace SsaFlow

namespace Program

/-- Adds the procedure of a tree to a program. -/
def addTree (m : Program) (t : ProcTree) : Except SourceError Program := do
  if (m.find? t.name).isSome then throw (.redefinition ("@" ++ t.name))
  else return m.push (← t.lower)

/-- The program that a list of tokens writes. -/
def ofTokens (tokens : Tokens) : Except SourceError Program :=
  Parser.foldTokens addTree empty tokens

/-- The program that a text writes. -/
def parse (text : String) : Except SourceError Program := do
  ofTokens (← lex text)

end Program

end SsaFlow
