import SsaFlow.Procedure.Listing

/-!
# Programs

A program is a list of procedures that share nothing.  Its text is the texts of
the procedures with a blank line between them.
-/

namespace SsaFlow

/-- Procedures, in order. -/
structure Program where
  /-- The procedures. -/
  funcs : Table .func Procedure
deriving DecidableEq

namespace Program

/-- The program without procedures. -/
def empty : Program := ⟨.empty⟩

instance : Inhabited Program := ⟨empty⟩

/-- The program with one more procedure, which `funcs.next` names. -/
def push (m : Program) (p : Procedure) : Program := ⟨m.funcs.push p⟩

/-- The first procedure of a given name. -/
def find? (m : Program) (name : String) : Option Func :=
  (m.funcs.entries.find? fun e => e.2.name == name).map Prod.fst

/-- The text of a program. -/
def render (m : Program) : Except Fault String := do
  return "\n".intercalate (← m.funcs.toList.mapM fun p => p.render "")

end Program

end SsaFlow
