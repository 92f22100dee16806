import SsaFlow.Liveness.Analysis

/-!
# Annotated listings

A listing of a procedure with what is live: at the start of every block, and
above every instruction but phis.  A verbose listing also tells what is live at
the end of every block, and the inputs that the block supplies to phis.

All of this stands in comments, so an annotated listing is still the text of
the procedure.
-/

namespace SsaFlow

namespace Liveness

/-- A comment with the names of the values in a set. -/
def setLine (l : Liveness) (p : Procedure) (title : String) (s : BitSet) : String :=
  let names := (l.domain.valuesIn s).map p.valueName
  "; " ++ title ++ ":" ++ if names.isEmpty then "" else " " ++ ", ".intercalate names

/-- The comments of an annotated listing. -/
def notes (l : Liveness) (p : Procedure) (verbose : Bool) : Procedure.Notes where
  top b := do return [l.setLine p "live-in" (← l.liveIn b)]
  above i := do
    if (← p.insts.read i).op.kind = .phi then return []
    else return [l.setLine p "live" (← l.liveBefore i)]
  bottom b := do
    if verbose then
      let out := l.setLine p "live-out" (← l.liveOut b)
      return out :: ((l.phiEdge? b).map (l.setLine p "phi-edge live-out")).toList
    else return []

/-- The annotated listing of a procedure, every line set in by `indent`. -/
def render (l : Liveness) (p : Procedure) (verbose : Bool) (indent : String) :
    Except Fault String :=
  p.renderWith (l.notes p verbose) indent

end Liveness

end SsaFlow
