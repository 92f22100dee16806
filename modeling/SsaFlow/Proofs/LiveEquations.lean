import SsaFlow.Proofs.Fixpoint
import SsaFlow.Proofs.LiveRuns

/-!
# The equations of liveness

What is live at the start of a block follows from what is live at its end, by its
instructions.  What is live at the end of a block that has successors is what is live
at the start of some of them.  A result fits a graph if its sets satisfy both
equations at every block (`Liveness.Fits`).

The graph need not be the one that the result was made for.  Where it is, its edges
have to be mirrored (`Liveness.fits_of_analyze`).  Nothing is said about the end of a
block without successors.
-/

namespace SsaFlow

namespace Liveness

/-- The sets `x` at the end and `y` at the start of a block are as its instructions and its
successors say. -/
structure Balanced (l : Liveness) (g : FlowGraph) (b : Block) (n : Node) (x y : BitSet) :
    Prop where
  liveOut : l.liveOut b = .ok x
  liveIn : l.liveIn b = .ok y
  outSized : x.Over l.domain.size
  inSized : y.Over l.domain.size
  insts : ∀ k, y.contains k = true ↔ l.domain.LiveThrough g (x.contains · = true) n.insts k
  edges : n.succs ≠ [] → ∀ k, x.contains k = true ↔
    ∃ a ∈ n.succs, ∃ z, l.liveIn a = .ok z ∧ z.contains k = true

/-- All blocks of the graph are balanced. -/
def Fits (l : Liveness) (g : FlowGraph) : Prop :=
  ∀ b n, g.nodes.get? b = some n → ∃ x y, l.Balanced g b n x y

variable {f g : FlowGraph} {l : Liveness} {b : Block} {n : Node} {x y : BitSet}

/-- What is met at the end of a block is what is live at the start of some successor. -/
theorem contains_inputOf_iff (hl : analyze f = .ok l) (hn : g.nodes.get? b = some n)
    (hne : n.succs ≠ []) (hx : l.solution.inputOf (l.domain.liveness g) g b = .ok x) (k : Nat) :
    x.contains k = true ↔ ∃ a ∈ n.succs, ∃ z, l.liveIn a = .ok z ∧ z.contains k = true := by
  rw [Solution.inputOf_eq_ok hn, direction_of_analyze hl] at hx
  obtain ⟨hnil, -⟩ | ⟨-, hmeet⟩ := hx
  · exact absurd hnil hne
  obtain ⟨ys, hys, hfold⟩ := Solution.meetOver_eq_ok.mp hmeet
  obtain ⟨hsources, hvalues⟩ := mem_of_mapM_eq_some hys
  have hover : ∀ z ∈ ys, z.Over l.domain.size := by
    intro z hz
    obtain ⟨a, -, hza⟩ := hvalues z hz
    exact over_liveIn hl ((liveIn_eq_ok hl).mpr hza)
  rw [Domain.contains_of_foldlM_meet (BitSet.over_empty _) hover hfold k]
  constructor
  · intro h
    obtain hempty | ⟨z, hz, hk⟩ := h
    · simp at hempty
    · obtain ⟨a, ha, hza⟩ := hvalues z hz
      exact ⟨a, ha, z, (liveIn_eq_ok hl).mpr hza, hk⟩
  · intro ⟨a, ha, z, hz, hk⟩
    obtain ⟨w, hw, hwa⟩ := hsources a ha
    obtain rfl := Except.ok.inj (hz.symm.trans ((liveIn_eq_ok hl).mpr hwa))
    exact .inr ⟨z, hw, hk⟩

/-- A settled block is balanced as soon as its instructions lead from one set to the other. -/
theorem balanced_of_settled (hl : analyze f = .ok l) (hn : g.nodes.get? b = some n)
    (hsettled : Solution.Settled (l.domain.liveness g) g l.solution b x y)
    (hlive : ∀ k, y.contains k = true ↔ l.domain.LiveThrough g (x.contains · = true) n.insts k) :
    l.Balanced g b n x y := by
  have hout : l.liveOut b = .ok x := (liveOut_eq_ok hl).mpr hsettled.meetSide
  have hin : l.liveIn b = .ok y := (liveIn_eq_ok hl).mpr hsettled.transferSide
  exact ⟨hout, hin, over_liveOut hl hout, over_liveIn hl hin, hlive,
    fun hne => contains_inputOf_iff hl hn hne hsettled.input⟩

/-- Over mirrored edges, a result fits the graph that it was made for. -/
theorem fits_of_analyze (hg : g.Mirrored .backward) (hl : analyze g = .ok l) : l.Fits g := by
  intro b n hn
  obtain ⟨x, y, hx, hy, -, -, hrec⟩ := exists_sides hl Domain.closed_true hn
  rw [liveOut_eq_ok hl] at hx
  rw [liveIn_eq_ok hl] at hy
  have hinput := Problem.solve_meets (p := l.domain.liveness g) hg (solve_of_analyze hl).2 hn hx
  exact ⟨x, y, balanced_of_settled hl hn ⟨hx, hy, hinput⟩ hrec.live⟩

end Liveness

end SsaFlow
