import SsaFlow.Proofs.Parsing

/-!
# The loops of the parser end

A loop is given as many turns as there are tokens left.  It never runs out of them, since
each turn takes a token: with more turns the result is the same, be it a tree or an error
(`Parser.Settles`).  The induction is the same for all loops (`Parser.settles_of_turn`), so
what is left to say of each is what one turn takes.
-/

namespace SsaFlow

namespace Parser

variable {α β : Type} {toks rest : Tokens} {eof : Nat}

/-- As many turns as there are tokens left are as good as any more. -/
def Settles (f : Nat → Parser α) : Prop :=
  ∀ toks n, toks.length ≤ n → (f n).run toks = (f toks.length).run toks

/-- If one turn more makes no difference to what comes after a turn, it makes none with the turn.
The loops may differ in what they were given. -/
theorem settles_of_turn {ι : Type} {f : ι → Nat → Parser α}
    (hnone : ∀ i, (f i 1).run [] = (f i 0).run [])
    (hturn : ∀ n, (∀ i toks, toks.length ≤ n → (f i (n + 1)).run toks = (f i n).run toks) →
      ∀ i toks, toks.length ≤ n + 1 → (f i (n + 2)).run toks = (f i (n + 1)).run toks) (i : ι) :
    Settles (f i) := by
  have hstep : ∀ n i toks, toks.length ≤ n → (f i (n + 1)).run toks = (f i n).run toks := by
    intro n
    induction n with
    | zero =>
      intro i toks hn
      obtain rfl : toks = [] := List.length_eq_zero_iff.mp (Nat.le_zero.mp hn)
      exact hnone i
    | succ n ih => exact hturn n ih
  intro toks n hn
  induction hn with
  | refl => rfl
  | @step n hn ih => rw [hstep n i toks hn, ih]

/-- What comes second only has to agree on what the first can leave. -/
theorem run_bind_congr {x : Parser α} {f g : α → Parser β}
    (h : ∀ a mid, Takes x toks a mid → (f a).run mid = (g a).run mid) :
    (x >>= f).run toks = (x >>= g).run toks := by
  rw [StateT.run_bind, StateT.run_bind]
  cases hx : x.run toks with
  | error e => rfl
  | ok r => exact h r.1 r.2 hx

theorem run_bind_left {x y : Parser α} (h : x.run toks = y.run toks) (f : α → Parser β) :
    (x >>= f).run toks = (y >>= f).run toks := by
  rw [StateT.run_bind, StateT.run_bind, h]

/-- A choice by the next token only has to agree on what comes after it. -/
theorem run_if_accept_congr {t : Token} {x y z : Parser α}
    (h : ∀ mid, Next t toks mid → x.run mid = y.run mid) :
    (do if ← accept t then x else z).run toks = (do if ← accept t then y else z).run toks := by
  refine run_bind_congr fun c mid hc => ?_
  rcases takes_accept.mp hc with ⟨rfl, hnext⟩ | ⟨rfl, -, -⟩
  · exact h mid hnext
  · rfl

/-! ## Lists -/

theorem settles_moreOperands : ∀ eof, Settles (moreOperands eof) := by
  refine settles_of_turn (fun _ => rfl) fun n ih eof toks hn => ?_
  conv_lhs => rw [moreOperands]
  conv_rhs => rw [moreOperands]
  refine run_if_accept_congr fun mid hcomma => run_bind_congr fun v mid' hv => ?_
  have hlen := hcomma.length_eq
  have hlen' := (takes_operand.mp hv).length_eq
  exact run_bind_left (ih eof mid' (by omega)) _

theorem ReadsNames.settles {f : Nat → Parser (List String)} {mk : String → Token}
    (hf : ReadsNames f mk) : Settles f := by
  have hnone : (f 1).run [] = (f 0).run [] := by
    rw [hf.stop fun _ _ => not_next_nil, hf.zero]
  refine settles_of_turn (fun _ : Unit => hnone) (fun n ih _ toks hn => ?_) ()
  by_cases hfirst : ∃ l mid, Next (mk l) toks mid
  · obtain ⟨l, mid, hnext⟩ := hfirst
    rw [hf.next hnext, hf.next hnext]
    refine run_if_accept_congr fun mid' hcomma => ?_
    have hlen := hnext.length_eq
    have hlen' := hcomma.length_eq
    exact run_bind_left (ih () mid' (by omega)) _
  · have hstop : ∀ l mid, ¬ Next (mk l) toks mid := fun l mid h => hfirst ⟨l, mid, h⟩
    rw [hf.stop hstop, hf.stop hstop]

theorem settles_incomingPairs : ∀ eof, Settles (incomingPairs eof) := by
  refine settles_of_turn (fun _ => rfl) fun n ih eof toks hn => ?_
  conv_lhs => rw [incomingPairs]
  conv_rhs => rw [incomingPairs]
  refine run_bind_congr fun e mid he => run_if_accept_congr fun mid' hcomma => ?_
  have hlen := (takes_incomingPair.mp he).length_eq
  have hlen' := hcomma.length_eq
  exact run_bind_left (ih eof mid' (by omega)) _

/-! ## Procedures -/

theorem length_lt_of_instruction {i : InstTree} (h : Takes (instruction eof) toks i rest) :
    rest.length < toks.length := by
  obtain ⟨ts, mid, hi, hts, hline⟩ := takes_instruction.mp h
  obtain ⟨t, us, rfl, -, -⟩ := hi.exists_head
  have hlen := hts.length_eq
  have hline : rest.length ≤ mid.length := by
    rcases hline with hnext | ⟨rfl, -⟩
    · have := hnext.length_eq
      omega
    · exact Nat.le_refl _
  rw [List.length_cons] at hlen
  omega

theorem length_lt_of_procedure {p : ProcTree} (h : Takes (procedure eof) toks (some p) rest) :
    rest.length < toks.length := by
  induction toks with
  | nil => cases h
  | cons e toks ih =>
    obtain ⟨t, line⟩ := e
    have hnext : Next t ((t, line) :: toks) toks := ⟨line, rfl⟩
    by_cases hnewline : t = .newline
    · subst hnewline
      have hlt := ih ((takes_procedure_newline hnext).mp h)
      rw [List.length_cons]
      omega
    · obtain ⟨q, ts, -, hq, hts⟩ := (takes_procedure hnext hnewline).mp h
      obtain ⟨u, us, rfl, -⟩ := hq.exists_head
      have hlen := hts.length_eq
      simp only [List.length_cons] at hlen ⊢
      omega

theorem settles_items : ∀ eof, Settles (items eof) := by
  refine settles_of_turn (fun _ => rfl) fun n ih eof toks hn => ?_
  conv_lhs => rw [items]
  conv_rhs => rw [items]
  refine run_bind_congr fun _ mid hskip => run_bind_congr fun toks' mid' hget => ?_
  obtain ⟨rfl, rfl⟩ := takes_get.mp hget
  have hlen : mid.length ≤ toks.length := by
    rw [← takes_skipNewlines.mp hskip]
    exact (List.dropWhile_suffix _).length_le
  split
  next => rfl
  next => rfl
  next rest =>
    -- after a label
    refine run_bind_congr fun _ mid' hset => ?_
    obtain rfl := takes_set.mp hset
    simp only [List.length_cons] at hlen
    exact run_bind_left (ih eof rest (by omega)) _
  next =>
    refine run_bind_congr fun i mid' hi => ?_
    have hlt := length_lt_of_instruction hi
    exact run_bind_left (ih eof mid' (by omega)) _

theorem settles_foldProcedures {σ : Type} (eof : Nat) (f : σ → ProcTree → Except SourceError σ) :
    ∀ s, Settles fun n => foldProcedures eof f n s := by
  refine settles_of_turn (fun _ => rfl) fun n ih s toks hn => ?_
  simp only [foldProcedures]
  refine run_bind_congr fun r mid hr => ?_
  cases r with
  | none => rfl
  | some p =>
    have hlen := length_lt_of_procedure hr
    refine run_bind_congr fun s' mid' hs => ?_
    obtain ⟨-, rfl⟩ := takes_lift.mp hs
    exact ih s' mid (by omega)

/-- No loop of the parser runs out of turns. -/
structure LoopsSettle : Prop where
  moreOperands : ∀ eof, Settles (moreOperands eof)
  labels : Settles labels
  params : Settles params
  incomingPairs : ∀ eof, Settles (incomingPairs eof)
  items : ∀ eof, Settles (items eof)
  foldProcedures : ∀ {σ : Type} (eof : Nat) (f : σ → ProcTree → Except SourceError σ) (s : σ),
    Settles fun n => foldProcedures eof f n s

theorem loopsSettle : LoopsSettle where
  moreOperands := settles_moreOperands
  labels := readsNames_labels.settles
  params := readsNames_params.settles
  incomingPairs := settles_incomingPairs
  items := settles_items
  foldProcedures := settles_foldProcedures

end Parser

end SsaFlow
