import SsaFlow.Dataflow.Solve
import SsaFlow.Proofs.Tables

/-!
# The worklist

A worklist keeps its queue and its set in step, so pushing a block that is not in
the set is pushing one that is not in the queue (`Worklist.queue_push`).  From here
on only the queue matters.

What a run of the solver does is said once, in `Run.Visit`: a visit to `b` meets
`b`'s sources as they are now, stores the result and what the transfer function
makes of it, touches no other block, and pushes the dependents of `b` if its
transfer side changed.  `Problem.solve_induction` turns what every visit keeps
into what holds when nothing waits.

Two facts follow for all problems, monotone or not.

* `Problem.solve_invariant`.  A property of inputs and outputs that the meet and
  the transfer function keep holds of both sides of every block.  A property of
  the record that a visit to a block establishes, and visits to other blocks
  keep, holds of every block with its final sides.
* `Problem.solve_meets`.  If every block is a dependent of each of its sources,
  then the meet side of every block is what one more meet would give.  A block
  off the queue is up to date with its sources, since a source that changes puts
  it back.
-/

namespace SsaFlow

/-! ## Worklists -/

namespace Worklist

variable {w rest : Worklist} {b c : Block} {bs : List Block}

/-- To look into the set is to look through the queue. -/
theorem queue_push (w : Worklist) (b : Block) :
    (w.push b).queue = if b ∈ w.queue then w.queue else w.queue ++ [b] := by
  rw [push]
  split
  next hb => rw [if_pos ((w.inStep b).mp (List.contains_iff_mem.mp hb))]
  next hb => rw [if_neg fun h => hb (List.contains_iff_mem.mpr ((w.inStep b).mpr h))]

theorem mem_push : c ∈ (w.push b).queue ↔ c ∈ w.queue ∨ c = b := by
  rw [queue_push]
  split
  next hb => exact ⟨.inl, fun h => h.elim id fun h => h ▸ hb⟩
  next => rw [List.mem_append, List.mem_singleton]

theorem mem_pushAll : c ∈ (w.pushAll bs).queue ↔ c ∈ w.queue ∨ c ∈ bs := by
  induction bs generalizing w with
  | nil => simp [pushAll]
  | cons b bs ih =>
    have hstep : w.pushAll (b :: bs) = (w.push b).pushAll bs := rfl
    rw [hstep, ih, mem_push, List.mem_cons, or_assoc]

/-- Blocks that do not wait yet, each pushed once, follow those that wait. -/
theorem queue_pushAll (hnew : ∀ b ∈ bs, b ∉ w.queue) (hbs : bs.Nodup) :
    (w.pushAll bs).queue = w.queue ++ bs := by
  induction bs generalizing w with
  | nil => rw [List.append_nil]; rfl
  | cons b bs ih =>
    have hstep : w.pushAll (b :: bs) = (w.push b).pushAll bs := rfl
    have hpush : (w.push b).queue = w.queue ++ [b] := by
      rw [queue_push, if_neg (hnew b List.mem_cons_self)]
    obtain ⟨hb, hbs⟩ := List.nodup_cons.mp hbs
    rw [hstep, ih _ hbs, hpush, List.append_assoc, List.singleton_append]
    intro c hc hmem
    rcases mem_push.mp hmem with h | rfl
    · exact hnew c (List.mem_cons_of_mem _ hc) h
    · exact hb hc

theorem pop?_eq_none : w.pop? = none ↔ w.queue = [] := by
  obtain ⟨queue, waiting, nodup, inStep⟩ := w
  cases queue with
  | nil => exact ⟨fun _ => rfl, fun _ => rfl⟩
  | cons b rest => simp [pop?]

/-- Nothing waits when there is nothing to pop, and the set is empty too. -/
theorem eq_empty (h : w.pop? = none) : w = empty := by
  obtain ⟨queue, waiting, nodup, inStep⟩ := w
  obtain rfl : queue = [] := pop?_eq_none.mp h
  obtain rfl : waiting = [] :=
    List.eq_nil_iff_forall_not_mem.mpr fun b hb => List.not_mem_nil ((inStep b).mp hb)
  rfl

theorem queue_of_pop? (h : w.pop? = some (b, rest)) : w.queue = b :: rest.queue := by
  obtain ⟨queue, waiting, nodup, inStep⟩ := w
  cases queue with
  | nil => cases h
  | cons c bs =>
    cases h
    rfl

theorem mem_of_pop? (h : w.pop? = some (b, rest)) : b ∈ w.queue :=
  queue_of_pop? h ▸ List.mem_cons_self

end Worklist

namespace BlockOrder

variable {g : FlowGraph} {o : BlockOrder}

theorem positions_eq (h : ofGraph g = .ok o) :
    o.positions = o.rpo.entries.foldl (fun m e => m.insert e.2 e.1) .empty := by
  simp only [ofGraph, bind_eq_ok, pure_eq_ok] at h
  obtain ⟨blocks, -, rfl⟩ := h
  rfl

theorem unreachable_eq (h : ofGraph g = .ok o) :
    o.unreachable = g.blocks.filter fun b => (o.positions.get? b).isNone := by
  simp only [ofGraph, bind_eq_ok, pure_eq_ok] at h
  obtain ⟨blocks, -, rfl⟩ := h
  rfl

/-- A position in the map is one in the list. -/
theorem mem_of_get?_positions {b : Block} {i : RpoIndex} :
    ∀ (es : List (RpoIndex × Block)) {m : HandleMap .block RpoIndex},
      (es.foldl (fun m e => m.insert e.2 e.1) m).get? b = some i →
        (i, b) ∈ es ∨ m.get? b = some i
  | [], m, h => .inr h
  | (j, c) :: es, m, h => by
    rcases mem_of_get?_positions es h with h | h
    · exact .inl (List.mem_cons_of_mem _ h)
    · rw [HandleMap.get?_insert] at h
      by_cases hb : b = c
      · rw [if_pos hb] at h
        cases h
        exact .inl (hb ▸ List.mem_cons_self)
      · rw [if_neg hb] at h
        exact .inr h

theorem get?_rpo_of_position (h : ofGraph g = .ok o) {b : Block} {i : RpoIndex}
    (hpos : o.positions.get? b = some i) : o.rpo.get? i = some b := by
  rw [positions_eq h] at hpos
  rcases mem_of_get?_positions _ hpos with h | h
  · exact Table.mem_entries.mp h
  · cases h

/-- A block that cannot be reached has no position, and the others are in the order. -/
theorem mem_rpo_or_unreachable (h : ofGraph g = .ok o) {b : Block} (hb : b.index < g.numBlocks) :
    b ∈ o.rpo.toList ∨ b ∈ o.unreachable := by
  cases hpos : o.positions.get? b with
  | none =>
    right
    rw [unreachable_eq h, List.mem_filter]
    exact ⟨Table.mem_handles.mpr hb, by rw [hpos]; rfl⟩
  | some i => exact .inl (Table.mem_toList.mpr ⟨i, get?_rpo_of_position h hpos⟩)

end BlockOrder

namespace FlowGraph

/-- Every block is visited at first, whether it can be reached or not. -/
theorem mem_seedOrder {g : FlowGraph} {d : Direction} {queue : List Block}
    (h : g.seedOrder d = .ok queue) {b : Block} (hb : b.index < g.numBlocks) : b ∈ queue := by
  simp only [seedOrder, bind_eq_ok] at h
  obtain ⟨o, ho, h⟩ := h
  have hmem := BlockOrder.mem_rpo_or_unreachable ho hb
  cases d with
  | forward =>
    obtain rfl := pure_eq_ok.mp h
    rw [List.mem_append]
    exact hmem
  | backward =>
    obtain rfl := pure_eq_ok.mp h
    rw [List.mem_append, BlockOrder.postorder, List.mem_reverse]
    exact hmem

/-! ## Mirrored edges -/

/-- Whoever meets the transfer side of a block is among the dependents of that block. -/
def Mirrored (g : FlowGraph) (d : Direction) : Prop :=
  ∀ a m b n, g.nodes.get? a = some m → g.nodes.get? b = some n →
    a ∈ n.sources d → b ∈ m.dependents d

theorem mirrored_iff {g : FlowGraph} {d : Direction} :
    (g.nodes.entries.all fun e => g.nodes.entries.all fun e' =>
      !(e'.2.sources d).contains e.1 || (e.2.dependents d).contains e'.1) = true ↔
      g.Mirrored d := by
  simp only [List.all_eq_true, Bool.or_eq_true, Bool.not_eq_true', List.contains_eq_mem,
    decide_eq_true_eq, decide_eq_false_iff_not]
  constructor
  · intro h a m b n ha hb hab
    rcases h (a, m) (Table.mem_entries.mpr ha) (b, n) (Table.mem_entries.mpr hb) with h | h
    · exact absurd hab h
    · exact h
  · rintro h ⟨a, m⟩ ha ⟨b, n⟩ hb
    by_cases hab : a ∈ n.sources d
    · exact .inr (h a m b n (Table.mem_entries.mp ha) (Table.mem_entries.mp hb) hab)
    · exact .inl hab

instance decidableMirrored (g : FlowGraph) (d : Direction) : Decidable (g.Mirrored d) :=
  decidable_of_iff _ mirrored_iff

end FlowGraph

/-! ## Inputs -/

/-- A list of values that all exist is made of the values of its items. -/
theorem mem_of_mapM_eq_some {α β : Type} {f : β → Option α} {xs : List β} {ys : List α}
    (h : xs.mapM f = some ys) :
    (∀ x ∈ xs, ∃ y ∈ ys, f x = some y) ∧ ∀ y ∈ ys, ∃ x ∈ xs, f x = some y := by
  induction xs generalizing ys with
  | nil =>
    rw [List.mapM_nil] at h
    cases h
    simp
  | cons x xs ih =>
    simp only [List.mapM_cons, Option.bind_eq_bind, Option.pure_def, Option.bind_eq_some_iff,
      Option.some.injEq] at h
    obtain ⟨z, hz, zs, hzs, rfl⟩ := h
    obtain ⟨hxs, hys⟩ := ih hzs
    simp only [List.mem_cons, forall_eq_or_imp, exists_eq_or_imp]
    exact ⟨⟨.inl hz, fun x' hx' => .inr (hxs x' hx')⟩, .inl hz, fun y hy => .inr (hys y hy)⟩

namespace Solution

variable {σ α : Type} {s s' : Solution α} {p : Problem σ α} {g : FlowGraph} {b : Block} {n : Node}
  {x : α}

/-- The input of a block without sources is what it holds, and of any other the meet. -/
theorem inputOf_eq_ok (hn : g.nodes.get? b = some n) :
    s.inputOf p g b = .ok x ↔
      (n.sources s.direction = [] ∧ s.meetSide.get? b = some x) ∨
      (n.sources s.direction ≠ [] ∧ s.meetOver p b (n.sources s.direction) = .ok x) := by
  simp only [inputOf, bind_eq_ok, liftFault_eq_ok, Table.read_eq_ok, hn, Option.some.injEq,
    exists_eq_left', List.isEmpty_iff]
  split
  next hnil => simp [hnil, liftFault_eq_ok, Table.read_eq_ok]
  next hne => simp [hne]

theorem exists_node_of_inputOf (h : s.inputOf p g b = .ok x) : ∃ n, g.nodes.get? b = some n := by
  simp only [inputOf, bind_eq_ok, liftFault_eq_ok, Table.read_eq_ok] at h
  obtain ⟨n, hn, _⟩ := h
  exact ⟨n, hn⟩

/-- A meet depends on the transfer sides of the sources only. -/
theorem meetOver_congr (hsize : s.transferSide.size = s'.transferSide.size)
    {sources : List Block}
    (hget : ∀ a ∈ sources, s.transferSide.get? a = s'.transferSide.get? a) :
    s.meetOver p b sources = s'.meetOver p b sources := by
  unfold meetOver
  generalize p.initial b = x
  induction sources generalizing x with
  | nil => rfl
  | cons a rest ih =>
    rw [List.foldlM_cons, List.foldlM_cons,
      Table.read_congr hsize (hget a List.mem_cons_self)]
    congr 1
    funext y
    exact ih (fun c hc => hget c (List.mem_cons_of_mem _ hc)) y

/-- A meet goes through the transfer sides of the sources in order. -/
theorem meetOver_eq_ok {sources : List Block} :
    s.meetOver p b sources = .ok x ↔
      ∃ ys, sources.mapM s.transferSide.get? = some ys ∧
        ys.foldlM p.meet (p.initial b) = .ok x := by
  unfold meetOver
  generalize p.initial b = z
  induction sources generalizing z with
  | nil => simp [pure_eq_ok]
  | cons a rest ih =>
    simp only [List.foldlM_cons, bind_eq_ok, liftFault_eq_ok, liftError_eq_ok, Table.read_eq_ok,
      ih, List.mapM_cons, Option.bind_eq_bind, Option.pure_def, Option.bind_eq_some_iff,
      Option.some.injEq]
    constructor
    · rintro ⟨w, ⟨y, hy, hw⟩, ys, hys, hx⟩
      exact ⟨y :: ys, ⟨y, hy, ys, hys, rfl⟩, by rw [List.foldlM_cons, hw]; exact hx⟩
    · rintro ⟨_, ⟨y, hy, ys, hys, rfl⟩, hx⟩
      rw [List.foldlM_cons, bind_eq_ok] at hx
      obtain ⟨w, hw, hx⟩ := hx
      exact ⟨w, ⟨y, hy, hw⟩, ys, hys, hx⟩

/-- What the start of a meet has, and meeting a source keeps, the meet has. -/
theorem meetOver_induction {V : α → Prop} {sources : List Block}
    (h : s.meetOver p b sources = .ok x) (hinitial : V (p.initial b))
    (hmeet : ∀ a ∈ sources, ∀ x y z, s.transferSide.get? a = some y → V x → p.meet x y = .ok z →
      V z) : V x := by
  refine foldlM_induction hinitial (fun a ha x z hx hz => ?_) h
  simp only [bind_eq_ok, liftFault_eq_ok, liftError_eq_ok, Table.read_eq_ok] at hz
  obtain ⟨y, hy, hz⟩ := hz
  exact hmeet a ha x y z hy hx hz

end Solution

/-! ## Visits -/

namespace Run

variable {σ α : Type} [DecidableEq α]

/-- A visit to `b`, where the node of `b` is `n` and the transfer function makes `y` of `x`. -/
structure Visit (p : Problem σ α) (g : FlowGraph) (r : Run α) (b : Block) (n : Node) (x y : α)
    (r' : Run α) : Prop where
  node : g.nodes.get? b = some n
  input : r.solution.inputOf p g b = .ok x
  direction : r'.solution.direction = r.solution.direction
  visits : r.solution.visits.update b (· + 1) = .ok r'.solution.visits
  meetSize : r'.solution.meetSide.size = r.solution.meetSide.size
  meetSide : ∀ c, r'.solution.meetSide.get? c =
    if c = b then some x else r.solution.meetSide.get? c
  transferSize : r'.solution.transferSide.size = r.solution.transferSide.size
  transferSide : ∀ c, r'.solution.transferSide.get? c =
    if c = b then some y else r.solution.transferSide.get? c
  worklist : r'.worklist = if r.solution.transferSide.get? b = some y then r.worklist
    else r.worklist.pushAll (n.dependents r.solution.direction)

/-- Everything that a successful visit does. -/
theorem visit_of_yields {p : Problem σ α} {g : FlowGraph} {r r' : Run α} {b : Block} {s s' : σ}
    (h : Yields (visit p g r b) s r' s') :
    ∃ n x y, Visit p g r b n x y r' ∧ Yields (p.transfer b x) s y s' := by
  simp only [visit, yields_bind, yields_lift] at h
  obtain ⟨x, _, ⟨hx, rfl⟩, y, _, hy, hstore, rfl⟩ := h
  obtain ⟨n, hn⟩ := Solution.exists_node_of_inputOf hx
  refine ⟨n, x, y, ?_, hy⟩
  simp only [store, bind_eq_ok, liftFault_eq_ok, Table.read_eq_ok] at hstore
  obtain ⟨visits, hvisits, meetSide, hmeet, y₀, hy₀, hstore⟩ := hstore
  split at hstore
  next heq =>
    rw [pure_eq_ok] at hstore
    subst hstore heq
    refine ⟨hn, hx, rfl, hvisits, Table.size_write hmeet, fun c => Table.get?_write hmeet, rfl,
      fun c => ?_, by rw [if_pos hy₀]⟩
    by_cases hc : c = b
    · rw [if_pos hc, hc, hy₀]
    · rw [if_neg hc]
  next hne =>
    simp only [bind_eq_ok, liftFault_eq_ok, Table.read_eq_ok, pure_eq_ok, hn, Option.some.injEq,
      exists_eq_left'] at hstore
    obtain ⟨transferSide, htransfer, rfl⟩ := hstore
    have hchanged : r.solution.transferSide.get? b ≠ some y := by
      rw [hy₀]
      exact fun h => hne (Option.some.inj h).symm
    exact ⟨hn, hx, rfl, hvisits, Table.size_write hmeet, fun c => Table.get?_write hmeet,
      Table.size_write htransfer, fun c => Table.get?_write htransfer, by rw [if_neg hchanged]⟩

/-- A visit takes nothing but `b` off the queue. -/
theorem Visit.not_mem_queue {p : Problem σ α} {g : FlowGraph} {r r' : Run α} {b c : Block}
    {rest : Worklist} {n : Node} {x y : α} (hv : Visit p g { r with worklist := rest } b n x y r')
    (hq : r.worklist.pop? = some (b, rest)) (hcb : c ≠ b) (hc : c ∉ r'.worklist.queue) :
    c ∉ r.worklist.queue := by
  rw [Worklist.queue_of_pop? hq, List.mem_cons]
  rintro (h | h)
  · exact hcb h
  · refine hc ?_
    rw [hv.worklist]
    split
    · exact h
    · exact Worklist.mem_pushAll.mpr (.inl h)

section

variable {p : Problem σ α} {g : FlowGraph} {fuel : Nat} {r : Run α} {b : Block} {rest : Worklist}

theorem finish_none (hq : r.worklist.pop? = none) : finish p g fuel r = pure r.solution := by
  unfold finish
  rw [hq]

theorem finish_zero (hq : r.worklist.pop? = some (b, rest)) :
    finish p g 0 r = throw .unfinished := by
  unfold finish
  rw [hq]

theorem finish_succ (hq : r.worklist.pop? = some (b, rest)) :
    finish p g (fuel + 1) r = visit p g { r with worklist := rest } b >>= finish p g fuel := by
  conv_lhs => unfold finish
  rw [hq]

end

/-- What every visit keeps holds at the end of a run that succeeds. -/
theorem finish_induction {p : Problem σ α} {g : FlowGraph} {P : Run α → σ → Prop}
    (hvisit : ∀ {r b rest n x y r' s s'}, r.worklist.pop? = some (b, rest) → P r s →
      Visit p g { r with worklist := rest } b n x y r' → Yields (p.transfer b x) s y s' →
      P r' s') :
    ∀ {fuel : Nat} {r : Run α} {s : σ} {d : Solution α} {s' : σ}, P r s →
      Yields (finish p g fuel r) s d s' → P ⟨d, .empty⟩ s' := by
  intro fuel
  induction fuel with
  | zero =>
    intro r s d s' hr h
    cases hq : r.worklist.pop? with
    | none =>
      rw [finish_none hq] at h
      obtain ⟨rfl, rfl⟩ := yields_pure.mp h
      rw [← Worklist.eq_empty hq]
      exact hr
    | some e =>
      rw [finish_zero hq] at h
      exact absurd h not_yields_throw
  | succ fuel ih =>
    intro r s d s' hr h
    cases hq : r.worklist.pop? with
    | none =>
      rw [finish_none hq] at h
      obtain ⟨rfl, rfl⟩ := yields_pure.mp h
      rw [← Worklist.eq_empty hq]
      exact hr
    | some e =>
      rw [finish_succ hq] at h
      obtain ⟨r', u, hv, h⟩ := yields_bind.mp h
      obtain ⟨n, x, y, hvisited, hy⟩ := visit_of_yields hv
      exact ih (hvisit hq hr hvisited hy) h

end Run

namespace Problem

variable {σ α : Type} {p : Problem σ α} {g : FlowGraph} {s s' : σ}

/-! ## Invariants -/

/-- `V` holds of what may be the input of a block, `U` of what may be its output, and `Q` of the
record.  `R` relates the record to the input and the output of a visit to a block, and visits to
other blocks keep it. -/
structure Invariant (p : Problem σ α) (g : FlowGraph) (Q : σ → Prop) (V U : Block → α → Prop)
    (R : Block → α → α → σ → Prop) : Prop where
  boundary : ∀ b n, g.nodes.get? b = some n → n.sources p.direction = [] →
    V b (p.boundary b (p.initial b))
  initial : ∀ b n, g.nodes.get? b = some n → n.sources p.direction ≠ [] → V b (p.initial b)
  seed : ∀ b n, g.nodes.get? b = some n → U b (p.initial b)
  meet : ∀ b n a m x y z, g.nodes.get? b = some n → g.nodes.get? a = some m →
    a ∈ n.sources p.direction → V b x → U a y → p.meet x y = .ok z → V b z
  transfer : ∀ b n x y s s', g.nodes.get? b = some n → Q s → V b x →
    Yields (p.transfer b x) s y s' → Q s' ∧ U b y ∧ R b x y s'
  other : ∀ b c m x y z w s s', c ≠ b → g.nodes.get? c = some m → Q s → V c z →
    Yields (p.transfer c z) s w s' → R b x y s → R b x y s'

/-- The state of a run under an invariant.  Of a block that waits, nothing is known to be on
record. -/
structure Invariant.Holds (p : Problem σ α) (g : FlowGraph) (Q : σ → Prop)
    (V U : Block → α → Prop) (R : Block → α → α → σ → Prop) (r : Run α) (s : σ) : Prop where
  direction : r.solution.direction = p.direction
  size : r.solution.transferSide.size = g.numBlocks
  record : Q s
  inputs : ∀ b x, r.solution.meetSide.get? b = some x → V b x
  outputs : ∀ b y, r.solution.transferSide.get? b = some y → U b y
  recorded : ∀ b x y, b ∉ r.worklist.queue → r.solution.meetSide.get? b = some x →
    r.solution.transferSide.get? b = some y → R b x y s

variable {Q : σ → Prop} {V U : Block → α → Prop} {R : Block → α → α → σ → Prop}

theorem Invariant.holds_start (hinv : p.Invariant g Q V U R) (hs : Q s) {w : Worklist}
    (hqueue : ∀ b, b.index < g.numBlocks → b ∈ w.queue) :
    Invariant.Holds p g Q V U R ⟨Solution.start p g, w⟩ s := by
  refine ⟨rfl, Table.size_ofList_entries _, hs, fun b x hx => ?_, fun b y hy => ?_,
    fun b x y hb hx _ => ?_⟩
  · simp only [Solution.start, Table.get?_ofList_entries, Option.map_eq_some_iff,
      List.isEmpty_iff] at hx
    obtain ⟨n, hn, rfl⟩ := hx
    split
    next hnil => exact hinv.boundary b n hn hnil
    next hne => exact hinv.initial b n hn hne
  · simp only [Solution.start, Table.get?_ofList_entries, Option.map_eq_some_iff] at hy
    obtain ⟨n, hn, rfl⟩ := hy
    exact hinv.seed b n hn
  · simp only [Solution.start, Table.get?_ofList_entries, Option.map_eq_some_iff] at hx
    obtain ⟨n, hn, -⟩ := hx
    exact absurd (hqueue b (Table.lt_size hn)) hb

/-- The input of every visit is as the invariant says. -/
theorem Invariant.input (hinv : p.Invariant g Q V U R) {r : Run α}
    (hr : Invariant.Holds p g Q V U R r s) {b : Block} {n : Node} {x : α}
    (hn : g.nodes.get? b = some n) (hx : r.solution.inputOf p g b = .ok x) : V b x := by
  rcases (Solution.inputOf_eq_ok hn).mp hx with ⟨-, hx⟩ | ⟨hne, hx⟩
  · exact hr.inputs b x hx
  · rw [hr.direction] at hne hx
    refine Solution.meetOver_induction hx (hinv.initial b n hn hne) ?_
    intro a ha x y z hy hx hz
    obtain ⟨m, hm⟩ := Table.exists_get? (t := g.nodes) (hr.size ▸ Table.lt_size hy)
    exact hinv.meet b n a m x y z hn hm ha hx (hr.outputs a y hy) hz

/-! ## Runs of the solver -/

variable [DecidableEq α] {fuel : Nat} {d : Solution α}

/-- What holds with all blocks queued, and every visit keeps, holds of the solution. -/
theorem solve_induction {P : Run α → σ → Prop} (hd : Yields (p.solve g fuel) s d s')
    (hstart : ∀ w, (∀ b, b.index < g.numBlocks → b ∈ w.queue) → P ⟨Solution.start p g, w⟩ s)
    (hvisit : ∀ {r b rest n x y r' s s'}, r.worklist.pop? = some (b, rest) → P r s →
      Run.Visit p g { r with worklist := rest } b n x y r' → Yields (p.transfer b x) s y s' →
      P r' s') : P ⟨d, .empty⟩ s' := by
  simp only [solve, yields_bind, yields_liftFault, yields_liftError] at hd
  obtain ⟨_, _, ⟨-, rfl⟩, seeds, _, ⟨hseeds, rfl⟩, hd⟩ := hd
  exact Run.finish_induction hvisit
    (hstart _ fun b hb => Worklist.mem_pushAll.mpr (.inr (FlowGraph.mem_seedOrder hseeds hb))) hd

theorem checkEdges_of_solve (hd : Yields (p.solve g fuel) s d s') : g.checkEdges = .ok () := by
  simp only [solve, yields_bind, yields_liftError] at hd
  obtain ⟨_, _, ⟨h, -⟩, _⟩ := hd
  exact h

/-- A solution has the direction of its problem, and both sides for every block. -/
theorem solve_shape (hd : Yields (p.solve g fuel) s d s') :
    d.direction = p.direction ∧ d.meetSide.size = g.numBlocks ∧
      d.transferSide.size = g.numBlocks := by
  refine solve_induction (P := fun r _ => r.solution.direction = p.direction ∧
    r.solution.meetSide.size = g.numBlocks ∧ r.solution.transferSide.size = g.numBlocks) hd
    (fun _ _ => ⟨rfl, Table.size_ofList_entries _, Table.size_ofList_entries _⟩) ?_
  intro r b rest n x y r' u u' hq hr hv hy
  exact ⟨hv.direction.trans hr.1, hv.meetSize.trans hr.2.1, hv.transferSize.trans hr.2.2⟩

theorem Invariant.holds_visit (hinv : p.Invariant g Q V U R) {r r' : Run α} {b : Block}
    {rest : Worklist} {n : Node} {x y : α} (hq : r.worklist.pop? = some (b, rest))
    (hr : Invariant.Holds p g Q V U R r s)
    (hv : Run.Visit p g { r with worklist := rest } b n x y r')
    (hy : Yields (p.transfer b x) s y s') : Invariant.Holds p g Q V U R r' s' := by
  have hx : V b x := hinv.input hr hv.node hv.input
  obtain ⟨hs', hout, hrec⟩ := hinv.transfer b n x y s s' hv.node hr.record hx hy
  refine ⟨hv.direction.trans hr.direction, hv.transferSize.trans hr.size, hs', fun c z hz => ?_,
    fun c w hw => ?_, fun c z w hc hz hw => ?_⟩
  · rw [hv.meetSide] at hz
    split at hz
    next heq => cases hz; exact heq ▸ hx
    next => exact hr.inputs c z hz
  · rw [hv.transferSide] at hw
    split at hw
    next heq => cases hw; exact heq ▸ hout
    next => exact hr.outputs c w hw
  · rw [hv.meetSide] at hz
    rw [hv.transferSide] at hw
    by_cases hcb : c = b
    · rw [if_pos hcb] at hz hw
      cases hz
      cases hw
      exact hcb ▸ hrec
    · rw [if_neg hcb] at hz hw
      have hold : R c z w s := hr.recorded c z w (hv.not_mem_queue hq hcb hc) hz hw
      exact hinv.other c b n z w x y s s' (Ne.symm hcb) hv.node hr.record hx hy hold

/-- An invariant holds of the solution, and what it says of the record holds of every block. -/
theorem solve_invariant (hinv : p.Invariant g Q V U R) (hs : Q s)
    (hd : Yields (p.solve g fuel) s d s') :
    Q s' ∧ ∀ b n, g.nodes.get? b = some n → ∃ x y, d.meetSide.get? b = some x ∧
      d.transferSide.get? b = some y ∧ V b x ∧ U b y ∧ R b x y s' := by
  have hend : Invariant.Holds p g Q V U R ⟨d, .empty⟩ s' :=
    solve_induction hd (fun _ hqueue => hinv.holds_start hs hqueue) hinv.holds_visit
  obtain ⟨-, hmeet, htransfer⟩ := solve_shape hd
  refine ⟨hend.record, fun b n hn => ?_⟩
  have hb : b.index < g.numBlocks := Table.lt_size hn
  obtain ⟨x, hx⟩ := Table.exists_get? (hmeet ▸ hb)
  obtain ⟨y, hy⟩ := Table.exists_get? (htransfer ▸ hb)
  exact ⟨x, y, hx, hy, hend.inputs b x hx, hend.outputs b y hy,
    hend.recorded b x y List.not_mem_nil hx hy⟩

/-! ## Meets that are up to date -/

/-- Every block off the queue holds what one more meet would give it. -/
def UpToDate (p : Problem σ α) (g : FlowGraph) (r : Run α) : Prop :=
  ∀ b n x, g.nodes.get? b = some n → b ∉ r.worklist.queue → r.solution.meetSide.get? b = some x →
    r.solution.inputOf p g b = .ok x

/-- A visit to `b` changes no transfer side that a block off the queue meets: if the side of `b`
changes, then all that meet it are queued. -/
theorem transferSide_of_visit (hg : g.Mirrored p.direction) {r r' : Run α} {b c a : Block}
    {n m : Node} {x y : α} (hdir : r.solution.direction = p.direction)
    (hv : Run.Visit p g r b n x y r') (hm : g.nodes.get? c = some m) (hc : c ∉ r'.worklist.queue)
    (ha : a ∈ m.sources p.direction) :
    r'.solution.transferSide.get? a = r.solution.transferSide.get? a := by
  rw [hv.transferSide]
  split
  next hab =>
    rw [hv.worklist] at hc
    split at hc
    next hsame => rw [hab, hsame]
    next hchanged =>
      have hdep : c ∈ n.dependents p.direction := hg b n c m hv.node hm (hab ▸ ha)
      exact absurd (Worklist.mem_pushAll.mpr (.inr (hdir ▸ hdep))) hc
  next => rfl

theorem upToDate_visit (hg : g.Mirrored p.direction) {r r' : Run α} {b : Block}
    {rest : Worklist} {n : Node} {x y : α} (hdir : r.solution.direction = p.direction)
    (hq : r.worklist.pop? = some (b, rest)) (hr : p.UpToDate g r)
    (hv : Run.Visit p g { r with worklist := rest } b n x y r') : p.UpToDate g r' := by
  intro c m z hm hc hz
  rw [Solution.inputOf_eq_ok hm]
  by_cases hnil : m.sources r'.solution.direction = []
  · exact .inl ⟨hnil, hz⟩
  refine .inr ⟨hnil, ?_⟩
  have hdir' : r'.solution.direction = p.direction := hv.direction.trans hdir
  rw [hdir'] at hnil ⊢
  -- the meet of `c` reads no transfer side that this visit changed
  rw [Solution.meetOver_congr hv.transferSize fun a ha => transferSide_of_visit hg hdir hv hm hc ha]
  have hinput : r.solution.inputOf p g c = .ok z := by
    rw [hv.meetSide] at hz
    by_cases hcb : c = b
    · rw [if_pos hcb] at hz
      cases hz
      exact hcb ▸ hv.input
    · rw [if_neg hcb] at hz
      exact hr c m z hm (hv.not_mem_queue hq hcb hc) hz
  rcases (Solution.inputOf_eq_ok hm).mp hinput with ⟨hnil', -⟩ | ⟨-, hmeet⟩
  · exact absurd (hdir ▸ hnil') hnil
  · exact hdir ▸ hmeet

/-- One more meet at any block gives what it holds. -/
theorem solve_meets (hg : g.Mirrored p.direction) (hd : Yields (p.solve g fuel) s d s')
    {b : Block} {n : Node} {x : α} (hn : g.nodes.get? b = some n)
    (hx : d.meetSide.get? b = some x) : d.inputOf p g b = .ok x := by
  have hend : d.direction = p.direction ∧ p.UpToDate g ⟨d, .empty⟩ := by
    refine solve_induction (P := fun r _ => r.solution.direction = p.direction ∧ p.UpToDate g r)
      hd (fun _ hqueue => ⟨rfl, fun c m z hm hc _ => ?_⟩) ?_
    · exact absurd (hqueue c (Table.lt_size hm)) hc
    · intro r c rest m z w r' u u' hq hr hv _
      exact ⟨hv.direction.trans hr.1, upToDate_visit hg hr.1 hq hr.2 hv⟩
  exact hend.2 b n x hn List.not_mem_nil hx

end Problem

end SsaFlow
