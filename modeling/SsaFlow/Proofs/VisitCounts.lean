import Mathlib.Algebra.BigOperators.Ring.List
import Mathlib.Algebra.Order.BigOperators.Group.List
import Mathlib.Algebra.Order.Ring.Nat
import Mathlib.Data.List.Dedup
import SsaFlow.Proofs.BlockOrders

/-!
# Counting visits

A block waits at most once, so every visit but the first is owed to a change: a
block is put back only by a source whose transfer side changed after it was taken
off the queue.  `Run.Accounted` says this for all sets `B` of blocks at once.  The
visits to blocks of `B`, and the blocks of `B` that wait, are no more than the
blocks of `B`, and for every change of a block those of `B` that depend on it.

A block that does not wait was visited, and holds what its last visit left.  So
when nothing waits, this is so of every block (`Run.Accounted.holdsLast`).

With all blocks for `B` the account bounds a whole run, and with a single block the
visits to it.  So a run that changes no transfer side more than `height` times
needs no more visits than `FlowGraph.visitBudget` allows, and more do not alter
how it ends (`Problem.Bounded.solve_ends`).  It solves the problem, or some
transfer fails.  The calls of the transfer function on the way are what the
traced problem records.
-/

namespace SsaFlow

variable {σ α : Type}

/-! ## Sequences of values -/

/-- How often a sequence of values that starts from `x` changes. -/
def changes [DecidableEq α] : α → List α → Nat
  | _, [] => 0
  | x, y :: ys => (if y = x then 0 else 1) + changes y ys

theorem changes_append [DecidableEq α] (y : α) :
    ∀ (x : α) (ys : List α),
      changes x (ys ++ [y]) = changes x ys + if y = ys.getLastD x then 0 else 1
  | x, [] => by simp [changes]
  | x, z :: ys => by
    rw [List.cons_append, changes, changes_append y z ys, changes, List.getLastD_cons]
    omega

/-- A sequence that goes up with every change has no more changes than there are ranks above its
start. -/
theorem changes_add_rank_le [DecidableEq α] {rank : α → Nat} {height : Nat} :
    ∀ {x : α} {ys : List α}, (x :: ys).IsChain (fun y z => y ≠ z → rank y < rank z) →
      (∀ y ∈ x :: ys, rank y ≤ height) → changes x ys + rank x ≤ height
  | x, [], _, hle => by simpa [changes] using hle
  | x, y :: ys, hchain, hle => by
    obtain ⟨hlt, hchain⟩ := List.isChain_cons_cons.mp hchain
    have ih := changes_add_rank_le hchain fun z hz => hle z (List.mem_cons_of_mem _ hz)
    rw [changes]
    split
    next heq =>
      rw [heq] at ih ⊢
      omega
    next hne =>
      have := hlt (Ne.symm hne)
      omega

theorem sum_map_add_le {ι : Type} {l : List ι} {f f' : ι → Nat} {i : ι} {w : Nat} (hi : i ∈ l)
    (hle : ∀ j ∈ l, f j ≤ f' j) (hw : f i + w ≤ f' i) : (l.map f).sum + w ≤ (l.map f').sum := by
  obtain ⟨l₁, l₂, rfl⟩ := List.append_of_mem hi
  have h₁ : (l₁.map f).sum ≤ (l₁.map f').sum :=
    List.sum_le_sum fun j hj => hle j (List.mem_append_left _ hj)
  have h₂ : (l₂.map f).sum ≤ (l₂.map f').sum :=
    List.sum_le_sum fun j hj => hle j (List.mem_append_right _ (List.mem_cons_of_mem _ hj))
  simp only [List.map_append, List.map_cons, List.sum_append, List.sum_cons]
  omega

/-! ## Calls -/

/-- The calls of the transfer function of one block. -/
def callsAt (calls : List (Call α)) (b : Block) : List (Call α) :=
  calls.filter (·.block = b)

/-- What the transfer function of one block gave, call by call. -/
def outputsAt (calls : List (Call α)) (b : Block) : List α := (callsAt calls b).map Call.output

theorem callsAt_append (calls : List (Call α)) (c : Call α) (b : Block) :
    callsAt (calls ++ [c]) b = callsAt calls b ++ if c.block = b then [c] else [] := by
  by_cases hc : c.block = b
  · simp [callsAt, List.filter_append, hc]
  · simp [callsAt, List.filter_append, hc]

theorem outputsAt_append (calls : List (Call α)) (c : Call α) (b : Block) :
    outputsAt (calls ++ [c]) b = outputsAt calls b ++ if c.block = b then [c.output] else [] := by
  rw [outputsAt, callsAt_append, List.map_append, outputsAt]
  split
  · rfl
  · rfl

theorem length_callsAt (calls : List (Call α)) (b : Block) :
    (callsAt calls b).length = calls.countP fun c => decide (c.block = b) :=
  List.countP_eq_length_filter.symm

/-- Every block was visited, and `d` holds what its last call was given and what it gave. -/
def Solution.HoldsLast (d : Solution α) (g : FlowGraph) (calls : List (Call α)) : Prop :=
  ∀ b n, g.nodes.get? b = some n → ∃ x y, d.meetSide.get? b = some x ∧
    d.transferSide.get? b = some y ∧ (callsAt calls b).getLast? = some ⟨b, x, y⟩

/-- A block that is pushed more than once, or waits already, is queued once. -/
theorem Worklist.countP_pushAll_le (w : Worklist) (bs : List Block) (B : Block → Bool) :
    (w.pushAll bs).queue.countP B ≤ w.queue.countP B + bs.dedup.countP B := by
  rw [← List.countP_append]
  refine List.Subperm.countP_le B (List.subperm_of_subset (w.pushAll bs).nodup fun c hc => ?_)
  rw [List.mem_append, List.mem_dedup]
  exact mem_pushAll.mp hc

namespace FlowGraph

variable {g : FlowGraph}

/-- What the changes of all blocks are charged with, for the blocks in `B`. -/
def charges [DecidableEq α] (g : FlowGraph) (p : Problem σ α) (calls : List (Call α))
    (B : Block → Bool) : Nat :=
  (g.nodes.entries.map fun e => changes (p.initial e.1) (outputsAt calls e.1) *
    (e.2.dependents p.direction).dedup.countP B).sum

theorem sum_entries (f : Node → Nat) :
    (g.nodes.entries.map fun e => f e.2).sum = (g.nodes.toList.map f).sum := by
  rw [← Table.map_snd_entries, List.map_map]
  rfl

theorem visitBudget_eq (d : Direction) (height : Nat) :
    g.visitBudget d height =
      g.numBlocks + height * (g.nodes.toList.map fun n => (n.dependents d).length).sum := by
  rw [visitBudget, List.sum_eq_foldr, List.foldr_map]

variable [DecidableEq α] {p : Problem σ α} {calls : List (Call α)} {height : Nat}

theorem charges_le (h : ∀ b, changes (p.initial b) (outputsAt calls b) ≤ height)
    (B : Block → Bool) :
    g.charges p calls B ≤
      height * (g.nodes.toList.map fun n => (n.dependents p.direction).dedup.countP B).sum := by
  rw [← sum_entries, ← List.sum_map_mul_left]
  exact List.sum_le_sum fun e _ => Nat.mul_le_mul_right _ (h e.1)

/-- All that is charged, and a visit to every block, is within the budget. -/
theorem add_charges_le_visitBudget
    (h : ∀ b, changes (p.initial b) (outputsAt calls b) ≤ height) :
    g.numBlocks + g.charges p calls (fun _ => true) ≤ g.visitBudget p.direction height := by
  rw [visitBudget_eq]
  refine Nat.add_le_add_left ((charges_le h _).trans (Nat.mul_le_mul_left _ ?_)) _
  refine List.sum_le_sum fun n _ => ?_
  rw [List.countP_true]
  exact (List.dedup_sublist _).length_le

/-- A single block is charged with the changes of the blocks it depends on. -/
theorem charges_singleton_le
    (h : ∀ b, changes (p.initial b) (outputsAt calls b) ≤ height) (b : Block) :
    g.charges p calls (fun c => decide (c = b)) ≤
      height * g.nodes.toList.countP fun n => decide (b ∈ n.dependents p.direction) := by
  refine (charges_le h _).trans (Nat.mul_le_mul_left _ (Nat.le_of_eq ?_))
  induction g.nodes.toList with
  | nil => rfl
  | cons n ns ih =>
    have hcount : (n.dependents p.direction).dedup.countP (fun c => decide (c = b)) =
        if b ∈ n.dependents p.direction then 1 else 0 := by
      rw [← List.count_dedup]
      rfl
    rw [List.map_cons, List.sum_cons, ih, hcount, List.countP_cons, Nat.add_comm]
    simp

/-- A change of the transfer side of a block is charged with the blocks that depend on it. -/
theorem charges_append {b : Block} {n : Node} {x y : α} (hn : g.nodes.get? b = some n)
    (hy : y ≠ (outputsAt calls b).getLastD (p.initial b)) (B : Block → Bool) :
    g.charges p calls B + (n.dependents p.direction).dedup.countP B ≤
      g.charges p (calls ++ [⟨b, x, y⟩]) B := by
  have hchange : ∀ c, changes (p.initial c) (outputsAt (calls ++ [⟨b, x, y⟩]) c) =
      changes (p.initial c) (outputsAt calls c) + if b = c then 1 else 0 := by
    intro c
    rw [outputsAt_append]
    split
    next hc =>
      obtain rfl : b = c := hc
      rw [changes_append, if_neg hy]
    next => rw [List.append_nil, Nat.add_zero]
  refine sum_map_add_le (Table.mem_entries.mpr hn) (fun e _ => ?_) ?_
  · rw [hchange]
    exact Nat.mul_le_mul_right _ (Nat.le_add_right _ _)
  · rw [hchange, if_pos rfl, Nat.add_mul, Nat.one_mul]

end FlowGraph

/-! ## The account of a run -/

namespace Run

variable [DecidableEq α] {p : Problem σ α} {g : FlowGraph} {r r' : Run α} {calls : List (Call α)}
  {b : Block} {rest : Worklist} {n : Node} {x y : α} {s s' : σ}

/-- What a run has done so far, after the given calls. -/
structure Accounted (p : Problem σ α) (g : FlowGraph) (r : Run α) (calls : List (Call α)) :
    Prop where
  direction : r.solution.direction = p.direction
  meetSize : r.solution.meetSide.size = g.numBlocks
  transferSize : r.solution.transferSide.size = g.numBlocks
  visitsSize : r.solution.visits.size = g.numBlocks
  inRange : ∀ b ∈ r.worklist.queue, b.index < g.numBlocks
  /-- A block that does not wait was visited, and holds what its last visit left. -/
  settled : ∀ b x y, b ∉ r.worklist.queue → r.solution.meetSide.get? b = some x →
    r.solution.transferSide.get? b = some y → (callsAt calls b).getLast? = some ⟨b, x, y⟩
  visits : ∀ b v, r.solution.visits.get? b = some v → v = (callsAt calls b).length
  last : ∀ b y, r.solution.transferSide.get? b = some y →
    y = (outputsAt calls b).getLastD (p.initial b)
  charged : ∀ B : Block → Bool, calls.countP (fun c => B c.block) + r.worklist.queue.countP B ≤
    g.blocks.countP B + g.charges p calls B

theorem accounted_start {w : Worklist} (hmem : ∀ b, b ∈ w.queue ↔ b.index < g.numBlocks) :
    Accounted p g ⟨Solution.start p g, w⟩ [] := by
  refine ⟨rfl, Table.size_ofList_entries _, Table.size_ofList_entries _, Table.size_replicate _,
    fun b hb => (hmem b).mp hb, fun b x y hnot hx _ => ?_, fun b v hv => ?_, fun b y hy => ?_,
    fun B => ?_⟩
  · have hb : b.index < g.numBlocks := (Table.lt_size hx).trans_eq (Table.size_ofList_entries _)
    exact absurd ((hmem b).mpr hb) hnot
  · have hv : (Array.replicate g.numBlocks 0)[b.index]? = some v := hv
    rw [Array.getElem?_replicate] at hv
    split at hv
    next => cases hv; rfl
    next => cases hv
  · simp only [Solution.start, Table.get?_ofList_entries, Option.map_eq_some_iff] at hy
    obtain ⟨n, -, rfl⟩ := hy
    rfl
  · have hsubset : w.queue ⊆ g.blocks := fun b hb => Table.mem_handles.mpr ((hmem b).mp hb)
    have hle : w.queue.countP B ≤ g.blocks.countP B :=
      List.Subperm.countP_le B (List.subperm_of_subset w.nodup hsubset)
    show 0 + w.queue.countP B ≤ g.blocks.countP B + g.charges p [] B
    omega

theorem Accounted.queue_inRange (hg : g.InRange) (hr : Accounted p g r calls)
    (hq : r.worklist.pop? = some (b, rest))
    (hv : Visit p g { r with worklist := rest } b n x y r') :
    ∀ c ∈ r'.worklist.queue, c.index < g.numBlocks := by
  have hrest : ∀ c ∈ rest.queue, c.index < g.numBlocks := by
    intro c hc
    exact hr.inRange c (Worklist.queue_of_pop? hq ▸ List.mem_cons_of_mem _ hc)
  intro c hc
  rw [hv.worklist] at hc
  split at hc
  next => exact hrest c hc
  next =>
    rcases Worklist.mem_pushAll.mp hc with hc | hc
    · exact hrest c hc
    · exact hg.dependents _ hv.node c hc

theorem Accounted.settled_visit (hr : Accounted p g r calls)
    (hq : r.worklist.pop? = some (b, rest))
    (hv : Visit p g { r with worklist := rest } b n x y r') {c : Block} {z w : α}
    (hc : c ∉ r'.worklist.queue) (hz : r'.solution.meetSide.get? c = some z)
    (hw : r'.solution.transferSide.get? c = some w) :
    (callsAt (calls ++ [⟨b, x, y⟩]) c).getLast? = some ⟨c, z, w⟩ := by
  rw [hv.meetSide] at hz
  rw [hv.transferSide] at hw
  rw [callsAt_append]
  by_cases hcb : c = b
  · rw [if_pos hcb] at hz hw
    cases hz
    cases hw
    rw [if_pos hcb.symm, List.getLast?_concat, hcb]
  · rw [if_neg hcb] at hz hw
    rw [if_neg (Ne.symm hcb), List.append_nil]
    exact hr.settled c z w (hv.not_mem_queue hq hcb hc) hz hw

/-- A visit is paid for by the block that it takes off the queue, and the blocks that it puts there
are charged to the change. -/
theorem Accounted.charged_visit (hr : Accounted p g r calls) (hq : r.worklist.pop? = some (b, rest))
    (hv : Visit p g { r with worklist := rest } b n x y r') (B : Block → Bool) :
    (calls ++ [(⟨b, x, y⟩ : Call α)]).countP (fun c => B c.block) + r'.worklist.queue.countP B ≤
      g.blocks.countP B + g.charges p (calls ++ [⟨b, x, y⟩]) B := by
  have hold := hr.charged B
  have hcall : (calls ++ [(⟨b, x, y⟩ : Call α)]).countP (fun c => B c.block) =
      calls.countP (fun c => B c.block) + if B b then 1 else 0 := by
    rw [List.countP_append, List.countP_singleton]
  rw [Worklist.queue_of_pop? hq, List.countP_cons] at hold
  rw [hcall]
  by_cases hsame : r.solution.transferSide.get? b = some y
  · have hqueue : r'.worklist = rest := by rw [hv.worklist, if_pos hsame]
    have hcharge : g.charges p calls B ≤ g.charges p (calls ++ [⟨b, x, y⟩]) B := by
      refine List.sum_le_sum fun e _ => Nat.mul_le_mul_right _ ?_
      rw [outputsAt_append]
      split
      next => rw [changes_append]; exact Nat.le_add_right _ _
      next => rw [List.append_nil]
    rw [hqueue]
    omega
  · have hqueue : r'.worklist = rest.pushAll (n.dependents p.direction) := by
      rw [hv.worklist, if_neg hsame, hr.direction]
    obtain ⟨y₀, hy₀⟩ := Table.exists_get? (t := r.solution.transferSide) (h := b)
      (hr.transferSize ▸ Table.lt_size hv.node)
    have hne : y ≠ (outputsAt calls b).getLastD (p.initial b) := by
      rw [← hr.last b y₀ hy₀]
      rintro rfl
      exact hsame hy₀
    have hcharge := FlowGraph.charges_append (x := x) hv.node hne B
    have hle := rest.countP_pushAll_le (n.dependents p.direction) B
    rw [hqueue]
    omega

theorem Accounted.visit (hg : g.InRange) (hr : Accounted p g r calls)
    (hq : r.worklist.pop? = some (b, rest))
    (hv : Visit p g { r with worklist := rest } b n x y r') :
    Accounted p g r' (calls ++ [⟨b, x, y⟩]) := by
  refine ⟨hv.direction.trans hr.direction, hv.meetSize.trans hr.meetSize,
    hv.transferSize.trans hr.transferSize, (Table.size_update hv.visits).trans hr.visitsSize,
    hr.queue_inRange hg hq hv, fun c z w hc hz hw => hr.settled_visit hq hv hc hz hw,
    fun c v hc => ?_, fun c z hz => ?_, hr.charged_visit hq hv⟩
  · rw [Table.get?_update hv.visits] at hc
    rw [callsAt_append]
    by_cases hcb : c = b
    · rw [if_pos hcb, Option.map_eq_some_iff] at hc
      obtain ⟨w, hw, rfl⟩ := hc
      rw [hr.visits c w hw, if_pos hcb.symm, List.length_append, List.length_singleton]
    · rw [if_neg hcb] at hc
      rw [hr.visits c v hc, if_neg (Ne.symm hcb), List.append_nil]
  · rw [hv.transferSide] at hz
    rw [outputsAt_append]
    by_cases hcb : c = b
    · rw [if_pos hcb] at hz
      cases hz
      rw [if_pos hcb.symm]
      simp
    · rw [if_neg hcb] at hz
      rw [if_neg (Ne.symm hcb), List.append_nil]
      exact hr.last c z hz

/-- There is no more to be done after as many calls as the budget allows. -/
theorem Accounted.pop?_eq_none {height : Nat} (hr : Accounted p g r calls)
    (h : ∀ b, changes (p.initial b) (outputsAt calls b) ≤ height)
    (hlen : g.visitBudget p.direction height ≤ calls.length) : r.worklist.pop? = none := by
  have hcharged := hr.charged fun _ => true
  have hblocks : g.blocks.length = g.numBlocks := Handle.length_first _
  have hbudget := FlowGraph.add_charges_le_visitBudget (g := g) h
  simp only [List.countP_true, hblocks] at hcharged
  exact Worklist.pop?_eq_none.mpr (List.length_eq_zero_iff.mp (by omega))

/-- A block is visited once, and again for the changes of the blocks it depends on. -/
theorem Accounted.length_callsAt_le {height : Nat} (hr : Accounted p g r calls)
    (h : ∀ b, changes (p.initial b) (outputsAt calls b) ≤ height) (b : Block) :
    (callsAt calls b).length ≤
      1 + height * g.nodes.toList.countP fun n => decide (b ∈ n.dependents p.direction) := by
  have hcharged := hr.charged fun c => decide (c = b)
  have hcharge := FlowGraph.charges_singleton_le (g := g) h b
  have hone : g.blocks.countP (fun c => decide (c = b)) ≤ 1 :=
    List.nodup_iff_count_le_one.mp (Handle.nodup_first .block g.numBlocks) b
  rw [length_callsAt]
  omega

/-- The count of the visits to a block is right, and has the bound. -/
theorem Accounted.exists_visits {height : Nat} (hr : Accounted p g r calls)
    (h : ∀ b, changes (p.initial b) (outputsAt calls b) ≤ height)
    (hn : g.nodes.get? b = some n) :
    ∃ v, r.solution.visits.get? b = some v ∧ v = (callsAt calls b).length ∧
      v ≤ 1 + height * g.nodes.toList.countP fun m => decide (b ∈ m.dependents p.direction) := by
  have hb : b.index < g.numBlocks := Table.lt_size hn
  obtain ⟨v, hv⟩ := Table.exists_get? (t := r.solution.visits) (hr.visitsSize ▸ hb)
  obtain rfl := hr.visits b v hv
  exact ⟨_, hv, rfl, hr.length_callsAt_le h b⟩

theorem Accounted.holdsLast (hr : Accounted p g r calls) (hq : r.worklist.pop? = none) :
    r.solution.HoldsLast g calls := by
  intro b n hn
  have hb : b.index < g.numBlocks := Table.lt_size hn
  obtain ⟨x, hx⟩ := Table.exists_get? (t := r.solution.meetSide) (hr.meetSize ▸ hb)
  obtain ⟨y, hy⟩ := Table.exists_get? (t := r.solution.transferSide) (hr.transferSize ▸ hb)
  have hnot : b ∉ r.worklist.queue := by
    rw [Worklist.pop?_eq_none.mp hq]
    exact List.not_mem_nil
  exact ⟨x, y, hx, hy, hr.settled b x y hnot hx hy⟩

/-! ## One visit -/

theorem Accounted.store_ok (hr : Accounted p g r calls) (hn : g.nodes.get? b = some n)
    (rest : Worklist) (x y : α) :
    ∃ r', store { r with worklist := rest } g b x y = .ok r' := by
  have hb : b.index < g.numBlocks := Table.lt_size hn
  obtain ⟨meetSide, hmeet⟩ := Table.write_ok (t := r.solution.meetSide) (hr.meetSize ▸ hb) x
  obtain ⟨transferSide, htransfer⟩ :=
    Table.write_ok (t := r.solution.transferSide) (hr.transferSize ▸ hb) y
  obtain ⟨y₀, hy₀⟩ := Table.exists_get? (t := r.solution.transferSide) (hr.transferSize ▸ hb)
  obtain ⟨visits, hvisits⟩ : ∃ visits, r.solution.visits.update b (· + 1) = .ok visits :=
    ⟨_, Table.update_eq_ok.mpr ⟨hr.visitsSize ▸ hb, rfl⟩⟩
  simp only [store, bind_eq_ok, liftFault_eq_ok, Table.read_eq_ok, hy₀, Option.some.injEq,
    exists_eq_left']
  by_cases hy : y = y₀
  · refine ⟨⟨{ r.solution with visits, meetSide }, rest⟩, visits, hvisits, meetSide, hmeet, ?_⟩
    rw [if_pos hy, pure_eq_ok]
  · refine ⟨⟨{ r.solution with visits, meetSide, transferSide },
      rest.pushAll (n.dependents r.solution.direction)⟩, visits, hvisits, meetSide, hmeet, ?_⟩
    rw [if_neg hy]
    simp only [bind_eq_ok, liftFault_eq_ok, Table.read_eq_ok, pure_eq_ok]
    exact ⟨transferSide, htransfer, n, hn, rfl⟩

end Run

/-! ## Failures -/

theorem run_bind_of_yields {ε β : Type} {x : ExceptT ε (StateM σ) α}
    {f : α → ExceptT ε (StateM σ) β} {s s' : σ} {a : α} (h : Yields x s a s') :
    (x >>= f).run.run s = (f a).run.run s' := by
  have h : x.run.run s = (.ok a, s') := h
  simp only [ExceptT.run_bind, StateT.run_bind, h]
  rfl

theorem run_bind_of_error {ε β : Type} {x : ExceptT ε (StateM σ) α}
    {f : α → ExceptT ε (StateM σ) β} {s s' : σ} {e : ε} (h : x.run.run s = (.error e, s')) :
    (x >>= f).run.run s = (.error e, s') := by
  simp only [ExceptT.run_bind, StateT.run_bind, h]
  rfl

namespace Run

variable [DecidableEq α] {p : Problem σ α} {g : FlowGraph} {r r' : Run α} {b : Block} {x y : α}
  {s s' : σ}

theorem visit_yields (hx : r.solution.inputOf p g b = .ok x) (hy : Yields (p.transfer b x) s y s')
    (hstore : r.store g b x y = .ok r') : Yields (visit p g r b) s r' s' := by
  simp only [visit, yields_bind, yields_lift]
  exact ⟨x, s, ⟨hx, rfl⟩, y, s', hy, hstore, rfl⟩

theorem visit_error {e : Failure} (hx : r.solution.inputOf p g b = .ok x)
    (he : (p.transfer b x).run.run s = (.error e, s')) :
    (visit p g r b).run.run s = (.error e, s') := by
  have hin : Yields (liftM (r.solution.inputOf p g b) : Recording σ α) s x s :=
    yields_lift.mpr ⟨hx, rfl⟩
  unfold visit
  rw [run_bind_of_yields hin, run_bind_of_error he]

end Run

namespace Problem

variable {p : Problem σ α} {b : Block} {x y : α} {s s' : σ}

theorem traced_yields (h : Yields (p.transfer b x) s y s') (calls : List (Call α)) :
    Yields (p.traced.transfer b x) (s, calls) y (s', calls ++ [⟨b, x, y⟩]) := by
  have h : (p.transfer b x).run.run s = (.ok y, s') := h
  simp only [traced, yields_bind, yields_get]
  refine ⟨(s, calls), (s, calls), ⟨rfl, rfl⟩, ?_⟩
  rw [h]
  exact yields_bind.mpr ⟨(), _, yields_set.mpr rfl, yields_pure.mpr ⟨rfl, rfl⟩⟩

theorem traced_error {e : Failure} (h : (p.transfer b x).run.run s = (.error e, s'))
    (calls : List (Call α)) :
    (p.traced.transfer b x).run.run (s, calls) = (.error e, (s', calls)) := by
  have hget : Yields (get : Recording (σ × List (Call α)) _) (s, calls) (s, calls) (s, calls) :=
    yields_get.mpr ⟨rfl, rfl⟩
  simp only [traced]
  rw [run_bind_of_yields hget]
  simp only [h]
  rfl

end Problem

/-! ## How runs end -/

namespace Run

variable [DecidableEq α]

/-- A run ends with its solution when no block waits, or in the failure of a transfer. -/
inductive Ends (p : Problem σ α) (g : FlowGraph) (r : Run α) (s : σ) :
    Except Failure (Solution α) → σ → Prop where
  | done : r.worklist.pop? = none → Ends p g r s (.ok r.solution) s
  | failed {b : Block} {rest : Worklist} {x : α} {e : Failure} {s' : σ} :
    r.worklist.pop? = some (b, rest) → r.solution.inputOf p g b = .ok x →
    (p.transfer b x).run.run s = (.error e, s') → Ends p g r s (.error e) s'

end Run

namespace Problem

variable [DecidableEq α] {p : Problem σ α} {g : FlowGraph} {height : Nat}
  {P : Run α → σ → List (Call α) → Prop} {s : σ}

/-- Visits keep `P`, and where `P` holds every block has an input and no transfer side changed more
than `height` times. -/
structure Bounded (p : Problem σ α) (g : FlowGraph) (height : Nat)
    (P : Run α → σ → List (Call α) → Prop) : Prop where
  visit : ∀ {r b rest n x y r' s s' calls}, Run.Accounted p g r calls →
    r.worklist.pop? = some (b, rest) → P r s calls →
    Run.Visit p g { r with worklist := rest } b n x y r' →
    Yields (p.transfer b x) s y s' → P r' s' (calls ++ [⟨b, x, y⟩])
  input : ∀ {r b n s calls}, Run.Accounted p g r calls → P r s calls →
    g.nodes.get? b = some n → ∃ x, r.solution.inputOf p g b = .ok x
  changes : ∀ {r s calls}, Run.Accounted p g r calls → P r s calls →
    ∀ b, changes (p.initial b) (outputsAt calls b) ≤ height

/-- With visits left for the rest of the budget, a run comes to its end, and more visits do not
alter it. -/
theorem Bounded.finish_ends (hp : p.Bounded g height P) (hg : g.InRange) :
    ∀ (fuel : Nat) {r : Run α} {s : σ} {calls : List (Call α)},
      Run.Accounted p g r calls → P r s calls →
      g.visitBudget p.direction height ≤ calls.length + fuel →
      ∃ r' s' calls' o s'', Run.Accounted p g r' calls' ∧ P r' s' calls' ∧
        Run.Ends p g r' s' o s'' ∧
        ∀ k, (Run.finish p g (fuel + k) r).run.run s = (o, s'') ∧
          (Run.finish p.traced g (fuel + k) r).run.run (s, calls) = (o, (s'', calls')) := by
  intro fuel
  induction fuel with
  | zero =>
    intro r s calls hr hP hfuel
    have hq : r.worklist.pop? = none := hr.pop?_eq_none (hp.changes hr hP) hfuel
    refine ⟨r, s, calls, _, s, hr, hP, .done hq, fun k => ?_⟩
    rw [Run.finish_none hq, Run.finish_none hq]
    exact ⟨rfl, rfl⟩
  | succ fuel ih =>
    intro r s calls hr hP hfuel
    cases hq : r.worklist.pop? with
    | none =>
      refine ⟨r, s, calls, _, s, hr, hP, .done hq, fun k => ?_⟩
      rw [Run.finish_none hq, Run.finish_none hq]
      exact ⟨rfl, rfl⟩
    | some e =>
      obtain ⟨b, rest⟩ := e
      obtain ⟨n, hn⟩ := Table.exists_get? (t := g.nodes) (hr.inRange b (Worklist.mem_of_pop? hq))
      obtain ⟨x, hx⟩ := hp.input hr hP hn
      have hstep : ∀ k, fuel + 1 + k = fuel + k + 1 := fun k => by omega
      cases hrun : (p.transfer b x).run.run s with
      | mk out u =>
        cases out with
        | error e =>
          refine ⟨r, s, calls, _, u, hr, hP, .failed hq hx hrun, fun k => ?_⟩
          rw [hstep, Run.finish_succ hq, Run.finish_succ hq]
          exact ⟨run_bind_of_error (Run.visit_error hx hrun),
            run_bind_of_error (Run.visit_error (p := p.traced) hx (traced_error hrun calls))⟩
        | ok y =>
          have hy : Yields (p.transfer b x) s y u := hrun
          obtain ⟨r', hstore⟩ := hr.store_ok hn rest x y
          have hvisit := Run.visit_yields (r := { r with worklist := rest }) hx hy hstore
          have hvisit' := Run.visit_yields (p := p.traced) (r := { r with worklist := rest }) hx
            (traced_yields hy calls) hstore
          obtain ⟨n', x', y', hv, hy'⟩ := Run.visit_of_yields hvisit
          obtain rfl : x = x' := Except.ok.inj (hx.symm.trans hv.input)
          obtain ⟨rfl, -⟩ := hy.unique hy'
          have hfuel' : g.visitBudget p.direction height ≤
              (calls ++ [(⟨b, x, y⟩ : Call α)]).length + fuel := by
            rw [List.length_append, List.length_singleton]
            omega
          obtain ⟨r'', s'', calls', o, u', hr'', hP'', hends, hall⟩ :=
            ih (hr.visit hg hq hv) (hp.visit hr hq hP hv hy) hfuel'
          refine ⟨r'', s'', calls', o, u', hr'', hP'', hends, fun k => ?_⟩
          rw [hstep, Run.finish_succ hq, Run.finish_succ hq, run_bind_of_yields hvisit,
            run_bind_of_yields hvisit']
          exact hall k

/-- A run with the budget of visits, or more, solves the problem or ends in the failure of a
transfer.  Tracing it alters nothing. -/
theorem Bounded.solve_ends (hp : p.Bounded g height P) (hg : g.InRange)
    (hstart : ∀ w, P ⟨Solution.start p g, w⟩ s []) :
    ∃ r s' calls o s'', Run.Accounted p g r calls ∧ P r s' calls ∧ Run.Ends p g r s' o s'' ∧
      ∀ fuel, g.visitBudget p.direction height ≤ fuel →
        (p.solve g fuel).run.run s = (o, s'') ∧
          (p.traced.solve g fuel).run.run (s, []) = (o, (s'', calls)) := by
  have hedges : g.checkEdges = .ok () := FlowGraph.checkEdges_iff_inRange.mpr hg
  obtain ⟨seeds, hseeds, hnodup, hmem⟩ := FlowGraph.seedOrder_ok hg p.direction
  have hqueue : (Worklist.empty.pushAll seeds).queue = seeds :=
    Worklist.queue_pushAll (fun _ _ => List.not_mem_nil) hnodup
  obtain ⟨r, s', calls, o, s'', hr, hP, hends, hall⟩ :=
    hp.finish_ends hg (g.visitBudget p.direction height) (Run.accounted_start (hqueue ▸ hmem))
      (hstart _) (Nat.le_add_left _ _)
  refine ⟨r, s', calls, o, s'', hr, hP, hends, fun fuel hfuel => ?_⟩
  obtain ⟨k, rfl⟩ := Nat.exists_eq_add_of_le hfuel
  constructor
  · unfold solve
    rw [run_bind_of_yields (yields_liftError.mpr ⟨hedges, rfl⟩),
      run_bind_of_yields (yields_liftFault.mpr ⟨hseeds, rfl⟩)]
    exact (hall k).1
  · have hseeds' : g.seedOrder p.traced.direction = .ok seeds := hseeds
    unfold solve
    rw [run_bind_of_yields (yields_liftError.mpr ⟨hedges, rfl⟩),
      run_bind_of_yields (yields_liftFault.mpr ⟨hseeds', rfl⟩)]
    exact (hall k).2

end Problem

end SsaFlow
