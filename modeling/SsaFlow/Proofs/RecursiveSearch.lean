import SsaFlow.Proofs.Postorders

/-!
# The search as a recursion

A depth-first search is most easily said as a recursion.  To visit a block is to mark it, to visit
in order those of its successors that are not marked when their turn comes, and to emit it
(`FlowGraph.visit`).  The marks are handed on from one successor to the next.

The recursion ends because marks are never taken off: whenever it goes deeper, a block is marked
that was not, and its steps are gone from those that remain (`FlowGraph.remaining`).  That has to be
known of the trail that one successor leaves before the next is looked at, so `FlowGraph.explore`
gives it together with the trail.

The search with a stack of its own emits the same blocks in the same order.  When a block is opened,
the search works off its successors before it touches the frames below.  So it runs into the state
that the recursion leaves (`FlowGraph.search_visitAll`).
-/

namespace SsaFlow

/-- What a recursive search has done so far. -/
structure Trail where
  /-- The blocks that were marked, the latest first. -/
  marked : List Block := []
  /-- The blocks that were emitted, in order. -/
  emitted : List Block := []
deriving DecidableEq, Repr

namespace Trail

/-- Marks a block. -/
def mark (t : Trail) (b : Block) : Trail := { t with marked := b :: t.marked }

/-- Emits a block. -/
def emit (t : Trail) (b : Block) : Trail := { t with emitted := t.emitted ++ [b] }

end Trail

namespace FlowGraph

/-- The successors of a block.  A block that does not exist has none. -/
def succsOf (g : FlowGraph) (b : Block) : List Block := ((g.nodes.get? b).map Node.succs).getD []

/-- The steps that the blocks not marked yet can take. -/
def remaining (g : FlowGraph) (t : Trail) : Nat := unvisitedWork t.marked g.nodes.entries

variable {g : FlowGraph} {b : Block} {bs : List Block} {t : Trail}

theorem succsOf_of_get? {n : Node} (hn : g.nodes.get? b = some n) : g.succsOf b = n.succs := by
  rw [succsOf, hn]
  rfl

theorem succs_eq_succsOf (hb : b.index < g.numBlocks) : g.succs b = .ok (g.succsOf b) := by
  obtain ⟨n, hn⟩ := Table.exists_get? (t := g.nodes) hb
  rw [succs_eq_ok]
  exact ⟨n, hn, (succsOf_of_get? hn).symm⟩

theorem SuccsInRange.succsOf (hg : g.SuccsInRange) (hb : b.index < g.numBlocks) :
    ∀ s ∈ g.succsOf b, s.index < g.numBlocks := by
  obtain ⟨n, hn⟩ := Table.exists_get? (t := g.nodes) hb
  rw [succsOf_of_get? hn]
  exact hg b n hn

/-! ## The recursion -/

theorem remaining_mark_le (g : FlowGraph) (b : Block) (t : Trail) :
    g.remaining (t.mark b) ≤ g.remaining t :=
  unvisitedWork_cons_le b t.marked g.nodes.entries

/-- The steps of a block are its own once it is marked. -/
theorem length_succsOf_add_remaining_le (hb : b ∉ t.marked) :
    (g.succsOf b).length + g.remaining (t.mark b) ≤ g.remaining t := by
  cases hn : g.nodes.get? b with
  | some n =>
    have hle : n.succs.length + 1 + g.remaining (t.mark b) ≤ g.remaining t :=
      unvisitedWork_cons hb (Table.mem_entries.mpr hn)
    rw [succsOf_of_get? hn]
    omega
  | none =>
    have hle := g.remaining_mark_le b t
    rw [succsOf, hn]
    simpa using hle

/-- Visits the blocks of a list, but for those that are marked when their turn comes.  No steps are
added to those that remain. -/
def explore (g : FlowGraph) (bs : List Block) (t : Trail) :
    { u : Trail // g.remaining u ≤ g.remaining t } :=
  match bs with
  | [] => ⟨t, Nat.le_refl _⟩
  | b :: bs =>
    if hb : b ∈ t.marked then g.explore bs t
    else
      have := length_succsOf_add_remaining_le (g := g) hb
      have hle := g.remaining_mark_le b t
      let inner := g.explore (g.succsOf b) (t.mark b)
      have hinner : g.remaining (inner.val.emit b) ≤ g.remaining t := inner.property.trans hle
      let rest := g.explore bs (inner.val.emit b)
      ⟨rest.val, rest.property.trans hinner⟩
termination_by g.remaining t + bs.length
decreasing_by
  · exact Nat.lt_succ_self _
  · rw [List.length_cons]
    omega
  · exact Nat.lt_succ_of_le (Nat.add_le_add_right hinner bs.length)

/-- Visits the blocks of a list in order, but for those that are marked when their turn comes. -/
def visitAll (g : FlowGraph) (bs : List Block) (t : Trail) : Trail := (g.explore bs t).val

/-- Visits a block: marks it, visits its successors, and emits it. -/
def visit (g : FlowGraph) (b : Block) (t : Trail) : Trail :=
  (g.visitAll (g.succsOf b) (t.mark b)).emit b

@[simp] theorem visitAll_nil (g : FlowGraph) (t : Trail) : g.visitAll [] t = t := by
  rw [visitAll, explore]

theorem visitAll_cons (g : FlowGraph) (b : Block) (bs : List Block) (t : Trail) :
    g.visitAll (b :: bs) t =
      if b ∈ t.marked then g.visitAll bs t else g.visitAll bs (g.visit b t) := by
  rw [visitAll, explore]
  split
  next => rfl
  next => rfl

/-- What holds of every list by the way it is visited. -/
theorem visitAll_induction {P : List Block → Trail → Prop} (nil : ∀ t, P [] t)
    (skip : ∀ b bs t, b ∈ t.marked → P bs t → P (b :: bs) t)
    (visit : ∀ b bs t, b ∉ t.marked → P (g.succsOf b) (t.mark b) → P bs (g.visit b t) →
      P (b :: bs) t) (bs : List Block) (t : Trail) : P bs t := by
  fun_induction explore g bs t with
  | case1 t => exact nil t
  | case2 t b bs hb ih => exact skip b bs t hb ih
  | case3 t b bs hb _ hle inner hinner rest ih ih' => exact visit b bs t hb ih ih'

/-- The blocks that a recursive search emits, from the entry on with nothing marked.  A graph without
blocks has none. -/
def recursivePostorder (g : FlowGraph) : List Block :=
  if g.numBlocks = 0 then [] else (g.visit g.entry {}).emitted

/-! ## The stack -/

/-- The search works off the successors of an open block as the recursion visits them, and leaves the
frames below alone. -/
theorem search_visitAll (hg : g.SuccsInRange) (bs : List Block) (t : Trail)
    (hbs : ∀ s ∈ bs, s.index < g.numBlocks) (b : Block) (rest : Frames) :
    g.search ((b, bs) :: rest) t.marked t.emitted.reverse =
      g.search ((b, []) :: rest) (g.visitAll bs t).marked (g.visitAll bs t).emitted.reverse := by
  induction bs, t using visitAll_induction (g := g) generalizing b rest with
  | nil t => rw [visitAll_nil]
  | skip s ss t hs ih =>
    rw [visitAll_cons, if_pos hs, search_skip hs]
    exact ih (fun a ha => hbs a (List.mem_cons_of_mem _ ha)) b rest
  | visit s ss t hs inner after =>
    obtain ⟨hlt, hss⟩ := List.forall_mem_cons.mp hbs
    -- the frame of `s` is worked off first, then closed, and the rest of the list is next
    calc g.search ((b, s :: ss) :: rest) t.marked t.emitted.reverse
      _ = g.search ((s, g.succsOf s) :: (b, ss) :: rest) (t.mark s).marked
            (t.mark s).emitted.reverse := search_open hs (succs_eq_succsOf hlt)
      _ = g.search ((b, ss) :: rest) (g.visit s t).marked (g.visit s t).emitted.reverse := by
        rw [inner (hg.succsOf hlt) s ((b, ss) :: rest), search_close]
        simp [visit, Trail.emit]
      _ = _ := by
        rw [visitAll_cons, if_neg hs]
        exact after hss b rest

theorem reversePostorder_eq_visit (hentry : g.entry.index < g.numBlocks) (hg : g.SuccsInRange) :
    g.reversePostorder = .ok (g.visit g.entry {}).emitted.reverse := by
  obtain ⟨n, hn⟩ := Table.exists_get? (t := g.nodes) hentry
  have hstart := search_visitAll hg (g.succsOf g.entry) (Trail.mark {} g.entry)
    (hg.succsOf hentry) g.entry []
  rw [reversePostorder_eq_search hn, ← succsOf_of_get? hn]
  refine hstart.trans ?_
  rw [search_close, search, visit, Trail.emit, List.reverse_append]
  rfl

/-- The search finds the blocks in the order of the recursion. -/
theorem postorder_eq_recursive (hentry : 0 < g.numBlocks → g.entry.index < g.numBlocks)
    (hg : g.SuccsInRange) : g.postorder = .ok g.recursivePostorder := by
  by_cases hempty : g.numBlocks = 0
  · rw [postorder, reversePostorder, if_pos hempty, recursivePostorder, if_pos hempty]
    rfl
  · have hentry := hentry (Nat.pos_of_ne_zero hempty)
    rw [postorder, reversePostorder_eq_visit hentry hg, recursivePostorder, if_neg hempty]
    exact congrArg Except.ok (List.reverse_reverse _)

theorem postorder_eq_recursive_twoEntryLoop :
    twoEntryLoop.entry.index < twoEntryLoop.numBlocks ∧ twoEntryLoop.SuccsInRange ∧
      twoEntryLoop.recursivePostorder = [⟨0⟩, ⟨4⟩, ⟨2⟩, ⟨1⟩] := by
  have hentry : twoEntryLoop.entry.index < twoEntryLoop.numBlocks := by decide
  have hg : twoEntryLoop.SuccsInRange := by decide
  have hvalue : twoEntryLoop.postorder = .ok [⟨0⟩, ⟨4⟩, ⟨2⟩, ⟨1⟩] := by decide +kernel
  exact ⟨hentry, hg,
    Except.ok.inj ((postorder_eq_recursive (fun _ => hentry) hg).symm.trans hvalue)⟩

end FlowGraph

end SsaFlow
