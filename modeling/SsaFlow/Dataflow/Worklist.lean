import SsaFlow.Handle

/-!
# Worklists

The blocks that wait for a visit stand in a queue.  Beside it is kept the set of
them, which tells whether a block waits without going through the queue.  A block
that is pushed goes to the end of the queue and into the set, unless the set has
it.  The first block is popped off the queue and taken out of the set.

A `Worklist` carries the proofs that the two stay in step: the set has the blocks
of the queue, and no block is in the queue twice.  The second is what popping
needs, since a block that is taken out of the set may not wait a second time.
-/

namespace SsaFlow

/-- Blocks that wait, as a queue and as a set. -/
structure Worklist where
  /-- The blocks, the next one first. -/
  queue : List Block
  /-- The set of them, in no order that matters. -/
  waiting : List Block
  /-- No block waits twice. -/
  nodup : queue.Nodup
  /-- The set has the blocks of the queue. -/
  inStep : ∀ b, b ∈ waiting ↔ b ∈ queue
deriving DecidableEq

namespace Worklist

/-- Nothing waits. -/
def empty : Worklist := ⟨[], [], .nil, fun _ => .rfl⟩

/-- Puts a block at the end, unless it waits already. -/
def push (w : Worklist) (b : Block) : Worklist :=
  if hb : w.waiting.contains b then w
  else {
    queue := w.queue ++ [b]
    waiting := b :: w.waiting
    nodup := by
      refine List.nodup_append.mpr ⟨w.nodup, List.pairwise_singleton _ b, fun c hc d hd h => ?_⟩
      rw [h, List.mem_singleton.mp hd] at hc
      exact hb (List.contains_iff_mem.mpr ((w.inStep b).mpr hc))
    inStep := fun c => by
      rw [List.mem_cons, List.mem_append, List.mem_singleton, w.inStep, or_comm] }

/-- Pushes blocks one after the other. -/
def pushAll (w : Worklist) (bs : List Block) : Worklist := bs.foldl push w

/-- Takes the first block off, if there is one. -/
def pop? : Worklist → Option (Block × Worklist)
  | ⟨[], _, _, _⟩ => none
  | ⟨b :: rest, waiting, nodup, inStep⟩ => some (b, {
      queue := rest
      waiting := waiting.filter (· ≠ b)
      nodup := (List.nodup_cons.mp nodup).2
      inStep := fun c => by
        have hb : b ∉ rest := (List.nodup_cons.mp nodup).1
        rw [List.mem_filter, decide_eq_true_eq, inStep, List.mem_cons]
        exact ⟨fun h => h.1.resolve_left h.2, fun h => ⟨.inr h, fun hc => hb (hc ▸ h)⟩⟩ })

end Worklist

end SsaFlow
