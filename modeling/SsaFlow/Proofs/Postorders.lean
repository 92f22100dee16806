import SsaFlow.Proofs.LoopFree

/-!
# Postorders

A postorder has the blocks that can be reached from the entry, each once and the entry
last.  If a block does not come before one that leads to it, then it leads back to that one.
So a graph without loops has every block after all of its successors
(`FlowGraph.IsPostorder`).

The search keeps three facts about edges (`FlowGraph.Explored`).  The open blocks are a path,
so each leads to all that were opened later.  An edge of an open block is still to be tried
or leads to a known block.  And a finished block came after those of its successors that do
not lead back to it: when it was finished all of them were known, and one that was not
finished was still open.  At the end nothing is open, so the finished blocks have all their
successors among them.
-/

namespace SsaFlow

namespace FlowGraph

/-- Control can get from the entry to the block. -/
def Reachable (g : FlowGraph) (b : Block) : Prop := Relation.ReflTransGen g.Edge g.entry b

/-- A successor of a block stands further on in the list, or it leads back to the block. -/
def Settled (g : FlowGraph) : List Block → Prop
  | [] => True
  | u :: earlier =>
    (∀ v, g.Edge u v → v ∈ earlier ∨ Relation.ReflTransGen g.Edge v u) ∧ g.Settled earlier

/-- What a search knows about edges. -/
structure Explored (g : FlowGraph) (frames : Frames) (visited done : List Block) : Prop where
  state : g.SearchState frames visited done
  root : (frames.map Prod.fst).getLast?.or done.head? = some g.entry
  path : (frames.map Prod.fst).Pairwise fun later earlier =>
    Relation.ReflTransGen g.Edge earlier later
  untried : ∀ f ∈ frames, ∀ v ∈ f.2, g.Edge f.1 v
  tried : ∀ f ∈ frames, ∀ v, g.Edge f.1 v → v ∈ f.2 ∨ v ∈ known frames done
  finished : ∀ u ∈ done, ∀ v, g.Edge u v → v ∈ known frames done
  settled : g.Settled done
  reachable : ∀ b ∈ known frames done, g.Reachable b

variable {g : FlowGraph} {visited done : List Block} {b s u v : Block} {ss : List Block}
  {rest : Frames} {n : Node}

theorem edge_iff (hn : g.nodes.get? b = some n) : g.Edge b v ↔ v ∈ n.succs := by
  simp [Edge, hn]

/-! ## Steps of the search -/

namespace Explored

theorem start (hg : g.SuccsInRange) (hn : g.nodes.get? g.entry = some n) :
    g.Explored [(g.entry, n.succs)] [g.entry] [] where
  state := .start hg hn
  root := rfl
  path := List.pairwise_singleton _ _
  untried := by
    intro f hf v hv
    obtain rfl := List.mem_singleton.mp hf
    exact (edge_iff hn).mpr hv
  tried := by
    intro f hf v hv
    obtain rfl := List.mem_singleton.mp hf
    exact .inl ((edge_iff hn).mp hv)
  finished := List.forall_mem_nil _
  settled := trivial
  reachable := by
    intro b hb
    obtain rfl := List.mem_singleton.mp hb
    exact .refl

/-- A block with nothing left to try has all its successors known. -/
theorem mem_known (h : g.Explored ((b, []) :: rest) visited done) (hv : g.Edge b v) :
    v ∈ known ((b, []) :: rest) done :=
  (h.tried _ List.mem_cons_self v hv).resolve_left List.not_mem_nil

/-- An open block leads to the latest one. -/
theorem leads_of_open (h : g.Explored ((b, ss) :: rest) visited done)
    (hv : v ∈ ((b, ss) :: rest).map Prod.fst) : Relation.ReflTransGen g.Edge v b := by
  rcases List.mem_cons.mp hv with rfl | hv
  · exact .refl
  · exact (List.pairwise_cons.mp h.path).1 v hv

theorem close (h : g.Explored ((b, []) :: rest) visited done) :
    g.Explored rest visited (b :: done) := by
  have hperm : (known rest (b :: done)).Perm (known ((b, []) :: rest) done) := List.perm_middle
  refine ⟨h.state.close, ?_, (List.pairwise_cons.mp h.path).2, ?_, ?_, ?_, ⟨?_, h.settled⟩, ?_⟩
  · -- the oldest frame is the entry, and it is the last one that is closed
    have hroot := h.root
    cases rest with
    | nil => exact hroot
    | cons f rest =>
      simp only [List.map_cons, List.getLast?_cons_cons] at hroot ⊢
      rwa [List.getLast?_cons, Option.some_or] at hroot ⊢
  · exact fun f hf => h.untried f (List.mem_cons_of_mem _ hf)
  · intro f hf v hv
    rw [hperm.mem_iff]
    exact h.tried f (List.mem_cons_of_mem _ hf) v hv
  · intro u hu v hv
    rw [hperm.mem_iff]
    cases hu with
    | head => exact h.mem_known hv
    | tail _ hu => exact h.finished u hu v hv
  · intro v hv
    rcases List.mem_append.mp (h.mem_known hv) with hopen | hdone
    · exact .inr (h.leads_of_open hopen)
    · exact .inl hdone
  · exact fun c hc => h.reachable c (hperm.mem_iff.mp hc)

theorem skip (hs : s ∈ visited) (h : g.Explored ((b, s :: ss) :: rest) visited done) :
    g.Explored ((b, ss) :: rest) visited done := by
  refine ⟨h.state.skip, h.root, h.path, ?_, ?_, h.finished, h.settled, h.reachable⟩
  · intro f hf v hv
    cases hf with
    | head => exact h.untried _ List.mem_cons_self v (List.mem_cons_of_mem _ hv)
    | tail _ hf => exact h.untried f (List.mem_cons_of_mem _ hf) v hv
  · intro f hf v hv
    cases hf with
    | head =>
      rcases h.tried _ List.mem_cons_self v hv with hmem | hknown
      · cases hmem with
        | head => exact .inr ((h.state.visited _).mp hs)
        | tail _ hmem => exact .inl hmem
      · exact .inr hknown
    | tail _ hf => exact h.tried f (List.mem_cons_of_mem _ hf) v hv

theorem opened (hg : g.SuccsInRange) (hs : s ∉ visited) (hn : g.nodes.get? s = some n)
    (h : g.Explored ((b, s :: ss) :: rest) visited done) :
    g.Explored ((s, n.succs) :: (b, ss) :: rest) (s :: visited) done := by
  have hedge : g.Edge b s := h.untried _ List.mem_cons_self s List.mem_cons_self
  have hknown : ∀ {v}, v ∈ known ((b, s :: ss) :: rest) done →
      v ∈ known ((s, n.succs) :: (b, ss) :: rest) done := List.mem_cons_of_mem s
  have hself : s ∈ known ((s, n.succs) :: (b, ss) :: rest) done := List.mem_cons_self
  refine ⟨h.state.opened hs (hg s n hn), ?_, ?_, ?_, ?_, ?_, h.settled, ?_⟩
  · have hroot := h.root
    simp only [List.map_cons, List.getLast?_cons_cons] at hroot ⊢
    exact hroot
  · refine List.pairwise_cons.mpr ⟨fun v hv => ?_, h.path⟩
    exact (h.leads_of_open hv).tail hedge
  · intro f hf v hv
    cases hf with
    | head => exact (edge_iff hn).mpr hv
    | tail _ hf =>
      cases hf with
      | head => exact h.untried _ List.mem_cons_self v (List.mem_cons_of_mem _ hv)
      | tail _ hf => exact h.untried f (List.mem_cons_of_mem _ hf) v hv
  · intro f hf v hv
    cases hf with
    | head => exact .inl ((edge_iff hn).mp hv)
    | tail _ hf =>
      cases hf with
      | head =>
        rcases h.tried _ List.mem_cons_self v hv with hmem | hmem
        · cases hmem with
          | head => exact .inr hself
          | tail _ hmem => exact .inl hmem
        · exact .inr (hknown hmem)
      | tail _ hf =>
        exact (h.tried f (List.mem_cons_of_mem _ hf) v hv).imp_right hknown
  · exact fun u hu v hv => hknown (h.finished u hu v hv)
  · intro c hc
    rcases List.mem_cons.mp hc with rfl | hc
    · exact (h.reachable b List.mem_cons_self).tail hedge
    · exact h.reachable c hc

/-- At the end the finished blocks are those that can be reached. -/
theorem mem_iff_reachable (h : g.Explored [] visited done) : b ∈ done ↔ g.Reachable b := by
  constructor
  · exact h.reachable b
  · intro hb
    induction hb with
    | refl => exact List.mem_of_mem_head? h.root
    | tail _ hedge ih => exact h.finished _ ih _ hedge

end Explored

theorem exists_explored (hentry : g.entry.index < g.numBlocks) (hg : g.SuccsInRange) :
    ∃ visited order, g.reversePostorder = .ok order ∧ g.Explored [] visited order := by
  obtain ⟨n, hn⟩ := Table.exists_get? (t := g.nodes) hentry
  rw [reversePostorder_eq_search hn]
  exact search_induction
    (fun h => h.state.untried _ List.mem_cons_self _ List.mem_cons_self) Explored.close
    Explored.skip (Explored.opened hg) (.start hg hn)

/-! ## The order -/

/-- Read from its end, a settled list has a successor before the block, or it leads back. -/
theorem Settled.before_or_leads {order : List Block} (h : g.Settled order) (hnodup : order.Nodup)
    (hu : u ∈ order) (hv : g.Edge u v) :
    order.reverse.idxOf v < order.reverse.idxOf u ∨ Relation.ReflTransGen g.Edge v u := by
  induction order with
  | nil => cases hu
  | cons c earlier ih =>
    obtain ⟨hc, hearlier⟩ := List.nodup_cons.mp hnodup
    rw [List.reverse_cons]
    cases hu with
    | head =>
      refine (h.1 v hv).imp_left fun hmem => ?_
      rw [List.idxOf_append_of_mem (List.mem_reverse.mpr hmem),
        List.idxOf_append_of_notMem (mt List.mem_reverse.mp hc)]
      exact Nat.lt_add_right _ (List.idxOf_lt_length_of_mem (List.mem_reverse.mpr hmem))
    | tail _ hu =>
      refine (ih h.2 hearlier hu).imp_left fun hlt => ?_
      have hu' : u ∈ earlier.reverse := List.mem_reverse.mpr hu
      have hv' : v ∈ earlier.reverse :=
        List.idxOf_lt_length_iff.mp (Nat.lt_trans hlt (List.idxOf_lt_length_of_mem hu'))
      rwa [List.idxOf_append_of_mem hu', List.idxOf_append_of_mem hv']

/-- The reachable blocks, each once, the entry last.  A block that does not come before one that
leads to it leads back to it. -/
structure IsPostorder (g : FlowGraph) (order : List Block) : Prop where
  nodup : order.Nodup
  mem_iff : ∀ b, b ∈ order ↔ g.Reachable b
  last : order.getLast? = some g.entry
  back : ∀ u v, g.Reachable u → g.Reachable v → g.Edge u v → ¬ order.idxOf v < order.idxOf u →
    Relation.ReflTransGen g.Edge v u
  loopFree : g.Acyclic → ∀ u v, g.Reachable u → g.Edge u v → order.idxOf v < order.idxOf u

/-- The search finds a postorder of every graph whose entry and successors exist, whatever the lists
of predecessors say. -/
theorem exists_postorder (hentry : g.entry.index < g.numBlocks) (hg : g.SuccsInRange) :
    ∃ order, g.postorder = .ok order ∧ g.IsPostorder order := by
  obtain ⟨visited, order, horder, h⟩ := exists_explored hentry hg
  have hbefore : ∀ {u v}, g.Reachable u → g.Edge u v →
      order.reverse.idxOf v < order.reverse.idxOf u ∨ Relation.ReflTransGen g.Edge v u :=
    fun hu hv => h.settled.before_or_leads h.state.nodup (h.mem_iff_reachable.mpr hu) hv
  refine ⟨order.reverse, bind_eq_ok.mpr ⟨order, horder, rfl⟩, ?_, ?_, ?_, ?_, ?_⟩
  · exact List.nodup_reverse.mpr h.state.nodup
  · intro b
    rw [List.mem_reverse, h.mem_iff_reachable]
  · rw [List.getLast?_reverse]
    exact h.root
  · intro u v hu _ hv hnot
    exact (hbefore hu hv).resolve_left hnot
  · intro hacyclic u v hu hv
    refine (hbefore hu hv).resolve_right fun hback => ?_
    exact hacyclic u (Relation.TransGen.head' hv hback)

/-- Two blocks that lead to each other and can each be entered first, one with an edge to itself.
One block cannot be reached, and the predecessors on record do not exist. -/
def twoEntryLoop : FlowGraph where
  entry := ⟨1⟩
  numArgs := 0
  numInsts := 0
  nodes := .ofList [
    { succs := [⟨2⟩, ⟨0⟩], preds := [⟨7⟩] }, { succs := [⟨2⟩, ⟨0⟩, ⟨2⟩] },
    { succs := [⟨0⟩, ⟨4⟩], preds := [⟨9⟩] }, { succs := [⟨1⟩] }, { }]
  facts := .ofList []

theorem exists_postorder_twoEntryLoop :
    twoEntryLoop.entry.index < twoEntryLoop.numBlocks ∧ twoEntryLoop.SuccsInRange ∧
      twoEntryLoop.IsPostorder [⟨0⟩, ⟨4⟩, ⟨2⟩, ⟨1⟩] := by
  have hentry : twoEntryLoop.entry.index < twoEntryLoop.numBlocks := by decide
  have hg : twoEntryLoop.SuccsInRange := by decide
  have hvalue : twoEntryLoop.postorder = .ok [⟨0⟩, ⟨4⟩, ⟨2⟩, ⟨1⟩] := by decide +kernel
  obtain ⟨order, horder, h⟩ := exists_postorder hentry hg
  obtain rfl := Except.ok.inj (hvalue.symm.trans horder)
  exact ⟨hentry, hg, h⟩

end FlowGraph

end SsaFlow
