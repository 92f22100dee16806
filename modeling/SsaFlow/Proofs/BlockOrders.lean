import SsaFlow.Proofs.Worklist

/-!
# Every block once

A graph whose entry and edges name existing blocks (`FlowGraph.InRange`) is one
that `FlowGraph.checkEdges` lets pass.  The search from its entry reads no block
that does not exist, so it never faults.

During a search the blocks that were visited are those that are open and those
that are finished, and no block is both (`FlowGraph.SearchState`).  The end of
the search leaves the finished ones.  Together with the blocks that were not
reached they make up the order in which a run first visits blocks, and that order
has every block once (`FlowGraph.seedOrder_ok`).
-/

namespace SsaFlow

namespace FlowGraph

/-! ## Edges in range -/

/-- The entry and the ends of all edges are blocks of the graph. -/
structure InRange (g : FlowGraph) : Prop where
  entry : 0 < g.numBlocks → g.entry.index < g.numBlocks
  succs : ∀ b n, g.nodes.get? b = some n → ∀ a ∈ n.succs, a.index < g.numBlocks
  preds : ∀ b n, g.nodes.get? b = some n → ∀ a ∈ n.preds, a.index < g.numBlocks

variable {g : FlowGraph}

theorem checkEdges_eq_ok_iff : g.checkEdges = .ok () ↔ g.badBlock? = none := by
  unfold checkEdges
  cases g.badBlock? with
  | none => simp
  | some b => simp

theorem badBlock?_eq_none_iff : g.badBlock? = none ↔ g.InRange := by
  unfold badBlock?
  split
  next hentry =>
    constructor
    · intro h
      cases h
    · intro h
      have := h.entry hentry.1
      omega
  next hentry =>
    simp only [List.find?_eq_none, List.mem_flatMap, Table.mem_toList, List.mem_append,
      decide_eq_true_eq, Nat.not_le]
    constructor
    · intro h
      refine ⟨fun hpos => ?_, fun b n hn a ha => ?_, fun b n hn a ha => ?_⟩
      · omega
      · exact h a ⟨n, ⟨b, hn⟩, .inl ha⟩
      · exact h a ⟨n, ⟨b, hn⟩, .inr ha⟩
    · rintro h a ⟨n, ⟨b, hn⟩, ha | ha⟩
      · exact h.succs b n hn a ha
      · exact h.preds b n hn a ha

/-- The graphs with all edges in range are those that are not refused. -/
theorem checkEdges_iff_inRange : g.checkEdges = .ok () ↔ g.InRange :=
  checkEdges_eq_ok_iff.trans badBlock?_eq_none_iff

theorem InRange.sources (hg : g.InRange) (d : Direction) {b : Block} {n : Node}
    (hn : g.nodes.get? b = some n) : ∀ a ∈ n.sources d, a.index < g.numBlocks := by
  cases d with
  | forward => exact hg.preds b n hn
  | backward => exact hg.succs b n hn

theorem InRange.dependents (hg : g.InRange) (d : Direction) {b : Block} {n : Node}
    (hn : g.nodes.get? b = some n) : ∀ a ∈ n.dependents d, a.index < g.numBlocks := by
  cases d with
  | forward => exact hg.succs b n hn
  | backward => exact hg.preds b n hn

/-- All successors are blocks of the graph. -/
def SuccsInRange (g : FlowGraph) : Prop :=
  ∀ b n, g.nodes.get? b = some n → ∀ a ∈ n.succs, a.index < g.numBlocks

instance decidableSuccsInRange : Decidable g.SuccsInRange :=
  decidable_of_iff (∀ e ∈ g.nodes.entries, ∀ a ∈ e.2.succs, a.index < g.numBlocks)
    ⟨fun h b n hn => h (b, n) (Table.mem_entries.mpr hn),
      fun h e he => h e.1 e.2 (Table.mem_entries.mp he)⟩

theorem succs_eq_ok {b : Block} {ss : List Block} :
    g.succs b = .ok ss ↔ ∃ n, g.nodes.get? b = some n ∧ n.succs = ss := by
  simp only [succs, bind_eq_ok, pure_eq_ok, Table.read_eq_ok]

/-! ## The search -/

section

variable {visited done ss next : List Block} {b s : Block} {rest : Frames}

theorem search_close (g : FlowGraph) (b : Block) (rest : Frames) (visited done : List Block) :
    g.search ((b, []) :: rest) visited done = g.search rest visited (b :: done) := by
  rw [search]

theorem search_skip (hs : s ∈ visited) :
    g.search ((b, s :: ss) :: rest) visited done = g.search ((b, ss) :: rest) visited done := by
  rw [search, dif_pos hs]

theorem search_open (hs : s ∉ visited) (hnext : g.succs s = .ok next) :
    g.search ((b, s :: ss) :: rest) visited done =
      g.search ((s, next) :: (b, ss) :: rest) (s :: visited) done := by
  rw [search, dif_neg hs]
  split
  next f hf =>
    rw [hnext] at hf
    cases hf
  next next' hnext' =>
    rw [hnext] at hnext'
    cases hnext'
    rfl

theorem search_fault {e : Fault} (hs : s ∉ visited) (he : g.succs s = .error e) :
    g.search ((b, s :: ss) :: rest) visited done = .error e := by
  rw [search, dif_neg hs]
  split
  next e' he' => exact he'.symm.trans he
  next next hnext =>
    rw [he] at hnext
    cases hnext

end

/-- The blocks that a search knows: those that are open, the latest first, then those that are
finished. -/
def known (frames : Frames) (done : List Block) : List Block := frames.map Prod.fst ++ done

/-- What holds all through a search. -/
structure SearchState (g : FlowGraph) (frames : Frames) (visited done : List Block) : Prop where
  nodup : (known frames done).Nodup
  visited : ∀ b, b ∈ visited ↔ b ∈ known frames done
  inRange : ∀ b ∈ known frames done, b.index < g.numBlocks
  untried : ∀ f ∈ frames, ∀ s ∈ f.2, s.index < g.numBlocks

variable {visited done : List Block} {b s : Block} {ss next : List Block} {rest : Frames}

theorem SearchState.close (h : g.SearchState ((b, []) :: rest) visited done) :
    g.SearchState rest visited (b :: done) := by
  have hperm : (known rest (b :: done)).Perm (known ((b, []) :: rest) done) := List.perm_middle
  refine ⟨hperm.nodup_iff.mpr h.nodup, fun c => ?_, fun c hc => ?_, fun f hf => ?_⟩
  · rw [h.visited, hperm.mem_iff]
  · exact h.inRange c (hperm.mem_iff.mp hc)
  · exact h.untried f (List.mem_cons_of_mem _ hf)

theorem SearchState.skip (h : g.SearchState ((b, s :: ss) :: rest) visited done) :
    g.SearchState ((b, ss) :: rest) visited done := by
  refine ⟨h.nodup, h.visited, h.inRange, fun f hf => ?_⟩
  rcases List.mem_cons.mp hf with rfl | hf
  · intro a ha
    exact h.untried (b, s :: ss) List.mem_cons_self a (List.mem_cons_of_mem _ ha)
  · exact h.untried f (List.mem_cons_of_mem _ hf)

theorem SearchState.opened (h : g.SearchState ((b, s :: ss) :: rest) visited done)
    (hs : s ∉ visited) (hnext : ∀ a ∈ next, a.index < g.numBlocks) :
    g.SearchState ((s, next) :: (b, ss) :: rest) (s :: visited) done := by
  have hskip := h.skip
  refine ⟨?_, fun c => ?_, fun c hc => ?_, fun f hf => ?_⟩
  · refine List.nodup_cons.mpr ⟨fun hmem => hs ?_, hskip.nodup⟩
    exact (hskip.visited s).mpr hmem
  · show c ∈ s :: visited ↔ c ∈ s :: known ((b, ss) :: rest) done
    rw [List.mem_cons, List.mem_cons, hskip.visited]
  · rcases List.mem_cons.mp hc with rfl | hc
    · exact h.untried (b, c :: ss) List.mem_cons_self c List.mem_cons_self
    · exact hskip.inRange c hc
  · rcases List.mem_cons.mp hf with rfl | hf
    · exact hnext
    · exact hskip.untried f hf

/-- What all steps of a search keep holds at its end, if it lets only blocks of the graph be tried. -/
theorem search_induction {P : Frames → List Block → List Block → Prop}
    (inRange : ∀ {b s ss rest visited done}, P ((b, s :: ss) :: rest) visited done →
      s.index < g.numBlocks)
    (close : ∀ {b rest visited done}, P ((b, []) :: rest) visited done →
      P rest visited (b :: done))
    (skip : ∀ {b s ss rest visited done}, s ∈ visited → P ((b, s :: ss) :: rest) visited done →
      P ((b, ss) :: rest) visited done)
    (opened : ∀ {b s ss rest visited done n}, s ∉ visited → g.nodes.get? s = some n →
      P ((b, s :: ss) :: rest) visited done → P ((s, n.succs) :: (b, ss) :: rest) (s :: visited) done)
    {frames : Frames} (h : P frames visited done) :
    ∃ visited' order, g.search frames visited done = .ok order ∧ P [] visited' order := by
  fun_induction search g frames visited done with
  | case1 visited done => exact ⟨visited, done, rfl, h⟩
  | case2 visited done b rest ih => exact ih (close h)
  | case3 visited done b s ss rest hs ih => exact ih (skip hs h)
  | case4 visited done b s ss rest hs f hf =>
    obtain ⟨n, hn⟩ := Table.exists_get? (inRange h)
    rw [succs_eq_ok.mpr ⟨n, hn, rfl⟩] at hf
    cases hf
  | case5 visited done b s ss rest hs next hnext _ ih =>
    obtain ⟨n, hn, rfl⟩ := succs_eq_ok.mp hnext
    exact ih (opened hs hn h)

/-- A search over edges in range ends well, with a list of blocks of the graph, each once. -/
theorem search_ok (hg : g.SuccsInRange) {frames : Frames} (h : g.SearchState frames visited done) :
    ∃ order, g.search frames visited done = .ok order ∧ order.Nodup ∧
      ∀ b ∈ order, b.index < g.numBlocks := by
  obtain ⟨_, order, horder, hend⟩ := search_induction
    (fun h => h.untried _ List.mem_cons_self _ List.mem_cons_self) SearchState.close
    (fun _ h => h.skip) (fun hs hn h => h.opened hs (hg _ _ hn)) h
  exact ⟨order, horder, hend.nodup, hend.inRange⟩

/-- A search starts with the entry open and all its successors to be tried. -/
theorem reversePostorder_eq_search {n : Node} (hn : g.nodes.get? g.entry = some n) :
    g.reversePostorder = g.search [(g.entry, n.succs)] [g.entry] [] := by
  have hne : g.numBlocks ≠ 0 := Nat.ne_of_gt (Nat.lt_of_le_of_lt (Nat.zero_le _) (Table.lt_size hn))
  rw [reversePostorder, if_neg hne, succs_eq_ok.mpr ⟨n, hn, rfl⟩]
  rfl

theorem SearchState.start (hg : g.SuccsInRange) {n : Node} (hn : g.nodes.get? g.entry = some n) :
    g.SearchState [(g.entry, n.succs)] [g.entry] [] := by
  have hentry : g.entry.index < g.numBlocks := Table.lt_size hn
  refine ⟨?_, ?_, ?_, ?_⟩
  · simp [known]
  · simp [known]
  · simpa [known] using hentry
  · simpa using hg _ n hn

theorem reversePostorder_ok (hentry : 0 < g.numBlocks → g.entry.index < g.numBlocks)
    (hg : g.SuccsInRange) :
    ∃ order, g.reversePostorder = .ok order ∧ order.Nodup ∧ ∀ b ∈ order, b.index < g.numBlocks := by
  by_cases hempty : g.numBlocks = 0
  · refine ⟨[], ?_, List.nodup_nil, List.forall_mem_nil _⟩
    rw [reversePostorder, if_pos hempty]
    rfl
  · obtain ⟨n, hn⟩ := Table.exists_get? (hentry (Nat.pos_of_ne_zero hempty))
    rw [reversePostorder_eq_search hn]
    exact search_ok hg (.start hg hn)

end FlowGraph

/-! ## Orders -/

namespace BlockOrder

variable {g : FlowGraph} {o : BlockOrder}

/-- A block in the list keeps a position in the map, whatever comes after it. -/
theorem isSome_get?_positions {b : Block} :
    ∀ (es : List (RpoIndex × Block)) {m : HandleMap .block RpoIndex},
      b ∈ es.map Prod.snd ∨ (m.get? b).isSome →
        ((es.foldl (fun m e => m.insert e.2 e.1) m).get? b).isSome
  | [], m, h => by simpa using h
  | (j, c) :: es, m, h => by
    refine isSome_get?_positions es ?_
    rw [HandleMap.get?_insert]
    by_cases hb : b = c
    · right
      simp [hb]
    · simpa [hb] using h

theorem exists_position (h : ofGraph g = .ok o) {b : Block} (hb : b ∈ o.rpo.toList) :
    ∃ i, o.positions.get? b = some i := by
  rw [← Option.isSome_iff_exists, positions_eq h]
  refine isSome_get?_positions o.rpo.entries (.inl ?_)
  rw [Table.map_snd_entries]
  exact hb

theorem not_mem_unreachable (h : ofGraph g = .ok o) {b : Block} (hb : b ∈ o.rpo.toList) :
    b ∉ o.unreachable := by
  rw [unreachable_eq h, List.mem_filter]
  rintro ⟨-, hnone⟩
  obtain ⟨i, hi⟩ := exists_position h hb
  rw [hi] at hnone
  cases hnone

/-- The blocks that the search does not find are on the list of those that cannot be reached. -/
theorem mem_unreachable_iff (h : ofGraph g = .ok o) {b : Block} :
    b ∈ o.unreachable ↔ b.index < g.numBlocks ∧ b ∉ o.rpo.toList := by
  constructor
  · intro hb
    refine ⟨?_, fun hrpo => not_mem_unreachable h hrpo hb⟩
    rw [unreachable_eq h] at hb
    exact Table.mem_handles.mp (List.mem_filter.mp hb).1
  · rintro ⟨hlt, hrpo⟩
    exact (mem_rpo_or_unreachable h hlt).resolve_left hrpo

end BlockOrder

namespace FlowGraph

variable {g : FlowGraph}

theorem exists_order (hentry : 0 < g.numBlocks → g.entry.index < g.numBlocks)
    (hg : g.SuccsInRange) :
    ∃ o, BlockOrder.ofGraph g = .ok o ∧ (o.rpo.toList ++ o.unreachable).Nodup ∧
      ∀ b, b ∈ o.rpo.toList ++ o.unreachable ↔ b.index < g.numBlocks := by
  obtain ⟨order, horder, hnodup, hrange⟩ := reversePostorder_ok hentry hg
  obtain ⟨o, ho, hrpo⟩ : ∃ o, BlockOrder.ofGraph g = .ok o ∧ o.rpo.toList = order := by
    refine ⟨_, bind_eq_ok.mpr ⟨order, horder, rfl⟩, ?_⟩
    simp [Table.ofList, Table.toList]
  refine ⟨o, ho, ?_, fun b => ⟨fun hb => ?_, fun hb => ?_⟩⟩
  · refine List.nodup_append.mpr ⟨hrpo ▸ hnodup, ?_, fun b hb c hc heq => ?_⟩
    · rw [BlockOrder.unreachable_eq ho]
      exact (Handle.nodup_first .block g.numBlocks).filter _
    · exact BlockOrder.not_mem_unreachable ho hb (heq ▸ hc)
  · rcases List.mem_append.mp hb with hb | hb
    · exact hrange b (hrpo ▸ hb)
    · exact (BlockOrder.mem_unreachable_iff ho).mp hb |>.1
  · exact List.mem_append.mpr (BlockOrder.mem_rpo_or_unreachable ho hb)

/-- A run over edges in range starts with every block of the graph once. -/
theorem seedOrder_ok (hg : g.InRange) (d : Direction) :
    ∃ queue, g.seedOrder d = .ok queue ∧ queue.Nodup ∧ ∀ b, b ∈ queue ↔ b.index < g.numBlocks := by
  obtain ⟨o, ho, hnodup, hmem⟩ := exists_order hg.entry hg.succs
  cases d with
  | forward => exact ⟨_, bind_eq_ok.mpr ⟨o, ho, rfl⟩, hnodup, hmem⟩
  | backward =>
    have hperm : (o.postorder ++ o.unreachable).Perm (o.rpo.toList ++ o.unreachable) :=
      (List.reverse_perm _).append_right _
    refine ⟨_, bind_eq_ok.mpr ⟨o, ho, rfl⟩, hperm.nodup_iff.mpr hnodup, fun b => ?_⟩
    rw [hperm.mem_iff, hmem]

end FlowGraph

end SsaFlow
