import SsaFlow.Proofs.LiveEquations

/-!
# Liveness along paths

A point is a place before an instruction of a block, or at its end.  A path goes
over instructions, and from the end of a block to the start of a successor.  A
value is live at a point if some path from there comes to an instruction that
reads it, and goes over none that writes it (`FlowGraph.LiveAt`).

The analysis finds these values, no fewer and no more
(`Liveness.liveThrough_iff_liveAt`).  That it finds no more holds because paths
are closed bounds for every run.  That it finds no fewer goes by induction on the
path, from the read back to its start: the sets of a result satisfy their
equations, and each step of the path is one of these.
-/

namespace SsaFlow

/-- The place before the instruction at `pos`, or the end of the block. -/
structure Point where
  block : Block
  pos : Nat
deriving DecidableEq, Repr

theorem drop_of_getElem? {is : List Inst} {j : Nat} {i : Inst} (hi : is[j]? = some i) :
    is.drop j = i :: is.drop (j + 1) := by
  obtain ⟨hlt, rfl⟩ := List.getElem?_eq_some_iff.mp hi
  exact List.drop_eq_getElem_cons hlt

namespace FlowGraph

variable {g : FlowGraph} {b : Block} {n : Node} {i : Inst} {k : Nat} {p q : Point} {is : List Inst}
  {v : Value}

/-- The instruction that comes next at a point. -/
def instAt? (g : FlowGraph) (p : Point) : Option Inst :=
  (g.nodes.get? p.block).bind fun n => n.insts[p.pos]?

/-- A path between two points that goes over the given instructions. -/
inductive Path (g : FlowGraph) : Point → List Inst → Point → Prop where
  | stay {p : Point} : Path g p [] p
  | cross {b : Block} {n : Node} {k : Nat} {i : Inst} {is : List Inst} {q : Point} :
    g.nodes.get? b = some n → n.insts[k]? = some i → Path g ⟨b, k + 1⟩ is q →
    Path g ⟨b, k⟩ (i :: is) q
  | jump {b : Block} {n : Node} {a : Block} {is : List Inst} {q : Point} :
    g.nodes.get? b = some n → a ∈ n.succs → Path g ⟨a, 0⟩ is q →
    Path g ⟨b, n.insts.length⟩ is q

/-- Some path from the point comes to an instruction that reads the value, and goes over none that
writes it. -/
def LiveAt (g : FlowGraph) (v : Value) (p : Point) : Prop :=
  ∃ is q i, g.Path p is q ∧ g.instAt? q = some i ∧ g.Reads i v ∧ ∀ j ∈ is, ¬ g.Writes j v

theorem instAt?_eq (hn : g.nodes.get? b = some n) : g.instAt? ⟨b, k⟩ = n.insts[k]? := by
  rw [instAt?, hn, Option.bind_some]

/-- A path to an instruction starts in a block that exists. -/
theorem Path.exists_node (hpath : g.Path p is q) (hi : g.instAt? q = some i) :
    ∃ n, g.nodes.get? p.block = some n := by
  cases hpath with
  | stay =>
    obtain ⟨n, hn, -⟩ := Option.bind_eq_some_iff.mp hi
    exact ⟨n, hn⟩
  | cross hn _ _ => exact ⟨_, hn⟩
  | jump hn _ _ => exact ⟨_, hn⟩

/-! ## One step back -/

theorem liveAt_of_read (hn : g.nodes.get? b = some n) (hi : n.insts[k]? = some i)
    (hread : g.Reads i v) : g.LiveAt v ⟨b, k⟩ :=
  ⟨[], ⟨b, k⟩, i, .stay, (instAt?_eq hn).trans hi, hread, fun _ h => absurd h List.not_mem_nil⟩

theorem liveAt_cross (hn : g.nodes.get? b = some n) (hi : n.insts[k]? = some i)
    (hwrite : ¬ g.Writes i v) (hlive : g.LiveAt v ⟨b, k + 1⟩) : g.LiveAt v ⟨b, k⟩ := by
  obtain ⟨is, q, j, hpath, hj, hread, hwrites⟩ := hlive
  exact ⟨i :: is, q, j, .cross hn hi hpath, hj, hread, List.forall_mem_cons.mpr ⟨hwrite, hwrites⟩⟩

theorem liveAt_jump {a : Block} (hn : g.nodes.get? b = some n) (ha : a ∈ n.succs)
    (hlive : g.LiveAt v ⟨a, 0⟩) : g.LiveAt v ⟨b, n.insts.length⟩ := by
  obtain ⟨is, q, j, hpath, hj, hread, hwrites⟩ := hlive
  exact ⟨is, q, j, .jump hn ha hpath, hj, hread, hwrites⟩

end FlowGraph

namespace Domain

variable {d : Domain} {g : FlowGraph} {v : Value} {k : Nat} {i : Inst}

theorem gens_iff_reads (hd : build g = .ok d) (hk : d.indexOf? v = some k) :
    d.Gens g i k ↔ g.Reads i v :=
  exists_lookup_iff hd hk

theorem kills_iff_writes (hk : d.indexOf? v = some k) : d.Kills g i k ↔ g.Writes i v := by
  constructor
  · rintro ⟨w, hwrite, hw⟩
    rw [indexOf?_inj hk hw]
    exact hwrite
  · intro hwrite
    exact ⟨v, hwrite, hk⟩

/-- What is live through the rest of a block is live along a path. -/
theorem liveAt_of_liveThrough (hd : build g = .ok d) (hk : d.indexOf? v = some k) {b : Block}
    {n : Node} (hn : g.nodes.get? b = some n) {after : Nat → Prop}
    (hafter : after k → g.LiveAt v ⟨b, n.insts.length⟩) :
    ∀ {is : List Inst} {j : Nat}, n.insts.drop j = is → j ≤ n.insts.length →
      d.LiveThrough g after is k → g.LiveAt v ⟨b, j⟩
  | [], j, hdrop, hj, h => by
    have hle : n.insts.length ≤ j := List.drop_eq_nil_iff.mp hdrop
    rw [Nat.le_antisymm hj hle]
    exact hafter h
  | i :: is, j, hdrop, hj, h => by
    have hi : n.insts[j]? = some i := by
      rw [← List.head?_drop, hdrop, List.head?_cons]
    rcases h with hgen | ⟨hrest, hkill⟩
    · exact FlowGraph.liveAt_of_read hn hi ((gens_iff_reads hd hk).mp hgen)
    · have hdrop' : n.insts.drop (j + 1) = is := by
        rw [← List.tail_drop, hdrop, List.tail_cons]
      have hlt : j < n.insts.length := (List.getElem?_eq_some_iff.mp hi).1
      exact FlowGraph.liveAt_cross hn hi (fun hw => hkill ((kills_iff_writes hk).mpr hw))
        (liveAt_of_liveThrough hd hk hn hafter hdrop' hlt hrest)

/-- Paths are closed bounds. -/
theorem closed_liveAt (hd : build g = .ok d) :
    d.Closed g (fun b k => ∀ v, d.indexOf? v = some k → g.LiveAt v ⟨b, 0⟩)
      (fun b k => ∀ v n, d.indexOf? v = some k → g.nodes.get? b = some n →
        g.LiveAt v ⟨b, n.insts.length⟩) where
  edge b n a k hn ha hI v m hk hm := by
    rw [hn] at hm
    cases hm
    exact FlowGraph.liveAt_jump hn ha (hI v hk)
  insts b n k hn h v hk :=
    liveAt_of_liveThrough hd hk hn (fun hO => hO v n hk hn) List.drop_zero (Nat.zero_le _) h

/-- Membership in the set says which tracked values are live at the point. -/
def Shows (d : Domain) (g : FlowGraph) (s : BitSet) (p : Point) : Prop :=
  ∀ v ∈ d.values, ∃ k, d.indexOf? v = some k ∧ (s.contains k = true ↔ g.LiveAt v p)

end Domain

namespace Liveness

variable {g : FlowGraph} {l : Liveness} {b : Block} {n : Node} {x y : BitSet} {v : Value}
  {k j : Nat}

/-- What is live along a path is live through the rest of the block, in any result that fits. -/
theorem Fits.liveThrough_of_path (hfits : l.Fits g) (hk : l.domain.lookup g v = .ok (some k))
    {p q : Point} {is : List Inst} {i : Inst} (hpath : g.Path p is q) (hi : g.instAt? q = some i)
    (hread : g.Reads i v) (hwrites : ∀ j ∈ is, ¬ g.Writes j v)
    (hn : g.nodes.get? p.block = some n) (hp : l.Balanced g p.block n x y) :
    l.domain.LiveThrough g (x.contains · = true) (n.insts.drop p.pos) k := by
  induction hpath generalizing n x y with
  | @stay p =>
    rw [FlowGraph.instAt?_eq hn] at hi
    rw [drop_of_getElem? hi]
    exact .inl ⟨v, hread, hk⟩
  | @cross b m j c is q hm hc hpath ih =>
    rw [hm] at hn
    cases hn
    rw [drop_of_getElem? hc]
    obtain ⟨hwrite, hwrites⟩ := List.forall_mem_cons.mp hwrites
    refine .inr ⟨ih hi hwrites hm hp, fun hkill => hwrite ?_⟩
    exact (Domain.kills_iff_writes (Domain.indexOf?_of_lookup hk)).mp hkill
  | @jump b m a is q hm ha hpath ih =>
    rw [hm] at hn
    cases hn
    rw [List.drop_length]
    -- the number is live through the whole of the successor, so it is live at its start
    obtain ⟨na, hna⟩ := hpath.exists_node hi
    obtain ⟨xa, ya, hbal⟩ := hfits a na hna
    have hlive := ih hi hwrites hna hbal
    have hstart := (hbal.insts k).mpr hlive
    exact (hp.edges (List.ne_nil_of_mem ha) k).mpr ⟨a, ha, ya, hbal.liveIn, hstart⟩

/-- What is live through the rest of a block is what is live along a path. -/
theorem liveThrough_iff_liveAt (hg : g.Mirrored .backward) (hl : analyze g = .ok l)
    (hk : l.domain.indexOf? v = some k) (hn : g.nodes.get? b = some n) (hx : l.liveOut b = .ok x)
    (hj : j ≤ n.insts.length) :
    l.domain.LiveThrough g (x.contains · = true) (n.insts.drop j) k ↔ g.LiveAt v ⟨b, j⟩ := by
  have hd := (solve_of_analyze hl).1
  constructor
  · intro hlive
    obtain ⟨x', y, hx', -, hwithin, -, -⟩ := exists_sides hl (Domain.closed_liveAt hd) hn
    obtain rfl := Except.ok.inj (hx.symm.trans hx')
    exact Domain.liveAt_of_liveThrough hd hk hn (fun h => hwithin.bound k h v n hk hn) rfl hj hlive
  · intro ⟨is, q, i, hpath, hi, hread, hwrites⟩
    have hfits := fits_of_analyze hg hl
    obtain ⟨x', y, hbal⟩ := hfits b n hn
    obtain rfl := Except.ok.inj (hx.symm.trans hbal.liveOut)
    exact hfits.liveThrough_of_path (Domain.lookup_build hd hk) hpath hi hread hwrites hn hbal

/-- A set with the members that are live through the rest of a block shows the point before it. -/
theorem shows_of_liveThrough (hg : g.Mirrored .backward) (hl : analyze g = .ok l)
    (hn : g.nodes.get? b = some n) (hx : l.liveOut b = .ok x) (hj : j ≤ n.insts.length)
    {s : BitSet} (hs : ∀ k, s.contains k = true ↔
      l.domain.LiveThrough g (x.contains · = true) (n.insts.drop j) k) :
    l.domain.Shows g s ⟨b, j⟩ := by
  intro v hv
  obtain ⟨k, hk⟩ := Domain.exists_indexOf? hv
  refine ⟨k, hk, ?_⟩
  rw [hs, liveThrough_iff_liveAt hg hl hk hn hx hj]

/-- The sets of a result show exactly what is live along paths: at the start of every block, at its
end, and before every instruction that is listed once. -/
theorem contains_iff_liveAt (hg : g.Mirrored .backward) (hl : analyze g = .ok l)
    (hn : g.nodes.get? b = some n) :
    (∃ s, l.liveIn b = .ok s ∧ l.domain.Shows g s ⟨b, 0⟩) ∧
      (∃ s, l.liveOut b = .ok s ∧ l.domain.Shows g s ⟨b, n.insts.length⟩) ∧
      ∀ j i, n.insts[j]? = some i → g.listed.count i = 1 →
        ∃ s, l.liveBefore i = .ok s ∧ l.domain.Shows g s ⟨b, j⟩ := by
  obtain ⟨x, y, hx, hy, -, -, hrec⟩ := exists_sides hl Domain.closed_true hn
  refine ⟨⟨y, hy, ?_⟩, ⟨x, hx, ?_⟩, fun j i hi hcount => ?_⟩
  · exact shows_of_liveThrough hg hl hn hx (Nat.zero_le _) hrec.live
  · refine shows_of_liveThrough hg hl hn hx (Nat.le_refl _) fun k => ?_
    rw [List.drop_length]
    exact Iff.rfl
  · have hdrop : n.insts.drop j = i :: n.insts.drop (j + 1) := drop_of_getElem? hi
    have hsplit : n.insts = n.insts.take j ++ i :: n.insts.drop (j + 1) := by
      rw [← hdrop, List.take_append_drop]
    obtain ⟨z, hz, -, hmem⟩ := hrec.before _ i _ hsplit hcount
    refine ⟨z, Table.read_eq_ok.mpr hz, ?_⟩
    have hj : j ≤ n.insts.length := Nat.le_of_lt (List.getElem?_eq_some_iff.mp hi).1
    refine shows_of_liveThrough hg hl hn hx hj fun k => ?_
    rw [hdrop]
    exact hmem k

theorem contains_iff_liveAt_selfLoop :
    selfLoop.Mirrored .backward ∧ analyze selfLoop = .ok selfLoopLive ∧
      (∃ s, selfLoopLive.liveIn ⟨0⟩ = .ok s ∧ selfLoopLive.domain.Shows selfLoop s ⟨⟨0⟩, 0⟩) ∧
      (∃ s, selfLoopLive.liveOut ⟨0⟩ = .ok s ∧ selfLoopLive.domain.Shows selfLoop s ⟨⟨0⟩, 2⟩) ∧
      selfLoop.listed.count ⟨1⟩ = 1 ∧
      ∃ s, selfLoopLive.liveBefore ⟨1⟩ = .ok s ∧
        selfLoopLive.domain.Shows selfLoop s ⟨⟨0⟩, 1⟩ := by
  have hg : selfLoop.Mirrored .backward := by decide
  have hcount : selfLoop.listed.count ⟨1⟩ = 1 := by decide
  obtain ⟨hin, hout, hbefore⟩ := contains_iff_liveAt hg analyze_selfLoop (b := ⟨0⟩) rfl
  exact ⟨hg, analyze_selfLoop, hin, hout, hcount, hbefore 1 ⟨1⟩ rfl hcount⟩

end Liveness

end SsaFlow
