import SsaFlow.Proofs.Relisting
import SsaFlow.Proofs.WellFormedProcedures
import SsaFlow.Proofs.WellFormedTrees

/-!
# Printed labels

A block without a label is printed as its handle, like a value without a name.  But for a value
underscores are added until the name is not taken, and for a block nothing is done.  So blocks
whose given labels all differ may still be printed under one label.  That happens just if the
handle of a block without a label is the label of another (`Procedure.HandleTaken`).

If it does not happen, then every label that is printed leads back to its block
(`Procedure.LabelsLead`).  Otherwise the text is not that of the procedure, since a text with
one label twice is refused (`Procedure.labelsApart_of_relists`).
-/

namespace SsaFlow

namespace Procedure

/-- The labels that were given to blocks are all different. -/
def DistinctLabels (p : Procedure) : Prop :=
  ((p.blocks.toList.map BasicBlock.name).filter (· ≠ "")).Nodup

instance decidableDistinctLabels {p : Procedure} : Decidable p.DistinctLabels :=
  inferInstanceAs (Decidable (List.Nodup _))

/-- A block has for its label the handle of one that has no label. -/
def HandleTaken (p : Procedure) : Prop :=
  ∃ e ∈ p.blocks.entries, ∃ e' ∈ p.blocks.entries, e.2.name = "" ∧ e'.2.name = e.1.text

instance decidableHandleTaken {p : Procedure} : Decidable p.HandleTaken :=
  inferInstanceAs (Decidable (∃ e ∈ _, _))

/-- No two blocks are printed under one label. -/
def LabelsApart (p : Procedure) : Prop :=
  ∀ b ∈ p.blocks.handles, ∀ c ∈ p.blocks.handles, p.blockLabel b = p.blockLabel c → b = c

/-- The labels of the tree can be read, since none is there twice, and the label under which a block
is printed is looked up to this block. -/
structure LabelsLead (p : Procedure) : Prop where
  once : extendNames "" [] p.tree.labelNames = .ok p.tree.labelNames
  leads : ∀ b ∈ p.blocks.handles, ∃ label, p.blockLabel b = .ok label ∧
    p.tree.labelNames.lookup label = some b

/-- The text is read as the procedure itself, but for the numbers of its instructions. -/
def ReadsBack (p : Procedure) : Prop :=
  ∃ text q, p.render "" = .ok text ∧ Program.parse text = .ok ⟨.ofList [q]⟩ ∧ q.Relists p

variable {p q : Procedure} {b c : Block} {blk blk' : BasicBlock}

/-! ## Labels and names -/

theorem labelOf_of_name (hb : p.blocks.get? b = some blk) (hname : blk.name ≠ "") :
    p.labelOf b = blk.name := by
  simp only [labelOf, hb, if_neg hname]

theorem labelOf_of_unnamed (hb : p.blocks.get? b = some blk) (hname : blk.name = "") :
    p.labelOf b = b.text := by
  simp only [labelOf, hb, if_pos hname]

theorem text_ne_empty (b : Block) : b.text ≠ "" := by
  intro h
  have hlist := congrArg String.toList h
  rw [Handle.toList_text] at hlist
  cases hlist

/-- A given label tells its block. -/
theorem DistinctLabels.eq (h : p.DistinctLabels) (hb : p.blocks.get? b = some blk)
    (hc : p.blocks.get? c = some blk') (hname : blk.name ≠ "") (heq : blk.name = blk'.name) :
    b = c := by
  have hnodup : ((p.blocks.entries.filter fun e => e.2.name ≠ "").map fun e => e.2.name).Nodup := by
    unfold DistinctLabels at h
    rw [← Table.map_snd_entries, List.map_map, List.filter_map] at h
    exact h
  have hmem : (b, blk) ∈ p.blocks.entries.filter fun e => e.2.name ≠ "" :=
    List.mem_filter.mpr ⟨Table.mem_entries.mpr hb, decide_eq_true hname⟩
  have hmem' : (c, blk') ∈ p.blocks.entries.filter fun e => e.2.name ≠ "" :=
    List.mem_filter.mpr ⟨Table.mem_entries.mpr hc, decide_eq_true (heq ▸ hname)⟩
  exact congrArg Prod.fst (List.inj_on_of_nodup_map hnodup hmem hmem' heq)

/-- If the given labels differ, a label that is printed twice is a handle that is taken. -/
theorem DistinctLabels.labelOf_inj (h : p.DistinctLabels) (htaken : ¬ p.HandleTaken)
    (hb : p.blocks.get? b = some blk) (hc : p.blocks.get? c = some blk')
    (heq : p.labelOf b = p.labelOf c) : b = c := by
  have hmem := Table.mem_entries.mpr hb
  have hmem' := Table.mem_entries.mpr hc
  by_cases hname : blk.name = ""
  · rw [labelOf_of_unnamed hb hname] at heq
    by_cases hname' : blk'.name = ""
    · rw [labelOf_of_unnamed hc hname'] at heq
      exact Handle.text_inj heq
    · rw [labelOf_of_name hc hname'] at heq
      exact absurd ⟨(b, blk), hmem, (c, blk'), hmem', hname, heq.symm⟩ htaken
  · rw [labelOf_of_name hb hname] at heq
    by_cases hname' : blk'.name = ""
    · rw [labelOf_of_unnamed hc hname'] at heq
      exact absurd ⟨(c, blk'), hmem', (b, blk), hmem, hname', heq⟩ htaken
    · rw [labelOf_of_name hc hname'] at heq
      exact h.eq hb hc hname heq

/-- A handle that is taken is printed for two blocks. -/
theorem LabelsApart.not_handleTaken (h : p.LabelsApart) : ¬ p.HandleTaken := by
  rintro ⟨⟨b, blk⟩, hb, ⟨c, blk'⟩, hc, hname, hname'⟩
  have hb : p.blocks.get? b = some blk := Table.mem_entries.mp hb
  have hc : p.blocks.get? c = some blk' := Table.mem_entries.mp hc
  have hne : blk'.name ≠ "" := by
    rw [hname']
    exact text_ne_empty b
  have hlabel : p.blockLabel b = p.blockLabel c := by
    rw [blockLabel_of_lt (Table.lt_size hb), blockLabel_of_lt (Table.lt_size hc),
      labelOf_of_unnamed hb hname, labelOf_of_name hc hne, hname']
  obtain rfl := h b (Table.mem_handles.mpr (Table.lt_size hb)) c
    (Table.mem_handles.mpr (Table.lt_size hc)) hlabel
  obtain rfl := Option.some.inj (hb.symm.trans hc)
  exact hne hname

theorem labelsApart_iff_labelOf :
    p.LabelsApart ↔ ∀ b ∈ p.blocks.handles, ∀ c ∈ p.blocks.handles,
      p.labelOf b = p.labelOf c → b = c := by
  refine forall₂_congr fun b hb => forall₂_congr fun c hc => ?_
  rw [blockLabel_of_lt (Table.mem_handles.mp hb), blockLabel_of_lt (Table.mem_handles.mp hc),
    Except.ok.injEq]

theorem DistinctLabels.labelsApart_iff (h : p.DistinctLabels) :
    p.LabelsApart ↔ ¬ p.HandleTaken := by
  refine ⟨LabelsApart.not_handleTaken, fun htaken => labelsApart_iff_labelOf.mpr ?_⟩
  intro b hb c hc heq
  obtain ⟨blk, hblk⟩ := Table.exists_get? (Table.mem_handles.mp hb)
  obtain ⟨blk', hblk'⟩ := Table.exists_get? (Table.mem_handles.mp hc)
  exact h.labelOf_inj htaken hblk hblk' heq

/-! ## Reading labels -/

theorem LabelsApart.nodup (h : p.LabelsApart) : (p.blocks.handles.map p.labelOf).Nodup :=
  (Handle.nodup_first .block p.blocks.size).map_on (labelsApart_iff_labelOf.mp h)

theorem LabelsApart.labelsLead (h : p.LabelsApart) : p.LabelsLead := by
  have hnodup : (p.tree.labelNames.map Prod.fst).Nodup := by
    rw [labelNames_tree, List.map_map]
    exact h.nodup
  refine ⟨extendNames_nil_eq_ok.mpr ⟨rfl, hnodup⟩, fun b hb => ?_⟩
  refine ⟨p.labelOf b, blockLabel_of_lt (Table.mem_handles.mp hb), lookup_of_mem hnodup ?_⟩
  rw [labelNames_tree]
  exact List.mem_map.mpr ⟨b, hb, rfl⟩

/-- In a procedure that was read no two blocks have one label. -/
theorem labelsApart_of_lower {t : ProcTree} (ht : t.Readable) (hq : t.lower = .ok q) :
    q.LabelsApart := by
  obtain ⟨s, hlow⟩ := ProcTree.lowered_of_lower ht.blocks_ne_nil hq
  obtain ⟨-, -, hnodup⟩ := ProcTree.scope_eq_ok.mp hlow.scope
  rw [ProcTree.map_fst_labelNames] at hnodup
  have hlabel : ∀ {b : Block}, b.index < q.blocks.size →
      ∃ l, q.blockLabel b = .ok l ∧ t.blockLabels[b.index]? = some l := by
    intro b hb
    obtain ⟨blk, hblk⟩ := Table.exists_get? hb
    obtain ⟨bt, hbt, -⟩ := hlow.exists_block hblk
    refine ⟨bt.label, hlow.blockLabel ht hbt, ?_⟩
    rw [ProcTree.blockLabels, List.getElem?_map, hbt]
    rfl
  intro b hb c hc heq
  obtain ⟨l, hl, hlb⟩ := hlabel (Table.mem_handles.mp hb)
  obtain ⟨l', hl', hlc⟩ := hlabel (Table.mem_handles.mp hc)
  obtain rfl : l = l' := Except.ok.inj (hl.symm.trans (heq.trans hl'))
  have hlt := (List.getElem?_eq_some_iff.mp hlb).1
  exact Table.handle_eq_iff.mpr ((List.getElem?_inj hlt hnodup).mp (hlb.trans hlc.symm))

/-- What is read back as it was has no label twice. -/
theorem labelsApart_of_relists {text : String} (hparse : Program.parse text = .ok ⟨.ofList [q]⟩)
    (h : q.Relists p) : p.LabelsApart := by
  obtain ⟨t, ht, hlow⟩ := Program.exists_readable hparse List.mem_cons_self
  have hapart := labelsApart_of_lower ht hlow
  intro b hb c hc heq
  have hb' := Table.mem_handles.mp hb
  have hc' := Table.mem_handles.mp hc
  refine hapart b (Table.mem_handles.mpr (h.blocks ▸ hb')) c
    (Table.mem_handles.mpr (h.blocks ▸ hc')) ?_
  rw [h.labels b hb', h.labels c hc', heq]

theorem Printable.readsBack (h : p.Printable) : p.ReadsBack := by
  obtain ⟨text, htext, hends⟩ := h.render_ok
  obtain ⟨q, hq⟩ := h.lower_tree
  exact ⟨text, q, htext, parse_of_ends h.readable_tree hends hq, h.relists hq⟩

/-- If no label is given twice, then no label is printed twice just if no handle is taken.  Then the
labels of the text lead back to the blocks.  And where all else can be read, the text is read as the
procedure in this case only. -/
theorem blockLabel_inj_iff (h : p.DistinctLabels) :
    (p.LabelsApart ↔ ¬ p.HandleTaken) ∧ (¬ p.HandleTaken → p.LabelsLead) ∧
      ((p.LabelsApart → p.Printable) → (p.ReadsBack ↔ ¬ p.HandleTaken)) := by
  refine ⟨h.labelsApart_iff, fun htaken => (h.labelsApart_iff.mpr htaken).labelsLead, ?_⟩
  intro hprintable
  constructor
  · rintro ⟨text, q, -, hparse, hrelists⟩
    exact (labelsApart_of_relists hparse hrelists).not_handleTaken
  · intro htaken
    exact (hprintable (h.labelsApart_iff.mpr htaken)).readsBack

/-- Labels that look like handles: those of the blocks themselves, of each other, and of none. -/
def nearMisses : Procedure :=
  [Build.Call.addBlock "block2", .addBlock "block1", .addBlock "", .addBlock "block4",
    .addBlock "block03", .addBlock "", .endBlock ⟨0⟩ (.switch (.const 1) ⟨1⟩ [⟨3⟩, ⟨4⟩, ⟨6⟩]),
    .endBlock ⟨1⟩ (.br ⟨2⟩), .endBlock ⟨2⟩ (.br ⟨1⟩), .endBlock ⟨3⟩ (.br ⟨6⟩),
    .endBlock ⟨4⟩ (.br ⟨5⟩), .endBlock ⟨5⟩ (.ret []),
    .appendPhi ⟨6⟩ [(.const 1, ⟨3⟩), (.const 2, ⟨0⟩)],
    .endBlock ⟨6⟩ .unreachable].foldl Build.Call.leaves (.new "f")

theorem blockLabel_inj_iff_nearMisses :
    nearMisses.DistinctLabels ∧ ¬ nearMisses.HandleTaken ∧ nearMisses.Printable ∧
      nearMisses.LabelsApart ∧ nearMisses.LabelsLead ∧ nearMisses.ReadsBack := by
  have hdistinct : nearMisses.DistinctLabels := by decide +kernel
  have htaken : ¬ nearMisses.HandleTaken := by decide +kernel
  have hprintable : nearMisses.Printable := by constructor <;> decide +kernel
  obtain ⟨hapart, hlead, hback⟩ := blockLabel_inj_iff hdistinct
  exact ⟨hdistinct, htaken, hprintable, hapart.mpr htaken, hlead htaken,
    (hback fun _ => hprintable).mpr htaken⟩

/-- The second block has no label, and the third has its handle. -/
def handleTwice : Procedure :=
  [Build.Call.addBlock "", .addBlock "block1", .endBlock ⟨0⟩ (.br ⟨2⟩),
    .endBlock ⟨1⟩ (.ret [.const 1]),
    .endBlock ⟨2⟩ (.ret [.const 2])].foldl Build.Call.leaves (.new "f")

theorem blockLabel_handleTwice :
    handleTwice.DistinctLabels ∧ ⟨1⟩ ∈ handleTwice.blocks.handles ∧
      ⟨2⟩ ∈ handleTwice.blocks.handles ∧ handleTwice.blockLabel ⟨1⟩ = .ok "block1" ∧
      handleTwice.blockLabel ⟨2⟩ = .ok "block1" ∧
      ∃ text, handleTwice.render "" = .ok text ∧
        Program.parse text = .error (.redefinition "block1") := by
  refine ⟨by decide +kernel, by decide +kernel, by decide +kernel, by decide +kernel,
    by decide +kernel, "func @f() \x7b\nentry:\n  br block1\n" ++
      "block1:\n  ret 1\nblock1:  ; preds: entry\n  ret 2\n\x7d\n", ?_, ?_⟩
  · decide +kernel
  · decide +kernel

end Procedure

end SsaFlow
