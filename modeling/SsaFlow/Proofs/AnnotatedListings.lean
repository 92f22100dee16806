import SsaFlow.Liveness.Annotate
import SsaFlow.Proofs.LoopFree
import SsaFlow.Proofs.WellFormedProcedures

/-!
# Annotated listings are read back

Notes are lines without tokens, put between the lines of the plain listing
(`Procedure.lines_woven`).  To the grammar such a line is a line end more, and one may
stand before and after any line of a procedure (`ProgramDerives.woven`).  So the tree that
is read from a listing with notes is the one without them, and neither the notes nor blanks
at the start of lines make a difference (`ProcTree.Printed.renderWith_ok`).

What is left to say of an analysis is that it has a set for each note, and that no name
breaks the line of a comment (`Liveness.silent_notes`).
-/

namespace SsaFlow

/-! ## Lists with items put in -/

/-- The second list is the first with items put in that satisfy `P`. -/
inductive Woven {α : Type} (P : α → Prop) : List α → List α → Prop where
  | nil : Woven P [] []
  | keep (x : α) {xs ys : List α} : Woven P xs ys → Woven P (x :: xs) (x :: ys)
  | add {y : α} {xs ys : List α} : P y → Woven P xs ys → Woven P xs (y :: ys)

namespace Woven

variable {α β : Type} {P : α → Prop} {xs ys xs' ys' : List α}

theorem refl (xs : List α) : Woven P xs xs := by
  induction xs with
  | nil => exact .nil
  | cons x xs ih => exact .keep x ih

theorem of_forall (h : ∀ y ∈ ys, P y) : Woven P [] ys := by
  induction ys with
  | nil => exact .nil
  | cons y ys ih =>
    obtain ⟨hy, hys⟩ := List.forall_mem_cons.mp h
    exact .add hy (ih hys)

theorem append (h : Woven P xs ys) (h' : Woven P xs' ys') : Woven P (xs ++ xs') (ys ++ ys') := by
  induction h with
  | nil => exact h'
  | keep x _ ih => exact .keep x ih
  | add hy _ ih => exact .add hy ih

theorem flatten {xss yss : List (List α)} (h : List.Forall₂ (Woven P) xss yss) :
    Woven P xss.flatten yss.flatten := by
  induction h with
  | nil => exact .nil
  | cons hrow _ ih => exact hrow.append ih

theorem map {f : α → α} (hf : ∀ y, P y → P (f y)) (h : Woven P xs ys) :
    Woven P (xs.map f) (ys.map f) := by
  induction h with
  | nil => exact .nil
  | keep x _ ih => exact .keep (f x) ih
  | add hy _ ih => exact .add (hf _ hy) ih

/-- What is put in on one side of a relation is put in on the other. -/
theorem exists_forall₂ {R : α → β → Prop} {c : β} {zs : List β}
    (h : Woven (fun y => R y c) xs ys) (hzs : List.Forall₂ R xs zs) :
    ∃ ws, List.Forall₂ R ys ws ∧ Woven (· = c) zs ws := by
  induction h generalizing zs with
  | nil =>
    cases hzs
    exact ⟨[], .nil, .nil⟩
  | keep x _ ih =>
    cases hzs with
    | @cons _ z _ zs hx hzs =>
      obtain ⟨ws, hws, hwoven⟩ := ih hzs
      exact ⟨z :: ws, .cons hx hws, .keep z hwoven⟩
  | add hy _ ih =>
    obtain ⟨ws, hws, hwoven⟩ := ih hzs
    exact ⟨c :: ws, .cons hy hws, .add rfl hwoven⟩

end Woven

/-! ## Empty lines -/

theorem ProgramDerives.woven_nil {tss : List (List Token)} (h : Woven (· = []) [] tss) :
    ProgramDerives [] (lineTokens tss) := by
  generalize hnil : ([] : List (List Token)) = lines at h
  induction h with
  | nil => exact .nil
  | keep _ _ _ => cases hnil
  | add hy _ ih =>
    subst hy
    exact .newline (ih hnil)

/-- Empty lines among the lines of blocks, and after the closing brace, are passed over. -/
theorem ItemsDerive.woven {is : List InstTree} {bs : List BlockTree} {tss : List (List Token)}
    (hinsts : ∀ i ∈ is ++ bs.flatMap BlockTree.insts, ∃ us, i.Derives us)
    (h : Woven (· = []) (is.map InstTree.tokens ++ (bs.flatMap BlockTree.lines ++ [[.rbrace]])) tss) :
    ∃ us vs, lineTokens tss = us ++ vs ∧ ItemsDerive is bs us ∧ ProgramDerives [] vs := by
  generalize hlines : is.map InstTree.tokens ++ (bs.flatMap BlockTree.lines ++ [[.rbrace]]) = lines
    at h
  induction h generalizing is bs with
  | nil => simp at hlines
  | add hy _ ih =>
    subst hy
    obtain ⟨us, vs, htss, hus, hvs⟩ := ih hinsts hlines
    exact ⟨.newline :: us, vs, congrArg _ htss, .newline hus, hvs⟩
  | @keep line lines tss h ih =>
    cases is with
    | cons i is =>
      obtain ⟨rfl, rfl⟩ := List.cons.inj hlines
      obtain ⟨⟨ts, hi⟩, hrest⟩ := List.forall_mem_cons.mp hinsts
      obtain ⟨us, vs, htss, hus, hvs⟩ := ih hrest rfl
      refine ⟨i.tokens ++ .newline :: us, vs, ?_, ?_, hvs⟩
      · rw [lineTokens, List.flatMap_cons]
        simp [← htss, lineTokens]
      · exact .inst hi.canonical.1 (.inl rfl) (.newline hus)
    | nil =>
      cases bs with
      | nil =>
        obtain ⟨rfl, rfl⟩ := List.cons.inj hlines
        exact ⟨[.rbrace], .newline :: lineTokens tss, rfl, .close, .newline (.woven_nil h)⟩
      | cons b bs =>
        rw [List.map_nil, List.nil_append, List.flatMap_cons, List.append_assoc] at hlines
        obtain ⟨rfl, hrest⟩ := List.cons.inj hlines
        obtain ⟨us, vs, htss, hus, hvs⟩ := @ih b.insts bs hinsts hrest
        exact ⟨.ident b.label :: .colon :: .newline :: us, vs,
          congrArg (Token.ident b.label :: .colon :: .newline :: ·) htss,
          .label b.label (.newline hus), hvs⟩

/-- Empty lines before, among and after the lines of a procedure are passed over. -/
theorem ProgramDerives.woven {t : ProcTree} {ts : List Token} (ht : t.Derives ts)
    {tss : List (List Token)} (h : Woven (· = []) t.lines tss) :
    ProgramDerives [t] (lineTokens tss) := by
  generalize hlines : t.lines = lines at h
  induction h with
  | nil => cases hlines
  | add hy _ ih =>
    subst hy
    exact .newline (ih hlines)
  | @keep line lines tss h _ =>
    obtain ⟨rfl, rfl⟩ := List.cons.inj hlines
    cases ht with
    | @mk name args blocks _ _ hargs hne hitems =>
      obtain ⟨us, vs, htss, hus, hvs⟩ := @ItemsDerive.woven [] blocks tss hitems.exists_inst h
      have htokens : lineTokens (ProcTree.header ⟨name, args, blocks⟩ :: tss) =
          (.ident "func" :: .globalName name :: .lparen ::
            (nameTokens .localName args ++ .rparen :: .lbrace :: .newline :: us)) ++ vs := by
        rw [lineTokens, List.flatMap_cons]
        simp [← htss, lineTokens, ProcTree.header]
      rw [htokens]
      exact .cons (.mk name .plain hne (.newline hus)) hvs

/-! ## Lines without tokens -/

theorem ends_blanks {text : String} (h : ∀ c ∈ text.toList, Token.isBlank c = true) :
    Ends text [] := by
  intro rest us hrest
  rw [List.nil_append]
  generalize text.toList = cs at h
  induction cs with
  | nil => exact hrest
  | cons c cs ih =>
    obtain ⟨hc, hcs⟩ := List.forall_mem_cons.mp h
    exact (ih hcs).blank hc

theorem WritesLine.setIn {line indent : String} {ts : List Token} (h : WritesLine line ts)
    (hindent : ∀ c ∈ indent.toList, Token.isBlank c = true) : WritesLine (indent ++ line) ts := by
  rw [WritesLine, String.append_assoc]
  exact (ends_blanks hindent).append h

namespace Procedure

variable {p : Procedure} {n : Notes} {b : Block} {blk : BasicBlock} {lines : List String}

/-- There are notes for all that a procedure lists, and they have no tokens. -/
structure Notes.Silent (n : Notes) (p : Procedure) : Prop where
  top : ∀ {b blk}, p.blocks.get? b = some blk →
    ∃ notes, n.top b = .ok notes ∧ ∀ line ∈ notes, WritesLine line []
  above : ∀ i ∈ p.listed, ∃ notes, n.above i = .ok notes ∧ ∀ line ∈ notes, WritesLine line []
  bottom : ∀ {b blk}, p.blocks.get? b = some blk →
    ∃ notes, n.bottom b = .ok notes ∧ ∀ line ∈ notes, WritesLine line []

theorem instLines_woven (hn : n.Silent p) {i : Inst} (hi : i ∈ p.listed)
    (h : p.instLines .none i = .ok lines) :
    ∃ lines', p.instLines n i = .ok lines' ∧ Woven (fun line => WritesLine line []) lines lines' := by
  obtain ⟨_, hnone, h⟩ := bind_eq_ok.mp h
  obtain ⟨text, htext, h⟩ := bind_eq_ok.mp h
  cases hnone
  cases h
  obtain ⟨notes, hnotes, hsilent⟩ := hn.above i hi
  refine ⟨notes ++ [text], ?_, (Woven.of_forall hsilent).append (.refl [text])⟩
  exact bind_eq_ok.mpr ⟨notes, hnotes, bind_eq_ok.mpr ⟨text, htext, rfl⟩⟩

theorem blockLines_woven (hn : n.Silent p) (hb : p.blocks.get? b = some blk)
    (h : p.blockLines .none b blk.insts = .ok lines) :
    ∃ lines', p.blockLines n b blk.insts = .ok lines' ∧
      Woven (fun line => WritesLine line []) lines lines' := by
  obtain ⟨first, hfirst, h⟩ := bind_eq_ok.mp h
  obtain ⟨_, htop, h⟩ := bind_eq_ok.mp h
  obtain ⟨body, hbody, h⟩ := bind_eq_ok.mp h
  obtain ⟨_, hbottom, h⟩ := bind_eq_ok.mp h
  cases htop
  cases hbottom
  cases h
  obtain ⟨top, htop, hsilent⟩ := hn.top hb
  obtain ⟨bottom, hbottom, hsilent'⟩ := hn.bottom hb
  have hinsts : List.Forall₂ (fun i lines => ∃ lines', p.instLines n i = .ok lines' ∧
      Woven (fun line => WritesLine line []) lines lines') blk.insts body := by
    have hmem : ∀ i ∈ blk.insts, i ∈ p.listed := fun i hi => mem_listed hb hi
    refine ((List.forall₂_and_left _ _).mpr ⟨hmem, mapM_eq_ok.mp hbody⟩).imp ?_
    rintro i lines ⟨hi, hlines⟩
    exact instLines_woven hn hi hlines
  obtain ⟨body', hbody', hwoven⟩ := exists_mapM hinsts
  refine ⟨first :: (top ++ body'.flatten ++ bottom).map ("  " ++ ·), ?_, .keep first ?_⟩
  · exact bind_eq_ok.mpr ⟨first, hfirst, bind_eq_ok.mpr ⟨top, htop, bind_eq_ok.mpr
      ⟨body', hbody', bind_eq_ok.mpr ⟨bottom, hbottom, rfl⟩⟩⟩⟩
  · apply Woven.map
    · exact fun line hline => hline.setIn (List.all_eq_true.mp (by decide))
    · exact ((Woven.of_forall hsilent).append (.flatten hwoven.flip)).append (.of_forall hsilent')

/-- A listing with notes is the plain listing with lines put in that have no tokens. -/
theorem lines_woven (hn : n.Silent p) (h : p.lines .none = .ok lines) :
    ∃ lines', p.lines n = .ok lines' ∧ Woven (fun line => WritesLine line []) lines lines' := by
  obtain ⟨rows, hrows, h⟩ := bind_eq_ok.mp h
  cases h
  have hblocks : List.Forall₂ (fun e lines => ∃ lines', p.blockLines n e.1 e.2.insts = .ok lines' ∧
      Woven (fun line => WritesLine line []) lines lines') p.blocks.entries rows := by
    have hget : ∀ e ∈ p.blocks.entries, p.blocks.get? e.1 = some e.2 :=
      fun e he => Table.mem_entries.mp he
    refine ((List.forall₂_and_left _ _).mpr ⟨hget, mapM_eq_ok.mp hrows⟩).imp ?_
    rintro e lines ⟨hb, hlines⟩
    exact blockLines_woven hn hb hlines
  obtain ⟨rows', hrows', hwoven⟩ := exists_mapM hblocks
  exact ⟨_, bind_eq_ok.mpr ⟨rows', hrows', rfl⟩,
    .keep _ ((Woven.flatten hwoven.flip).append (.refl _))⟩

end Procedure

/-- A listing with notes has tokens that the tree can be read from. -/
theorem ProcTree.Printed.renderWith_ok {t : ProcTree} {s : Scope} {p : Procedure}
    (h : t.Printed s p) (ht : t.Readable) {n : Procedure.Notes} (hn : n.Silent p) {indent : String}
    (hindent : ∀ c ∈ indent.toList, Token.isBlank c = true) :
    ∃ text ts, p.renderWith n indent = .ok text ∧ Ends text ts ∧ ProgramDerives [t] ts := by
  obtain ⟨lines, hlines, hwrites⟩ := h.lines_ok ht
  obtain ⟨lines', hlines', hwoven⟩ := Procedure.lines_woven hn hlines
  obtain ⟨tss, hwrites', htss⟩ := hwoven.exists_forall₂ hwrites
  obtain ⟨ts, hts, -⟩ := ht
  refine ⟨_, lineTokens tss, bind_eq_ok.mpr ⟨lines', hlines', rfl⟩, ?_, .woven hts htss⟩
  rw [lineTokens, List.flatMap_def]
  refine ends_join ?_
  rw [List.forall₂_map_left_iff, List.forall₂_map_right_iff]
  exact hwrites'.imp fun line ts hline => hline.setIn hindent

/-! ## Names in comments -/

theorem newline_not_mem_toDigits (n : Nat) : '\n' ∉ Nat.toDigits 10 n := by
  intro h
  cases Handle.isDigit_of_mem_toDigits h

theorem newline_not_mem_repr (k : Int) : '\n' ∉ k.repr.toList := by
  cases k with
  | ofNat n =>
    have htext : (Int.ofNat n).repr.toList = Nat.toDigits 10 n := String.toList_ofList
    rw [htext]
    exact newline_not_mem_toDigits n
  | negSucc n =>
    have htext : (Int.negSucc n).repr.toList = '-' :: Nat.toDigits 10 (n + 1) := by
      show ("-" ++ (n + 1).repr).toList = _
      simp [Nat.repr]
    rw [htext, List.mem_cons, not_or]
    exact ⟨by decide, newline_not_mem_toDigits (n + 1)⟩

theorem Handle.newline_not_mem_text {k : Entity} (h : Handle k) : '\n' ∉ h.text.toList := by
  have hletters : '\n' ∉ k.letters.toList := by cases k <;> decide
  rw [toList_text, List.mem_append, not_or]
  refine ⟨hletters, ?_⟩
  split
  next => exact newline_not_mem_toDigits h.index
  next => decide

namespace Procedure

variable {p : Procedure}

theorem newline_not_mem_bareName (hnames : ∀ v n, p.givenName? v = some n → '\n' ∉ n.toList)
    (v : Value) : '\n' ∉ (p.bareName v).toList := by
  cases hn : p.givenName? v with
  | some n =>
    rw [bareName_of_given hn]
    exact hnames v n hn
  | none =>
    have hhandle : '\n' ∉ v.handleText.toList := by
      cases v with
      | arg a => exact a.newline_not_mem_text
      | inst i => exact i.newline_not_mem_text
      | const k => exact newline_not_mem_repr k.toInt
    obtain ⟨m, hm⟩ := toList_untaken p.givenNames p.givenNames.length v.handleText
    rw [bareName_of_none hn, ownName, hm, List.mem_append, not_or]
    refine ⟨hhandle, fun hmem => ?_⟩
    cases List.eq_of_mem_replicate hmem

theorem newline_not_mem_valueName (hnames : ∀ v n, p.givenName? v = some n → '\n' ∉ n.toList)
    (v : Value) : '\n' ∉ (p.valueName v).toList := by
  have hsigil : ∀ name : String, '\n' ∉ name.toList → '\n' ∉ ("%" ++ name).toList := by
    intro name hname
    rw [String.toList_append, List.mem_append, not_or]
    exact ⟨by decide, hname⟩
  cases v with
  | arg a =>
    rw [valueName_arg]
    exact hsigil _ (newline_not_mem_bareName hnames _)
  | inst i =>
    rw [valueName_inst]
    exact hsigil _ (newline_not_mem_bareName hnames _)
  | const k => exact newline_not_mem_repr k.toInt

end Procedure

theorem ProcTree.Lowered.newline_not_mem_given {t : ProcTree} {s : Scope} {p : Procedure}
    (h : t.Lowered s p) (ht : t.Readable) {v : Value} {n : String}
    (hn : p.givenName? v = some n) : '\n' ∉ n.toList := by
  have hvalid : (Token.localName n).Valid := by
    cases v with
    | arg a =>
      obtain ⟨hn, -⟩ := Option.filter_eq_some_iff.mp hn
      have hmem : n ∈ p.args.toList := Table.mem_toList.mpr ⟨a, hn⟩
      rw [h.args] at hmem
      exact ht.arg hmem
    | inst i =>
      obtain ⟨d, hd, hn⟩ := Option.bind_eq_some_iff.mp hn
      obtain ⟨it, hit, hname, -⟩ := h.exists_inst hd
      obtain ⟨bt, hbt, hit⟩ := List.mem_flatMap.mp (List.mem_of_getElem? hit)
      apply (ht.inst hbt hit).2
      rw [InstTree.tokens, ← hname, hn]
      exact List.mem_cons_self
    | const k => cases hn
  intro hmem
  cases hvalid.2 _ hmem

/-! ## Annotations -/

namespace Liveness

variable {l : Liveness} {p : Procedure}

theorem writesLine_setLine (hnames : ∀ v, '\n' ∉ (p.valueName v).toList) {title : String}
    (htitle : '\n' ∉ title.toList) (x : BitSet) : WritesLine (l.setLine p title x) [] := by
  have hlist : ∀ vs : List Value, '\n' ∉ (", ".intercalate (vs.map p.valueName)).toList := by
    intro vs hc
    rw [String.toList_intercalate] at hc
    rcases mem_of_mem_intercalate hc with hc | ⟨_, htexts, hc⟩
    · exact absurd hc (by decide)
    · obtain ⟨_, hname, rfl⟩ := List.mem_map.mp htexts
      obtain ⟨v, -, rfl⟩ := List.mem_map.mp hname
      exact hnames v hc
  have hcomment : ∀ rest : String, '\n' ∉ rest.toList →
      WritesLine ("; " ++ title ++ ":" ++ rest) [] := by
    intro rest hrest
    have htext : '\n' ∉ (" " ++ title ++ ":" ++ rest).toList := by
      simp [htitle, hrest]
    have hline : "; " ++ title ++ ":" ++ rest ++ "\n" =
        ";" ++ (" " ++ title ++ ":" ++ rest) ++ "\n" := by
      apply String.toList_inj.mp
      simp
    rw [WritesLine, hline]
    exact ends_comment htext
  rw [setLine]
  split
  next => exact hcomment "" (by decide)
  next =>
    apply hcomment
    rw [String.toList_append, List.mem_append, not_or]
    exact ⟨by decide, hlist _⟩

/-- The notes of an analysis are there, and have no tokens. -/
theorem silent_notes (hl : analyze p.graph = .ok l)
    (hlisted : ∀ i ∈ p.listed, i.index < p.insts.size)
    (hnames : ∀ v, '\n' ∉ (p.valueName v).toList) (verbose : Bool) :
    (l.notes p verbose).Silent p where
  top {b blk} hb := by
    obtain ⟨_, live, -, hlive, -⟩ :=
      exists_sides hl Domain.closed_true (Procedure.get?_nodes_graph.mpr ⟨blk, hb, rfl⟩)
    refine ⟨_, bind_eq_ok.mpr ⟨live, hlive, rfl⟩, List.forall_mem_singleton.mpr ?_⟩
    exact writesLine_setLine hnames (by decide) live
  above i hi := by
    obtain ⟨d, hd⟩ := Table.exists_get? (hlisted i hi)
    simp only [notes, bind_eq_ok]
    by_cases hphi : d.op.kind = .phi
    · exact ⟨[], ⟨d, Table.read_eq_ok.mpr hd, by rw [if_pos hphi]; rfl⟩, List.forall_mem_nil _⟩
    · obtain ⟨live, hlive⟩ := exists_liveBefore hl (p.listed_graph.symm ▸ hi)
      refine ⟨[l.setLine p "live" live], ⟨d, Table.read_eq_ok.mpr hd, ?_⟩,
        List.forall_mem_singleton.mpr (writesLine_setLine hnames (by decide) live)⟩
      rw [if_neg hphi]
      exact bind_eq_ok.mpr ⟨live, hlive, rfl⟩
  bottom {b blk} hb := by
    cases verbose with
    | false => exact ⟨[], rfl, List.forall_mem_nil _⟩
    | true =>
      obtain ⟨live, _, hlive, -⟩ :=
        exists_sides hl Domain.closed_true (Procedure.get?_nodes_graph.mpr ⟨blk, hb, rfl⟩)
      refine ⟨_, bind_eq_ok.mpr ⟨live, hlive, rfl⟩, List.forall_mem_cons.mpr ⟨?_, ?_⟩⟩
      · exact writesLine_setLine hnames (by decide) live
      · intro line hline
        rw [Option.mem_toList, Option.map_eq_some_iff] at hline
        obtain ⟨inputs, -, rfl⟩ := hline
        exact writesLine_setLine hnames (by decide) inputs

/-- The annotated listing of a procedure that was read is read as the procedure again, short or
verbose, and with any blanks at the start of its lines. -/
theorem parse_annotated {text : String} {m : Program} (h : Program.parse text = .ok m)
    {p : Procedure} (hp : p ∈ m.funcs.toList) :
    ∃ l, analyze p.graph = .ok l ∧ ∀ (verbose : Bool) (indent : String),
      (∀ c ∈ indent.toList, Token.isBlank c = true) →
        ∃ printed, l.render p verbose indent = .ok printed ∧
          Program.parse printed = .ok ⟨.ofList [p]⟩ := by
  obtain ⟨t, ht, hlower⟩ := Program.exists_readable h hp
  obtain ⟨s, hlow⟩ := ProcTree.lowered_of_lower ht.blocks_ne_nil hlower
  obtain ⟨l, hl⟩ := analyze_ok hlow.resolved_graph
  refine ⟨l, hl, fun verbose indent hindent => ?_⟩
  have hlisted : ∀ i ∈ p.listed, i.index < p.insts.size := by
    intro i hi
    rw [Procedure.listed, hlow.listed] at hi
    exact Handle.mem_first.mp hi
  have hsilent : (l.notes p verbose).Silent p := silent_notes hl hlisted
    (Procedure.newline_not_mem_valueName fun _ _ => hlow.newline_not_mem_given ht) verbose
  obtain ⟨printed, ts, hprinted, hends, hts⟩ := (hlow.printed ht).renderWith_ok ht hsilent hindent
  exact ⟨printed, hprinted, Program.parse_of_derives hends hts hlower⟩

theorem parse_annotated_countdown :
    Program.parse Program.countdownText = .ok Program.countdown ∧
      ∃ p ∈ Program.countdown.funcs.toList, ∃ l, analyze p.graph = .ok l ∧
        (∀ c ∈ " \t".toList, Token.isBlank c = true) ∧
          ∃ printed, l.render p true " \t" = .ok printed ∧
            Program.parse printed = .ok ⟨.ofList [p]⟩ := by
  have hblanks : ∀ c ∈ " \t".toList, Token.isBlank c = true := List.all_eq_true.mp (by decide)
  refine ⟨Program.parse_countdownText, _, List.mem_cons_self, ?_⟩
  obtain ⟨l, hl, hrender⟩ := parse_annotated Program.parse_countdownText List.mem_cons_self
  exact ⟨l, hl, hblanks, hrender true " \t" hblanks⟩

end Liveness

end SsaFlow
