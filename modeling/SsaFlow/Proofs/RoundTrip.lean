import SsaFlow.Proofs.Lexing
import SsaFlow.Proofs.LoweredGraphs

/-!
# Printing undoes reading

If a procedure is printed with the names of a tree (`ProcTree.Printed`), then its text has
the canonical tokens of the tree, line by line (`ProcTree.Printed.lines_ok`).

A procedure that was read is printed with the names it was read with, since all of its
values and blocks have one (`ProcTree.Lowered.printed`).  Reading its text gives the same tree,
and the same procedure again.
-/

namespace SsaFlow

/-! ## Names -/

/-- Operands and labels are printed as they are written. -/
structure Scope.PrintedBy (s : Scope) (p : Procedure) : Prop where
  value : ∀ {o v}, s.value o = .ok v → p.valueName v = o.token.text
  label : ∀ {l b}, s.block l = .ok b → p.blockLabel b = .ok l

theorem mem_nameTokens {mk : String → Token} {names : List String} {n : String} (h : n ∈ names) :
    mk n ∈ nameTokens mk names :=
  mem_intercalate (List.mem_map_of_mem h) List.mem_cons_self

namespace Token.Valid

theorem ne_empty {n : String} (h : (ident n).Valid) : n ≠ "" := by
  obtain ⟨c, cs, hn, -⟩ := h
  rintro rfl
  cases hn

theorem newline_not_mem {n : String} (h : (ident n).Valid) : '\n' ∉ n.toList := by
  obtain ⟨c, cs, hn, hc, hcs⟩ := h
  rw [hn, List.mem_cons]
  rintro (rfl | hmem)
  · cases hc
  · cases hcs _ hmem

end Token.Valid

namespace ProcTree

variable {t : ProcTree} {s : Scope} {p : Procedure}

/-- The tree is that of some text. -/
def Readable (t : ProcTree) : Prop := ∃ ts, t.Derives ts ∧ ∀ u ∈ ts, u.Valid

namespace Readable

theorem valid (ht : t.Readable) : ∀ u ∈ t.header ++ t.body.flatten, u.Valid := by
  obtain ⟨ts, hts, hvalid⟩ := ht
  exact fun u hu => hvalid u (hts.canonical.2 hu)

theorem blocks_ne_nil (ht : t.Readable) : t.blocks ≠ [] := by
  obtain ⟨ts, hts, -⟩ := ht
  exact hts.blocks_ne_nil

theorem arg (ht : t.Readable) {n : String} (hn : n ∈ t.args) : (Token.localName n).Valid := by
  refine ht.valid _ (List.mem_append_left _ ?_)
  have hmem : Token.localName n ∈ nameTokens .localName t.args := mem_nameTokens hn
  simp [header, hmem]

theorem line (ht : t.Readable) {b : BlockTree} (hb : b ∈ t.blocks) {line : List Token}
    (hline : line ∈ b.lines) : ∀ u ∈ line, u.Valid := by
  intro u hu
  exact ht.valid u (List.mem_append_right _
    (List.mem_flatten.mpr ⟨line, List.mem_flatMap.mpr ⟨b, hb, hline⟩, hu⟩))

theorem label (ht : t.Readable) {b : BlockTree} (hb : b ∈ t.blocks) :
    (Token.ident b.label).Valid :=
  ht.line hb List.mem_cons_self _ List.mem_cons_self

theorem inst (ht : t.Readable) {b : BlockTree} (hb : b ∈ t.blocks) {i : InstTree}
    (hi : i ∈ b.insts) : (∃ ts, i.Derives ts) ∧ ∀ u ∈ i.tokens, u.Valid := by
  refine ⟨?_, ht.line hb (List.mem_cons_of_mem _ (List.mem_map_of_mem hi))⟩
  obtain ⟨ts, hts, -⟩ := ht
  cases hts with
  | mk name _ _ hitems => exact hitems.exists_inst i (List.mem_flatMap.mpr ⟨b, hb, hi⟩)

end Readable

/-- The label of a block is printed as it is written. -/
theorem Lowered.blockLabel (h : t.Lowered s p) (ht : t.Readable) {b : Block} {bt : BlockTree}
    (hb : t.blocks[b.index]? = some bt) : p.blockLabel b = .ok bt.label := by
  have hlt : b.index < p.blocks.size := h.size_blocks ▸ (List.getElem?_eq_some_iff.mp hb).1
  obtain ⟨blk, hblk⟩ := Table.exists_get? hlt
  obtain ⟨bt', hbt', hlow⟩ := h.exists_block hblk
  obtain rfl := Option.some.inj (hb.symm.trans hbt')
  have hne : blk.name ≠ "" := by
    rw [show blk.name = bt.label from hlow.name]
    exact (ht.label (List.mem_of_getElem? hb)).ne_empty
  simp only [Procedure.blockLabel, bind_eq_ok, pure_eq_ok, Table.read_eq_ok]
  exact ⟨blk, hblk, by rw [if_neg hne]; exact hlow.name⟩

theorem Lowered.printedBy (h : t.Lowered s p) (ht : t.Readable) : s.PrintedBy p where
  value {o v} hv := by
    rcases value_cases h.scope hv with ⟨k, rfl, rfl⟩ | ⟨i, n, rfl, hi, rfl⟩ |
      ⟨k, i, n, rfl, hi, hn, rfl⟩
    · rfl
    · have harg : p.args.get? ⟨i⟩ = some n := by
        rw [h.args, ← Table.getElem?_toList]
        exact hi
      have hne : n ≠ "" := (ht.arg (List.mem_of_getElem? hi)).1
      simp only [Procedure.valueName, harg, if_neg hne, OperandTree.token, Token.text]
    · have hlt : k < p.insts.size := h.size_insts ▸ (List.getElem?_eq_some_iff.mp hi).1
      obtain ⟨d, hd⟩ := Table.exists_get? (h := (⟨k⟩ : Inst)) hlt
      obtain ⟨it, hit, hname, -⟩ := h.exists_inst hd
      obtain rfl := Option.some.inj (hi.symm.trans hit)
      simp only [Procedure.valueName, hd, Option.bind_some, hname, hn, OperandTree.token, Token.text]
  label {l b} hb := by
    obtain ⟨bt, hbt, rfl⟩ := label_of_block h.scope hb
    exact h.blockLabel ht hbt

end ProcTree

/-! ## Instructions -/

/-- An instruction that can be derived has a result just when it is given a name. -/
theorem hasResult_of_operation {s : Scope} {i : InstTree} {op : Operation} {ts : List Token}
    (hi : i.Derives ts) (hop : s.operation i = .ok op) : op.hasResult = i.result.isSome := by
  have hshape : op.hasResult =
      (i.action.isPhi || (!i.action.isTerminator && i.result.isSome)) := by
    cases Scope.operates_of_operation hop with
    | compute _ _ => rfl
    | phi _ => rfl
    | br _ => rfl
    | condBr _ _ _ => rfl
    | switch _ _ _ => rfl
    | ret _ => rfl
    | unreachable => rfl
  rw [hshape]
  cases hi with
  | plain hphi _ => simp [hphi]
  | named n hterm _ => simp [hterm]

theorem ends_word {word : String} (h : (Token.ident word).Valid) :
    Ends (word ++ " ") [.ident word] :=
  (Token.writes_text h).divided (by decide : Divides " " [])

namespace Scope.PrintedBy

variable {s : Scope} {p : Procedure}

theorem writes_valueName (hp : s.PrintedBy p) {o : OperandTree} {v : Value}
    (hv : s.value o = .ok v) (ho : o.token.Valid) : Writes (p.valueName v) [o.token] := by
  rw [hp.value hv]
  exact Token.writes_text ho

theorem writes_operandText (hp : s.PrintedBy p) {os : List OperandTree} {vs : List Value}
    (hvs : List.Forall₂ (fun o v => s.value o = .ok v) os vs)
    (hvalid : ∀ u ∈ OperandTree.tokens os, u.Valid) :
    Writes (p.operandText vs) (OperandTree.tokens os) := by
  refine writes_intercalate ?_
  rw [List.forall₂_map_left_iff, List.forall₂_map_right_iff]
  have htoken : ∀ o ∈ os, o.token.Valid := fun o ho =>
    hvalid _ (mem_intercalate (List.mem_map_of_mem ho) List.mem_cons_self)
  refine .flip (((List.forall₂_and_left _ _).mpr ⟨htoken, hvs⟩).imp ?_)
  rintro o v ⟨ho, hv⟩
  exact hp.writes_valueName hv ho

theorem labelText_ok (hp : s.PrintedBy p) {ls : List String} {bs : List Block}
    (hbs : List.Forall₂ (fun l b => s.block l = .ok b) ls bs)
    (hvalid : ∀ u ∈ nameTokens .ident ls, u.Valid) :
    ∃ text, p.labelText bs = .ok text ∧ Writes text (nameTokens .ident ls) := by
  have hlabels : bs.mapM p.blockLabel = .ok ls :=
    mapM_eq_ok.mpr (.flip (hbs.imp fun l b => hp.label))
  refine ⟨_, bind_eq_ok.mpr ⟨ls, hlabels, rfl⟩, writes_intercalate ?_⟩
  rw [List.forall₂_map_right_iff, List.forall₂_same]
  exact fun l hl => Token.writes_text (hvalid _ (mem_nameTokens hl))

theorem pairText_ok (hp : s.PrintedBy p) {e : OperandTree × String} {pair : Value × Block}
    (hv : s.value e.1 = .ok pair.1) (hb : s.block e.2 = .ok pair.2)
    (hvalid : ∀ u ∈ pairTokens e, u.Valid) :
    ∃ text, p.pairText pair = .ok text ∧ Writes text (pairTokens e) := by
  refine ⟨_, bind_eq_ok.mpr ⟨e.2, hp.label hb, rfl⟩, ?_⟩
  have hvalue := hp.writes_valueName hv (hvalid _ (by simp [pairTokens]))
  have hlabel := Token.writes_text (hvalid (.ident e.2) (by simp [pairTokens]))
  have hopen : Ends "[" [.lbracket] := Divides.ends (by decide)
  exact ((((hopen.append_writes hvalue).divided (by decide : Divides ", " [.comma])).append_writes
    hlabel).divided (by decide : Divides "]" [.rbracket])).writes

theorem writes_withOperands (hp : s.PrintedBy p) {word : String} {os : List OperandTree}
    {vs : List Value} (hvs : List.Forall₂ (fun o v => s.value o = .ok v) os vs)
    (hvalid : ∀ u ∈ .ident word :: OperandTree.tokens os, u.Valid) :
    Writes (p.withOperands word vs) (.ident word :: OperandTree.tokens os) := by
  obtain ⟨hword, hos⟩ := List.forall_mem_cons.mp hvalid
  unfold Procedure.withOperands
  split
  next hempty =>
    obtain rfl := List.isEmpty_iff.mp hempty
    obtain rfl := List.forall₂_nil_right_iff.mp hvs
    exact Token.writes_text hword
  next =>
    exact (ends_word hword).append_writes (hp.writes_operandText hvs hos)

theorem operationText_ok (hp : s.PrintedBy p) {i : InstTree} {op : Operation}
    (hop : s.operation i = .ok op) (hvalid : ∀ u ∈ i.action.tokens, u.Valid) :
    ∃ text, p.operationText op = .ok text ∧ Writes text i.action.tokens := by
  cases operates_of_operation hop with
  | compute _ hvs => exact ⟨_, rfl, hp.writes_withOperands hvs hvalid⟩
  | @phi _ incoming pairs hpairs =>
    obtain ⟨hphi, hincoming⟩ := List.forall_mem_cons.mp hvalid
    have hpair : ∀ e ∈ incoming, ∀ u ∈ pairTokens e, u.Valid := fun e he u hu =>
      hincoming u (mem_intercalate (List.mem_map_of_mem he) hu)
    have htexts : List.Forall₂ (fun pair e => ∃ text, p.pairText pair = .ok text ∧
        Writes text (pairTokens e)) pairs incoming := by
      refine .flip (((List.forall₂_and_left _ _).mpr ⟨hpair, hpairs⟩).imp ?_)
      rintro e pair ⟨he, hv, hb⟩
      exact hp.pairText_ok hv hb he
    obtain ⟨texts, htexts, hwrites⟩ := exists_mapM htexts
    refine ⟨_, bind_eq_ok.mpr ⟨texts, htexts, rfl⟩, ?_⟩
    have hword : Ends "phi " [.ident "phi"] := ends_word hphi
    exact hword.append_writes (writes_intercalate (List.forall₂_map_right_iff.mpr hwrites))
  | @br _ target _ hb =>
    have hword : Ends "br " [.ident "br"] := ends_word (hvalid _ List.mem_cons_self)
    have htarget := Token.writes_text (hvalid (.ident target) (by simp [ActionTree.tokens]))
    exact ⟨_, bind_eq_ok.mpr ⟨target, hp.label hb, rfl⟩, hword.append_writes htarget⟩
  | @condBr _ cond _ _ _ _ _ hv hb hc =>
    have hword : Ends "br " [.ident "br"] := ends_word (hvalid _ List.mem_cons_self)
    have hcond := hp.writes_valueName hv (hvalid _ (by simp [ActionTree.tokens]))
    obtain ⟨labels, hlabels, hwrites⟩ := hp.labelText_ok (.cons hb (.cons hc .nil)) fun u hu =>
      hvalid u (List.mem_append_right [Token.ident "br", cond.token, .comma] hu)
    exact ⟨_, bind_eq_ok.mpr ⟨labels, hlabels, rfl⟩,
      ((hword.append_writes hcond).divided (by decide : Divides ", " [.comma])).append_writes hwrites⟩
  | @switch _ _ default _ _ _ _ hv hb hbs =>
    have hword : Ends "switch " [.ident "switch"] := ends_word (hvalid _ List.mem_cons_self)
    have hvalue := hp.writes_valueName hv (hvalid _ (by simp [ActionTree.tokens]))
    have hdefault := Token.writes_text (hvalid (.ident default) (by simp [ActionTree.tokens]))
    obtain ⟨labels, hlabels, htargets⟩ := hp.labelText_ok hbs fun u hu => hvalid u (by
      simp [ActionTree.tokens, hu])
    refine ⟨_, bind_eq_ok.mpr ⟨labels, hlabels, bind_eq_ok.mpr ⟨default, hp.label hb, rfl⟩⟩, ?_⟩
    have hhead := ((hword.append_writes hvalue).divided
      (by decide : Divides ", " [.comma])).append_writes hdefault
    have htail := (hhead.divided (by decide : Divides ", [" [.comma, .lbracket])).append_writes
      htargets
    exact (htail.divided (by decide : Divides "]" [.rbracket])).writes
  | ret hvs => exact ⟨_, rfl, hp.writes_withOperands hvs hvalid⟩
  | unreachable =>
    exact ⟨_, rfl, Token.writes_text (hvalid (.ident "unreachable") List.mem_cons_self)⟩

theorem instText_ok (hp : s.PrintedBy p) {h : Inst} {i : InstTree} {d : Instruction}
    {ts : List Token} (hi : i.Derives ts) (hget : p.insts.get? h = some d)
    (hop : s.operation i = .ok d.op)
    (hname : ∀ n, i.result = some n → p.valueName (.inst h) = (Token.localName n).text)
    (hvalid : ∀ u ∈ i.tokens, u.Valid) :
    ∃ text, p.instText h = .ok text ∧ Writes text i.tokens := by
  have hresult := hasResult_of_operation hi hop
  have hread : p.insts.read h = .ok d := Table.read_eq_ok.mpr hget
  cases hr : i.result with
  | none =>
    have htokens : i.tokens = i.action.tokens := by simp [InstTree.tokens, hr]
    rw [htokens] at hvalid ⊢
    obtain ⟨text, htext, hwrites⟩ := hp.operationText_ok hop hvalid
    refine ⟨text, ?_, hwrites⟩
    simp only [Procedure.instText, bind_eq_ok, pure_eq_ok]
    refine ⟨_, hread, text, htext, ?_⟩
    simp [hresult, hr]
  | some n =>
    have htokens : i.tokens = .localName n :: .equals :: i.action.tokens := by
      simp [InstTree.tokens, hr]
    rw [htokens] at hvalid ⊢
    obtain ⟨hlocal, hrest⟩ := List.forall_mem_cons.mp hvalid
    obtain ⟨text, htext, hwrites⟩ :=
      hp.operationText_ok hop (List.forall_mem_cons.mp hrest).2
    have hequals : Ends ((Token.localName n).text ++ " = ") [.localName n, .equals] :=
      (Token.writes_text hlocal).divided (by decide : Divides " = " [.equals])
    refine ⟨_, ?_, hequals.append_writes hwrites⟩
    simp only [Procedure.instText, bind_eq_ok, pure_eq_ok]
    refine ⟨_, hread, text, htext, ?_⟩
    simp [hresult, hr, hname n hr]

end Scope.PrintedBy

/-! ## Lines -/

/-- The line has the tokens `ts`. -/
def WritesLine (line : String) (ts : List Token) : Prop := Ends (line ++ "\n") (ts ++ [.newline])

theorem Writes.line {line : String} {ts : List Token} (h : Writes line ts) : WritesLine line ts :=
  h.divided (by decide)

namespace ProcTree

variable {t : ProcTree} {s : Scope} {p : Procedure}

/-- A block is printed as it is written. -/
structure PrintedBlock (s : Scope) (p : Procedure) (bt : BlockTree) (e : Block × BasicBlock) :
    Prop where
  label : p.blockLabel e.1 = .ok bt.label
  preds : ∀ a ∈ e.2.preds, ∃ l, p.blockLabel a = .ok l ∧ (Token.ident l).Valid
  insts : List.Forall₂ (fun h i => ∃ d, p.insts.get? h = some d ∧ s.operation i = .ok d.op ∧
    ∀ n, i.result = some n → p.valueName (.inst h) = (Token.localName n).text) e.2.insts bt.insts

/-- A procedure is printed as the tree is written. -/
structure Printed (t : ProcTree) (s : Scope) (p : Procedure) : Prop where
  scope : s.PrintedBy p
  name : p.name = t.name
  args : List.Forall₂ (fun a n => p.valueName (.arg a) = (Token.localName n).text) p.args.handles
    t.args
  blocks : List.Forall₂ (PrintedBlock s p) t.blocks p.blocks.entries

namespace Printed

theorem blockLine_ok {b : Block} {blk : BasicBlock} {bt : BlockTree}
    (hblk : p.blocks.get? b = some blk) (h : PrintedBlock s p bt (b, blk))
    (hvalid : (Token.ident bt.label).Valid) :
    ∃ line, p.blockLine b = .ok line ∧ WritesLine line [.ident bt.label, .colon] := by
  obtain ⟨ls, hls⟩ := exists_forall₂ h.preds
  have hnames : p.labelText blk.preds = .ok (", ".intercalate ls) :=
    bind_eq_ok.mpr ⟨ls, mapM_eq_ok.mpr (hls.imp fun _ _ hl => hl.1), rfl⟩
  have hlabel : Ends (bt.label ++ ":") [.ident bt.label, .colon] :=
    (Token.writes_text hvalid).divided (by decide : Divides ":" [.colon])
  simp only [Procedure.blockLine, bind_eq_ok, pure_eq_ok, Table.read_eq_ok]
  refine ⟨_, ⟨blk, hblk, _, hnames, _, h.label, rfl⟩, ?_⟩
  split
  next =>
    rw [String.append_empty]
    exact hlabel.writes.line
  next =>
    -- the predecessors stand in a comment, which leaves the end of the line
    have hcomment : '\n' ∉ (" preds: " ++ ", ".intercalate ls).toList := by
      intro hc
      rw [String.toList_append, List.mem_append, String.toList_intercalate] at hc
      rcases hc with hc | hc
      · exact absurd hc (by decide)
      rcases mem_of_mem_intercalate hc with hc | ⟨_, hl, hc⟩
      · exact absurd hc (by decide)
      · obtain ⟨l, hmem, rfl⟩ := List.mem_map.mp hl
        obtain ⟨a, -, -, hvalid⟩ := exists_left_of_mem hls hmem
        exact hvalid.newline_not_mem hc
    have hline : bt.label ++ ":" ++ ("  ; preds: " ++ ", ".intercalate ls) ++ "\n" =
        bt.label ++ ":" ++ "  " ++ (";" ++ (" preds: " ++ ", ".intercalate ls) ++ "\n") := by
      apply String.toList_inj.mp
      simp
    rw [WritesLine, hline]
    exact (hlabel.append (Divides.ends (by decide : Divides "  " []))).append
      (ends_comment hcomment)

theorem blockLines_ok (hs : s.PrintedBy p) (ht : t.Readable) {b : Block} {blk : BasicBlock}
    (hblk : p.blocks.get? b = some blk) {bt : BlockTree} (hbt : bt ∈ t.blocks)
    (h : PrintedBlock s p bt (b, blk)) :
    ∃ lines, p.blockLines .none b blk.insts = .ok lines ∧
      List.Forall₂ WritesLine lines bt.lines := by
  obtain ⟨first, hfirst, hline⟩ := blockLine_ok hblk h (ht.label hbt)
  have htexts : List.Forall₂ (fun h i => ∃ text, p.instText h = .ok text ∧ Writes text i.tokens)
      blk.insts bt.insts := by
    have hinst : ∀ i ∈ bt.insts, (∃ ts, i.Derives ts) ∧ ∀ u ∈ i.tokens, u.Valid :=
      fun i hi => ht.inst hbt hi
    refine .flip (((List.forall₂_and_left _ _).mpr ⟨hinst, .flip h.insts⟩).imp ?_)
    rintro i j ⟨⟨⟨ts, hi⟩, hvalid⟩, d, hget, hop, hname⟩
    exact hs.instText_ok hi hget hop hname hvalid
  obtain ⟨texts, htexts, hwrites⟩ := exists_mapM htexts
  have hbody : blk.insts.mapM (p.instLines .none) = .ok (texts.map fun text => [text]) := by
    rw [mapM_eq_ok, List.forall₂_map_right_iff]
    refine (mapM_eq_ok.mp htexts).imp fun i text htext => ?_
    simp only [Procedure.instLines, Procedure.Notes.none, bind_eq_ok, pure_eq_ok]
    exact ⟨[], rfl, text, htext, rfl⟩
  have hflat : (texts.map fun text => [text]).flatten = texts := by
    rw [← List.flatMap_def, List.flatMap_singleton']
  refine ⟨_, bind_eq_ok.mpr ⟨first, hfirst, bind_eq_ok.mpr ⟨[], rfl, bind_eq_ok.mpr
    ⟨_, hbody, bind_eq_ok.mpr ⟨[], rfl, rfl⟩⟩⟩⟩, ?_⟩
  rw [List.nil_append, List.append_nil, hflat]
  refine .cons hline (List.forall₂_map_left_iff.mpr (List.forall₂_map_right_iff.mpr ?_))
  exact hwrites.imp fun text i htext =>
    ((Divides.ends (by decide : Divides "  " [])).append_writes htext).line

theorem writes_headerText (h : t.Printed s p) (ht : t.Readable) :
    Writes (p.headerText ++ " \x7b") t.header := by
  have hargs : Writes (p.operandText (p.args.handles.map .arg)) (nameTokens .localName t.args) := by
    have hvalid : ∀ n ∈ t.args, (Token.localName n).Valid := fun n hn => ht.arg hn
    refine writes_intercalate ?_
    rw [List.map_map, List.forall₂_map_left_iff, List.forall₂_map_right_iff]
    refine .flip (((List.forall₂_and_left _ _).mpr ⟨hvalid, .flip h.args⟩).imp ?_)
    rintro n a ⟨hn, hname⟩
    show Writes (p.valueName (.arg a)) [.localName n]
    rw [hname]
    exact Token.writes_text hn
  have hfunc : Ends "func " [.ident "func"] :=
    ends_word (ht.valid _ (List.mem_append_left _ List.mem_cons_self))
  have hname : Writes ("func @" ++ p.name) [.ident "func", .globalName t.name] := by
    have htext : "func @" ++ p.name = "func " ++ (Token.globalName t.name).text := by
      rw [h.name, Token.text, ← String.append_assoc]
      rfl
    rw [htext]
    exact hfunc.append_writes (Token.writes_text
      (ht.valid _ (List.mem_append_left _ (List.mem_cons_of_mem _ List.mem_cons_self))))
  have hparens := ((hname.divided (by decide : Divides "(" [.lparen])).append_writes hargs).divided
    (by decide : Divides ")" [.rparen])
  have hbrace := hparens.append (Divides.ends (by decide : Divides " \x7b" [.lbrace]))
  rw [List.append_assoc] at hbrace
  exact hbrace.writes

theorem lines_ok (h : t.Printed s p) (ht : t.Readable) :
    ∃ lines, p.lines .none = .ok lines ∧ List.Forall₂ WritesLine lines t.lines := by
  have hblocks : List.Forall₂ (fun e bt => ∃ lines, p.blockLines .none e.1 e.2.insts = .ok lines ∧
      List.Forall₂ WritesLine lines bt.lines) p.blocks.entries t.blocks := by
    refine .flip (List.forall₂_iff_zip.mpr ⟨h.blocks.length_eq, fun {bt e} hmem => ?_⟩)
    obtain ⟨n, hn⟩ := List.mem_iff_getElem?.mp hmem
    obtain ⟨hbt, he⟩ := List.getElem?_zip_eq_some.mp hn
    rw [Table.getElem?_entries, Option.map_eq_some_iff] at he
    obtain ⟨blk, hblk, rfl⟩ := he
    exact blockLines_ok h.scope ht hblk (List.mem_of_getElem? hbt) (List.forall₂_zip h.blocks hmem)
  obtain ⟨lines, hlines, hwrites⟩ := exists_mapM hblocks
  refine ⟨_, bind_eq_ok.mpr ⟨lines, hlines, rfl⟩, ?_⟩
  have hbody : List.Forall₂ WritesLine lines.flatten t.body :=
    List.rel_flatten (List.forall₂_map_right_iff.mpr hwrites)
  have hclose : WritesLine "\x7d" [.rbrace] := Writes.line (Token.writes_text (t := .rbrace) trivial)
  exact .cons (h.writes_headerText ht).line (List.rel_append hbody (.cons hclose .nil))

theorem render_ok (h : t.Printed s p) (ht : t.Readable) :
    ∃ text, p.render "" = .ok text ∧ Ends text (lineTokens t.lines) := by
  obtain ⟨lines, hlines, hwrites⟩ := h.lines_ok ht
  refine ⟨_, bind_eq_ok.mpr ⟨lines, hlines, rfl⟩, ?_⟩
  rw [lineTokens, List.flatMap_def]
  refine ends_join ?_
  rw [List.forall₂_map_left_iff, List.forall₂_map_right_iff]
  refine hwrites.imp fun line ts hline => ?_
  rw [String.empty_append]
  exact hline

end Printed

/-- A procedure that was read is printed as it was written. -/
theorem Lowered.printed (h : t.Lowered s p) (ht : t.Readable) : t.Printed s p where
  scope := h.printedBy ht
  name := h.name
  args := by
    have htoList : t.args = p.args.toList := by rw [h.args]; rfl
    rw [htoList, ← Table.map_fst_entries, ← Table.map_snd_entries, List.forall₂_map_left_iff,
      List.forall₂_map_right_iff, List.forall₂_same]
    rintro ⟨a, n⟩ he
    have hn : (Token.localName n).Valid :=
      ht.arg (htoList ▸ Table.mem_toList.mpr ⟨a, Table.mem_entries.mp he⟩)
    simp only [Procedure.valueName, Table.mem_entries.mp he, if_neg hn.1, Token.text]
  blocks := by
    refine List.forall₂_iff_zip.mpr ⟨h.blocks.length_eq, fun {bt e} hmem => ?_⟩
    obtain ⟨n, hn⟩ := List.mem_iff_getElem?.mp hmem
    obtain ⟨hbt, he⟩ := List.getElem?_zip_eq_some.mp hn
    rw [Table.getElem?_entries, Option.map_eq_some_iff] at he
    obtain ⟨blk, hblk, rfl⟩ := he
    refine ⟨h.blockLabel ht hbt, fun a ha => ?_, ?_⟩
    · obtain ⟨ablk, hablk, -⟩ := (h.mem_preds hblk).mp ha
      obtain ⟨abt, habt, -⟩ := h.exists_block hablk
      exact ⟨abt.label, h.blockLabel ht habt, ht.label (List.mem_of_getElem? habt)⟩
    · refine (List.forall₂_zip h.blocks hmem).insts.imp ?_
      rintro j i ⟨op, hget, hop⟩
      refine ⟨_, hget, hop, fun n hn => ?_⟩
      simp only [Procedure.valueName, hget, Option.bind_some, hn, Token.text]

end ProcTree

/-! ## Programs -/

theorem ends_intercalate {texts : List String} {tss : List (List Token)}
    (h : List.Forall₂ Ends texts tss) :
    Ends ("\n".intercalate texts) ([Token.newline].intercalate tss) := by
  induction h with
  | nil => exact fun rest us hrest => hrest
  | @cons text ts texts tss htext h ih =>
    cases h with
    | nil => simpa using htext
    | cons _ _ =>
      rw [String.intercalate_cons_cons, List.intercalate_cons_cons]
      exact (htext.append (Divides.ends (by decide))).append ih

namespace Program

variable {m : Program} {text : String}

/-- The text of a program that was read has the tokens of its trees. -/
theorem render_ok {trees : List ProcTree} {ps : List Procedure}
    (hlower : List.Forall₂ (fun t p => t.lower = .ok p) trees ps)
    (hread : ∀ t ∈ trees, t.Readable) :
    ∃ texts, ps.mapM (fun p => p.render "") = .ok texts ∧
      Ends ("\n".intercalate texts)
        ([Token.newline].intercalate (trees.map fun t => lineTokens t.lines)) := by
  have htexts : List.Forall₂ (fun p t => ∃ text, p.render "" = .ok text ∧
      Ends text (lineTokens t.lines)) ps trees := by
    refine .flip (((List.forall₂_and_left _ _).mpr ⟨hread, hlower⟩).imp ?_)
    rintro t p ⟨ht, hp⟩
    obtain ⟨s, hs⟩ := ProcTree.lowered_of_lower ht.blocks_ne_nil hp
    exact (hs.printed ht).render_ok ht
  obtain ⟨texts, htexts, hends⟩ := exists_mapM htexts
  exact ⟨texts, htexts, ends_intercalate (List.forall₂_map_right_iff.mpr hends)⟩

/-- A text with the tokens of a tree is read as the procedure of the tree. -/
theorem parse_of_derives {t : ProcTree} {p : Procedure} {ts : List Token} (hends : Ends text ts)
    (hts : ProgramDerives [t] ts) (hp : t.lower = .ok p) : parse text = .ok ⟨.ofList [p]⟩ := by
  have hspells := hends [] [] spells_nil
  rw [List.append_nil, List.append_nil] at hspells
  obtain ⟨tokens, htokens, heq⟩ := hspells 1
  refine parse_eq_ok.mpr ⟨tokens, [t], htokens, heq ▸ hts, ?_⟩
  have hadd : empty.addTree t = .ok (empty.push p) := bind_eq_ok.mpr ⟨p, hp, rfl⟩
  rw [List.foldlM_cons, bind_eq_ok]
  exact ⟨_, hadd, rfl⟩

/-- A program that was read can be printed, and reading the text gives the program again. -/
theorem parse_render (h : parse text = .ok m) :
    ∃ printed, m.render = .ok printed ∧ parse printed = .ok m := by
  obtain ⟨tokens, trees, htokens, htrees, hm⟩ := parse_eq_ok.mp h
  obtain ⟨ps, hps, hlower⟩ := forall₂_lower hm
  have hread : ∀ t ∈ trees, t.Readable := by
    intro t ht
    obtain ⟨us, hus, hsub⟩ := htrees.exists_derives t ht
    refine ⟨us, hus, fun u hu => ?_⟩
    obtain ⟨e, he, rfl⟩ := List.mem_map.mp (hsub hu)
    exact valid_of_lexFrom htokens e he
  obtain ⟨texts, htexts, hends⟩ := render_ok hlower hread
  have hfuncs : m.funcs.toList = ps := hps
  refine ⟨"\n".intercalate texts, bind_eq_ok.mpr ⟨texts, hfuncs ▸ htexts, rfl⟩, ?_⟩
  -- the text has the canonical tokens, so the trees are the same as before
  have hspells := hends [] [] spells_nil
  rw [List.append_nil, List.append_nil] at hspells
  obtain ⟨tokens', htokens', heq⟩ := hspells 1
  exact parse_eq_ok.mpr ⟨tokens', trees, htokens', heq ▸ htrees.canonical, hm⟩

theorem parse_render_countdown :
    parse countdownText = .ok countdown ∧
      ∃ printed, countdown.render = .ok printed ∧ parse printed = .ok countdown :=
  ⟨parse_countdownText, parse_render parse_countdownText⟩

end Program

end SsaFlow
