import SsaFlow.Proofs.Building
import SsaFlow.Proofs.PrintedNames
import SsaFlow.Proofs.RoundTrip

/-!
# The tree a procedure is printed as

Any procedure has a tree, made from the names under which its values and blocks are
printed (`Procedure.tree`).  If it is `Procedure.Printable`, these names tell its values and
blocks apart, so each instruction is what its tree says (`Printable.operation_instTree`).
Then the text of the procedure has the tokens of the tree, and they can be read
(`Printable.render_ok`).

Nothing is asked of instructions that no block lists, or of the order in which
instructions were allocated.
-/

namespace SsaFlow

/-! ## Renumbering -/

/-- The value with its instruction renumbered. -/
def Value.rename (f : Inst → Inst) : Value → Value
  | .arg a => .arg a
  | .inst i => .inst (f i)
  | .const k => .const k

/-- The terminator with all instructions it reads renumbered. -/
def Terminator.rename (f : Inst → Inst) : Terminator → Terminator
  | .br target => .br target
  | .condBr cond ifTrue ifFalse => .condBr (cond.rename f) ifTrue ifFalse
  | .switch value default targets => .switch (value.rename f) default targets
  | .ret values => .ret (values.map (Value.rename f))
  | .unreachable => .unreachable

/-- The operation with all instructions it names renumbered. -/
def Operation.rename (f : Inst → Inst) : Operation → Operation
  | .compute opcode args hasResult => .compute opcode (args.map (Value.rename f)) hasResult
  | .phi incoming => .phi (incoming.map fun e => (e.1.rename f, e.2))
  | .terminator t => .terminator (t.rename f)
  | .placeholder => .placeholder

@[simp] theorem Value.rename_id (v : Value) : v.rename id = v := by
  cases v <;> rfl

theorem Operation.rename_id (op : Operation) : op.rename id = op := by
  have hvalues : ∀ vs : List Value, vs.map (Value.rename id) = vs :=
    List.map_id'' Value.rename_id
  cases op with
  | compute opcode args r => simp [rename, hvalues]
  | phi incoming => simp [rename]
  | terminator t => cases t <;> simp [rename, Terminator.rename, hvalues]
  | placeholder => rfl

/-! ## Trees -/

namespace Procedure

/-- An operand as it is printed. -/
def operandTree (p : Procedure) : Value → OperandTree
  | .arg a => .name (p.bareName (.arg a))
  | .inst i => .name (p.bareName (.inst i))
  | .const k => .int k

/-- A terminator as it is printed. -/
def terminatorTree (p : Procedure) : Terminator → ActionTree
  | .br target => .br (p.labelOf target)
  | .condBr cond ifTrue ifFalse =>
    .condBr (p.operandTree cond) (p.labelOf ifTrue) (p.labelOf ifFalse)
  | .switch value default targets =>
    .switch (p.operandTree value) (p.labelOf default) (targets.map p.labelOf)
  | .ret values => .ret (values.map p.operandTree)
  | .unreachable => .unreachable

/-- An operation as it is printed.  A placeholder has no tree of its own. -/
def actionTree (p : Procedure) : Operation → ActionTree
  | .compute opcode args _ => .compute opcode (args.map p.operandTree)
  | .phi incoming => .phi (incoming.map fun e => (p.operandTree e.1, p.labelOf e.2))
  | .terminator t => p.terminatorTree t
  | .placeholder => .unreachable

/-- The operation of an instruction, a placeholder if it is not allocated. -/
def opAt (p : Procedure) (i : Inst) : Operation :=
  ((p.insts.get? i).map Instruction.op).getD .placeholder

/-- An instruction as it is printed. -/
def instTree (p : Procedure) (i : Inst) : InstTree where
  result := if (p.opAt i).hasResult then some (p.bareName (.inst i)) else none
  action := p.actionTree (p.opAt i)

/-- A procedure as it is printed. -/
def tree (p : Procedure) : ProcTree where
  name := p.name
  args := p.args.handles.map fun a => p.bareName (.arg a)
  blocks := p.blocks.entries.map fun e => ⟨p.labelOf e.1, e.2.insts.map p.instTree⟩

/-- Every instruction that a block lists, in layout and program order. -/
def listed (p : Procedure) : List Inst := p.blocks.toList.flatMap BasicBlock.insts

theorem mem_listed {p : Procedure} {b : Block} {blk : BasicBlock} (hb : p.blocks.get? b = some blk)
    {i : Inst} (hi : i ∈ blk.insts) : i ∈ p.listed :=
  List.mem_flatMap.mpr ⟨blk, Table.mem_toList.mpr ⟨b, hb⟩, hi⟩

theorem listed_graph (p : Procedure) : p.graph.listed = p.listed := by
  rw [FlowGraph.listed, graph, Table.toList_map, List.flatMap_map, listed]

/-- The arguments, and the listed instructions that have a result. -/
def namedValues (p : Procedure) : List Value :=
  p.args.handles.map .arg ++ (p.listed.filter fun i => (p.opAt i).hasResult).map .inst

/-- The names that are printed, with the values and blocks they are printed for, where `f` renumbers
the instructions. -/
def scope (p : Procedure) (f : Inst → Inst) : Scope where
  values := p.namedValues.map fun v => (p.bareName v, v.rename f)
  blocks := p.blocks.handles.map fun b => (p.labelOf b, b)

end Procedure

/-! ## Procedures that can be printed -/

/-- The operation is named by a word that is no keyword, or has at least one pair if it is a phi. -/
def Operation.HasTree : Operation → Prop
  | .compute opcode _ _ => (Token.ident opcode).Valid ∧ opcode ∉ keywords
  | .phi incoming => incoming ≠ []
  | .terminator _ => True
  | .placeholder => False

instance Operation.decidableHasTree : (op : Operation) → Decidable op.HasTree
  | .compute opcode _ _ =>
    inferInstanceAs (Decidable ((Token.ident opcode).Valid ∧ opcode ∉ keywords))
  | .phi incoming => inferInstanceAs (Decidable (incoming ≠ []))
  | .terminator _ => isTrue trivial
  | .placeholder => isFalse id

namespace Procedure

/-- The value is a constant, an argument or the result of a listed instruction. -/
def Provides (p : Procedure) (v : Value) : Prop := v ∈ p.namedValues ∨ ∃ k, v = .const k

instance decidableProvides {p : Procedure} : (v : Value) → Decidable (p.Provides v)
  | .arg a => decidable_of_iff (.arg a ∈ p.namedValues) ⟨.inl, fun h => h.resolve_right nofun⟩
  | .inst i => decidable_of_iff (.inst i ∈ p.namedValues) ⟨.inl, fun h => h.resolve_right nofun⟩
  | .const k => isTrue (.inr ⟨k, rfl⟩)

/-- Names are made of the characters of names and tell values and blocks apart, each block ends in
its only terminator, no instruction is listed twice, and what listed instructions name is there. -/
structure Printable (p : Procedure) : Prop where
  entry : p.entry = ⟨0⟩
  nonempty : 0 < p.blocks.size
  /-- All entities have handles. -/
  handles : p.args.size ≤ Handle.limit ∧ p.blocks.size ≤ Handle.limit ∧
    p.insts.size ≤ Handle.limit
  name : (Token.globalName p.name).Valid
  names : ∀ v ∈ p.values, ∀ n ∈ p.givenName? v, (Token.localName n).Valid
  distinct : p.DistinctNames
  labels : ∀ blk ∈ p.blocks.toList, blk.name = "" ∨ (Token.ident blk.name).Valid
  distinctLabels : (p.blocks.handles.map p.labelOf).Nodup
  listedOnce : p.listed.Nodup
  ended : ∀ blk ∈ p.blocks.toList, (∃ last ∈ blk.insts.getLast?, (p.opAt last).kind = .terminator) ∧
    ∀ i ∈ blk.insts.dropLast, (p.opAt i).kind ≠ .terminator
  preds : ∀ blk ∈ p.blocks.toList, ∀ a ∈ blk.preds, a.index < p.blocks.size
  ops : ∀ i ∈ p.listed, (p.opAt i).HasTree
  values : ∀ i ∈ p.listed, ∀ v ∈ (p.opAt i).operands ++ (p.opAt i).incoming.map Prod.fst,
    p.Provides v
  blocks : ∀ i ∈ p.listed, ∀ b ∈ (p.opAt i).targets ++ (p.opAt i).incoming.map Prod.snd,
    b.index < p.blocks.size

end Procedure

/-! ## Scopes -/

theorem lookup_of_mem {α : Type} {names : List (String × α)} {n : String} {a : α}
    (hnodup : (names.map Prod.fst).Nodup) (h : (n, a) ∈ names) : names.lookup n = some a := by
  have hsome : (names.lookup n).isSome = true := isSome_lookup.mpr (List.mem_map_of_mem h)
  obtain ⟨b, hb⟩ := Option.isSome_iff_exists.mp hsome
  have heq : (n, b) = (n, a) := List.inj_on_of_nodup_map hnodup (mem_of_lookup hb) h rfl
  rw [hb, (Prod.mk.inj heq).2]

namespace Procedure

variable {p : Procedure} {f : Inst → Inst} {i : Inst} {v : Value} {b : Block}

/-- An operation is what its tree says, if the scope has its values and blocks under their names. -/
theorem operates_actionTree {s : Scope} {op : Operation} {result : Option String}
    (hop : op.HasTree) (hresult : result.isSome = op.hasResult)
    (hvalues : ∀ v ∈ op.operands ++ op.incoming.map Prod.fst,
      s.value (p.operandTree v) = .ok (v.rename f))
    (hblocks : ∀ b ∈ op.targets ++ op.incoming.map Prod.snd, s.block (p.labelOf b) = .ok b) :
    s.Operates ⟨result, p.actionTree op⟩ (op.rename f) := by
  have hoperands : ∀ vs : List Value, (∀ v ∈ vs, s.value (p.operandTree v) = .ok (v.rename f)) →
      List.Forall₂ (fun o v => s.value o = .ok v) (vs.map p.operandTree)
        (vs.map (Value.rename f)) := by
    intro vs hvs
    rw [List.forall₂_map_left_iff, List.forall₂_map_right_iff, List.forall₂_same]
    exact hvs
  cases op with
  | compute opcode args r =>
    obtain rfl : result.isSome = r := hresult
    exact .compute opcode (hoperands args fun v hv => hvalues v (List.mem_append_left _ hv))
  | phi incoming =>
    refine .phi ?_
    rw [List.forall₂_map_left_iff, List.forall₂_map_right_iff, List.forall₂_same]
    intro e he
    exact ⟨hvalues e.1 (List.mem_append_right _ (List.mem_map_of_mem he)),
      hblocks e.2 (List.mem_append_right _ (List.mem_map_of_mem he))⟩
  | terminator t =>
    have hvalues : ∀ v ∈ t.operands, s.value (p.operandTree v) = .ok (v.rename f) :=
      fun v hv => hvalues v (List.mem_append_left _ hv)
    have hblocks : ∀ b ∈ t.successors, s.block (p.labelOf b) = .ok b :=
      fun b hb => hblocks b (List.mem_append_left _ hb)
    cases t with
    | br target => exact .br (hblocks target List.mem_cons_self)
    | condBr cond ifTrue ifFalse =>
      exact .condBr (hvalues cond List.mem_cons_self) (hblocks ifTrue List.mem_cons_self)
        (hblocks ifFalse (List.mem_cons_of_mem _ List.mem_cons_self))
    | switch value default targets =>
      refine .switch (hvalues value List.mem_cons_self) (hblocks default List.mem_cons_self) ?_
      rw [List.forall₂_map_left_iff, List.forall₂_same]
      exact fun b hb => hblocks b (List.mem_cons_of_mem _ hb)
    | ret values => exact .ret (hoperands values hvalues)
    | unreachable => exact .unreachable
  | placeholder => exact absurd hop id

/-- What has a tree is allocated. -/
theorem exists_get?_of_hasTree (h : (p.opAt i).HasTree) :
    ∃ d, p.insts.get? i = some d ∧ d.op = p.opAt i := by
  cases hd : p.insts.get? i with
  | none =>
    simp only [opAt, hd] at h
    exact absurd h id
  | some d => exact ⟨d, rfl, by simp [opAt, hd]⟩

namespace Printable

theorem mem_values (h : p.Printable) (hv : v ∈ p.namedValues) : v ∈ p.values := by
  rcases List.mem_append.mp hv with hv | hv
  · exact List.mem_append_left _ hv
  · obtain ⟨i, hi, rfl⟩ := List.mem_map.mp hv
    obtain ⟨d, hd, -⟩ := exists_get?_of_hasTree (h.ops i (List.mem_filter.mp hi).1)
    exact inst_mem_values.mpr (Table.lt_size hd)

/-- Different values and blocks have different names in the scope. -/
theorem nodup_scope (h : p.Printable) :
    ((p.scope f).values.map Prod.fst).Nodup ∧ ((p.scope f).blocks.map Prod.fst).Nodup := by
  constructor
  · have hvalues : p.namedValues.Nodup := by
      refine List.nodup_append.mpr ⟨?_, ?_, ?_⟩
      · exact (Handle.nodup_first .arg p.args.size).map fun _ _ => Value.arg.inj
      · exact (h.listedOnce.filter _).map fun _ _ => Value.inst.inj
      · intro v hv w hw
        obtain ⟨a, -, rfl⟩ := List.mem_map.mp hv
        obtain ⟨i, -, rfl⟩ := List.mem_map.mp hw
        nofun
    rw [scope, List.map_map]
    exact hvalues.map_on fun v hv w hw =>
      bareName_inj h.distinct (h.mem_values hv) (h.mem_values hw)
  · rw [scope, List.map_map]
    exact h.distinctLabels

theorem value_operandTree (h : p.Printable) (hv : p.Provides v) :
    (p.scope f).value (p.operandTree v) = .ok (v.rename f) := by
  have hlookup : v ∈ p.namedValues →
      (p.scope f).values.lookup (p.bareName v) = some (v.rename f) := fun hv =>
    lookup_of_mem h.nodup_scope.1 (List.mem_map.mpr ⟨v, hv, rfl⟩)
  cases v with
  | const k => rfl
  | arg a =>
    have hmem := hv.resolve_right nofun
    simp only [operandTree, Scope.value, hlookup hmem]
  | inst i =>
    have hmem := hv.resolve_right nofun
    simp only [operandTree, Scope.value, hlookup hmem]

theorem block_labelOf (h : p.Printable) (hb : b.index < p.blocks.size) :
    (p.scope f).block (p.labelOf b) = .ok b := by
  have hlookup : (p.scope f).blocks.lookup (p.labelOf b) = some b :=
    lookup_of_mem h.nodup_scope.2 (List.mem_map.mpr ⟨b, Table.mem_handles.mpr hb, rfl⟩)
  simp only [Scope.block, hlookup]

theorem isSome_result : (p.instTree i).result.isSome = (p.opAt i).hasResult := by
  simp only [instTree]
  split
  next hr => rw [hr, Option.isSome_some]
  next hr => rw [Bool.eq_false_iff.mpr hr, Option.isSome_none]

/-- A listed instruction is what its tree says. -/
theorem operation_instTree (h : p.Printable) (hi : i ∈ p.listed) :
    (p.scope f).operation (p.instTree i) = .ok ((p.opAt i).rename f) :=
  Scope.operation_of_operates (operates_actionTree (h.ops i hi) isSome_result
    (fun v hv => h.value_operandTree (h.values i hi v hv))
    fun b hb => h.block_labelOf (h.blocks i hi b hb))

end Printable

end Procedure

/-! ## Reading trees -/

/-- The instruction is that of some text. -/
def InstTree.Readable (i : InstTree) : Prop := ∃ ts, i.Derives ts ∧ ∀ u ∈ ts, u.Valid

/-- Instructions on lines of their own can be read before the blocks that can. -/
theorem exists_itemsDerive_insts {is : List InstTree} {bs : List BlockTree} {ts : List Token}
    (his : ∀ i ∈ is, i.Readable) (hts : ItemsDerive [] bs ts) (hvalid : ∀ u ∈ ts, u.Valid) :
    ∃ us, ItemsDerive is bs us ∧ ∀ u ∈ us, u.Valid := by
  induction is with
  | nil => exact ⟨ts, hts, hvalid⟩
  | cons i is ih =>
    obtain ⟨us, hus, hvalid'⟩ := ih fun j hj => his j (List.mem_cons_of_mem _ hj)
    obtain ⟨vs, hvs, hvalid''⟩ := his i List.mem_cons_self
    refine ⟨vs ++ .newline :: us, .inst hvs (.inl rfl) (.newline hus), ?_⟩
    exact List.forall_mem_append.mpr ⟨hvalid'', List.forall_mem_cons.mpr ⟨trivial, hvalid'⟩⟩

theorem exists_itemsDerive {bs : List BlockTree} (hlabels : ∀ b ∈ bs, (Token.ident b.label).Valid)
    (hinsts : ∀ b ∈ bs, ∀ i ∈ b.insts, i.Readable) :
    ∃ ts, ItemsDerive [] bs ts ∧ ∀ u ∈ ts, u.Valid := by
  induction bs with
  | nil => exact ⟨[.rbrace], .close, by simp [Token.Valid]⟩
  | cons b bs ih =>
    obtain ⟨hlabel, hlabels⟩ := List.forall_mem_cons.mp hlabels
    obtain ⟨hinst, hinsts⟩ := List.forall_mem_cons.mp hinsts
    obtain ⟨ts, hts, hvalid⟩ := ih hlabels hinsts
    obtain ⟨us, hus, hvalid'⟩ := exists_itemsDerive_insts hinst hts hvalid
    exact ⟨.ident b.label :: .colon :: us, .label b.label hus,
      List.forall_mem_cons.mpr ⟨hlabel, List.forall_mem_cons.mpr ⟨trivial, hvalid'⟩⟩⟩

/-- A tree with valid names can be read if all its instructions can. -/
theorem ProcTree.readable {t : ProcTree} (hne : t.blocks ≠ [])
    (hname : (Token.globalName t.name).Valid) (hargs : ∀ n ∈ t.args, (Token.localName n).Valid)
    (hlabels : ∀ b ∈ t.blocks, (Token.ident b.label).Valid)
    (hinsts : ∀ b ∈ t.blocks, ∀ i ∈ b.insts, i.Readable) : t.Readable := by
  obtain ⟨ts, hts, hvalid⟩ := exists_itemsDerive hlabels hinsts
  refine ⟨_, .mk t.name .plain hne hts, ?_⟩
  have hfunc : (Token.ident "func").Valid := by decide
  have hparams : ∀ u ∈ nameTokens .localName t.args, u.Valid := forall_mem_nameTokens trivial hargs
  simp only [List.forall_mem_cons, List.forall_mem_append]
  exact ⟨hfunc, hname, trivial, hparams, trivial, trivial, hvalid⟩

namespace Procedure

variable {p : Procedure} {i : Inst} {v : Value} {b : Block}

namespace Printable

theorem valid_name (h : p.Printable) (hv : v ∈ p.values) : (Token.localName (p.bareName v)).Valid :=
  valid_bareName h.handles.1 h.handles.2.2 (h.names v hv) hv

theorem valid_operand (h : p.Printable) (hv : p.Provides v) : (p.operandTree v).token.Valid := by
  cases v with
  | const k => trivial
  | arg a => exact h.valid_name (h.mem_values (hv.resolve_right nofun))
  | inst i => exact h.valid_name (h.mem_values (hv.resolve_right nofun))

theorem valid_label (h : p.Printable) (hb : b.index < p.blocks.size) :
    (Token.ident (p.labelOf b)).Valid := by
  obtain ⟨blk, hblk⟩ := Table.exists_get? hb
  exact valid_labelOf h.handles.2.1 hblk (h.labels blk (Table.mem_toList.mpr ⟨b, hblk⟩))

theorem derives_actionTree {op : Operation} (hop : op.HasTree) :
    (p.actionTree op).Derives (p.actionTree op).tokens := by
  cases op with
  | compute opcode args r => exact .compute hop.2
  | phi incoming => exact .phi (mt List.map_eq_nil_iff.mp hop)
  | terminator t =>
    cases t with
    | br target => exact .br _
    | condBr cond ifTrue ifFalse => exact .condBr _ _ _
    | switch value default targets => exact .switch _ _ .plain
    | ret values => exact .ret _
    | unreachable => exact .unreachable
  | placeholder => exact absurd hop id

theorem valid_actionTree (h : p.Printable) (hi : i ∈ p.listed) :
    ∀ u ∈ (p.actionTree (p.opAt i)).tokens, u.Valid := by
  have hop := h.ops i hi
  have hvalues := fun v hv => h.valid_operand (h.values i hi v hv)
  have hblocks := fun b hb => h.valid_label (h.blocks i hi b hb)
  have hkeyword : ∀ word ∈ keywords, (Token.ident word).Valid := by decide
  generalize p.opAt i = op at hop hvalues hblocks ⊢
  cases op with
  | compute opcode args r =>
    refine List.forall_mem_cons.mpr ⟨hop.1, forall_mem_operandTokens trivial fun o ho => ?_⟩
    obtain ⟨v, hv, rfl⟩ := List.mem_map.mp ho
    exact hvalues v (List.mem_append_left _ hv)
  | phi incoming =>
    refine List.forall_mem_cons.mpr ⟨hkeyword _ (by decide), forall_mem_intercalate trivial fun ts hts => ?_⟩
    obtain ⟨_, hpair, rfl⟩ := List.mem_map.mp hts
    obtain ⟨e, he, rfl⟩ := List.mem_map.mp hpair
    have hvalue := hvalues e.1 (List.mem_append_right _ (List.mem_map_of_mem he))
    have hlabel := hblocks e.2 (List.mem_append_right _ (List.mem_map_of_mem he))
    simp only [pairTokens, List.forall_mem_cons]
    exact ⟨trivial, hvalue, trivial, hlabel, trivial, List.forall_mem_nil _⟩
  | terminator t =>
    have hvalues : ∀ v ∈ t.operands, (p.operandTree v).token.Valid :=
      fun v hv => hvalues v (List.mem_append_left _ hv)
    have hblocks : ∀ b ∈ t.successors, (Token.ident (p.labelOf b)).Valid :=
      fun b hb => hblocks b (List.mem_append_left _ hb)
    cases t with
    | br target =>
      simp only [actionTree, terminatorTree, ActionTree.tokens, List.forall_mem_cons]
      exact ⟨hkeyword _ (by decide), hblocks target List.mem_cons_self, List.forall_mem_nil _⟩
    | condBr cond ifTrue ifFalse =>
      have hfalse := hblocks ifFalse (List.mem_cons_of_mem _ List.mem_cons_self)
      simp only [actionTree, terminatorTree, ActionTree.tokens, List.forall_mem_cons]
      exact ⟨hkeyword _ (by decide), hvalues cond List.mem_cons_self, trivial,
        hblocks ifTrue List.mem_cons_self, trivial, hfalse, List.forall_mem_nil _⟩
    | switch value default targets =>
      have htargets : ∀ u ∈ nameTokens .ident (targets.map p.labelOf), u.Valid := by
        refine forall_mem_nameTokens trivial fun n hn => ?_
        obtain ⟨b, hb, rfl⟩ := List.mem_map.mp hn
        exact hblocks b (List.mem_cons_of_mem _ hb)
      simp only [actionTree, terminatorTree, ActionTree.tokens, List.forall_mem_cons,
        List.forall_mem_append]
      exact ⟨hkeyword _ (by decide), hvalues value List.mem_cons_self, trivial,
        hblocks default List.mem_cons_self, trivial, trivial, htargets, trivial,
        List.forall_mem_nil _⟩
    | ret values =>
      refine List.forall_mem_cons.mpr ⟨hkeyword _ (by decide), forall_mem_operandTokens trivial fun o ho => ?_⟩
      obtain ⟨v, hv, rfl⟩ := List.mem_map.mp ho
      exact hvalues v hv
    | unreachable => exact List.forall_mem_cons.mpr ⟨hkeyword _ (by decide), List.forall_mem_nil _⟩
  | placeholder => exact absurd hop id

theorem isTerminator_actionTree {op : Operation} (hop : op.HasTree) :
    (p.actionTree op).isTerminator = (op.kind == .terminator) := by
  cases op with
  | compute opcode args r => rfl
  | phi incoming => rfl
  | terminator t => cases t <;> rfl
  | placeholder => exact absurd hop id

/-- A listed instruction can be read as it is printed. -/
theorem readable_instTree (h : p.Printable) (hi : i ∈ p.listed) : (p.instTree i).Readable := by
  have hop := h.ops i hi
  have hderives := derives_actionTree (p := p) hop
  have hvalid := h.valid_actionTree hi
  cases hr : (p.opAt i).hasResult with
  | false =>
    have htree : p.instTree i = ⟨none, p.actionTree (p.opAt i)⟩ := by simp [instTree, hr]
    rw [htree]
    refine ⟨_, .plain ?_ hderives, hvalid⟩
    cases hphi : p.opAt i with
    | phi pairs =>
      rw [hphi] at hr
      cases hr
    | terminator t => cases t <;> rfl
    | _ => rfl
  | true =>
    have htree : p.instTree i = ⟨some (p.bareName (.inst i)), p.actionTree (p.opAt i)⟩ := by
      simp [instTree, hr]
    have hnamed : .inst i ∈ p.namedValues :=
      List.mem_append_right _ (List.mem_map_of_mem (List.mem_filter.mpr ⟨hi, hr⟩))
    rw [htree]
    refine ⟨_, .named _ ?_ hderives, List.forall_mem_cons.mpr
      ⟨h.valid_name (h.mem_values hnamed), List.forall_mem_cons.mpr ⟨trivial, hvalid⟩⟩⟩
    rw [isTerminator_actionTree hop]
    cases hterm : p.opAt i with
    | terminator t =>
      rw [hterm] at hr
      cases hr
    | _ => rfl

theorem readable_tree (h : p.Printable) : p.tree.Readable := by
  refine ProcTree.readable ?_ h.name ?_ ?_ ?_
  · intro hnil
    have hlength := congrArg List.length (List.map_eq_nil_iff.mp hnil)
    rw [← List.length_map (f := Prod.snd), Table.map_snd_entries] at hlength
    have hpos := h.nonempty
    simp only [Table.toList, Array.length_toList, List.length_nil] at hlength
    exact absurd hlength (Nat.ne_of_gt hpos)
  · intro n hn
    obtain ⟨a, ha, rfl⟩ := List.mem_map.mp hn
    exact h.valid_name (arg_mem_values.mpr (Table.mem_handles.mp ha))
  · intro bt hbt
    obtain ⟨⟨b, blk⟩, he, rfl⟩ := List.mem_map.mp hbt
    exact h.valid_label (Table.lt_size (Table.mem_entries.mp he))
  · intro bt hbt j hj
    obtain ⟨⟨b, blk⟩, he, rfl⟩ := List.mem_map.mp hbt
    obtain ⟨i, hi, rfl⟩ := List.mem_map.mp hj
    exact h.readable_instTree (mem_listed (Table.mem_entries.mp he) hi)

/-! ## Printing -/

theorem printedBy_scope (h : p.Printable) : (p.scope id).PrintedBy p where
  value {o v} hv := by
    cases o with
    | int k =>
      cases hv
      rfl
    | name n =>
      simp only [Scope.value] at hv
      split at hv
      next w hw =>
        cases hv
        obtain ⟨v, hmem, heq⟩ := List.mem_map.mp (mem_of_lookup hw)
        cases heq
        rw [Value.rename_id]
        cases v with
        | arg a => exact valueName_arg a
        | inst i => exact valueName_inst i
        | const k => exact absurd (h.mem_values hmem) (by simp [Procedure.values])
      next => cases hv
  label {l b} hb := by
    simp only [Scope.block] at hb
    split at hb
    next c hc =>
      cases hb
      obtain ⟨b, hmem, heq⟩ := List.mem_map.mp (mem_of_lookup hc)
      cases heq
      exact blockLabel_of_lt (Table.mem_handles.mp hmem)
    next => cases hb

theorem printed_tree (h : p.Printable) : p.tree.Printed (p.scope id) p where
  scope := h.printedBy_scope
  name := rfl
  args := by
    rw [tree, List.forall₂_map_right_iff, List.forall₂_same]
    exact fun a _ => valueName_arg a
  blocks := by
    rw [tree, List.forall₂_map_left_iff, List.forall₂_same]
    rintro ⟨b, blk⟩ he
    have hb : p.blocks.get? b = some blk := Table.mem_entries.mp he
    refine ⟨blockLabel_of_lt (Table.lt_size hb), fun a ha => ?_, ?_⟩
    · have hlt := h.preds blk (Table.mem_toList.mpr ⟨b, hb⟩) a ha
      exact ⟨_, blockLabel_of_lt hlt, h.valid_label hlt⟩
    · rw [List.forall₂_map_right_iff, List.forall₂_same]
      intro i hi
      have hlisted := mem_listed hb hi
      obtain ⟨d, hd, hop⟩ := exists_get?_of_hasTree (h.ops i hlisted)
      refine ⟨d, hd, ?_, fun n hn => ?_⟩
      · rw [h.operation_instTree hlisted, hop, Operation.rename_id]
      · simp only [instTree, Option.ite_none_right_eq_some, Option.some.injEq] at hn
        rw [valueName_inst, hn.2, Token.text]

/-- The text has the tokens of the tree. -/
theorem render_ok (h : p.Printable) :
    ∃ text, p.render "" = .ok text ∧ Ends text (lineTokens p.tree.lines) :=
  h.printed_tree.render_ok h.readable_tree

end Printable

end Procedure

end SsaFlow
