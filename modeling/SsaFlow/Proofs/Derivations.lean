import Mathlib.Data.List.Chain
import SsaFlow.Proofs.ParserLoops

/-!
# Derivations

How a list of tokens is derived from the grammar, as data: `ProgramDerivation` and its parts
keep all that the tokens leave open, where line ends stand and which lists have a comma
after the last name.  What is read is the tree of a derivation, and there is a derivation
just when the relations of the grammar hold (`ProgramDerivation.derives_iff`).

The grammar is not ambiguous: derivations with the same tokens are equal
(`ProgramDerivation.tokens_inj`).  Each part ends before the first token of a kind it has
none of (`append_inj_of_stop`), so lists of tokens come apart in one way.  What is left are
single instructions, and there the parser itself settles that the trees are equal
(`InstDerivation.tree_eq`).
-/

namespace SsaFlow

/-! ## Names -/

/-- Names divided by commas, with a comma after the last one if it is `trailing`. -/
@[ext] structure NameList where
  names : List String
  trailing : Bool
  named : trailing = true → names ≠ []

namespace NameList

/-- The tokens of a list of names, each as the token that `mk` makes of it. -/
def tokens (mk : String → Token) (l : NameList) : List Token :=
  nameTokens mk l.names ++ if l.trailing then [.comma] else []

variable {mk : String → Token}

theorem derives_iff {names : List String} {ts : List Token} :
    NamesDerive mk names ts ↔ ∃ l : NameList, l.names = names ∧ l.tokens mk = ts := by
  constructor
  · intro h
    cases h with
    | plain => exact ⟨⟨names, false, nofun⟩, rfl, List.append_nil _⟩
    | trailing hne => exact ⟨⟨names, true, fun _ => hne⟩, rfl, rfl⟩
  · rintro ⟨⟨_, trailing, hnamed⟩, rfl, rfl⟩
    cases trailing with
    | false =>
      rw [tokens, if_neg Bool.false_ne_true, List.append_nil]
      exact .plain
    | true => exact .trailing (hnamed rfl)

end NameList

/-! ## Instructions -/

/-- How an instruction is written. -/
inductive InstDerivation where
  | compute (result : Option String) (opcode : String) (args : List OperandTree)
    (word : opcode ∉ keywords)
  | phi (result : String) (first : OperandTree × String) (more : List (OperandTree × String))
  | br (target : String)
  | condBr (cond : OperandTree) (ifTrue ifFalse : String)
  | switch (value : OperandTree) (default : String) (targets : NameList)
  | ret (values : List OperandTree)
  | unreachable

/-- A result with the equals sign after it, if there is one. -/
def resultTokens : Option String → List Token
  | none => []
  | some n => [.localName n, .equals]

namespace InstDerivation

/-- The tokens of an instruction. -/
def tokens : InstDerivation → List Token
  | compute result opcode args _ => resultTokens result ++ .ident opcode :: OperandTree.tokens args
  | phi result first more =>
    .localName result :: .equals :: .ident "phi" ::
      [Token.comma].intercalate ((first :: more).map pairTokens)
  | br target => [.ident "br", .ident target]
  | condBr cond ifTrue ifFalse =>
    [.ident "br", cond.token, .comma, .ident ifTrue, .comma, .ident ifFalse]
  | switch value default targets =>
    .ident "switch" :: value.token :: .comma :: .ident default :: .comma :: .lbracket ::
      (targets.tokens .ident ++ [.rbracket])
  | ret values => .ident "ret" :: OperandTree.tokens values
  | unreachable => [.ident "unreachable"]

/-- The tree of an instruction. -/
def tree : InstDerivation → InstTree
  | compute result opcode args _ => ⟨result, .compute opcode args⟩
  | phi result first more => ⟨some result, .phi (first :: more)⟩
  | br target => ⟨none, .br target⟩
  | condBr cond ifTrue ifFalse => ⟨none, .condBr cond ifTrue ifFalse⟩
  | switch value default targets => ⟨none, .switch value default targets.names⟩
  | ret values => ⟨none, .ret values⟩
  | unreachable => ⟨none, .unreachable⟩

theorem derives (d : InstDerivation) : d.tree.Derives d.tokens := by
  cases d with
  | compute result opcode args hop =>
    cases result with
    | none => exact .plain rfl (.compute hop)
    | some n => exact .named n rfl (.compute hop)
  | phi result first more => exact .named result rfl (.phi (List.cons_ne_nil first more))
  | br target => exact .plain rfl (.br target)
  | condBr cond ifTrue ifFalse => exact .plain rfl (.condBr cond ifTrue ifFalse)
  | switch value default targets =>
    exact .plain rfl (.switch value default (NameList.derives_iff.mpr ⟨targets, rfl, rfl⟩))
  | ret values => exact .plain rfl (.ret values)
  | unreachable => exact .plain rfl .unreachable

theorem derives_iff {i : InstTree} {ts : List Token} :
    i.Derives ts ↔ ∃ d : InstDerivation, d.tree = i ∧ d.tokens = ts := by
  constructor
  · intro h
    cases h with
    | plain hphi ha =>
      cases ha with
      | compute hop => exact ⟨.compute none _ _ hop, rfl, rfl⟩
      | phi _ => cases hphi
      | br target => exact ⟨.br target, rfl, rfl⟩
      | condBr cond ifTrue ifFalse => exact ⟨.condBr cond ifTrue ifFalse, rfl, rfl⟩
      | switch value default hts =>
        obtain ⟨targets, rfl, rfl⟩ := NameList.derives_iff.mp hts
        exact ⟨.switch value default targets, rfl, rfl⟩
      | ret values => exact ⟨.ret values, rfl, rfl⟩
      | unreachable => exact ⟨.unreachable, rfl, rfl⟩
    | named n hterm ha =>
      cases ha with
      | compute hop => exact ⟨.compute (some n) _ _ hop, rfl, rfl⟩
      | @phi incoming hne =>
        obtain ⟨first, more, rfl⟩ := List.exists_cons_of_ne_nil hne
        exact ⟨.phi n first more, rfl, rfl⟩
      | br _ => cases hterm
      | condBr _ _ _ => cases hterm
      | switch _ _ _ => cases hterm
      | ret _ => cases hterm
      | unreachable => cases hterm
  · rintro ⟨d, rfl, rfl⟩
    exact d.derives

end InstDerivation

/-! ## Items -/

/-- What stands between the braces of a procedure. -/
inductive Item where
  | newline
  | label (l : String)
  | inst (d : InstDerivation)

namespace Item

/-- The tokens of an item. -/
def tokens : Item → List Token
  | newline => [.newline]
  | label l => [.ident l, .colon]
  | inst d => d.tokens

/-- Whether the item is a line end. -/
def isNewline : Item → Bool
  | newline => true
  | label _ => false
  | inst _ => false

/-- An instruction goes on until the end of its line. -/
def MayPrecede : Item → Item → Prop
  | inst _, next => next = newline
  | newline, _ => True
  | label _, _ => True

/-- The instructions of the block that is open before the items, and the blocks after it. -/
def gather : List Item → List InstTree × List BlockTree
  | [] => ([], [])
  | newline :: items => gather items
  | label l :: items => ([], ⟨l, (gather items).1⟩ :: (gather items).2)
  | inst d :: items => (d.tree :: (gather items).1, (gather items).2)

theorem endsLine_iff {items : List Item} :
    EndsLine (items.flatMap tokens ++ [.rbrace]) ↔ ∀ item ∈ items.head?, item = newline := by
  cases items with
  | nil => exact ⟨fun _ => nofun, fun _ => .inr rfl⟩
  | cons item items =>
    cases item with
    | newline =>
      constructor
      · intro _ item hitem
        exact (Option.some.inj hitem).symm
      · exact fun _ => .inl rfl
    | label l =>
      constructor
      · rintro (h | h)
        · cases h
        · cases h
      · intro h
        cases h _ rfl
    | inst d =>
      obtain ⟨t, us, htokens, hnewline, hrbrace⟩ := d.derives.exists_head
      constructor
      · rintro (h | h)
        · simp [tokens, htokens, hnewline] at h
        · simp [tokens, htokens, hrbrace] at h
      · intro h
        cases h _ rfl

theorem derives_iff {is : List InstTree} {bs : List BlockTree} {ts : List Token} :
    ItemsDerive is bs ts ↔ ∃ items : List Item, items.IsChain MayPrecede ∧
      gather items = (is, bs) ∧ items.flatMap tokens ++ [.rbrace] = ts := by
  constructor
  · intro h
    induction h with
    | close => exact ⟨[], .nil, rfl, rfl⟩
    | newline _ ih =>
      obtain ⟨items, hchain, hgather, rfl⟩ := ih
      exact ⟨newline :: items, List.isChain_cons.mpr ⟨fun _ _ => trivial, hchain⟩, hgather, rfl⟩
    | label l _ ih =>
      obtain ⟨items, hchain, hgather, rfl⟩ := ih
      refine ⟨label l :: items, List.isChain_cons.mpr ⟨fun _ _ => trivial, hchain⟩, ?_, rfl⟩
      rw [gather, hgather]
    | inst hi hends _ ih =>
      obtain ⟨items, hchain, hgather, rfl⟩ := ih
      obtain ⟨d, rfl, rfl⟩ := InstDerivation.derives_iff.mp hi
      refine ⟨inst d :: items, List.isChain_cons.mpr ⟨endsLine_iff.mp hends, hchain⟩, ?_, ?_⟩
      · rw [gather, hgather]
      · rw [List.flatMap_cons, List.append_assoc, tokens]
  · rintro ⟨items, hchain, hgather, rfl⟩
    induction items generalizing is bs with
    | nil =>
      cases hgather
      exact .close
    | cons item items ih =>
      obtain ⟨hnext, hrest⟩ := List.isChain_cons.mp hchain
      cases item with
      | newline => exact .newline (ih hrest hgather)
      | label l =>
        cases hgather
        exact .label l (ih hrest rfl)
      | inst d =>
        cases hgather
        rw [List.flatMap_cons, List.append_assoc]
        exact .inst d.derives (endsLine_iff.mpr hnext) (ih hrest rfl)

/-- There is a block, and no instruction stands before it, just when the first item is a label. -/
theorem gather_opened {items : List Item} :
    ((gather items).1 = [] ∧ (gather items).2 ≠ []) ↔
      ∃ l, items.find? (!·.isNewline) = some (label l) := by
  induction items with
  | nil => simp [gather]
  | cons item items ih =>
    cases item with
    | newline =>
      rw [gather, ih]
      rfl
    | label l => exact ⟨fun _ => ⟨l, rfl⟩, fun _ => ⟨rfl, List.cons_ne_nil _ _⟩⟩
    | inst d =>
      constructor
      · intro h
        cases h.1
      · rintro ⟨l, h⟩
        cases h

end Item

/-! ## Procedures and programs -/

/-- How a procedure is written.  The first item that is no line end is a label, and instructions end
their lines. -/
@[ext] structure ProcDerivation where
  name : String
  params : NameList
  items : List Item
  opened : ∃ l, items.find? (!·.isNewline) = some (.label l)
  separated : items.IsChain Item.MayPrecede

namespace ProcDerivation

/-- The tokens of a procedure. -/
def tokens (d : ProcDerivation) : List Token :=
  .ident "func" :: .globalName d.name :: .lparen :: (d.params.tokens .localName ++
    .rparen :: .lbrace :: (d.items.flatMap Item.tokens ++ [.rbrace]))

/-- The tree of a procedure. -/
def tree (d : ProcDerivation) : ProcTree := ⟨d.name, d.params.names, (Item.gather d.items).2⟩

theorem derives_iff {t : ProcTree} {ts : List Token} :
    t.Derives ts ↔ ∃ d : ProcDerivation, d.tree = t ∧ d.tokens = ts := by
  constructor
  · intro h
    cases h with
    | mk name hargs hne hitems =>
      obtain ⟨params, rfl, rfl⟩ := NameList.derives_iff.mp hargs
      obtain ⟨items, hchain, hgather, rfl⟩ := Item.derives_iff.mp hitems
      have hopened : (Item.gather items).1 = [] ∧ (Item.gather items).2 ≠ [] := by
        rw [hgather]
        exact ⟨rfl, hne⟩
      have htree : ProcTree.mk name params.names (Item.gather items).2 = ⟨name, params.names, _⟩ :=
        congrArg (ProcTree.mk name params.names ·.2) hgather
      exact ⟨⟨name, params, items, Item.gather_opened.mp hopened, hchain⟩, htree, rfl⟩
  · rintro ⟨d, rfl, rfl⟩
    obtain ⟨hnil, hne⟩ := Item.gather_opened.mpr d.opened
    have hgather : Item.gather d.items = ([], (Item.gather d.items).2) := by
      rw [← hnil]
    exact .mk d.name (NameList.derives_iff.mpr ⟨d.params, rfl, rfl⟩) hne
      (Item.derives_iff.mpr ⟨d.items, d.separated, hgather, rfl⟩)

end ProcDerivation

/-- How a program is written: line ends, and procedures with the line ends after them. -/
@[ext] structure ProgramDerivation where
  lead : Nat
  procs : List (ProcDerivation × Nat)

namespace ProgramDerivation

/-- The tokens of a program. -/
def tokens (d : ProgramDerivation) : List Token :=
  List.replicate d.lead .newline ++
    d.procs.flatMap fun e => e.1.tokens ++ List.replicate e.2 .newline

/-- The trees of a program. -/
def trees (d : ProgramDerivation) : List ProcTree := d.procs.map fun e => e.1.tree

theorem derives_replicate {ps : List ProcTree} {ts : List Token} (h : ProgramDerives ps ts)
    (n : Nat) : ProgramDerives ps (List.replicate n .newline ++ ts) := by
  induction n with
  | zero => exact h
  | succ n ih => exact .newline ih

theorem derives_iff {ps : List ProcTree} {ts : List Token} :
    ProgramDerives ps ts ↔ ∃ d : ProgramDerivation, d.tokens = ts ∧ d.trees = ps := by
  constructor
  · intro h
    induction h with
    | nil => exact ⟨⟨0, []⟩, rfl, rfl⟩
    | newline _ ih =>
      obtain ⟨⟨lead, procs⟩, rfl, rfl⟩ := ih
      exact ⟨⟨lead + 1, procs⟩, rfl, rfl⟩
    | cons hp _ ih =>
      obtain ⟨⟨lead, procs⟩, rfl, rfl⟩ := ih
      obtain ⟨d, rfl, rfl⟩ := ProcDerivation.derives_iff.mp hp
      refine ⟨⟨0, (d, lead) :: procs⟩, ?_, rfl⟩
      rw [tokens, List.flatMap_cons, List.append_assoc]
      rfl
  · rintro ⟨⟨lead, procs⟩, rfl, rfl⟩
    apply derives_replicate
    induction procs with
    | nil => exact .nil
    | cons e procs ih =>
      rw [List.flatMap_cons, List.append_assoc]
      exact .cons (ProcDerivation.derives_iff.mpr ⟨e.1, rfl, rfl⟩) (derives_replicate ih e.2)

end ProgramDerivation

/-! ## No ambiguity -/

/-- A list without items of a kind, followed by one of that kind or by nothing, comes apart in one
way. -/
theorem append_inj_of_stop {α : Type} {P : α → Prop} {us vs xs ys : List α}
    (hus : ∀ u ∈ us, ¬ P u) (hvs : ∀ v ∈ vs, ¬ P v) (hxs : ∀ x ∈ xs.head?, P x)
    (hys : ∀ y ∈ ys.head?, P y) (h : us ++ xs = vs ++ ys) : us = vs ∧ xs = ys := by
  induction us generalizing vs with
  | nil =>
    cases vs with
    | nil => exact ⟨rfl, h⟩
    | cons v vs =>
      rw [List.nil_append] at h
      exact absurd (hxs v (by rw [h]; rfl)) (hvs v List.mem_cons_self)
  | cons u us ih =>
    cases vs with
    | nil =>
      rw [List.nil_append] at h
      exact absurd (hys u (by rw [← h]; rfl)) (hus u List.mem_cons_self)
    | cons v vs =>
      obtain ⟨rfl, hrest⟩ := List.cons.inj h
      obtain ⟨rfl, hxs⟩ := ih (List.forall_mem_cons.mp hus).2 (List.forall_mem_cons.mp hvs).2 hrest
      exact ⟨rfl, hxs⟩

theorem append_cons_inj {α : Type} {a : α} {us vs xs ys : List α} (hus : a ∉ us) (hvs : a ∉ vs)
    (h : us ++ a :: xs = vs ++ a :: ys) : us = vs ∧ xs = ys := by
  have hhead : ∀ zs : List α, ∀ z ∈ (a :: zs).head?, z = a := fun _ _ hz => (Option.some.inj hz).symm
  obtain ⟨heq, hrest⟩ := append_inj_of_stop (fun u hu (heq : u = a) => hus (heq ▸ hu))
    (fun v hv (heq : v = a) => hvs (heq ▸ hv)) (hhead xs) (hhead ys) h
  exact ⟨heq, (List.cons.inj hrest).2⟩

namespace NameList

variable {mk : String → Token} {l l' : NameList}

theorem forall_mem_tokens {P : Token → Prop} (hcomma : P .comma) (hmk : ∀ n, P (mk n)) :
    ∀ u ∈ l.tokens mk, P u := by
  refine List.forall_mem_append.mpr ⟨forall_mem_nameTokens hcomma fun n _ => hmk n, ?_⟩
  split
  next => exact List.forall_mem_singleton.mpr hcomma
  next => exact List.forall_mem_nil _

theorem filter_tokens (hcomma : ∀ n, mk n ≠ .comma) :
    (l.tokens mk).filter (· ≠ .comma) = l.names.map mk := by
  have htrailing : ∀ c : Bool, (if c then [Token.comma] else []).filter (· ≠ .comma) = [] := by
    decide
  rw [tokens, List.filter_append, htrailing, List.append_nil]
  cases l.names with
  | nil => rfl
  | cons n names =>
    have hround : ∀ n, [Token.comma, mk n].filter (· ≠ .comma) = [mk n] := fun n => by
      simp [hcomma]
    rw [nameTokens_cons, List.filter_cons_of_pos (by simpa using hcomma n), List.filter_flatMap,
      List.map_cons, List.map_eq_flatMap]
    simp only [hround]

theorem tokens_inj (hmk : Function.Injective mk) (hcomma : ∀ n, mk n ≠ .comma)
    (h : l.tokens mk = l'.tokens mk) : l = l' := by
  have hnames : l.names = l'.names := by
    apply List.map_injective_iff.mpr hmk
    rw [← filter_tokens hcomma, ← filter_tokens hcomma, h]
  rw [tokens, tokens, hnames] at h
  have htrailing : l.trailing = l'.trailing := by
    have hlast := List.append_cancel_left h
    revert hlast
    cases l.trailing <;> cases l'.trailing <;> simp
  exact NameList.ext hnames htrailing

end NameList

/-- The token may stand in an instruction. -/
def Token.Inner : Token → Prop
  | newline => False
  | rbrace => False
  | colon => False
  | _ => True

theorem Token.Inner.ne {u v : Token} (hu : u.Inner) (hv : ¬ v.Inner) : u ≠ v := fun heq =>
  hv (heq ▸ hu)

namespace InstDerivation

variable {d d' : InstDerivation}

theorem inner_operand (o : OperandTree) : o.token.Inner := by
  cases o with
  | name n => trivial
  | int k => trivial

theorem inner_operands (os : List OperandTree) : ∀ u ∈ OperandTree.tokens os, u.Inner :=
  forall_mem_operandTokens trivial fun o _ => inner_operand o

theorem inner_pairs (es : List (OperandTree × String)) :
    ∀ u ∈ [Token.comma].intercalate (es.map pairTokens), u.Inner := by
  refine forall_mem_intercalate trivial fun ts hts => ?_
  obtain ⟨e, -, rfl⟩ := List.mem_map.mp hts
  simp only [pairTokens, List.forall_mem_cons]
  exact ⟨trivial, inner_operand e.1, trivial, trivial, trivial, List.forall_mem_nil _⟩

theorem inner_tokens (d : InstDerivation) : ∀ u ∈ d.tokens, u.Inner := by
  cases d with
  | compute result opcode args _ =>
    refine List.forall_mem_append.mpr ⟨?_, List.forall_mem_cons.mpr ⟨trivial, inner_operands args⟩⟩
    cases result with
    | none => exact List.forall_mem_nil _
    | some n => exact List.forall_mem_cons.mpr ⟨trivial, List.forall_mem_singleton.mpr trivial⟩
  | phi result first more =>
    simp only [tokens, List.forall_mem_cons]
    exact ⟨trivial, trivial, trivial, inner_pairs (first :: more)⟩
  | br target => exact List.forall_mem_cons.mpr ⟨trivial, List.forall_mem_singleton.mpr trivial⟩
  | condBr cond ifTrue ifFalse =>
    simp only [tokens, List.forall_mem_cons]
    exact ⟨trivial, inner_operand cond, trivial, trivial, trivial, trivial, List.forall_mem_nil _⟩
  | switch value default targets =>
    simp only [tokens, List.forall_mem_cons, List.forall_mem_append]
    exact ⟨trivial, inner_operand value, trivial, trivial, trivial, trivial,
      NameList.forall_mem_tokens trivial fun _ => trivial, trivial, List.forall_mem_nil _⟩
  | ret values => exact List.forall_mem_cons.mpr ⟨trivial, inner_operands values⟩
  | unreachable => exact List.forall_mem_singleton.mpr trivial

/-- The parser reads one tree from the tokens, so derivations with the same tokens have the same. -/
theorem tree_eq (h : d.tokens = d'.tokens) : d.tree = d'.tree := by
  have htakes : ∀ e : InstDerivation,
      Parser.Takes (Parser.instruction 0) (e.tokens.map (·, 0)) e.tree [] := by
    intro e
    refine Parser.takes_instruction.mpr
      ⟨e.tokens, [], e.derives, begins_map.mpr ?_, .inr ⟨rfl, .inl rfl⟩⟩
    rw [List.map_map]
    exact List.map_id' _
  have heq := (htakes d).symm.trans (h ▸ htakes d')
  exact (Prod.mk.inj (Except.ok.inj heq)).1

theorem tokens_inj (h : d.tokens = d'.tokens) : d = d' := by
  have htree := tree_eq h
  cases d with
  | switch value default targets =>
    cases d' with
    | switch value' default' targets' =>
      obtain ⟨rfl, rfl, -⟩ := ActionTree.switch.inj (InstTree.mk.inj htree).2
      simp only [tokens, List.cons.injEq, true_and, List.append_cancel_right_eq] at h
      rw [NameList.tokens_inj (fun _ _ => Token.ident.inj) nofun h]
    | _ => cases htree
  | _ =>
    -- but for the comma in a switch, the tree says it all
    cases d' with
    | _ => cases htree <;> rfl

end InstDerivation

namespace Item

variable {item item' : Item} {items items' : List Item}

theorem exists_cons_tokens (item : Item) : ∃ t ts, item.tokens = t :: ts := by
  cases item with
  | newline => exact ⟨_, _, rfl⟩
  | label l => exact ⟨_, _, rfl⟩
  | inst d =>
    obtain ⟨t, ts, htokens, -, -⟩ := d.derives.exists_head
    exact ⟨t, ts, htokens⟩

theorem rbrace_not_mem (items : List Item) : Token.rbrace ∉ items.flatMap tokens := by
  intro h
  obtain ⟨item, -, hitem⟩ := List.mem_flatMap.mp h
  cases item with
  | newline => cases List.mem_singleton.mp hitem
  | label l => simp [tokens] at hitem
  | inst d => exact d.inner_tokens _ hitem

/-- What comes after an instruction begins with a line end. -/
theorem eq_newline_of_head? (h : ∀ next ∈ items.head?, next = newline) :
    ∀ u ∈ (items.flatMap tokens).head?, u = .newline := by
  cases items with
  | nil => nofun
  | cons item items =>
    cases h item rfl
    intro u hu
    exact (Option.some.inj hu).symm

theorem inst_append_ne_label {d : InstDerivation} {l : String} {ts : List Token}
    (h : ∀ next ∈ items.head?, next = newline) :
    d.tokens ++ items.flatMap tokens ≠ .ident l :: .colon :: ts := by
  intro heq
  have hsplit : d.tokens ++ items.flatMap tokens = [.ident l] ++ .colon :: ts := heq
  obtain ⟨-, hrest⟩ := append_inj_of_stop (P := fun u => ¬ u.Inner)
    (fun u hu => not_not.mpr (d.inner_tokens u hu))
    (List.forall_mem_singleton.mpr (not_not.mpr trivial))
    (fun u hu hinner => hinner.ne id (eq_newline_of_head? h u hu))
    (fun u hu hinner => hinner.ne id (Option.some.inj hu).symm) hsplit
  cases eq_newline_of_head? h .colon (hrest ▸ rfl)

theorem inst_append_ne_newline {d : InstDerivation} {ts us : List Token} :
    d.tokens ++ us ≠ .newline :: ts := by
  intro heq
  obtain ⟨t, vs, htokens, hnewline, -⟩ := d.derives.exists_head
  rw [htokens] at heq
  exact hnewline (List.cons.inj heq).1

theorem append_inj (hnext : ∀ next ∈ items.head?, item.MayPrecede next)
    (hnext' : ∀ next ∈ items'.head?, item'.MayPrecede next)
    (h : item.tokens ++ items.flatMap tokens = item'.tokens ++ items'.flatMap tokens) :
    item = item' ∧ items.flatMap tokens = items'.flatMap tokens := by
  cases item with
  | newline =>
    cases item' with
    | newline => exact ⟨rfl, (List.cons.inj h).2⟩
    | label l => cases (List.cons.inj h).1
    | inst d => exact absurd h.symm inst_append_ne_newline
  | label l =>
    cases item' with
    | newline => cases (List.cons.inj h).1
    | label l' =>
      obtain ⟨hl, hrest⟩ := List.cons.inj h
      cases hl
      exact ⟨rfl, (List.cons.inj hrest).2⟩
    | inst d => exact absurd h.symm (inst_append_ne_label hnext')
  | inst d =>
    cases item' with
    | newline => exact absurd h inst_append_ne_newline
    | label l => exact absurd h (inst_append_ne_label hnext)
    | inst d' =>
      obtain ⟨htokens, hrest⟩ := append_inj_of_stop (P := (· = .newline))
        (fun u hu => (d.inner_tokens u hu).ne id) (fun u hu => (d'.inner_tokens u hu).ne id)
        (eq_newline_of_head? hnext) (eq_newline_of_head? hnext') h
      rw [InstDerivation.tokens_inj htokens]
      exact ⟨rfl, hrest⟩

theorem flatMap_tokens_inj (hchain : items.IsChain MayPrecede) (hchain' : items'.IsChain MayPrecede)
    (h : items.flatMap tokens = items'.flatMap tokens) : items = items' := by
  induction items generalizing items' with
  | nil =>
    cases items' with
    | nil => rfl
    | cons item' items' =>
      obtain ⟨t, ts, htokens⟩ := item'.exists_cons_tokens
      rw [List.flatMap_cons, htokens] at h
      cases h
  | cons item items ih =>
    cases items' with
    | nil =>
      obtain ⟨t, ts, htokens⟩ := item.exists_cons_tokens
      rw [List.flatMap_cons, htokens] at h
      cases h
    | cons item' items' =>
      obtain ⟨hnext, hrest⟩ := List.isChain_cons.mp hchain
      obtain ⟨hnext', hrest'⟩ := List.isChain_cons.mp hchain'
      obtain ⟨rfl, htokens⟩ := append_inj hnext hnext' h
      rw [ih hrest hrest' htokens]

end Item

theorem ProcDerivation.append_inj {d d' : ProcDerivation} {xs ys : List Token}
    (h : d.tokens ++ xs = d'.tokens ++ ys) : d = d' ∧ xs = ys := by
  simp only [tokens, List.cons_append, List.append_assoc, List.cons.injEq, Token.globalName.injEq,
    true_and, List.nil_append] at h
  obtain ⟨hname, hrest⟩ := h
  have hrparen : ∀ l : NameList, ∀ u ∈ l.tokens .localName, u ≠ Token.rparen := fun _ =>
    NameList.forall_mem_tokens nofun fun _ => nofun
  obtain ⟨hparams, hbody⟩ := append_cons_inj (fun hmem => hrparen d.params _ hmem rfl)
    (fun hmem => hrparen d'.params _ hmem rfl) hrest
  obtain ⟨hitems, hxs⟩ := append_cons_inj (Item.rbrace_not_mem d.items)
    (Item.rbrace_not_mem d'.items) (List.cons.inj hbody).2
  refine ⟨ProcDerivation.ext hname ?_ ?_, hxs⟩
  · exact NameList.tokens_inj (fun _ _ => Token.localName.inj) nofun hparams
  · exact Item.flatMap_tokens_inj d.separated d'.separated hitems

namespace ProgramDerivation

variable {procs procs' : List (ProcDerivation × Nat)}

/-- The tokens of procedures with the line ends after them. -/
def procTokens (procs : List (ProcDerivation × Nat)) : List Token :=
  procs.flatMap fun e => e.1.tokens ++ List.replicate e.2 .newline

theorem newlines_inj {m n : Nat}
    (h : List.replicate m .newline ++ procTokens procs =
      List.replicate n .newline ++ procTokens procs') :
    m = n ∧ procTokens procs = procTokens procs' := by
  have hhead : ∀ ps : List (ProcDerivation × Nat), ∀ u ∈ (procTokens ps).head?, u ≠ .newline := by
    intro ps u hu
    cases ps with
    | nil => cases hu
    | cons e ps =>
      cases Option.some.inj hu
      nofun
  have hnewlines : ∀ k, ∀ u ∈ List.replicate k Token.newline, ¬ u ≠ .newline :=
    fun k u hu => not_not.mpr (List.eq_of_mem_replicate hu)
  obtain ⟨hreplicate, hrest⟩ := append_inj_of_stop (P := (· ≠ .newline)) (hnewlines m)
    (hnewlines n) (hhead procs) (hhead procs') h
  have hlen := congrArg List.length hreplicate
  rw [List.length_replicate, List.length_replicate] at hlen
  exact ⟨hlen, hrest⟩

theorem procTokens_inj (h : procTokens procs = procTokens procs') : procs = procs' := by
  induction procs generalizing procs' with
  | nil =>
    cases procs' with
    | nil => rfl
    | cons e procs' => cases h
  | cons e procs ih =>
    cases procs' with
    | nil => cases h
    | cons e' procs' =>
      simp only [procTokens, List.flatMap_cons, List.append_assoc] at h
      obtain ⟨hproc, h⟩ := ProcDerivation.append_inj h
      obtain ⟨hlines, hrest⟩ := newlines_inj h
      rw [ih hrest, Prod.ext hproc hlines]

/-- There is one derivation of a list of tokens at most. -/
theorem tokens_inj : Function.Injective tokens := by
  intro d d' h
  obtain ⟨hlead, hprocs⟩ := newlines_inj h
  exact ProgramDerivation.ext hlead (procTokens_inj hprocs)

end ProgramDerivation

/-! ## What is read -/

namespace Parser

/-- Reads procedure after procedure until no token but line ends is left. -/
def procedures (toks : Tokens) : Except SourceError (List ProcTree) :=
  foldTokens (fun ts t => .ok (ts ++ [t])) [] toks

theorem foldlM_append (ts us : List ProcTree) :
    us.foldlM (fun ts t => (.ok (ts ++ [t]) : Except SourceError _)) ts = .ok (ts ++ us) := by
  induction us generalizing ts with
  | nil => rw [List.append_nil, List.foldlM_nil, pure_eq_ok]
  | cons u us ih =>
    rw [List.foldlM_cons, bind_eq_ok]
    exact ⟨ts ++ [u], rfl, by rw [ih, List.append_assoc]; rfl⟩

/-- Tokens are read just when they can be derived.  There is one derivation then, whose trees are
what is read, and no loop runs out of turns. -/
theorem procedures_eq_ok :
    (∀ toks ts, procedures toks = .ok ts ↔
      ∃ d : ProgramDerivation, d.tokens = toks.map Prod.fst ∧ d.trees = ts) ∧
    Function.Injective ProgramDerivation.tokens ∧ LoopsSettle := by
  refine ⟨fun toks ts => ?_, ProgramDerivation.tokens_inj, loopsSettle⟩
  rw [procedures, foldTokens_eq_ok]
  simp only [foldlM_append, List.nil_append, Except.ok.injEq]
  rw [← ProgramDerivation.derives_iff]
  exact exists_eq_right

end Parser

end SsaFlow
