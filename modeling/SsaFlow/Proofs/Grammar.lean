import Mathlib.Data.List.Basic
import SsaFlow.Text.Token
import SsaFlow.Text.Tree

/-!
# The grammar

What the parser reads is said by relations between trees and tokens, which do not
mention the parser: `ActionTree.Derives`, `InstTree.Derives`, `ItemsDerive`,
`ProcTree.Derives` and `ProgramDerives`.  The only freedom a tree leaves to its tokens
is where line ends stand, and a comma after the last label of a list or the last
argument.

Tokens as they are read carry their lines.  `Begins ts toks rest` says that `toks`
starts with the tokens `ts` and goes on with `rest`.
-/

namespace SsaFlow

/-! ## Derivations -/

namespace OperandTree

/-- The token of an operand. -/
def token : OperandTree → Token
  | name n => .localName n
  | int k => .int k

/-- Operands divided by commas. -/
def tokens (os : List OperandTree) : List Token :=
  [Token.comma].intercalate (os.map fun o => [o.token])

end OperandTree

/-- Names divided by commas, each as the token that `mk` makes of it. -/
def nameTokens (mk : String → Token) (names : List String) : List Token :=
  [Token.comma].intercalate (names.map fun n => [mk n])

/-- The tokens of one pair of a phi. -/
def pairTokens (e : OperandTree × String) : List Token :=
  [.lbracket, e.1.token, .comma, .ident e.2, .rbracket]

/-- Names divided by commas, with maybe one more comma after the last. -/
inductive NamesDerive (mk : String → Token) (names : List String) : List Token → Prop where
  | plain : NamesDerive mk names (nameTokens mk names)
  | trailing : names ≠ [] → NamesDerive mk names (nameTokens mk names ++ [.comma])

/-- Words that are not the name of an operation. -/
def keywords : List String := ["phi", "br", "switch", "ret", "unreachable"]

/-- An instruction without its result. -/
inductive ActionTree.Derives : ActionTree → List Token → Prop where
  | compute {opcode : String} {args : List OperandTree} : opcode ∉ keywords →
    Derives (.compute opcode args) (.ident opcode :: OperandTree.tokens args)
  | phi {incoming : List (OperandTree × String)} : incoming ≠ [] →
    Derives (.phi incoming) (.ident "phi" :: [Token.comma].intercalate (incoming.map pairTokens))
  | br (target : String) : Derives (.br target) [.ident "br", .ident target]
  | condBr (cond : OperandTree) (ifTrue ifFalse : String) :
    Derives (.condBr cond ifTrue ifFalse)
      [.ident "br", cond.token, .comma, .ident ifTrue, .comma, .ident ifFalse]
  | switch (value : OperandTree) (default : String) {targets : List String} {ts : List Token} :
    NamesDerive .ident targets ts →
    Derives (.switch value default targets)
      (.ident "switch" :: value.token :: .comma :: .ident default :: .comma :: .lbracket ::
        (ts ++ [.rbracket]))
  | ret (values : List OperandTree) :
    Derives (.ret values) (.ident "ret" :: OperandTree.tokens values)
  | unreachable : Derives .unreachable [.ident "unreachable"]

/-- An instruction.  A phi has a result, and a terminator has none. -/
inductive InstTree.Derives : InstTree → List Token → Prop where
  | plain {a : ActionTree} {ts : List Token} : a.isPhi = false → a.Derives ts →
    Derives ⟨none, a⟩ ts
  | named (n : String) {a : ActionTree} {ts : List Token} : a.isTerminator = false →
    a.Derives ts → Derives ⟨some n, a⟩ (.localName n :: .equals :: ts)

/-- What may come after an instruction. -/
def EndsLine (ts : List Token) : Prop := ts.head? = some .newline ∨ ts.head? = some .rbrace

/-- The rest of a procedure with the closing brace: the instructions of the block that is open, and
the blocks after it. -/
inductive ItemsDerive : List InstTree → List BlockTree → List Token → Prop where
  | close : ItemsDerive [] [] [.rbrace]
  | newline {is : List InstTree} {bs : List BlockTree} {ts : List Token} :
    ItemsDerive is bs ts → ItemsDerive is bs (.newline :: ts)
  | label (l : String) {is : List InstTree} {bs : List BlockTree} {ts : List Token} :
    ItemsDerive is bs ts → ItemsDerive [] (⟨l, is⟩ :: bs) (.ident l :: .colon :: ts)
  | inst {i : InstTree} {is : List InstTree} {bs : List BlockTree} {us ts : List Token} :
    i.Derives us → EndsLine ts → ItemsDerive is bs ts → ItemsDerive (i :: is) bs (us ++ ts)

/-- A procedure. -/
inductive ProcTree.Derives : ProcTree → List Token → Prop where
  | mk (name : String) {args : List String} {blocks : List BlockTree} {us ts : List Token} :
    NamesDerive .localName args us → blocks ≠ [] → ItemsDerive [] blocks ts →
    Derives ⟨name, args, blocks⟩
      (.ident "func" :: .globalName name :: .lparen :: (us ++ .rparen :: .lbrace :: ts))

/-- Procedures with line ends between them. -/
inductive ProgramDerives : List ProcTree → List Token → Prop where
  | nil : ProgramDerives [] []
  | newline {ps : List ProcTree} {ts : List Token} :
    ProgramDerives ps ts → ProgramDerives ps (.newline :: ts)
  | cons {p : ProcTree} {ps : List ProcTree} {us ts : List Token} :
    p.Derives us → ProgramDerives ps ts → ProgramDerives (p :: ps) (us ++ ts)

/-! ## Lists of tokens -/

theorem intercalate_cons {α : Type} (sep x : List α) (xs : List (List α)) :
    sep.intercalate (x :: xs) = x ++ xs.flatMap (sep ++ ·) := by
  induction xs generalizing x with
  | nil => simp [List.intercalate]
  | cons y ys ih => rw [List.intercalate_cons_cons, ih, List.flatMap_cons]; simp

theorem mem_intercalate {α : Type} {sep x : List α} {xs : List (List α)} {a : α} (hx : x ∈ xs)
    (ha : a ∈ x) : a ∈ sep.intercalate xs := by
  cases xs with
  | nil => cases hx
  | cons y ys =>
    rw [intercalate_cons, List.mem_append, List.mem_flatMap]
    cases hx with
    | head => exact .inl ha
    | tail _ hx => exact .inr ⟨x, hx, List.mem_append_right _ ha⟩

theorem mem_of_mem_intercalate {α : Type} {sep : List α} {xs : List (List α)} {a : α}
    (h : a ∈ sep.intercalate xs) : a ∈ sep ∨ ∃ x ∈ xs, a ∈ x := by
  cases xs with
  | nil => cases h
  | cons y ys =>
    rw [intercalate_cons, List.mem_append, List.mem_flatMap] at h
    rcases h with h | ⟨x, hx, h⟩
    · exact .inr ⟨y, List.mem_cons_self, h⟩
    · rcases List.mem_append.mp h with h | h
      · exact .inl h
      · exact .inr ⟨x, List.mem_cons_of_mem _ hx, h⟩

theorem forall_mem_intercalate {P : Token → Prop} (hcomma : P .comma) {tss : List (List Token)}
    (h : ∀ ts ∈ tss, ∀ u ∈ ts, P u) : ∀ u ∈ [Token.comma].intercalate tss, P u := by
  intro u hu
  rcases mem_of_mem_intercalate hu with hu | ⟨ts, hts, hu⟩
  · cases List.mem_singleton.mp hu
    exact hcomma
  · exact h ts hts u hu

theorem forall_mem_operandTokens {P : Token → Prop} (hcomma : P .comma) {os : List OperandTree}
    (h : ∀ o ∈ os, P o.token) : ∀ u ∈ OperandTree.tokens os, P u := by
  refine forall_mem_intercalate hcomma fun ts hts u hu => ?_
  obtain ⟨o, ho, rfl⟩ := List.mem_map.mp hts
  cases List.mem_singleton.mp hu
  exact h o ho

theorem forall_mem_nameTokens {P : Token → Prop} (hcomma : P .comma) {mk : String → Token}
    {names : List String} (h : ∀ n ∈ names, P (mk n)) : ∀ u ∈ nameTokens mk names, P u := by
  refine forall_mem_intercalate hcomma fun ts hts u hu => ?_
  obtain ⟨n, hn, rfl⟩ := List.mem_map.mp hts
  cases List.mem_singleton.mp hu
  exact h n hn

theorem OperandTree.tokens_cons (o : OperandTree) (os : List OperandTree) :
    OperandTree.tokens (o :: os) = o.token :: os.flatMap fun o => [.comma, o.token] := by
  simp [OperandTree.tokens, intercalate_cons, List.flatMap_map]

theorem nameTokens_cons {mk : String → Token} (l : String) (ls : List String) :
    nameTokens mk (l :: ls) = mk l :: ls.flatMap fun l => [.comma, mk l] := by
  simp [nameTokens, intercalate_cons, List.flatMap_map]

theorem NamesDerive.nil_iff {mk : String → Token} {ts : List Token} :
    NamesDerive mk [] ts ↔ ts = [] := by
  constructor
  · intro h
    cases h with
    | plain => rfl
    | trailing hne => exact absurd rfl hne
  · intro h
    subst h
    exact .plain

theorem NamesDerive.cons_comma {mk : String → Token} {ts : List Token} (l : String)
    {ls : List String} (h : NamesDerive mk ls ts) : NamesDerive mk (l :: ls) (mk l :: .comma :: ts) := by
  cases ls with
  | nil =>
    obtain rfl := NamesDerive.nil_iff.mp h
    exact .trailing (List.cons_ne_nil _ _)
  | cons k ks =>
    cases h with
    | plain =>
      have heq : mk l :: .comma :: nameTokens mk (k :: ks) = nameTokens mk (l :: k :: ks) := by
        simp [nameTokens_cons]
      rw [heq]
      exact .plain
    | trailing _ =>
      have heq : mk l :: .comma :: (nameTokens mk (k :: ks) ++ [.comma]) =
          nameTokens mk (l :: k :: ks) ++ [.comma] := by
        simp [nameTokens_cons]
      rw [heq]
      exact .trailing (List.cons_ne_nil _ _)

theorem NamesDerive.cons_cases {mk : String → Token} {l : String} {ls : List String}
    {ts : List Token} (h : NamesDerive mk (l :: ls) ts) :
    ls = [] ∧ ts = [mk l] ∨ ∃ us, ts = mk l :: .comma :: us ∧ NamesDerive mk ls us := by
  cases ls with
  | nil =>
    cases h with
    | plain => exact .inl ⟨rfl, rfl⟩
    | trailing _ => exact .inr ⟨[], rfl, .plain⟩
  | cons k ks =>
    right
    cases h with
    | plain => exact ⟨_, by simp [nameTokens_cons], .plain⟩
    | trailing _ => exact ⟨_, by simp [nameTokens_cons], .trailing (List.cons_ne_nil _ _)⟩

/-! ## First tokens -/

theorem ActionTree.Derives.exists_opcode {a : ActionTree} {ts : List Token} (h : a.Derives ts) :
    ∃ opcode us, ts = .ident opcode :: us := by
  cases h <;> exact ⟨_, _, rfl⟩

/-- A second token of an instruction is not a colon. -/
theorem ActionTree.Derives.head?_ne_colon {a : ActionTree} {opcode : String} {ts : List Token}
    (h : a.Derives (.ident opcode :: ts)) : ts.head? ≠ some .colon := by
  have hoperands : ∀ os, (OperandTree.tokens os).head? ≠ some .colon := by
    intro os
    cases os with
    | nil => nofun
    | cons o os => cases o <;> simp [OperandTree.tokens_cons, OperandTree.token]
  generalize hus : Token.ident opcode :: ts = us at h
  cases h with
  | compute _ => cases hus; exact hoperands _
  | @phi es hne =>
    cases hus
    cases es with
    | nil => exact absurd rfl hne
    | cons e es => simp [intercalate_cons, pairTokens]
  | br target => cases hus; nofun
  | condBr cond _ _ => cases hus; cases cond <;> nofun
  | switch value _ _ => cases hus; cases value <;> nofun
  | ret _ => cases hus; exact hoperands _
  | unreachable => cases hus; nofun

/-- An instruction does not start like a line end or the end of the procedure. -/
theorem InstTree.Derives.exists_head {i : InstTree} {ts : List Token} (h : i.Derives ts) :
    ∃ t us, ts = t :: us ∧ t ≠ .newline ∧ t ≠ .rbrace := by
  cases h with
  | plain _ ha =>
    obtain ⟨opcode, us, rfl⟩ := ha.exists_opcode
    exact ⟨_, us, rfl, nofun, nofun⟩
  | named n _ _ => exact ⟨_, _, rfl, nofun, nofun⟩

theorem ItemsDerive.ne_nil {is : List InstTree} {bs : List BlockTree} {ts : List Token}
    (h : ItemsDerive is bs ts) : ts ≠ [] := by
  induction h with
  | close => nofun
  | newline _ _ => nofun
  | label _ _ _ => nofun
  | inst _ _ _ ih =>
    intro h
    exact ih (List.append_eq_nil_iff.mp h).2

theorem ProcTree.Derives.exists_head {p : ProcTree} {ts : List Token} (h : p.Derives ts) :
    ∃ t us, ts = t :: us ∧ t ≠ .newline := by
  cases h with
  | mk name _ _ _ => exact ⟨_, _, rfl, nofun⟩

/-! ## Canonical tokens -/

/-- The tokens of an instruction without its result, with no comma to spare. -/
def ActionTree.tokens : ActionTree → List Token
  | compute opcode args => .ident opcode :: OperandTree.tokens args
  | phi incoming => .ident "phi" :: [Token.comma].intercalate (incoming.map pairTokens)
  | br target => [.ident "br", .ident target]
  | condBr cond ifTrue ifFalse =>
    [.ident "br", cond.token, .comma, .ident ifTrue, .comma, .ident ifFalse]
  | switch value default targets =>
    .ident "switch" :: value.token :: .comma :: .ident default :: .comma :: .lbracket ::
      (nameTokens .ident targets ++ [.rbracket])
  | ret values => .ident "ret" :: OperandTree.tokens values
  | unreachable => [.ident "unreachable"]

/-- The tokens of an instruction. -/
def InstTree.tokens (i : InstTree) : List Token :=
  match i.result with
  | none => i.action.tokens
  | some n => .localName n :: .equals :: i.action.tokens

/-- The tokens of a block, one line for its label and one for each instruction. -/
def BlockTree.lines (b : BlockTree) : List (List Token) :=
  [.ident b.label, .colon] :: b.insts.map InstTree.tokens

/-- The tokens of the first line of a procedure. -/
def ProcTree.header (t : ProcTree) : List Token :=
  .ident "func" :: .globalName t.name :: .lparen ::
    (nameTokens .localName t.args ++ [.rparen, .lbrace])

/-- The tokens of the blocks of a procedure, line by line. -/
def ProcTree.body (t : ProcTree) : List (List Token) := t.blocks.flatMap BlockTree.lines

/-- The tokens of a procedure, line by line. -/
def ProcTree.lines (t : ProcTree) : List (List Token) := t.header :: t.body ++ [[.rbrace]]

/-- Lines with their ends. -/
def lineTokens (lines : List (List Token)) : List Token := lines.flatMap (· ++ [.newline])

theorem NamesDerive.subset {mk : String → Token} {names : List String} {ts : List Token}
    (h : NamesDerive mk names ts) : nameTokens mk names ⊆ ts := by
  cases h with
  | plain => exact List.Subset.refl _
  | trailing _ => exact List.subset_append_left _ _

/-- What can be derived has canonical tokens, which are among those it was derived from. -/
theorem ActionTree.Derives.canonical {a : ActionTree} {ts : List Token} (h : a.Derives ts) :
    a.Derives a.tokens ∧ a.tokens ⊆ ts := by
  cases h with
  | compute hop => exact ⟨.compute hop, List.Subset.refl _⟩
  | phi hne => exact ⟨.phi hne, List.Subset.refl _⟩
  | br target => exact ⟨.br target, List.Subset.refl _⟩
  | condBr cond ifTrue ifFalse => exact ⟨.condBr cond ifTrue ifFalse, List.Subset.refl _⟩
  | switch value default hts =>
    refine ⟨.switch value default .plain, ?_⟩
    iterate 6 refine List.cons_subset_cons _ ?_
    exact List.append_subset.mpr
      ⟨List.Subset.trans hts.subset (List.subset_append_left _ _), List.subset_append_right _ _⟩
  | ret values => exact ⟨.ret values, List.Subset.refl _⟩
  | unreachable => exact ⟨.unreachable, List.Subset.refl _⟩

theorem InstTree.Derives.canonical {i : InstTree} {ts : List Token} (h : i.Derives ts) :
    i.Derives i.tokens ∧ i.tokens ⊆ ts := by
  cases h with
  | plain hphi ha => exact ⟨.plain hphi ha.canonical.1, ha.canonical.2⟩
  | named n hterm ha =>
    exact ⟨.named n hterm ha.canonical.1,
      List.cons_subset_cons _ (List.cons_subset_cons _ ha.canonical.2)⟩

theorem ItemsDerive.canonical {is : List InstTree} {bs : List BlockTree} {ts : List Token}
    (h : ItemsDerive is bs ts) :
    ItemsDerive is bs
        (lineTokens (is.map InstTree.tokens ++ bs.flatMap BlockTree.lines) ++ [.rbrace]) ∧
      (is.map InstTree.tokens ++ bs.flatMap BlockTree.lines).flatten ⊆ ts := by
  induction h with
  | close => exact ⟨.close, nofun⟩
  | newline _ ih => exact ⟨ih.1, List.subset_cons_of_subset _ ih.2⟩
  | @label l is bs ts _ ih =>
    have hlines : ([] : List InstTree).map InstTree.tokens ++
        (⟨l, is⟩ :: bs : List BlockTree).flatMap BlockTree.lines =
        [.ident l, .colon] :: (is.map InstTree.tokens ++ bs.flatMap BlockTree.lines) := rfl
    rw [hlines, lineTokens, List.flatMap_cons, List.flatten_cons]
    exact ⟨.label l (.newline ih.1), List.cons_subset_cons _ (List.cons_subset_cons _ ih.2)⟩
  | @inst i is bs us ts hi _ _ ih =>
    have hlines : (i :: is).map InstTree.tokens ++ bs.flatMap BlockTree.lines =
        i.tokens :: (is.map InstTree.tokens ++ bs.flatMap BlockTree.lines) := rfl
    rw [hlines, lineTokens, List.flatMap_cons, List.flatten_cons, List.append_assoc,
      List.append_assoc]
    exact ⟨.inst hi.canonical.1 (.inl rfl) (.newline ih.1), List.append_subset.mpr
      ⟨List.Subset.trans hi.canonical.2 (List.subset_append_left _ _),
        List.Subset.trans ih.2 (List.subset_append_right _ _)⟩⟩

theorem ItemsDerive.exists_inst {is : List InstTree} {bs : List BlockTree} {ts : List Token}
    (h : ItemsDerive is bs ts) :
    ∀ i ∈ is ++ bs.flatMap BlockTree.insts, ∃ us, i.Derives us := by
  induction h with
  | close => nofun
  | newline _ ih => exact ih
  | label l _ ih => exact ih
  | @inst i is bs us ts hi _ _ ih =>
    intro j hj
    rw [List.cons_append] at hj
    cases hj with
    | head => exact ⟨us, hi⟩
    | tail _ hj => exact ih j hj

theorem ProcTree.Derives.canonical {t : ProcTree} {ts : List Token} (h : t.Derives ts) :
    (∃ us, t.Derives us ∧ lineTokens t.lines = us ++ [.newline]) ∧
      t.header ++ t.body.flatten ⊆ ts := by
  cases h with
  | @mk name args blocks us ts hargs hne hitems =>
    obtain ⟨hbody, hsub⟩ := hitems.canonical
    refine ⟨⟨_, .mk name .plain hne (.newline hbody), ?_⟩, List.append_subset.mpr ⟨?_, ?_⟩⟩
    · simp [lineTokens, ProcTree.lines, ProcTree.header, ProcTree.body]
    · iterate 3 refine List.cons_subset_cons _ ?_
      exact List.append_subset.mpr
        ⟨List.Subset.trans hargs.subset (List.subset_append_left _ _),
          List.Subset.trans (List.subset_append_left [.rparen, .lbrace] ts)
            (List.subset_append_right _ _)⟩
    · intro u hu
      have hu : u ∈ ts := hsub hu
      simp [hu]

/-- Procedures that stand on their own lines, with an empty one between them. -/
theorem ProgramDerives.canonical {ps : List ProcTree} {ts : List Token}
    (h : ProgramDerives ps ts) :
    ProgramDerives ps ([Token.newline].intercalate (ps.map fun t => lineTokens t.lines)) := by
  induction h with
  | nil => exact .nil
  | newline _ ih => exact ih
  | @cons p ps us ts hp _ ih =>
    obtain ⟨⟨vs, hvs, hlines⟩, -⟩ := hp.canonical
    cases ps with
    | nil =>
      rw [List.map_cons, List.map_nil, List.intercalate_singleton, hlines]
      exact .cons hvs (.newline .nil)
    | cons q ps =>
      rw [List.map_cons, List.map_cons, List.intercalate_cons_cons, hlines, List.append_assoc,
        List.append_assoc]
      exact .cons hvs (.newline (.newline ih))

theorem ProcTree.Derives.blocks_ne_nil {t : ProcTree} {ts : List Token} (h : t.Derives ts) :
    t.blocks ≠ [] := by
  cases h with
  | mk _ _ hne _ => exact hne

theorem ProgramDerives.exists_derives {ps : List ProcTree} {ts : List Token}
    (h : ProgramDerives ps ts) : ∀ t ∈ ps, ∃ us, t.Derives us ∧ us ⊆ ts := by
  induction h with
  | nil => nofun
  | newline _ ih =>
    intro t ht
    obtain ⟨us, hus, hsub⟩ := ih t ht
    exact ⟨us, hus, List.subset_cons_of_subset _ hsub⟩
  | @cons p ps us ts hp _ ih =>
    intro t ht
    cases ht with
    | head => exact ⟨us, hp, List.subset_append_left _ _⟩
    | tail _ ht =>
      obtain ⟨vs, hvs, hsub⟩ := ih t ht
      exact ⟨vs, hvs, List.Subset.trans hsub (List.subset_append_right _ _)⟩

/-! ## Taking tokens -/

/-- The first token is `t`, and `rest` comes after it. -/
def Next (t : Token) (toks rest : Tokens) : Prop := ∃ line, toks = (t, line) :: rest

/-- The tokens `toks` are `ts`, followed by `rest`. -/
def Begins : List Token → Tokens → Tokens → Prop
  | [], toks, rest => toks = rest
  | t :: ts, toks, rest => ∃ mid, Next t toks mid ∧ Begins ts mid rest

theorem Next.unique {t t' : Token} {toks rest rest' : Tokens} (h : Next t toks rest)
    (h' : Next t' toks rest') : t = t' ∧ rest = rest' := by
  obtain ⟨line, rfl⟩ := h
  obtain ⟨line', heq⟩ := h'
  cases heq
  exact ⟨rfl, rfl⟩

theorem not_next_nil {t : Token} {rest : Tokens} : ¬ Next t [] rest := by
  rintro ⟨line, h⟩
  cases h

theorem begins_append {ts us : List Token} {toks rest : Tokens} :
    Begins (ts ++ us) toks rest ↔ ∃ mid, Begins ts toks mid ∧ Begins us mid rest := by
  induction ts generalizing toks with
  | nil => simp [Begins]
  | cons t ts ih =>
    simp only [List.cons_append, Begins, ih]
    constructor
    · rintro ⟨mid, hnext, mid', h, h'⟩
      exact ⟨mid', ⟨mid, hnext, h⟩, h'⟩
    · rintro ⟨mid', ⟨mid, hnext, h⟩, h'⟩
      exact ⟨mid, hnext, mid', h, h'⟩

theorem begins_map {ts : List Token} {toks : Tokens} :
    Begins ts toks [] ↔ toks.map Prod.fst = ts := by
  induction ts generalizing toks with
  | nil => simp [Begins]
  | cons t ts ih =>
    simp only [Begins, ih, Next]
    cases toks with
    | nil => simp
    | cons e toks =>
      obtain ⟨v, line⟩ := e
      simp

theorem Next.length_eq {t : Token} {toks rest : Tokens} (h : Next t toks rest) :
    toks.length = rest.length + 1 := by
  obtain ⟨line, rfl⟩ := h
  rfl

theorem Begins.length_eq {ts : List Token} {toks rest : Tokens} (h : Begins ts toks rest) :
    toks.length = rest.length + ts.length := by
  induction ts generalizing toks with
  | nil =>
    cases h
    rfl
  | cons t ts ih =>
    obtain ⟨mid, hnext, h⟩ := h
    rw [hnext.length_eq, ih h, List.length_cons]
    omega

theorem NamesDerive.begins_none {mk : String → Token} {ls : List String} {toks rest : Tokens}
    (hnone : ∀ l mid, ¬ Next (mk l) toks mid) :
    (∃ ts, NamesDerive mk ls ts ∧ Begins ts toks rest) ↔ [] = ls ∧ toks = rest := by
  constructor
  · rintro ⟨ts, hts, h⟩
    cases ls with
    | nil =>
      obtain rfl := NamesDerive.nil_iff.mp hts
      exact ⟨rfl, h⟩
    | cons l ls =>
      rcases hts.cons_cases with ⟨-, rfl⟩ | ⟨us, rfl, -⟩
      · obtain ⟨mid, hnext, -⟩ := h
        exact absurd hnext (hnone l mid)
      · obtain ⟨mid, hnext, -⟩ := h
        exact absurd hnext (hnone l mid)
  · rintro ⟨hls, h⟩
    subst hls
    exact ⟨[], .plain, h⟩

end SsaFlow
