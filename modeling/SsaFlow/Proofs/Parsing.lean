import SsaFlow.Proofs.Grammar
import SsaFlow.Proofs.Recording
import SsaFlow.Text.Parser

/-!
# Parsing

A parser takes tokens off the front.  `Takes x toks a rest` says that `x` succeeds
on `toks` with `a` and leaves `rest`.  For each parser an equivalence with `Begins` says
what it reads.  Lists go on as long as there are commas, so there the equivalence
asks for a `rest` at which they have to stop (`Stops`).
-/

namespace SsaFlow

namespace Parser

variable {α β : Type} {toks rest : Tokens} {eof : Nat}

/-- The parser succeeds on `toks` with `a` and leaves `rest`. -/
def Takes (x : Parser α) (toks : Tokens) (a : α) (rest : Tokens) : Prop :=
  x.run toks = .ok (a, rest)

theorem takes_pure {a b : α} : Takes (pure a) toks b rest ↔ a = b ∧ toks = rest := by
  simp only [Takes, StateT.run_pure, pure_eq_ok, Prod.mk.injEq]

theorem takes_bind {x : Parser α} {f : α → Parser β} {b : β} :
    Takes (x >>= f) toks b rest ↔ ∃ a mid, Takes x toks a mid ∧ Takes (f a) mid b rest := by
  simp only [Takes, StateT.run_bind, bind_eq_ok, Prod.exists]

theorem takes_map {x : Parser α} {f : α → β} {b : β} :
    Takes (f <$> x) toks b rest ↔ ∃ a, Takes x toks a rest ∧ f a = b := by
  simp only [Takes, StateT.run_map, map_eq_ok, Prod.exists, Prod.mk.injEq]
  constructor
  · rintro ⟨a, mid, h, rfl, rfl⟩
    exact ⟨a, h, rfl⟩
  · rintro ⟨a, h, rfl⟩
    exact ⟨a, rest, h, rfl, rfl⟩

theorem takes_get {a : Tokens} : Takes get toks a rest ↔ toks = a ∧ toks = rest := by
  simp only [Takes, StateT.run_get, pure_eq_ok, Prod.mk.injEq]

theorem takes_set {s : Tokens} {u : PUnit} : Takes (set s) toks u rest ↔ s = rest := by
  simp only [Takes, StateT.run_set, pure_eq_ok, Prod.mk.injEq, true_and]

theorem takes_lift {x : Except SourceError α} {a : α} :
    Takes (liftM x) toks a rest ↔ x = .ok a ∧ toks = rest := by
  have hlift : (liftM x : Parser α).run toks = x >>= fun b => pure (b, toks) := rfl
  simp only [Takes, hlift, bind_eq_ok, pure_eq_ok, Prod.mk.injEq]
  constructor
  · rintro ⟨b, rfl, rfl, rfl⟩
    exact ⟨rfl, rfl⟩
  · rintro ⟨rfl, rfl⟩
    exact ⟨a, rfl, rfl, rfl⟩

theorem not_takes_refuse {message : String} {a : α} : ¬ Takes (refuse eof message) toks a rest := by
  simp only [refuse, takes_bind]
  rintro ⟨_, _, -, h⟩
  cases h

theorem takes_expect {t : Token} {what : String} {u : Unit} :
    Takes (expect eof t what) toks u rest ↔ Next t toks rest := by
  simp only [expect, takes_bind, takes_get, Next]
  cases toks with
  | nil => simp [not_takes_refuse]
  | cons e toks =>
    obtain ⟨v, line⟩ := e
    by_cases hv : v = t
    · simp [hv, takes_set]
    · simp [hv, not_takes_refuse]

theorem takes_accept {t : Token} {c : Bool} :
    Takes (accept t) toks c rest ↔
      c = true ∧ Next t toks rest ∨ c = false ∧ toks = rest ∧ ∀ mid, ¬ Next t toks mid := by
  simp only [accept, takes_bind, takes_get, Next]
  cases toks with
  | nil => simp [takes_pure, eq_comm (a := false)]
  | cons e toks =>
    obtain ⟨v, line⟩ := e
    by_cases hv : v = t
    · simp [hv, takes_map, takes_set, and_comm, eq_comm (a := true)]
    · simp [hv, takes_pure, eq_comm (a := false)]

/-- A choice by the next token. -/
theorem takes_if_accept {t : Token} {x y : Parser α} {a : α} :
    Takes (do if ← accept t then x else y) toks a rest ↔
      (∃ mid, Next t toks mid ∧ Takes x mid a rest) ∨
        (∀ mid, ¬ Next t toks mid) ∧ Takes y toks a rest := by
  simp only [takes_bind, takes_accept]
  constructor
  · rintro ⟨c, mid, ⟨rfl, hmid⟩ | ⟨rfl, rfl, hno⟩, h⟩
    · exact .inl ⟨mid, hmid, by simpa using h⟩
    · exact .inr ⟨hno, by simpa using h⟩
  · rintro (⟨mid, hmid, h⟩ | ⟨hno, h⟩)
    · exact ⟨true, mid, .inl ⟨rfl, hmid⟩, by simpa using h⟩
    · exact ⟨false, toks, .inr ⟨rfl, rfl, hno⟩, by simpa using h⟩

theorem takes_word {what n : String} :
    Takes (word eof what) toks n rest ↔ Next (.ident n) toks rest := by
  simp only [word, takes_bind, takes_get, Next]
  cases toks with
  | nil => simp [not_takes_refuse]
  | cons e toks =>
    obtain ⟨v, line⟩ := e
    cases v with
    | ident m => simp [takes_map, takes_set, and_comm]
    | _ => simp [not_takes_refuse]

theorem takes_operand {o : OperandTree} :
    Takes (operand eof) toks o rest ↔ Next o.token toks rest := by
  simp only [operand, takes_bind, takes_get, Next]
  cases toks with
  | nil => simp [not_takes_refuse]
  | cons e toks =>
    obtain ⟨v, line⟩ := e
    cases v with
    | localName m => cases o <;> simp [takes_map, takes_set, and_comm, OperandTree.token]
    | int k => cases o <;> simp [takes_map, takes_set, and_comm, OperandTree.token]
    | _ => cases o <;> simp [not_takes_refuse, OperandTree.token]

/-! ## Lists -/

/-- The tokens are at their end, or go on with one that no list goes on with. -/
def Stops (toks : Tokens) : Prop :=
  ∀ t mid, Next t toks mid → t ∈ [Token.newline, .rbrace, .rbracket, .rparen]

theorem stops_of_next {t : Token} {mid : Tokens} (h : Next t toks mid)
    (ht : t ∈ [Token.newline, .rbrace, .rbracket, .rparen]) : Stops toks := by
  intro u mid' hu
  rw [← (h.unique hu).1]
  exact ht

theorem takes_moreOperands {n : Nat} {os : List OperandTree} (hn : toks.length ≤ n) :
    Takes (moreOperands eof n) toks os rest ↔
      Begins (os.flatMap fun o => [.comma, o.token]) toks rest ∧ ∀ mid, ¬ Next .comma rest mid := by
  induction n generalizing toks os with
  | zero =>
    obtain rfl : toks = [] := List.length_eq_zero_iff.mp (Nat.le_zero.mp hn)
    cases os with
    | nil =>
      simp only [moreOperands, takes_pure, List.flatMap_nil, Begins, true_and]
      constructor
      · intro h
        subst h
        exact ⟨rfl, fun _ => not_next_nil⟩
      · exact And.left
    | cons o os => simp [moreOperands, takes_pure, Begins, Next]
  | succ n ih =>
    rw [moreOperands, takes_if_accept]
    simp only [takes_bind, takes_operand, takes_pure]
    constructor
    · rintro (⟨mid, hcomma, o, mid', ho, os', mid'', hos, rfl, rfl⟩ | ⟨hno, rfl, rfl⟩)
      · rw [ih (by have := hcomma.length_eq; have := ho.length_eq; omega)] at hos
        exact ⟨⟨mid, hcomma, mid', ho, hos.1⟩, hos.2⟩
      · exact ⟨rfl, hno⟩
    · rintro ⟨h, hno⟩
      cases os with
      | nil =>
        obtain rfl : toks = rest := h
        exact .inr ⟨hno, rfl, rfl⟩
      | cons o os =>
        obtain ⟨mid, hcomma, mid', ho, hos⟩ := h
        have hos := (ih (by have := hcomma.length_eq; have := ho.length_eq; omega)).mpr ⟨hos, hno⟩
        exact .inl ⟨mid, hcomma, o, mid', ho, os, rest, hos, rfl, rfl⟩

theorem takes_operands {os : List OperandTree} (hrest : Stops rest) :
    Takes (operands eof) toks os rest ↔ Begins (OperandTree.tokens os) toks rest := by
  have hno : ∀ mid, ¬ Next .comma rest mid := fun mid h => by simpa using hrest _ _ h
  by_cases hfirst : ∃ (o : OperandTree) (mid : Tokens), Next o.token toks mid
  · obtain ⟨o, mid, hnext⟩ := hfirst
    have heq : (operands eof).run toks =
        (do let v ← operand eof; return v :: (← moreOperands eof mid.length)).run toks := by
      obtain ⟨line, rfl⟩ := hnext
      cases o with
      | name n => rfl
      | int k => rfl
    rw [Takes, heq]
    show Takes _ toks os rest ↔ _
    simp only [takes_bind, takes_operand, takes_pure]
    constructor
    · rintro ⟨v, mid', hv, vs, _, hvs, rfl, rfl⟩
      obtain ⟨-, rfl⟩ := hnext.unique hv
      rw [OperandTree.tokens_cons]
      exact ⟨mid, hv, ((takes_moreOperands (Nat.le_refl _)).mp hvs).1⟩
    · intro h
      cases os with
      | nil =>
        obtain rfl : toks = rest := h
        cases o <;> simpa [OperandTree.token] using hrest _ _ hnext
      | cons v vs =>
        rw [OperandTree.tokens_cons] at h
        obtain ⟨mid', hv, hvs⟩ := h
        obtain ⟨-, rfl⟩ := hnext.unique hv
        exact ⟨v, mid, hv, vs, rest, (takes_moreOperands (Nat.le_refl _)).mpr ⟨hvs, hno⟩, rfl, rfl⟩
  · have heq : (operands eof).run toks = (pure [] : Parser (List OperandTree)).run toks := by
      cases toks with
      | nil => rfl
      | cons e mid =>
        obtain ⟨t, line⟩ := e
        cases t with
        | localName n => exact absurd ⟨.name n, mid, line, rfl⟩ hfirst
        | int k => exact absurd ⟨.int k, mid, line, rfl⟩ hfirst
        | _ => rfl
    rw [Takes, heq]
    show Takes _ toks os rest ↔ _
    rw [takes_pure]
    cases os with
    | nil => simp [OperandTree.tokens, Begins]
    | cons v vs =>
      rw [OperandTree.tokens_cons]
      constructor
      · intro h
        cases h.1
      · rintro ⟨mid, hv, _⟩
        exact absurd ⟨v, mid, hv⟩ hfirst

/-! ## Names -/

/-- What a parser does that takes names divided by commas: one round for each name. -/
structure ReadsNames (f : Nat → Parser (List String)) (mk : String → Token) : Prop where
  inj : Function.Injective mk
  goes : ∀ l, mk l ∉ [Token.newline, .rbrace, .rbracket, .rparen]
  zero : f 0 = pure []
  next : ∀ {n toks l mid}, Next (mk l) toks mid → (f (n + 1)).run toks =
    (do if ← accept .comma then return l :: (← f n) else return [l] : Parser _).run mid
  stop : ∀ {n toks}, (∀ l mid, ¬ Next (mk l) toks mid) →
    (f (n + 1)).run toks = (pure [] : Parser _).run toks

theorem ReadsNames.takes_iff {f : Nat → Parser (List String)} {mk : String → Token}
    (hf : ReadsNames f mk) {n : Nat} {ls : List String} (hn : toks.length ≤ n)
    (hrest : Stops rest) :
    Takes (f n) toks ls rest ↔ ∃ ts, NamesDerive mk ls ts ∧ Begins ts toks rest := by
  have hno : ∀ mid, ¬ Next .comma rest mid := fun mid h => by simpa using hrest _ _ h
  induction n generalizing toks ls with
  | zero =>
    obtain rfl : toks = [] := List.length_eq_zero_iff.mp (Nat.le_zero.mp hn)
    rw [hf.zero, takes_pure, NamesDerive.begins_none fun _ _ => not_next_nil]
  | succ n ih =>
    by_cases hfirst : ∃ l mid, Next (mk l) toks mid
    · obtain ⟨l, mid, hnext⟩ := hfirst
      have hlen := hnext.length_eq
      have hround : Takes (f (n + 1)) toks ls rest ↔
          (∃ mid', Next .comma mid mid' ∧ ∃ ls', Takes (f n) mid' ls' rest ∧ l :: ls' = ls) ∨
            (∀ mid', ¬ Next .comma mid mid') ∧ [l] = ls ∧ mid = rest := by
        rw [Takes, hf.next hnext]
        show Takes _ mid ls rest ↔ _
        rw [takes_if_accept]
        simp [takes_map, takes_pure]
      rw [hround]
      constructor
      · rintro (⟨mid', hcomma, ls', hls', rfl⟩ | ⟨-, rfl, rfl⟩)
        · obtain ⟨ts, hts, h⟩ := (ih (by have := hcomma.length_eq; omega)).mp hls'
          exact ⟨_, hts.cons_comma l, mid, hnext, mid', hcomma, h⟩
        · exact ⟨[mk l], .plain, mid, hnext, rfl⟩
      · rintro ⟨ts, hts, h⟩
        cases ls with
        | nil =>
          obtain rfl := NamesDerive.nil_iff.mp hts
          obtain rfl : toks = rest := h
          exact absurd (hrest _ _ hnext) (hf.goes l)
        | cons k ks =>
          rcases hts.cons_cases with ⟨rfl, rfl⟩ | ⟨us, rfl, hus⟩
          · obtain ⟨mid', hnext', rfl⟩ := h
            obtain ⟨hkl, rfl⟩ := hnext.unique hnext'
            cases hf.inj hkl
            exact .inr ⟨hno, rfl, rfl⟩
          · obtain ⟨mid', hnext', mid'', hcomma, h⟩ := h
            obtain ⟨hkl, rfl⟩ := hnext.unique hnext'
            cases hf.inj hkl
            have hks := (ih (by have := hcomma.length_eq; omega)).mpr ⟨us, hus, h⟩
            exact .inl ⟨mid'', hcomma, ks, hks, rfl⟩
    · rw [Takes, hf.stop (fun l mid hnext => hfirst ⟨l, mid, hnext⟩)]
      show Takes _ toks ls rest ↔ _
      rw [takes_pure, NamesDerive.begins_none fun l mid hnext => hfirst ⟨l, mid, hnext⟩]

theorem readsNames_labels : ReadsNames labels .ident where
  inj _ _ h := Token.ident.inj h
  goes l := by simp
  zero := rfl
  next h := by
    obtain ⟨line, rfl⟩ := h
    rfl
  stop {n toks} h := by
    cases toks with
    | nil => rfl
    | cons e mid =>
      obtain ⟨t, line⟩ := e
      cases t with
      | ident l => exact absurd ⟨line, rfl⟩ (h l mid)
      | _ => rfl

theorem readsNames_params : ReadsNames params .localName where
  inj _ _ h := Token.localName.inj h
  goes l := by simp
  zero := rfl
  next h := by
    obtain ⟨line, rfl⟩ := h
    rfl
  stop {n toks} h := by
    cases toks with
    | nil => rfl
    | cons e mid =>
      obtain ⟨t, line⟩ := e
      cases t with
      | localName l => exact absurd ⟨line, rfl⟩ (h l mid)
      | _ => rfl

/-! ## Instructions -/

theorem takes_incomingPair {e : OperandTree × String} :
    Takes (incomingPair eof) toks e rest ↔ Begins (pairTokens e) toks rest := by
  simp only [incomingPair, takes_bind, takes_expect, takes_operand, takes_word, takes_pure,
    pairTokens, Begins]
  constructor
  · rintro ⟨_, mid, h, o, mid', h', _, mid'', h'', l, mid₃, h₃, _, mid₄, h₄, rfl, rfl⟩
    exact ⟨mid, h, mid', h', mid'', h'', mid₃, h₃, mid₄, h₄, rfl⟩
  · rintro ⟨mid, h, mid', h', mid'', h'', mid₃, h₃, mid₄, h₄, rfl⟩
    exact ⟨(), mid, h, e.1, mid', h', (), mid'', h'', e.2, mid₃, h₃, (), mid₄, h₄, rfl, rfl⟩

theorem takes_incomingPairs {n : Nat} {es : List (OperandTree × String)} (hn : toks.length ≤ n)
    (hrest : Stops rest) :
    Takes (incomingPairs eof n) toks es rest ↔
      es ≠ [] ∧ Begins ([Token.comma].intercalate (es.map pairTokens)) toks rest := by
  have hno : ∀ mid, ¬ Next .comma rest mid := fun mid h => by simpa using hrest _ _ h
  induction n generalizing toks es with
  | zero =>
    obtain rfl : toks = [] := List.length_eq_zero_iff.mp (Nat.le_zero.mp hn)
    simp only [incomingPairs, not_takes_refuse, false_iff, not_and]
    intro hne h
    cases es with
    | nil => exact hne rfl
    | cons e es =>
      rw [List.map_cons, intercalate_cons] at h
      obtain ⟨_, ⟨_, hnext, -⟩, -⟩ := begins_append.mp h
      exact not_next_nil hnext
  | succ n ih =>
    rw [incomingPairs, takes_bind]
    simp only [takes_if_accept, takes_incomingPair]
    simp only [takes_bind, takes_pure]
    constructor
    · rintro ⟨e, mid, he, ⟨mid', hcomma, es', _, hes', rfl, rfl⟩ | ⟨-, rfl, rfl⟩⟩
      · have hlen : mid'.length ≤ n := by
          have := he.length_eq
          have := hcomma.length_eq
          omega
        obtain ⟨hne, h⟩ := (ih hlen).mp hes'
        cases es' with
        | nil => exact absurd rfl hne
        | cons e' es' =>
          refine ⟨List.cons_ne_nil _ _, ?_⟩
          rw [List.map_cons, List.map_cons, List.intercalate_cons_cons, List.append_assoc]
          exact begins_append.mpr ⟨mid, he, mid', hcomma, h⟩
      · exact ⟨List.cons_ne_nil _ _, by simpa [List.intercalate] using he⟩
    · rintro ⟨hne, h⟩
      cases es with
      | nil => exact absurd rfl hne
      | cons e es =>
        cases es with
        | nil => exact ⟨e, rest, by simpa [List.intercalate] using h, .inr ⟨hno, rfl, rfl⟩⟩
        | cons e' es =>
          rw [List.map_cons, List.map_cons, List.intercalate_cons_cons, List.append_assoc] at h
          obtain ⟨mid, he, mid', hcomma, h⟩ := begins_append.mp h
          have hlen : mid'.length ≤ n := by
            have := he.length_eq
            have := hcomma.length_eq
            omega
          have hes := (ih hlen).mpr ⟨List.cons_ne_nil e' es, h⟩
          exact ⟨e, mid, he, .inl ⟨mid', hcomma, e' :: es, rest, hes, rfl, rfl⟩⟩

theorem takes_branch {a : ActionTree} :
    Takes (branch eof) toks a rest ↔
      (∃ l, a = .br l ∧ Next (.ident l) toks rest) ∨
        ∃ o l l', a = .condBr o l l' ∧
          Begins [o.token, .comma, .ident l, .comma, .ident l'] toks rest := by
  by_cases hlabel : ∃ l mid, Next (.ident l) toks mid
  · obtain ⟨l, mid, hnext⟩ := hlabel
    have heq : (branch eof).run toks = .ok (.br l, mid) := by
      obtain ⟨line, rfl⟩ := hnext
      rfl
    rw [Takes, heq]
    constructor
    · intro h
      cases h
      exact .inl ⟨l, rfl, hnext⟩
    · rintro (⟨l', rfl, hnext'⟩ | ⟨o, x, y, rfl, mid', ho, -⟩)
      · obtain ⟨hl, rfl⟩ := hnext.unique hnext'
        cases hl
        rfl
      · obtain ⟨ho, -⟩ := hnext.unique ho
        cases o <;> cases ho
  · have heq : (branch eof).run toks = (do
        let cond ← operand eof
        expect eof .comma "`,`"
        let ifTrue ← word eof "label"
        expect eof .comma "`,`"
        let ifFalse ← word eof "label"
        return .condBr cond ifTrue ifFalse : Parser ActionTree).run toks := by
      cases toks with
      | nil => rfl
      | cons e mid =>
        obtain ⟨t, line⟩ := e
        cases t with
        | ident l => exact absurd ⟨l, mid, line, rfl⟩ hlabel
        | _ => rfl
    rw [Takes, heq]
    show Takes _ toks a rest ↔ _
    simp only [takes_bind, takes_operand, takes_expect, takes_word, takes_pure, Begins]
    constructor
    · rintro ⟨o, mid, ho, _, mid₁, h₁, l, mid₂, h₂, _, mid₃, h₃, l', mid₄, h₄, rfl, rfl⟩
      exact .inr ⟨o, l, l', rfl, mid, ho, mid₁, h₁, mid₂, h₂, mid₃, h₃, mid₄, h₄, rfl⟩
    · rintro (⟨l, -, h⟩ | ⟨o, l, l', rfl, mid, ho, mid₁, h₁, mid₂, h₂, mid₃, h₃, mid₄, h₄, rfl⟩)
      · exact absurd ⟨l, rest, h⟩ hlabel
      · exact ⟨o, mid, ho, (), mid₁, h₁, l, mid₂, h₂, (), mid₃, h₃, l', mid₄, h₄, rfl, rfl⟩

theorem takes_switchTail {a : ActionTree} :
    Takes (switchTail eof) toks a rest ↔
      ∃ o l ls ts, a = .switch o l ls ∧ NamesDerive .ident ls ts ∧
        Begins (o.token :: .comma :: .ident l :: .comma :: .lbracket :: (ts ++ [.rbracket])) toks
          rest := by
  simp only [switchTail, takes_bind, takes_operand, takes_expect, takes_word, takes_get, takes_pure,
    Begins, begins_append]
  constructor
  · rintro ⟨o, m₁, h₁, _, m₂, h₂, l, m₃, h₃, _, m₄, h₄, _, m₅, h₅, _, _, ⟨rfl, rfl⟩, ls, m₆, h₆, _,
      m₇, h₇, rfl, rfl⟩
    have hstop : Stops m₆ := stops_of_next h₇ (by simp)
    obtain ⟨ts, hts, h₆⟩ := (readsNames_labels.takes_iff (Nat.le_refl _) hstop).mp h₆
    exact ⟨o, l, ls, ts, rfl, hts, m₁, h₁, m₂, h₂, m₃, h₃, m₄, h₄, m₅, h₅, m₆, h₆, m₇, h₇, rfl⟩
  · rintro ⟨o, l, ls, ts, rfl, hts, m₁, h₁, m₂, h₂, m₃, h₃, m₄, h₄, m₅, h₅, m₆, h₆, m₇, h₇, rfl⟩
    have hstop : Stops m₆ := stops_of_next h₇ (by simp)
    have h₆ := (readsNames_labels.takes_iff (Nat.le_refl _) hstop).mpr ⟨ts, hts, h₆⟩
    exact ⟨o, m₁, h₁, (), m₂, h₂, l, m₃, h₃, (), m₄, h₄, (), m₅, h₅, m₅, m₅, ⟨rfl, rfl⟩, ls, m₆, h₆,
      (), m₇, h₇, rfl, rfl⟩

theorem takes_action {opcode : String} {a : ActionTree} (hrest : Stops rest) :
    Takes (action eof opcode) toks a rest ↔
      ∃ ts, a.Derives (.ident opcode :: ts) ∧ Begins ts toks rest := by
  constructor
  · intro h
    simp only [action] at h
    split at h
    next hop =>
      subst hop
      simp only [takes_bind, takes_get, takes_pure] at h
      obtain ⟨_, _, ⟨rfl, rfl⟩, es, _, hes, rfl, rfl⟩ := h
      obtain ⟨hne, h⟩ := (takes_incomingPairs (Nat.le_refl _) hrest).mp hes
      exact ⟨_, .phi hne, h⟩
    split at h
    next hop =>
      subst hop
      cases takes_branch.mp h with
      | inl hbr =>
        obtain ⟨l, rfl, hl⟩ := hbr
        exact ⟨_, .br l, rest, hl, rfl⟩
      | inr hbr =>
        obtain ⟨o, l, l', rfl, hl⟩ := hbr
        exact ⟨_, .condBr o l l', hl⟩
    split at h
    next hop =>
      subst hop
      obtain ⟨o, l, ls, ts, rfl, hts, h⟩ := takes_switchTail.mp h
      exact ⟨_, .switch o l hts, h⟩
    split at h
    next hop =>
      subst hop
      simp only [takes_bind, takes_pure] at h
      obtain ⟨os, _, hos, rfl, rfl⟩ := h
      exact ⟨_, .ret os, (takes_operands hrest).mp hos⟩
    split at h
    next hop =>
      subst hop
      obtain ⟨rfl, rfl⟩ := takes_pure.mp h
      exact ⟨_, .unreachable, rfl⟩
    next h₁ h₂ h₃ h₄ h₅ =>
      simp only [takes_bind, takes_pure] at h
      obtain ⟨os, _, hos, rfl, rfl⟩ := h
      exact ⟨_, .compute (by simp [keywords, h₁, h₂, h₃, h₄, h₅]), (takes_operands hrest).mp hos⟩
  · rintro ⟨ts, ha, h⟩
    generalize hus : Token.ident opcode :: ts = us at ha
    cases ha with
    | compute hop =>
      cases hus
      simp only [keywords, List.mem_cons, List.not_mem_nil, or_false, not_or] at hop
      obtain ⟨h₁, h₂, h₃, h₄, h₅⟩ := hop
      simp only [action, h₁, h₂, h₃, h₄, h₅, if_false, takes_bind, takes_pure]
      exact ⟨_, rest, (takes_operands hrest).mpr h, rfl, rfl⟩
    | phi hne =>
      cases hus
      simp only [action, if_true, takes_bind, takes_get, takes_pure]
      exact ⟨toks, toks, ⟨rfl, rfl⟩, _, rest,
        (takes_incomingPairs (Nat.le_refl _) hrest).mpr ⟨hne, h⟩, rfl, rfl⟩
    | br target =>
      cases hus
      obtain ⟨_, h, rfl⟩ := h
      simp only [action, String.reduceEq, if_true, if_false]
      exact takes_branch.mpr (.inl ⟨target, rfl, h⟩)
    | condBr cond ifTrue ifFalse =>
      cases hus
      simp only [action, String.reduceEq, if_true, if_false]
      exact takes_branch.mpr (.inr ⟨cond, ifTrue, ifFalse, rfl, h⟩)
    | switch value default hts =>
      cases hus
      simp only [action, String.reduceEq, if_true, if_false]
      exact takes_switchTail.mpr ⟨value, default, _, _, rfl, hts, h⟩
    | ret values =>
      cases hus
      simp only [action, String.reduceEq, if_true, if_false, takes_bind, takes_pure]
      exact ⟨values, rest, (takes_operands hrest).mpr h, rfl, rfl⟩
    | unreachable =>
      cases hus
      simp only [action, String.reduceEq, if_true, if_false]
      exact takes_pure.mpr ⟨rfl, h⟩

theorem takes_result {r : Option String} :
    Takes result toks r rest ↔
      (∃ n, r = some n ∧ Begins [.localName n, .equals] toks rest) ∨
        r = none ∧ toks = rest ∧ ∀ n mid, ¬ Begins [.localName n, .equals] toks mid := by
  by_cases hnamed : ∃ n mid, Begins [.localName n, .equals] toks mid
  · obtain ⟨n, mid, h⟩ := hnamed
    have heq : result.run toks = .ok (some n, mid) := by
      obtain ⟨_, ⟨line, rfl⟩, _, ⟨line', rfl⟩, rfl⟩ := h
      rfl
    rw [Takes, heq]
    constructor
    · intro heq'
      cases heq'
      exact .inl ⟨n, rfl, h⟩
    · rintro (⟨n', rfl, h'⟩ | ⟨-, -, hno⟩)
      · obtain ⟨_, hn, _, hsign, rfl⟩ := h
        obtain ⟨_, hn', _, hsign', rfl⟩ := h'
        obtain ⟨hnn, rfl⟩ := hn.unique hn'
        obtain ⟨-, rfl⟩ := hsign.unique hsign'
        cases hnn
        rfl
      · exact absurd h (hno n mid)
  · have heq : result.run toks = (pure none : Parser _).run toks := by
      cases toks with
      | nil => rfl
      | cons e mid =>
        obtain ⟨t, line⟩ := e
        cases t with
        | localName n =>
          cases mid with
          | nil => rfl
          | cons e mid =>
            obtain ⟨u, line'⟩ := e
            cases u with
            | equals => exact absurd ⟨n, mid, _, ⟨line, rfl⟩, _, ⟨line', rfl⟩, rfl⟩ hnamed
            | _ => rfl
        | _ => rfl
    rw [Takes, heq]
    show Takes _ toks r rest ↔ _
    rw [takes_pure]
    constructor
    · rintro ⟨hr, h⟩
      exact .inr ⟨hr.symm, h, fun n mid h' => hnamed ⟨n, mid, h'⟩⟩
    · rintro (⟨n, -, h⟩ | ⟨rfl, h, -⟩)
      · exact absurd ⟨n, rest, h⟩ hnamed
      · exact ⟨rfl, h⟩

/-- The end of a line is taken, but a closing brace or the end of the tokens stays. -/
def LineEnds (toks rest : Tokens) : Prop :=
  Next .newline toks rest ∨ toks = rest ∧ (toks = [] ∨ ∃ mid, Next .rbrace toks mid)

theorem takes_endOfLine {u : Unit} : Takes (endOfLine eof) toks u rest ↔ LineEnds toks rest := by
  simp only [endOfLine, takes_bind, takes_get, LineEnds, Next]
  cases toks with
  | nil => simp [takes_pure]
  | cons e mid =>
    obtain ⟨t, line⟩ := e
    cases t with
    | newline => simp [takes_set]
    | rbrace => simp [takes_pure]
    | _ => simp [not_takes_refuse]

theorem LineEnds.stops (h : LineEnds toks rest) : Stops toks := by
  rcases h with h | ⟨-, rfl | ⟨mid, h⟩⟩
  · exact stops_of_next h (by simp)
  · exact fun _ _ h => absurd h not_next_nil
  · exact stops_of_next h (by simp)

theorem takes_instruction {i : InstTree} :
    Takes (instruction eof) toks i rest ↔
      ∃ ts mid, i.Derives ts ∧ Begins ts toks mid ∧ LineEnds mid rest := by
  simp only [instruction, takes_bind, takes_result, takes_word]
  constructor
  · rintro ⟨r, m₁, hr, opcode, m₂, hop, a, m₃, ha, h⟩
    split at h
    next => exact absurd h not_takes_refuse
    split at h
    next => exact absurd h not_takes_refuse
    next hterm hphi =>
      simp only [takes_bind, takes_endOfLine, takes_pure] at h
      obtain ⟨_, _, hline, rfl, rfl⟩ := h
      obtain ⟨ts, hts, ha⟩ := (takes_action hline.stops).mp ha
      rcases hr with ⟨n, rfl, hn⟩ | ⟨rfl, rfl, -⟩
      · refine ⟨_, m₃, .named n (by simpa using hterm) hts, ?_, hline⟩
        obtain ⟨m, hn, m', heq, rfl⟩ := hn
        exact ⟨m, hn, m', heq, m₂, hop, ha⟩
      · exact ⟨_, m₃, .plain (by simpa using hphi) hts, ⟨m₂, hop, ha⟩, hline⟩
  · rintro ⟨ts, mid, hi, h, hline⟩
    cases hi with
    | plain hphi ha =>
      obtain ⟨opcode, us, rfl⟩ := ha.exists_opcode
      obtain ⟨m₁, hop, h⟩ := h
      refine ⟨none, toks, .inr ⟨rfl, rfl, ?_⟩, opcode, m₁, hop, _, mid,
        (takes_action hline.stops).mpr ⟨us, ha, h⟩, ?_⟩
      · intro n mid' ⟨_, hn, _⟩
        cases (hop.unique hn).1
      · simp only [Option.isSome_none, Bool.false_and, Bool.false_eq_true, if_false, hphi,
          Bool.and_false, takes_bind, takes_endOfLine, takes_pure]
        exact ⟨(), rest, hline, trivial, rfl⟩
    | named n hterm ha =>
      obtain ⟨opcode, us, rfl⟩ := ha.exists_opcode
      obtain ⟨m₁, hn, m₂, heq, m₃, hop, h⟩ := h
      refine ⟨some n, m₂, .inl ⟨n, rfl, m₁, hn, m₂, heq, rfl⟩, opcode, m₃, hop, _, mid,
        (takes_action hline.stops).mpr ⟨us, ha, h⟩, ?_⟩
      simp only [Option.isNone_some, Bool.false_and, Bool.false_eq_true, if_false, hterm,
        Bool.and_false, takes_bind, takes_endOfLine, takes_pure]
      exact ⟨(), rest, hline, trivial, rfl⟩

/-! ## Procedures -/

theorem takes_skipNewlines {u : Unit} :
    Takes skipNewlines toks u rest ↔ toks.dropWhile (·.1 = .newline) = rest := by
  have hrun : skipNewlines.run toks = .ok ((), toks.dropWhile (·.1 = .newline)) := rfl
  simp [Takes, hrun]

/-- A line end before the items of a procedure makes no difference. -/
theorem takes_items_newline {n : Nat} {r : List InstTree × List BlockTree} {mid : Tokens}
    (h : Next .newline toks mid) :
    Takes (items eof n) toks r rest ↔ Takes (items eof n) mid r rest := by
  obtain ⟨line, rfl⟩ := h
  cases n with
  | zero => simp only [items, not_takes_refuse]
  | succ n => simp [items, takes_bind, takes_skipNewlines]

theorem not_label {i : InstTree} {ts : List Token} {mid : Tokens} (hi : i.Derives ts)
    (h : Begins ts toks mid) (hline : LineEnds mid rest) {l : String} {mid' : Tokens} :
    ¬ Begins [.ident l, .colon] toks mid' := by
  rintro ⟨m₁, hl, m₂, hcolon, _⟩
  cases hi with
  | plain hphi ha =>
    obtain ⟨opcode, us, rfl⟩ := ha.exists_opcode
    obtain ⟨m₁', hop, h⟩ := h
    obtain ⟨-, rfl⟩ := hl.unique hop
    cases us with
    | nil =>
      obtain rfl : m₁ = mid := h
      simpa using hline.stops _ _ hcolon
    | cons u us =>
      obtain ⟨_, hu, -⟩ := h
      exact ha.head?_ne_colon (by rw [(hcolon.unique hu).1, List.head?_cons])
  | named n hterm ha =>
    obtain ⟨_, hn, -⟩ := h
    cases (hl.unique hn).1

theorem items_close {n : Nat} (h : Next .rbrace toks rest) :
    Takes (items eof (n + 1)) toks ([], []) rest := by
  obtain ⟨line, rfl⟩ := h
  rfl

theorem takes_items_label {n : Nat} {l : String} {mid : Tokens}
    {r : List InstTree × List BlockTree} (h : Begins [.ident l, .colon] toks mid) :
    Takes (items eof (n + 1)) toks r rest ↔
      ∃ is bs, Takes (items eof n) mid (is, bs) rest ∧ r = ([], ⟨l, is⟩ :: bs) := by
  have heq : (items eof (n + 1)).run toks = (do
      let r ← items eof n
      return ([], ⟨l, r.1⟩ :: r.2) : Parser _).run mid := by
    obtain ⟨_, ⟨line, rfl⟩, _, ⟨line', rfl⟩, rfl⟩ := h
    rfl
  rw [Takes, heq]
  show Takes _ mid r rest ↔ _
  simp only [takes_bind, takes_pure, Prod.exists]
  constructor
  · rintro ⟨is, bs, _, h, rfl, rfl⟩
    exact ⟨is, bs, h, rfl⟩
  · rintro ⟨is, bs, h, rfl⟩
    exact ⟨is, bs, rest, h, rfl, rfl⟩

theorem takes_items_inst {n : Nat} {t : Token} {mid : Tokens}
    {r : List InstTree × List BlockTree} (hnext : Next t toks mid) (hnewline : t ≠ .newline)
    (hrbrace : t ≠ .rbrace) (hlabel : ∀ l mid, ¬ Begins [.ident l, .colon] toks mid) :
    Takes (items eof (n + 1)) toks r rest ↔
      ∃ i mid is bs, Takes (instruction eof) toks i mid ∧ Takes (items eof n) mid (is, bs) rest ∧
        r = (i :: is, bs) := by
  have heq : (items eof (n + 1)).run toks = (do
      let i ← instruction eof
      let r ← items eof n
      return (i :: r.1, r.2) : Parser _).run toks := by
    obtain ⟨line, rfl⟩ := hnext
    cases t with
    | newline => exact absurd rfl hnewline
    | rbrace => exact absurd rfl hrbrace
    | ident l =>
      cases mid with
      | nil => rfl
      | cons e mid =>
        obtain ⟨u, line'⟩ := e
        cases u with
        | colon => exact absurd ⟨_, ⟨line, rfl⟩, _, ⟨line', rfl⟩, rfl⟩ (hlabel l mid)
        | _ => rfl
    | _ => rfl
  rw [Takes, heq]
  show Takes _ toks r rest ↔ _
  simp only [takes_bind, takes_pure, Prod.exists]
  constructor
  · rintro ⟨i, mid, hi, is, bs, _, h, rfl, rfl⟩
    exact ⟨i, mid, is, bs, hi, h, rfl⟩
  · rintro ⟨i, mid, is, bs, hi, h, rfl⟩
    exact ⟨i, mid, hi, is, bs, rest, h, rfl, rfl⟩

theorem not_takes_items_nil {n : Nat} {r : List InstTree × List BlockTree} :
    ¬ Takes (items eof n) [] r rest := by
  cases n with
  | zero => exact not_takes_refuse
  | succ n =>
    intro h
    exact (not_takes_refuse : ¬ Takes (refuse eof "unterminated function") [] r rest) h

theorem itemsDerive_of_takes {n : Nat} {is : List InstTree} {bs : List BlockTree}
    (h : Takes (items eof n) toks (is, bs) rest) :
    ∃ ts, ItemsDerive is bs ts ∧ Begins ts toks rest := by
  induction n generalizing toks is bs with
  | zero => exact absurd h not_takes_refuse
  | succ n ih =>
    induction toks with
    | nil => exact absurd h not_takes_items_nil
    | cons e toks ihtoks =>
      obtain ⟨t, line⟩ := e
      have hnext : Next t ((t, line) :: toks) toks := ⟨line, rfl⟩
      by_cases hnewline : t = .newline
      · subst hnewline
        obtain ⟨ts, hts, hbegins⟩ := ihtoks ((takes_items_newline hnext).mp h)
        exact ⟨_, .newline hts, toks, hnext, hbegins⟩
      by_cases hrbrace : t = .rbrace
      · subst hrbrace
        cases h
        exact ⟨_, .close, rest, hnext, rfl⟩
      by_cases hlabel : ∃ l mid, Begins [.ident l, .colon] ((t, line) :: toks) mid
      · obtain ⟨l, mid, hl⟩ := hlabel
        obtain ⟨is', bs', h', heq⟩ := (takes_items_label hl).mp h
        cases heq
        obtain ⟨ts, hts, hbegins⟩ := ih h'
        obtain ⟨m₁, hl, m₂, hcolon, rfl⟩ := hl
        exact ⟨_, .label l hts, m₁, hl, m₂, hcolon, hbegins⟩
      · rw [takes_items_inst hnext hnewline hrbrace fun l mid h => hlabel ⟨l, mid, h⟩] at h
        obtain ⟨i, mid, is', bs', hi, h', heq⟩ := h
        cases heq
        obtain ⟨ts, hts, hbegins⟩ := ih h'
        obtain ⟨us, mid', hus, hbegins', hline⟩ := takes_instruction.mp hi
        rcases hline with hline | ⟨rfl, rfl | ⟨m, hbrace⟩⟩
        · refine ⟨_, .inst hus (.inl rfl) (.newline hts), ?_⟩
          exact begins_append.mpr ⟨mid', hbegins', mid, hline, hbegins⟩
        · exact absurd h' not_takes_items_nil
        · refine ⟨_, .inst hus (.inr ?_) hts, begins_append.mpr ⟨mid', hbegins', hbegins⟩⟩
          cases ts with
          | nil => exact absurd rfl hts.ne_nil
          | cons u ts =>
            obtain ⟨_, hu, -⟩ := hbegins
            rw [(hu.unique hbrace).1, List.head?_cons]

theorem takes_of_itemsDerive {n : Nat} {is : List InstTree} {bs : List BlockTree} {ts : List Token}
    (hn : toks.length ≤ n) (hts : ItemsDerive is bs ts) (h : Begins ts toks rest) :
    Takes (items eof n) toks (is, bs) rest := by
  induction hts generalizing toks n with
  | close =>
    obtain ⟨_, hbrace, rfl⟩ := h
    have := hbrace.length_eq
    obtain ⟨m, rfl⟩ : ∃ m, n = m + 1 := ⟨n - 1, by omega⟩
    exact items_close hbrace
  | newline _ ih =>
    obtain ⟨mid, hnext, h⟩ := h
    have := hnext.length_eq
    exact (takes_items_newline hnext).mpr (ih (by omega) h)
  | label l _ ih =>
    obtain ⟨m₁, hl, m₂, hcolon, h⟩ := h
    have := hl.length_eq
    have := hcolon.length_eq
    obtain ⟨m, rfl⟩ : ∃ m, n = m + 1 := ⟨n - 1, by omega⟩
    exact (takes_items_label ⟨m₁, hl, m₂, hcolon, rfl⟩).mpr ⟨_, _, ih (by omega) h, rfl⟩
  | @inst i is bs us ts hi hends _ ih =>
    obtain ⟨mid, hus, hts⟩ := begins_append.mp h
    obtain ⟨t, us, rfl, hnewline, hrbrace⟩ := hi.exists_head
    have hlen := hus.length_eq
    rw [List.length_cons] at hlen
    obtain ⟨m, rfl⟩ : ∃ m, n = m + 1 := ⟨n - 1, by omega⟩
    have hitems : Takes (items eof m) mid (is, bs) rest := ih (by omega) hts
    obtain ⟨mid', hline, hitems⟩ : ∃ mid', LineEnds mid mid' ∧
        Takes (items eof m) mid' (is, bs) rest := by
      rcases hends with hends | hends
      · obtain ⟨ts, rfl⟩ := List.head?_eq_some_iff.mp hends
        obtain ⟨mid', hnext, -⟩ := hts
        exact ⟨mid', .inl hnext, (takes_items_newline hnext).mp hitems⟩
      · obtain ⟨ts, rfl⟩ := List.head?_eq_some_iff.mp hends
        obtain ⟨mid', hnext, -⟩ := hts
        exact ⟨mid, .inr ⟨rfl, .inr ⟨mid', hnext⟩⟩, hitems⟩
    have hlabel : ∀ l m', ¬ Begins [.ident l, .colon] toks m' := fun l m' => not_label hi hus hline
    have hinst : Takes (instruction eof) toks i mid' :=
      takes_instruction.mpr ⟨_, mid, hi, hus, hline⟩
    obtain ⟨m₁, hnext, -⟩ := hus
    exact (takes_items_inst hnext hnewline hrbrace hlabel).mpr ⟨i, mid', is, bs, hinst, hitems, rfl⟩

theorem takes_blocks_newline {bs : List BlockTree} {mid : Tokens} (h : Next .newline toks mid) :
    Takes (blocks eof) toks bs rest ↔ Takes (blocks eof) mid bs rest := by
  obtain ⟨line, rfl⟩ := h
  simp [blocks, takes_bind, takes_skipNewlines]

theorem takes_blocks_label {l : String} {bs : List BlockTree} {mid : Tokens}
    (h : Begins [.ident l, .colon] toks mid) :
    Takes (blocks eof) toks bs rest ↔
      ∃ is bs', Takes (items eof mid.length) mid (is, bs') rest ∧ ⟨l, is⟩ :: bs' = bs := by
  have heq : (blocks eof).run toks = (do
      let r ← items eof mid.length
      return ⟨l, r.1⟩ :: r.2 : Parser _).run mid := by
    obtain ⟨_, ⟨line, rfl⟩, _, ⟨line', rfl⟩, rfl⟩ := h
    rfl
  rw [Takes, heq]
  show Takes _ mid bs rest ↔ _
  simp only [takes_bind, takes_pure, Prod.exists]
  constructor
  · rintro ⟨is, bs', _, h, heq, rfl⟩
    exact ⟨is, bs', h, heq⟩
  · rintro ⟨is, bs', h, heq⟩
    exact ⟨is, bs', rest, h, heq, rfl⟩

theorem exists_label_of_takes_blocks {bs : List BlockTree} (h : Takes (blocks eof) toks bs rest)
    (hnewline : ∀ mid, ¬ Next .newline toks mid) : ∃ l mid, Begins [.ident l, .colon] toks mid := by
  by_contra hlabel
  have heq : (blocks eof).run toks = (refuse eof "unterminated function" : Parser _).run toks ∨
      (blocks eof).run toks = (do set toks.tail; refuse eof "function has no blocks").run toks ∨
      (blocks eof).run toks =
        (do let _ ← instruction eof; refuse eof "expected block label").run toks := by
    cases toks with
    | nil => exact .inl rfl
    | cons e mid =>
      obtain ⟨t, line⟩ := e
      cases t with
      | newline => exact absurd ⟨line, rfl⟩ (hnewline mid)
      | rbrace => exact .inr (.inl rfl)
      | ident l =>
        cases mid with
        | nil => exact .inr (.inr rfl)
        | cons e mid =>
          obtain ⟨u, line'⟩ := e
          cases u with
          | colon => exact absurd ⟨l, mid, _, ⟨line, rfl⟩, _, ⟨line', rfl⟩, rfl⟩ hlabel
          | _ => exact .inr (.inr rfl)
      | _ => exact .inr (.inr rfl)
  rw [Takes] at h
  rcases heq with heq | heq | heq <;> rw [heq] at h
  · exact not_takes_refuse h
  · obtain ⟨_, _, -, h⟩ := takes_bind.mp h
    exact not_takes_refuse h
  · obtain ⟨_, _, -, h⟩ := takes_bind.mp h
    exact not_takes_refuse h

theorem takes_blocks {bs : List BlockTree} :
    Takes (blocks eof) toks bs rest ↔
      bs ≠ [] ∧ ∃ ts, ItemsDerive [] bs ts ∧ Begins ts toks rest := by
  constructor
  · intro h
    induction toks with
    | nil =>
      obtain ⟨_, _, _, hnext, -⟩ := exists_label_of_takes_blocks h fun _ => not_next_nil
      exact absurd hnext not_next_nil
    | cons e toks ih =>
      obtain ⟨t, line⟩ := e
      have hnext : Next t ((t, line) :: toks) toks := ⟨line, rfl⟩
      by_cases hnewline : t = .newline
      · subst hnewline
        obtain ⟨hne, ts, hts, hbegins⟩ := ih ((takes_blocks_newline hnext).mp h)
        exact ⟨hne, _, .newline hts, toks, hnext, hbegins⟩
      · obtain ⟨l, mid, hl⟩ := exists_label_of_takes_blocks h
          fun mid hmid => hnewline (hnext.unique hmid).1
        obtain ⟨is, bs', hitems, rfl⟩ := (takes_blocks_label hl).mp h
        obtain ⟨ts, hts, hbegins⟩ := itemsDerive_of_takes hitems
        obtain ⟨m₁, hl, m₂, hcolon, rfl⟩ := hl
        exact ⟨List.cons_ne_nil _ _, _, .label l hts, m₁, hl, m₂, hcolon, hbegins⟩
  · rintro ⟨hne, ts, hts, h⟩
    generalize his : ([] : List InstTree) = is at hts
    induction hts generalizing toks with
    | close => exact absurd rfl hne
    | newline _ ih =>
      obtain ⟨mid, hnext, h⟩ := h
      exact (takes_blocks_newline hnext).mpr (ih hne h his)
    | label l hts _ =>
      obtain ⟨m₁, hl, m₂, hcolon, h⟩ := h
      rw [takes_blocks_label ⟨m₁, hl, m₂, hcolon, rfl⟩]
      exact ⟨_, _, takes_of_itemsDerive (Nat.le_refl _) hts h, rfl⟩
    | inst _ _ _ _ => cases his

theorem takes_procName {n : String} :
    Takes (procName eof) toks n rest ↔ Next (.globalName n) toks rest := by
  simp only [procName, takes_bind, takes_get, Next]
  cases toks with
  | nil => simp [not_takes_refuse]
  | cons e toks =>
    obtain ⟨v, line⟩ := e
    cases v with
    | globalName m => simp [takes_map, takes_set, and_comm]
    | _ => simp [takes_bind, takes_set, not_takes_refuse]

theorem takes_procedure_newline {r : Option ProcTree} {mid : Tokens} (h : Next .newline toks mid) :
    Takes (procedure eof) toks r rest ↔ Takes (procedure eof) mid r rest := by
  obtain ⟨line, rfl⟩ := h
  simp [procedure, takes_bind, takes_skipNewlines]

theorem takes_procedure {t : Token} {mid : Tokens} {r : Option ProcTree} (hnext : Next t toks mid)
    (hnewline : t ≠ .newline) :
    Takes (procedure eof) toks r rest ↔
      ∃ p ts, r = some p ∧ p.Derives ts ∧ Begins ts toks rest := by
  have hskip : toks.dropWhile (·.1 = .newline) = toks := by
    obtain ⟨line, rfl⟩ := hnext
    simp [hnewline]
  have hne : toks.isEmpty = false := by
    obtain ⟨line, rfl⟩ := hnext
    rfl
  simp only [procedure, takes_bind, takes_skipNewlines, hskip, takes_get]
  constructor
  · rintro ⟨_, _, rfl, _, _, ⟨rfl, rfl⟩, h⟩
    simp only [hne, Bool.false_eq_true, if_false, takes_bind, takes_word] at h
    obtain ⟨w, m₁, hw, h⟩ := h
    split at h
    next => exact absurd h not_takes_refuse
    next hfunc =>
      obtain rfl : w = "func" := by simpa using hfunc
      simp only [takes_bind, takes_procName, takes_expect, takes_get, takes_blocks, takes_pure] at h
      obtain ⟨name, m₂, hname, _, m₃, h₃, _, _, ⟨rfl, rfl⟩, args, m₄, hargs, _, m₅, h₅, _, m₆, h₆,
        bs, _, ⟨hne, ts, hts, hbegins⟩, rfl, rfl⟩ := h
      have hstop : Stops m₄ := stops_of_next h₅ (by simp)
      obtain ⟨us, hus, hargs⟩ := (readsNames_params.takes_iff (Nat.le_refl _) hstop).mp hargs
      refine ⟨_, _, rfl, .mk name hus hne hts, m₁, hw, m₂, hname, m₃, h₃, ?_⟩
      exact begins_append.mpr ⟨m₄, hargs, m₅, h₅, m₆, h₆, hbegins⟩
  · rintro ⟨p, ts, rfl, hp, h⟩
    refine ⟨(), toks, rfl, toks, toks, ⟨rfl, rfl⟩, ?_⟩
    cases hp with
    | mk name hus hbs hts =>
      obtain ⟨m₁, hw, m₂, hname, m₃, h₃, h⟩ := h
      obtain ⟨m₄, hargs, m₅, h₅, m₆, h₆, hbegins⟩ := begins_append.mp h
      have hstop : Stops m₄ := stops_of_next h₅ (by simp)
      have hargs := (readsNames_params.takes_iff (Nat.le_refl _) hstop).mpr ⟨_, hus, hargs⟩
      simp only [hne, Bool.false_eq_true, if_false, takes_bind, takes_word]
      refine ⟨"func", m₁, hw, ?_⟩
      simp only [ne_eq, not_true, if_false, takes_bind, takes_procName, takes_expect, takes_get,
        takes_blocks, takes_pure]
      exact ⟨name, m₂, hname, (), m₃, h₃, m₃, m₃, ⟨rfl, rfl⟩, _, m₄, hargs, (), m₅, h₅, (), m₆, h₆,
        _, rest, ⟨hbs, _, hts, hbegins⟩, rfl, rfl⟩

/-! ## Programs -/

section Programs

variable {σ : Type} {f : σ → ProcTree → Except SourceError σ} {s s' : σ} {n : Nat}

theorem takes_foldProcedures_newline {mid : Tokens} (h : Next .newline toks mid) :
    Takes (foldProcedures eof f (n + 1) s) toks s' rest ↔
      Takes (foldProcedures eof f (n + 1) s) mid s' rest := by
  simp only [foldProcedures, takes_bind, takes_procedure_newline h]

theorem takes_foldProcedures {t : Token} {mid : Tokens} (hnext : Next t toks mid)
    (hnewline : t ≠ .newline) :
    Takes (foldProcedures eof f (n + 1) s) toks s' rest ↔
      ∃ p ts mid s'', p.Derives ts ∧ Begins ts toks mid ∧ f s p = .ok s'' ∧
        Takes (foldProcedures eof f n s'') mid s' rest := by
  simp only [foldProcedures, takes_bind, takes_procedure hnext hnewline]
  constructor
  · rintro ⟨_, mid, ⟨p, ts, rfl, hp, hts⟩, h⟩
    simp only [takes_bind, takes_lift] at h
    obtain ⟨s'', _, ⟨hs, rfl⟩, h⟩ := h
    exact ⟨p, ts, _, s'', hp, hts, hs, h⟩
  · rintro ⟨p, ts, mid, s'', hp, hts, hs, h⟩
    refine ⟨some p, mid, ⟨p, ts, rfl, hp, hts⟩, ?_⟩
    simp only [takes_bind, takes_lift]
    exact ⟨s'', mid, ⟨hs, rfl⟩, h⟩

theorem programDerives_of_takes (hn : toks.length ≤ n)
    (h : Takes (foldProcedures eof f n s) toks s' rest) :
    ∃ ps ts, ProgramDerives ps ts ∧ Begins ts toks [] ∧ ps.foldlM f s = .ok s' := by
  induction n generalizing toks s with
  | zero =>
    obtain rfl : toks = [] := List.length_eq_zero_iff.mp (Nat.le_zero.mp hn)
    cases h
    exact ⟨[], [], .nil, rfl, rfl⟩
  | succ n ih =>
    induction toks with
    | nil =>
      cases h
      exact ⟨[], [], .nil, rfl, rfl⟩
    | cons e toks ihtoks =>
      obtain ⟨t, line⟩ := e
      have hnext : Next t ((t, line) :: toks) toks := ⟨line, rfl⟩
      by_cases hnewline : t = .newline
      · subst hnewline
        obtain ⟨ps, ts, hps, hbegins, hs⟩ :=
          ihtoks (Nat.le_of_succ_le hn) ((takes_foldProcedures_newline hnext).mp h)
        exact ⟨ps, _, .newline hps, ⟨toks, hnext, hbegins⟩, hs⟩
      · obtain ⟨p, us, mid, s'', hp, hus, hs, h⟩ := (takes_foldProcedures hnext hnewline).mp h
        obtain ⟨u, us, rfl, -⟩ := hp.exists_head
        have hlen := hus.length_eq
        obtain ⟨ps, ts, hps, hbegins, hs'⟩ := ih (by simp at hlen hn; omega) h
        refine ⟨p :: ps, _, .cons hp hps, begins_append.mpr ⟨mid, hus, hbegins⟩, ?_⟩
        rw [List.foldlM_cons, bind_eq_ok]
        exact ⟨s'', hs, hs'⟩

theorem takes_of_programDerives {ps : List ProcTree} {ts : List Token} (hn : toks.length ≤ n)
    (hts : ProgramDerives ps ts) (h : Begins ts toks []) (hps : ps.foldlM f s = .ok s') :
    Takes (foldProcedures eof f n s) toks s' [] := by
  induction hts generalizing toks n s with
  | nil =>
    obtain rfl : toks = [] := h
    cases hps
    cases n with
    | zero => rfl
    | succ n => rfl
  | newline _ ih =>
    obtain ⟨mid, hnext, h⟩ := h
    have hlen := hnext.length_eq
    obtain ⟨m, rfl⟩ : ∃ m, n = m + 1 := ⟨n - 1, by omega⟩
    exact (takes_foldProcedures_newline hnext).mpr (ih (by omega) h hps)
  | @cons p ps us ts hp _ ih =>
    obtain ⟨mid, hus, hts⟩ := begins_append.mp h
    obtain ⟨t, us, rfl, hnewline⟩ := hp.exists_head
    have hlen := hus.length_eq
    rw [List.length_cons] at hlen
    obtain ⟨m, rfl⟩ : ∃ m, n = m + 1 := ⟨n - 1, by omega⟩
    rw [List.foldlM_cons, bind_eq_ok] at hps
    obtain ⟨s'', hs, hps⟩ := hps
    have hrest : Takes (foldProcedures eof f m s'') mid s' [] := ih (by omega) hts hps
    obtain ⟨m₁, hnext, h⟩ := hus
    rw [takes_foldProcedures hnext hnewline]
    exact ⟨p, t :: us, mid, s'', hp, ⟨m₁, hnext, h⟩, hs, hrest⟩

/-- Reading tokens as procedures succeeds just when they are a program and every procedure of it
is taken. -/
theorem foldTokens_eq_ok :
    foldTokens f s toks = .ok s' ↔
      ∃ ps, ProgramDerives ps (toks.map Prod.fst) ∧ ps.foldlM f s = .ok s' := by
  have hrun : foldTokens f s toks = .ok s' ↔
      ∃ rest, Takes (foldProcedures (endLine toks) f toks.length s) toks s' rest := by
    simp only [foldTokens, StateT.run', map_eq_ok, Prod.exists, Takes]
    constructor
    · rintro ⟨_, rest, h, rfl⟩
      exact ⟨rest, h⟩
    · rintro ⟨rest, h⟩
      exact ⟨s', rest, h, rfl⟩
  rw [hrun]
  constructor
  · rintro ⟨rest, h⟩
    obtain ⟨ps, ts, hps, hts, hs⟩ := programDerives_of_takes (Nat.le_refl _) h
    rw [← begins_map.mp hts] at hps
    exact ⟨ps, hps, hs⟩
  · rintro ⟨ps, hps, hs⟩
    exact ⟨[], takes_of_programDerives (Nat.le_refl _) hps (begins_map.mpr rfl) hs⟩

end Programs

end Parser

end SsaFlow
