import Mathlib.Data.List.Nodup
import SsaFlow.Proofs.Tables
import SsaFlow.Text.Lower

/-!
# Names and operations of trees

What the passes over a tree come to, apart from the procedure they build.  The names of
arguments, labels and results are put together in `ProcTree.scope`, each once
(`ProcTree.scope_eq_ok`).  The operations of a block are those of its instructions
(`BlockTree.operations`), with operands and labels as the scope says (`Scope.Operates`).
-/

namespace SsaFlow

/-! ## Scopes -/

theorem isSome_lookup {α : Type} {names : List (String × α)} {n : String} :
    (names.lookup n).isSome = true ↔ n ∈ names.map Prod.fst := by
  simp [List.lookup_isSome_iff, eq_comm (a := n)]

theorem mem_of_lookup {α : Type} {names : List (String × α)} {n : String} {a : α}
    (h : names.lookup n = some a) : (n, a) ∈ names := by
  obtain ⟨before, after, rfl, -⟩ := List.lookup_eq_some_iff.mp h
  simp

/-- Adding names in two parts is adding them all. -/
theorem extendNames_append {α : Type} {sigil : String} {known names more : List (String × α)} :
    extendNames sigil known (names ++ more) =
      extendNames sigil known names >>= (extendNames sigil · more) := by
  induction names generalizing known with
  | nil => rfl
  | cons e names ih =>
    rw [List.cons_append, extendNames, extendNames]
    split
    next => rfl
    next => exact ih

theorem extendNames_cons {α : Type} {sigil : String} {known rest : List (String × α)}
    {e : String × α} : extendNames sigil known (e :: rest) =
      extendNames sigil known [e] >>= (extendNames sigil · rest) :=
  @extendNames_append α sigil known [e] rest

/-- Names can be added if they are new and differ from each other. -/
theorem extendNames_eq_ok {α : Type} {sigil : String} {known names out : List (String × α)}
    (hknown : (known.map Prod.fst).Nodup) :
    extendNames sigil known names = .ok out ↔
      out = known ++ names ∧ ((known ++ names).map Prod.fst).Nodup := by
  induction names generalizing known with
  | nil => simp [extendNames, hknown, eq_comm]
  | cons e rest ih =>
    obtain ⟨n, a⟩ := e
    rw [extendNames]
    split
    next hn =>
      rw [isSome_lookup] at hn
      have hclash : ¬ ((known ++ (n, a) :: rest).map Prod.fst).Nodup := by
        rw [List.map_append, List.nodup_append]
        exact fun h => h.2.2 n hn n (by simp) rfl
      simp only [reduceCtorEq, hclash, and_false]
    next hn =>
      rw [isSome_lookup] at hn
      have hknown' : ((known ++ [(n, a)]).map Prod.fst).Nodup := by
        rw [List.map_append, List.nodup_append]
        refine ⟨hknown, List.nodup_singleton n, ?_⟩
        rintro m hm m' hm' rfl
        cases List.mem_singleton.mp hm'
        exact hn hm
      rw [ih hknown']
      simp

theorem extendNames_nil_eq_ok {α : Type} {sigil : String} {names out : List (String × α)} :
    extendNames sigil [] names = .ok out ↔ out = names ∧ (names.map Prod.fst).Nodup :=
  @extendNames_eq_ok α sigil [] names out List.nodup_nil

namespace ProcTree

/-- All instructions, in the order they are written. -/
def insts (t : ProcTree) : List InstTree := t.blocks.flatMap BlockTree.insts

/-- The names of the arguments with their values. -/
def argNames (t : ProcTree) : List (String × Value) :=
  t.args.zipIdx.map fun (name, i) => (name, .arg ⟨i⟩)

/-- The labels with their blocks. -/
def labelNames (t : ProcTree) : List (String × Block) :=
  t.blocks.zipIdx.map fun (b, i) => (b.label, ⟨i⟩)

/-- The names of the results with their values. -/
def resultNames (t : ProcTree) : List (String × Value) :=
  t.insts.zipIdx.filterMap fun (i, n) => i.result.map (·, .inst ⟨n⟩)

/-- The scope of a procedure. -/
def scope (t : ProcTree) : Except SourceError Scope := do
  let args ← extendNames "%" [] t.argNames
  let blocks ← extendNames "" [] t.labelNames
  let values ← extendNames "%" args t.resultNames
  return { values, blocks }

variable {t : ProcTree} {s : Scope}

/-- There is a scope if no name of a value and no label is given twice. -/
theorem scope_eq_ok :
    t.scope = .ok s ↔ s = ⟨t.argNames ++ t.resultNames, t.labelNames⟩ ∧
      ((t.argNames ++ t.resultNames).map Prod.fst).Nodup ∧ (t.labelNames.map Prod.fst).Nodup := by
  simp only [scope, bind_eq_ok, pure_eq_ok]
  constructor
  · rintro ⟨args, hargs, labels, hlabels, values, hvalues, rfl⟩
    obtain ⟨rfl, hnodup⟩ := extendNames_nil_eq_ok.mp hargs
    obtain ⟨rfl, hnodup'⟩ := extendNames_nil_eq_ok.mp hlabels
    obtain ⟨rfl, hnodup''⟩ := (extendNames_eq_ok hnodup).mp hvalues
    exact ⟨rfl, hnodup'', hnodup'⟩
  · rintro ⟨rfl, hvalues, hlabels⟩
    have hargs : (t.argNames.map Prod.fst).Nodup := by
      rw [List.map_append] at hvalues
      exact (List.nodup_append.mp hvalues).1
    exact ⟨t.argNames, extendNames_nil_eq_ok.mpr ⟨rfl, hargs⟩, t.labelNames,
      extendNames_nil_eq_ok.mpr ⟨rfl, hlabels⟩, _,
      (extendNames_eq_ok hargs).mpr ⟨rfl, hvalues⟩, rfl⟩

theorem mem_argNames {n : String} {v : Value} :
    (n, v) ∈ t.argNames ↔ ∃ i, t.args[i]? = some n ∧ v = .arg ⟨i⟩ := by
  simp only [argNames, List.mem_map, Prod.exists, List.mem_zipIdx_iff_getElem?, Prod.mk.injEq]
  constructor
  · rintro ⟨m, i, hi, rfl, rfl⟩
    exact ⟨i, hi, rfl⟩
  · rintro ⟨i, hi, rfl⟩
    exact ⟨n, i, hi, rfl, rfl⟩

theorem mem_resultNames {n : String} {v : Value} :
    (n, v) ∈ t.resultNames ↔ ∃ k i, t.insts[k]? = some i ∧ i.result = some n ∧ v = .inst ⟨k⟩ := by
  simp only [resultNames, List.mem_filterMap, Prod.exists, List.mem_zipIdx_iff_getElem?,
    Option.map_eq_some_iff, Prod.mk.injEq]
  constructor
  · rintro ⟨i, k, hi, m, hm, rfl, rfl⟩
    exact ⟨k, i, hi, hm, rfl⟩
  · rintro ⟨k, i, hi, hn, rfl⟩
    exact ⟨i, k, hi, n, hn, rfl, rfl⟩

theorem mem_labelNames {l : String} {b : Block} :
    (l, b) ∈ t.labelNames ↔ ∃ bt, t.blocks[b.index]? = some bt ∧ bt.label = l := by
  simp only [labelNames, List.mem_map, Prod.exists, List.mem_zipIdx_iff_getElem?, Prod.mk.injEq]
  constructor
  · rintro ⟨bt, i, hi, hl, rfl⟩
    exact ⟨bt, hi, hl⟩
  · rintro ⟨bt, hi, hl⟩
    exact ⟨bt, b.index, hi, hl, rfl⟩

/-- An operand is a constant, the name of an argument or the name of a result. -/
theorem value_cases (hs : t.scope = .ok s) {o : OperandTree} {v : Value} (h : s.value o = .ok v) :
    (∃ k, o = .int k ∧ v = .const k) ∨
      (∃ i n, o = .name n ∧ t.args[i]? = some n ∧ v = .arg ⟨i⟩) ∨
      ∃ k i n, o = .name n ∧ t.insts[k]? = some i ∧ i.result = some n ∧ v = .inst ⟨k⟩ := by
  obtain ⟨rfl, -, -⟩ := scope_eq_ok.mp hs
  cases o with
  | int k =>
    cases h
    exact .inl ⟨k, rfl, rfl⟩
  | name n =>
    right
    simp only [Scope.value] at h
    split at h
    next w hw =>
      cases h
      rcases List.mem_append.mp (mem_of_lookup hw) with hmem | hmem
      · obtain ⟨i, hi, rfl⟩ := mem_argNames.mp hmem
        exact .inl ⟨i, n, rfl, hi, rfl⟩
      · obtain ⟨k, i, hi, hn, rfl⟩ := mem_resultNames.mp hmem
        exact .inr ⟨k, i, n, rfl, hi, hn, rfl⟩
    next => cases h

theorem label_of_block (hs : t.scope = .ok s) {l : String} {b : Block} (h : s.block l = .ok b) :
    ∃ bt, t.blocks[b.index]? = some bt ∧ bt.label = l := by
  obtain ⟨rfl, -, -⟩ := scope_eq_ok.mp hs
  simp only [Scope.block] at h
  split at h
  next c hc =>
    cases h
    exact mem_labelNames.mp (mem_of_lookup hc)
  next => cases h

end ProcTree

/-! ## Operations -/

namespace Scope

/-- The operation of an instruction under a label.  Only the last may be a terminator. -/
def operationAt (s : Scope) (label : String) (isLast : Bool) (i : InstTree) :
    Except SourceError Operation := do
  let op ← s.operation i
  if i.action.isTerminator && !isLast then throw (.misplacedTerminator label) else return op

/-- The operations of the instructions under a label. -/
def operations (s : Scope) (label : String) : List InstTree → Except SourceError (List Operation)
  | [] => return []
  | i :: rest => do
    let op ← s.operationAt label rest.isEmpty i
    return op :: (← s.operations label rest)

variable {s : Scope} {i : InstTree} {op : Operation}

/-- What an instruction becomes: its operands and labels are those of the scope. -/
inductive Operates (s : Scope) : InstTree → Operation → Prop where
  | compute {result : Option String} (opcode : String) {args : List OperandTree} {vs : List Value} :
    List.Forall₂ (fun o v => s.value o = .ok v) args vs →
    Operates s ⟨result, .compute opcode args⟩ (.compute opcode vs result.isSome)
  | phi {result : Option String} {incoming : List (OperandTree × String)}
      {pairs : List (Value × Block)} :
    List.Forall₂ (fun e pair => s.value e.1 = .ok pair.1 ∧ s.block e.2 = .ok pair.2)
      incoming pairs →
    Operates s ⟨result, .phi incoming⟩ (.phi pairs)
  | br {result : Option String} {target : String} {b : Block} :
    s.block target = .ok b →
    Operates s ⟨result, .br target⟩ (.terminator (.br b))
  | condBr {result : Option String} {cond : OperandTree} {ifTrue ifFalse : String} {v : Value}
      {b c : Block} :
    s.value cond = .ok v → s.block ifTrue = .ok b → s.block ifFalse = .ok c →
    Operates s ⟨result, .condBr cond ifTrue ifFalse⟩ (.terminator (.condBr v b c))
  | switch {result : Option String} {value : OperandTree} {default : String}
      {targets : List String} {v : Value} {b : Block} {bs : List Block} :
    s.value value = .ok v → s.block default = .ok b →
    List.Forall₂ (fun l c => s.block l = .ok c) targets bs →
    Operates s ⟨result, .switch value default targets⟩ (.terminator (.switch v b bs))
  | ret {result : Option String} {values : List OperandTree} {vs : List Value} :
    List.Forall₂ (fun o v => s.value o = .ok v) values vs →
    Operates s ⟨result, .ret values⟩ (.terminator (.ret vs))
  | unreachable {result : Option String} :
    Operates s ⟨result, .unreachable⟩ (.terminator .unreachable)

theorem pair_eq_ok {e : OperandTree × String} {pair : Value × Block} :
    s.pair e = .ok pair ↔ s.value e.1 = .ok pair.1 ∧ s.block e.2 = .ok pair.2 := by
  simp only [Scope.pair, bind_eq_ok, pure_eq_ok]
  constructor
  · rintro ⟨v, hv, b, hb, rfl⟩
    exact ⟨hv, hb⟩
  · rintro ⟨hv, hb⟩
    exact ⟨pair.1, hv, pair.2, hb, rfl⟩

theorem operates_of_operation (h : s.operation i = .ok op) : s.Operates i op := by
  obtain ⟨result, action⟩ := i
  cases action with
  | compute opcode args =>
    simp only [operation, bind_eq_ok, pure_eq_ok] at h
    obtain ⟨vs, hvs, rfl⟩ := h
    exact .compute opcode (mapM_eq_ok.mp hvs)
  | phi incoming =>
    simp only [operation, bind_eq_ok, pure_eq_ok] at h
    obtain ⟨pairs, hpairs, rfl⟩ := h
    exact .phi ((mapM_eq_ok.mp hpairs).imp fun _ _ => pair_eq_ok.mp)
  | br target =>
    simp only [operation, bind_eq_ok, pure_eq_ok] at h
    obtain ⟨b, hb, rfl⟩ := h
    exact .br hb
  | condBr cond ifTrue ifFalse =>
    simp only [operation, bind_eq_ok, pure_eq_ok] at h
    obtain ⟨v, hv, b, hb, c, hc, rfl⟩ := h
    exact .condBr hv hb hc
  | switch value default targets =>
    simp only [operation, bind_eq_ok, pure_eq_ok] at h
    obtain ⟨v, hv, b, hb, bs, hbs, rfl⟩ := h
    exact .switch hv hb (mapM_eq_ok.mp hbs)
  | ret values =>
    simp only [operation, bind_eq_ok, pure_eq_ok] at h
    obtain ⟨vs, hvs, rfl⟩ := h
    exact .ret (mapM_eq_ok.mp hvs)
  | unreachable =>
    simp only [operation, pure_eq_ok] at h
    subst h
    exact .unreachable

theorem operation_of_operates (h : s.Operates i op) : s.operation i = .ok op := by
  cases h with
  | compute opcode hvs =>
    simp only [operation, bind_eq_ok, pure_eq_ok]
    exact ⟨_, mapM_eq_ok.mpr hvs, rfl⟩
  | phi hpairs =>
    simp only [operation, bind_eq_ok, pure_eq_ok]
    exact ⟨_, mapM_eq_ok.mpr (hpairs.imp fun _ _ => pair_eq_ok.mpr), rfl⟩
  | br hb =>
    simp only [operation, bind_eq_ok, pure_eq_ok]
    exact ⟨_, hb, rfl⟩
  | condBr hv hb hc =>
    simp only [operation, bind_eq_ok, pure_eq_ok]
    exact ⟨_, hv, _, hb, _, hc, rfl⟩
  | switch hv hb hbs =>
    simp only [operation, bind_eq_ok, pure_eq_ok]
    exact ⟨_, hv, _, hb, _, mapM_eq_ok.mpr hbs, rfl⟩
  | ret hvs =>
    simp only [operation, bind_eq_ok, pure_eq_ok]
    exact ⟨_, mapM_eq_ok.mpr hvs, rfl⟩
  | unreachable => rfl

/-- An instruction is a terminator if its operation is one. -/
theorem isSome_terminator? (h : s.operation i = .ok op) :
    op.terminator?.isSome = i.action.isTerminator := by
  cases operates_of_operation h <;> rfl

theorem ne_placeholder (h : s.operation i = .ok op) : op ≠ .placeholder := by
  cases operates_of_operation h <;> nofun

/-- All values of an operation come from the scope. -/
theorem value_of_operation (h : s.operation i = .ok op) {v : Value}
    (hv : v ∈ op.operands ++ op.incoming.map Prod.fst) : ∃ o, s.value o = .ok v := by
  have hmem : ∀ {os : List OperandTree} {vs : List Value},
      List.Forall₂ (fun o v => s.value o = .ok v) os vs → v ∈ vs → ∃ o, s.value o = .ok v := by
    intro os vs hvs hmem
    obtain ⟨o, -, ho⟩ := exists_left_of_mem hvs hmem
    exact ⟨o, ho⟩
  cases operates_of_operation h with
  | compute _ hvs =>
    exact hmem hvs (by simpa [Operation.operands, Operation.incoming] using hv)
  | phi hpairs =>
    obtain ⟨pair, hpair, rfl⟩ := List.mem_map.mp hv
    obtain ⟨e, -, he, -⟩ := exists_left_of_mem hpairs hpair
    exact ⟨e.1, he⟩
  | br _ => cases hv
  | condBr hw _ _ =>
    cases List.mem_singleton.mp hv
    exact ⟨_, hw⟩
  | switch hw _ _ =>
    cases List.mem_singleton.mp hv
    exact ⟨_, hw⟩
  | ret hvs =>
    exact hmem hvs (by simpa [Operation.operands, Operation.incoming, Terminator.operands] using hv)
  | unreachable => cases hv

/-- All successors of an operation come from the scope. -/
theorem block_of_operation (h : s.operation i = .ok op) {t : Terminator}
    (ht : op.terminator? = some t) {b : Block} (hb : b ∈ t.successors) :
    ∃ l, s.block l = .ok b := by
  cases operates_of_operation h with
  | compute _ _ => cases ht
  | phi _ => cases ht
  | br hc =>
    cases ht
    cases List.mem_singleton.mp hb
    exact ⟨_, hc⟩
  | condBr _ hc he =>
    cases ht
    simp only [Terminator.successors, List.mem_cons, List.not_mem_nil, or_false] at hb
    rcases hb with rfl | rfl
    · exact ⟨_, hc⟩
    · exact ⟨_, he⟩
  | switch _ hc hcs =>
    cases ht
    cases hb with
    | head => exact ⟨_, hc⟩
    | tail _ hb =>
      obtain ⟨l, -, hl⟩ := exists_left_of_mem hcs hb
      exact ⟨l, hl⟩
  | ret _ =>
    cases ht
    cases hb
  | unreachable =>
    cases ht
    cases hb

theorem operationAt_eq_ok {label : String} {isLast : Bool} :
    s.operationAt label isLast i = .ok op ↔
      s.operation i = .ok op ∧ (isLast = false → i.action.isTerminator = false) := by
  rw [operationAt, bind_eq_ok]
  constructor
  · rintro ⟨op', hop, h⟩
    split at h
    next => cases h
    next hterm =>
      cases h
      exact ⟨hop, fun hlast => by simpa [hlast] using hterm⟩
  · rintro ⟨hop, hterm⟩
    refine ⟨op, hop, if_neg fun h => ?_⟩
    rw [Bool.and_eq_true, Bool.not_eq_true'] at h
    exact Bool.false_ne_true ((hterm h.2).symm.trans h.1)

/-- The instructions under a label have operations if each has one, and only the last is a
terminator. -/
theorem operations_eq_ok {label : String} {is : List InstTree} {ops : List Operation} :
    s.operations label is = .ok ops ↔
      List.Forall₂ (fun i op => s.operation i = .ok op) is ops ∧
        ∀ i ∈ is.dropLast, i.action.isTerminator = false := by
  induction is generalizing ops with
  | nil =>
    rw [operations, pure_eq_ok, List.forall₂_nil_left_iff, List.dropLast_nil, eq_comm]
    exact (and_iff_left (List.forall_mem_nil _)).symm
  | cons i is ih =>
    have hlast : (∀ j ∈ (i :: is).dropLast, j.action.isTerminator = false) ↔
        (is.isEmpty = false → i.action.isTerminator = false) ∧
          ∀ j ∈ is.dropLast, j.action.isTerminator = false := by
      cases is with
      | nil => simp
      | cons j is => simp [List.dropLast_cons_cons]
    simp only [operations, bind_eq_ok, pure_eq_ok, operationAt_eq_ok, ih,
      List.forall₂_cons_left_iff, hlast]
    constructor
    · rintro ⟨op, ⟨hop, hterm⟩, rest, ⟨hrest, hfront⟩, rfl⟩
      exact ⟨⟨op, rest, hop, hrest, rfl⟩, hterm, hfront⟩
    · rintro ⟨⟨op, rest, hop, hrest, rfl⟩, hterm, hfront⟩
      exact ⟨op, ⟨hop, hterm⟩, rest, ⟨hrest, hfront⟩, rfl⟩

end Scope

namespace BlockTree

/-- The operations of a block. -/
def operations (s : Scope) (b : BlockTree) : Except SourceError (List Operation) :=
  if b.endsInTerminator then s.operations b.label b.insts
  else throw (.missingTerminator b.label)

/-- The last instruction is a terminator, and no other is. -/
def Ended (b : BlockTree) : Prop :=
  (∃ last ∈ b.insts.getLast?, last.action.isTerminator = true) ∧
    ∀ i ∈ b.insts.dropLast, i.action.isTerminator = false

theorem operations_eq_ok {s : Scope} {b : BlockTree} {ops : List Operation} :
    b.operations s = .ok ops ↔
      b.Ended ∧ List.Forall₂ (fun i op => s.operation i = .ok op) b.insts ops := by
  have hends : b.endsInTerminator = true ↔
      ∃ last ∈ b.insts.getLast?, last.action.isTerminator = true := Option.any_eq_true _ _
  rw [operations, Ended, ← hends]
  split
  next h =>
    rw [Scope.operations_eq_ok]
    constructor
    · rintro ⟨hops, hlast⟩
      exact ⟨⟨h, hlast⟩, hops⟩
    · rintro ⟨⟨-, hlast⟩, hops⟩
      exact ⟨hops, hlast⟩
  next h =>
    constructor
    · intro hthrow
      cases hthrow
    · rintro ⟨⟨hend, -⟩, -⟩
      exact absurd hend h

end BlockTree

end SsaFlow
