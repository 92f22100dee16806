import SsaFlow.Proofs.Building
import SsaFlow.Proofs.Scopes

/-!
# What the passes over a tree leave

`ProcTree.build` names and allocates, and stops at the first error of the tree.
`Lowering.Follows` ties such steps to a computation without a procedure in it: they end
with its error if it has one, and otherwise with its result.  Either way there is no
fault.  What is shown of one step carries over to a pass by induction on what the pass
goes through.

* Arguments, blocks and placeholders are numbered from the size of their table on, and a
  pass leaves the table with one slot more for each (`Table.extend`).
* An instruction that is filled in gets its operation, goes to the end of its block and
  brings its edges (`Procedure.filled`).  Instructions are filled in one after the other,
  in the order of their numbers (`fillsFrom`).

So a tree has a procedure if it has a scope and operations, and the procedure is the
reserved one with all of them filled in (`ProcTree.lower_eq`).
-/

namespace SsaFlow

namespace Table

variable {k : Entity} {α : Type} {t : Table k α}

/-- The table with the items of a list as further slots. -/
def extend (t : Table k α) (items : List α) : Table k α := ⟨t.slots ++ items.toArray⟩

@[simp] theorem extend_nil : t.extend [] = t := by
  simp [extend]

theorem push_extend (a : α) (items : List α) : (t.push a).extend items = t.extend (a :: items) := by
  simp [extend, push]

theorem extend_extend (items more : List α) :
    (t.extend items).extend more = t.extend (items ++ more) := by
  simp [extend]

@[simp] theorem size_extend (items : List α) : (t.extend items).size = t.size + items.length := by
  simp [extend, size]

theorem ofList_extend (items more : List α) :
    (ofList items : Table k α).extend more = ofList (items ++ more) := by
  simp [extend, ofList]

end Table

/-- Consecutive numbers from `n` on, in groups of the given sizes. -/
def numbering : Nat → List Nat → List (List Nat)
  | _, [] => []
  | n, k :: rest => List.range' n k :: numbering (n + k) rest

/-! ## Steps and computations -/

namespace Lowering

variable {α β γ : Type} {x : Lowering α} {f : α → Lowering β} {s s' : Scope} {p p' : Procedure}
  {a : α}

/-- Started with the names `s` on the procedure `p`, the steps end as the computation says, with its
error or with its result, names and procedure.  In either case there is no fault. -/
def Follows (x : Lowering α) (s : Scope) (p : Procedure) :
    Except SourceError (α × Scope × Procedure) → Prop
  | .ok (a, s', p') => (x.run s).run.run.run p = (.ok (.ok (a, s')), p')
  | .error e => ∃ p', (x.run s).run.run.run p = (.ok (.error e), p')

theorem follows_pure : Follows (pure a) s p (.ok (a, s, p)) := rfl

theorem follows_get : Follows get s p (.ok (s, s, p)) := rfl

theorem follows_set : Follows (set s') s p (.ok ((), s', p)) := rfl

theorem follows_throw (e : SourceError) : Follows (throw e : Lowering α) s p (.error e) := ⟨p, rfl⟩

theorem follows_lift {y : Except SourceError α} :
    Follows (liftM y) s p ((fun a => (a, s, p)) <$> y) := by
  cases y with
  | error e => exact ⟨p, rfl⟩
  | ok a => exact rfl

theorem follows_build {y : Build α} (h : Yields y p a p') :
    Follows (liftM y) s p (.ok (a, s, p')) := by
  have hrun : y.run.run p = (.ok a, p') := h
  show ((liftM y : Lowering α).run s).run.run.run p = _
  simp only [liftM, monadLift, MonadLift.monadLift, StateT.run_lift, ExceptT.run_lift,
    ExceptT.run_bind, ExceptT.run_map, StateT.run_bind, StateT.run_map, hrun]
  rfl

/-- What comes after steps that go through decides how all of them end. -/
theorem Follows.andThen {r : Except SourceError (β × Scope × Procedure)}
    (hx : Follows x s p (.ok (a, s', p'))) (hf : Follows (f a) s' p' r) :
    Follows (x >>= f) s p r := by
  have hrun : ((x >>= f).run s).run.run.run p = ((f a).run s').run.run.run p' := by
    have hx : (x.run s).run.run.run p = (.ok (.ok (a, s')), p') := hx
    simp only [StateT.run_bind, ExceptT.run_bind, hx]
    rfl
  cases r with
  | error e =>
    obtain ⟨p'', h⟩ := hf
    exact ⟨p'', hrun.trans h⟩
  | ok u => exact hrun.trans hf

/-- Steps one after the other follow computations one after the other. -/
theorem Follows.bind {y : Except SourceError γ} {out : γ → α × Scope × Procedure}
    {g : γ → Except SourceError (β × Scope × Procedure)} (hx : Follows x s p (out <$> y))
    (hf : ∀ c, y = .ok c → Follows (f (out c).1) (out c).2.1 (out c).2.2 (g c)) :
    Follows (x >>= f) s p (y >>= g) := by
  cases y with
  | ok c => exact hx.andThen (hf c rfl)
  | error e =>
    obtain ⟨p', hp'⟩ := hx
    refine ⟨p', ?_⟩
    simp only [StateT.run_bind, ExceptT.run_bind, hp']
    rfl

/-- A function of the result may be returned in its place. -/
theorem Follows.map {y : Except SourceError γ} {out : γ → α × Scope × Procedure}
    (hx : Follows x s p (out <$> y)) (h : α → β) :
    Follows (x >>= fun a => pure (h a)) s p ((fun c => (h (out c).1, (out c).2)) <$> y) := by
  rw [← bind_pure_comp]
  exact hx.bind fun c _ => follows_pure

/-! ## Arguments, blocks and placeholders -/

theorem defineValue_follows (name : String) (v : Value) :
    Follows (defineValue name v) s p
      ((fun values => ((), { s with values }, p)) <$> extendNames "%" s.values [(name, v)]) := by
  refine follows_get.andThen ?_
  rw [← bind_pure_comp]
  exact follows_lift.bind fun values _ => follows_set

theorem defineBlock_follows (label : String) (b : Block) :
    Follows (defineBlock label b) s p
      ((fun blocks => ((), { s with blocks }, p)) <$> extendNames "" s.blocks [(label, b)]) := by
  refine follows_get.andThen ?_
  rw [← bind_pure_comp]
  exact follows_lift.bind fun blocks _ => follows_set

theorem addArg_follows (name : String) :
    Follows (addArg name) s p
      ((fun values => ((), { s with values }, { p with args := p.args.push name })) <$>
        extendNames "%" s.values [(name, .arg p.args.next)]) := by
  have hadd : Yields (Build.addArg name) p (.arg p.args.next)
      { p with args := p.args.push name } := rfl
  exact (follows_build hadd).andThen (defineValue_follows name _)

/-- The first pass: arguments are added one after the other. -/
theorem addArgs_follows (args : List String) :
    Follows (args.forM addArg) s p
      ((fun values => ((), { s with values }, { p with args := p.args.extend args })) <$>
        extendNames "%" s.values ((args.zipIdx p.args.size).map fun e => (e.1, .arg ⟨e.2⟩))) := by
  induction args generalizing s p with
  | nil =>
    rw [Table.extend_nil]
    exact follows_pure
  | cons name args ih =>
    rw [List.zipIdx_cons, List.map_cons, extendNames_cons, map_bind, ← Table.push_extend,
      ← Table.size_push name]
    exact (addArg_follows name).bind fun values _ => ih

/-- A block after the first is added. -/
theorem openBlock_follows {n : Nat} (hn : n ≠ 0) (label : String) :
    Follows (openBlock n label) s p
      ((fun blocks => (p.blocks.next, { s with blocks },
        { p with blocks := p.blocks.push { name := label } })) <$>
          extendNames "" s.blocks [(label, p.blocks.next)]) := by
  rw [openBlock, if_neg hn]
  have hadd : Yields (Build.addBlock label) p p.blocks.next
      { p with blocks := p.blocks.push { name := label } } := rfl
  exact (follows_build hadd).andThen ((defineBlock_follows label _).map fun _ => p.blocks.next)

theorem addBlocks_follows (bs : List BlockTree) {n : Nat} (hn : n = p.blocks.size) (hpos : n ≠ 0) :
    Follows ((bs.zipIdx n).mapM fun e => openBlock e.2 e.1.label) s p
      ((fun blocks => ((List.range' n bs.length).map Handle.mk, { s with blocks },
        { p with blocks := p.blocks.extend (bs.map fun b => { name := b.label }) })) <$>
          extendNames "" s.blocks ((bs.zipIdx n).map fun e => (e.1.label, ⟨e.2⟩))) := by
  induction bs generalizing n s p with
  | nil =>
    rw [List.map_nil, Table.extend_nil]
    exact follows_pure
  | cons b bs ih =>
    rw [List.zipIdx_cons, List.map_cons, List.map_cons, extendNames_cons, map_bind,
      ← Table.push_extend, List.mapM_cons]
    subst hn
    refine (openBlock_follows hpos b.label).bind fun blocks _ => ?_
    exact (ih (Table.size_push _).symm (Nat.succ_ne_zero _)).map fun hs => p.blocks.next :: hs

end Lowering

theorem Handle.first_succ {k : Entity} (n : Nat) :
    (first (n + 1) : List (Handle k)) = ⟨0⟩ :: (List.range' 1 n).map Handle.mk := by
  rw [first, List.range_eq_range', List.range'_succ]
  rfl

namespace ProcTree

/-- The blocks of a tree as they are opened.  Without any there is still an entry. -/
def opened (t : ProcTree) : Table .block BasicBlock :=
  match t.blocks with
  | [] => .ofList [{ name := "entry" }]
  | bs => .ofList (bs.map fun b => { name := b.label })

end ProcTree

namespace Lowering

variable {s : Scope} {p : Procedure}

/-- The first block is the entry. -/
theorem openEntry_follows (name label : String) (args : Table .arg String)
    (values : List (String × Value)) :
    Follows (openBlock 0 label) ⟨values, []⟩ { Procedure.new name with args }
      ((fun blocks => (⟨0⟩, ⟨values, blocks⟩,
        { Procedure.new name with args, blocks := .ofList [{ name := label }] })) <$>
          extendNames "" [] [(label, ⟨0⟩)]) := by
  have hentry : Yields (Build.labelEntry label) { Procedure.new name with args } ⟨0⟩
      { Procedure.new name with args, blocks := .ofList [{ name := label }] } := rfl
  exact (follows_build hentry).andThen ((defineBlock_follows label ⟨0⟩).map fun _ => (⟨0⟩ : Block))

/-- The second pass: blocks are opened one after the other. -/
theorem openBlocks_follows (t : ProcTree) (args : Table .arg String)
    (values : List (String × Value)) :
    Follows (t.blocks.zipIdx.mapM fun e => openBlock e.2 e.1.label) ⟨values, []⟩
      { Procedure.new t.name with args }
      ((fun blocks => (Handle.first t.blocks.length, ⟨values, blocks⟩,
        { Procedure.new t.name with args, blocks := t.opened })) <$>
          extendNames "" [] t.labelNames) := by
  rw [ProcTree.labelNames]
  cases hblocks : t.blocks with
  | nil =>
    rw [ProcTree.opened, hblocks]
    exact follows_pure
  | cons b bs =>
    have hopened : t.opened =
        (Table.ofList [{ name := b.label }]).extend (bs.map fun b => { name := b.label }) := by
      rw [ProcTree.opened, hblocks, Table.ofList_extend]
      rfl
    rw [hopened, List.zipIdx_cons, List.map_cons, extendNames_cons, map_bind, List.mapM_cons,
      List.length_cons, Handle.first_succ]
    refine (openEntry_follows t.name b.label args values).bind fun blocks _ => ?_
    have hrest := addBlocks_follows (s := ⟨values, blocks⟩)
      (p := { Procedure.new t.name with args, blocks := .ofList [{ name := b.label }] }) bs (n := 1)
      rfl Nat.one_ne_zero
    exact hrest.map fun hs => (⟨0⟩ : Block) :: hs

/-- The names of the results of instructions that are numbered from `n` on. -/
def resultsFrom (n : Nat) (is : List InstTree) : List (String × Value) :=
  (is.zipIdx n).filterMap fun e => e.1.result.map (·, .inst ⟨e.2⟩)

theorem resultsFrom_cons (n : Nat) (i : InstTree) (is : List InstTree) :
    resultsFrom n (i :: is) = resultsFrom n [i] ++ resultsFrom (n + 1) is := by
  rw [resultsFrom, List.zipIdx_cons, ← List.singleton_append, List.filterMap_append]
  rfl

theorem resultsFrom_append (n : Nat) (is js : List InstTree) :
    resultsFrom n (is ++ js) = resultsFrom n is ++ resultsFrom (n + is.length) js := by
  rw [resultsFrom, List.zipIdx_append, List.filterMap_append]
  rfl

/-- An instruction before it gets its operation. -/
def reserved (i : InstTree) : Instruction := { name := i.result, op := .placeholder }

theorem reserve_follows (i : InstTree) :
    Follows (reserve i) s p
      ((fun values => (p.insts.next, { s with values },
        { p with insts := p.insts.push (reserved i) })) <$>
          extendNames "%" s.values (resultsFrom p.insts.size [i])) := by
  obtain ⟨result, action⟩ := i
  have hadd : Yields (Build.addInst { name := result, op := .placeholder }) p p.insts.next
      { p with insts := p.insts.push (reserved ⟨result, action⟩) } := rfl
  refine (follows_build hadd).andThen ?_
  cases result with
  | none => exact follows_pure
  | some name => exact (defineValue_follows name _).map fun _ => p.insts.next

theorem reserveRow_follows (is : List InstTree) {n : Nat} (hn : n = p.insts.size) :
    Follows (is.mapM reserve) s p
      ((fun values => ((List.range' n is.length).map Handle.mk, { s with values },
        { p with insts := p.insts.extend (is.map reserved) })) <$>
          extendNames "%" s.values (resultsFrom n is)) := by
  subst hn
  induction is generalizing s p with
  | nil =>
    rw [List.map_nil, Table.extend_nil]
    exact follows_pure
  | cons i is ih =>
    rw [resultsFrom_cons, extendNames_append, map_bind, List.map_cons, ← Table.push_extend,
      List.mapM_cons]
    refine (reserve_follows i).bind fun values _ => ?_
    have hrest := ih (s := { s with values }) (p := { p with insts := p.insts.push (reserved i) })
    rw [Table.size_push] at hrest
    exact hrest.map fun hs => p.insts.next :: hs

/-- The third pass: instructions are reserved block by block. -/
theorem reserveRows_follows (bs : List BlockTree) {n : Nat} (hn : n = p.insts.size) :
    Follows (bs.mapM fun b => b.insts.mapM reserve) s p
      ((fun values => (
        (numbering n (bs.map fun b => b.insts.length)).map fun ns => ns.map Handle.mk,
        { s with values },
        { p with insts := p.insts.extend ((bs.flatMap BlockTree.insts).map reserved) })) <$>
          extendNames "%" s.values (resultsFrom n (bs.flatMap BlockTree.insts))) := by
  induction bs generalizing s p n with
  | nil =>
    rw [List.flatMap_nil, List.map_nil, List.map_nil, Table.extend_nil]
    exact follows_pure
  | cons b bs ih =>
    rw [List.flatMap_cons, resultsFrom_append, extendNames_append, map_bind, List.map_append,
      ← Table.extend_extend, List.mapM_cons]
    refine (reserveRow_follows b.insts hn).bind fun values _ => ?_
    have hsize : n + b.insts.length = (p.insts.extend (b.insts.map reserved)).size := by
      rw [Table.size_extend, List.length_map, hn]
    exact (ih (p := { p with insts := p.insts.extend (b.insts.map reserved) }) hsize).map
      fun rows => (List.range' n b.insts.length).map Handle.mk :: rows

end Lowering

/-! ## Filling in -/

/-- A reserved instruction with the block it goes to and the operation it gets. -/
structure Fill where
  block : Block
  inst : Inst
  op : Operation

namespace Procedure

/-- The procedure with another operation for an instruction. -/
def redefined (p : Procedure) (i : Inst) (op : Operation) : Procedure :=
  { p with insts := p.insts.adjust i fun d => { d with op } }

/-- The procedure with one instruction filled in and placed, and the edges it implies. -/
def filled (p : Procedure) (f : Fill) : Procedure :=
  ((p.redefined f.inst f.op).appended f.block f.inst).linked f.block f.op.targets

variable {p : Procedure} {f : Fill} {fs : List Fill}

@[simp] theorem size_blocks_filled : (p.filled f).blocks.size = p.blocks.size := by
  rw [filled, size_blocks_linked, size_blocks_appended, redefined]

@[simp] theorem size_insts_filled : (p.filled f).insts.size = p.insts.size :=
  Table.size_adjust _

@[simp] theorem size_blocks_foldl_filled : (fs.foldl filled p).blocks.size = p.blocks.size := by
  induction fs generalizing p with
  | nil => rfl
  | cons f fs ih => rw [List.foldl_cons, ih, size_blocks_filled]

@[simp] theorem size_insts_foldl_filled : (fs.foldl filled p).insts.size = p.insts.size := by
  induction fs generalizing p with
  | nil => rfl
  | cons f fs ih => rw [List.foldl_cons, ih, size_insts_filled]

end Procedure

/-- The operations of a block, for instructions that are numbered from `n` on. -/
def rowFills (b : Block) (n : Nat) (ops : List Operation) : List Fill :=
  (ops.zipIdx n).map fun e => ⟨b, ⟨e.2⟩, e.1⟩

/-- The operations of blocks that are numbered from `k` on, for instructions that are numbered from
`n` on. -/
def fillsFrom : Nat → Nat → List (List Operation) → List Fill
  | _, _, [] => []
  | k, n, ops :: rows => rowFills ⟨k⟩ n ops ++ fillsFrom (k + 1) (n + ops.length) rows

namespace Scope

variable {s : Scope} {i : InstTree} {op : Operation}

theorem mem_of_block {label : String} {b : Block} (h : s.block label = .ok b) :
    (label, b) ∈ s.blocks := by
  rw [block] at h
  split at h
  next c hc =>
    cases h
    exact mem_of_lookup hc
  next => cases h

theorem targets_eq_nil (h : s.operation i = .ok op) (hi : i.action.isTerminator = false) :
    op.targets = [] := by
  have hsome : op.terminator?.isSome = false := (isSome_terminator? h).trans hi
  rw [Operation.targets, Option.not_isSome_iff_eq_none.mp (Bool.eq_false_iff.mp hsome)]
  rfl

/-- The blocks that an operation leads to are in the scope. -/
theorem exists_mem_of_targets (h : s.operation i = .ok op) {b : Block} (hb : b ∈ op.targets) :
    ∃ label, (label, b) ∈ s.blocks := by
  rw [Operation.targets] at hb
  cases hop : op.terminator? with
  | none =>
    rw [hop] at hb
    cases hb
  | some t =>
    rw [hop] at hb
    obtain ⟨label, hlabel⟩ := block_of_operation h hop hb
    exact ⟨label, mem_of_block hlabel⟩

end Scope

namespace Lowering

variable {s : Scope} {p : Procedure} {b : Block} {label : String}

/-- An instruction is filled in if its operation is found.  The blocks that a terminator leads to
are open by now. -/
theorem fillInst_follows {isLast : Bool} {i : InstTree} {h : Inst} (hb : b.index < p.blocks.size)
    (hh : h.index < p.insts.size) (hs : ∀ e ∈ s.blocks, e.2.index < p.blocks.size) :
    Follows (fillInst label b isLast i h) s p
      ((fun op => ((), s, p.filled ⟨b, h, op⟩)) <$> s.operationAt label isLast i) := by
  rw [Scope.operationAt, map_bind]
  refine follows_get.andThen (follows_lift.bind fun op hop => ?_)
  have hredefine : Yields (Build.redefine h op) p () (p.redefined h op) :=
    Build.updateInst_yields hh _
  refine (follows_build hredefine).andThen ?_
  cases hi : i.action.isTerminator with
  | true =>
    cases isLast with
    | true =>
      obtain ⟨d, hd⟩ := Table.exists_get? hh
      have hget : (p.redefined h op).insts.get? h = some { d with op } := by
        rw [Procedure.redefined, Table.get?_adjust, if_pos rfl, hd]
        rfl
      have htargets : ∀ a ∈ op.targets, a.index < p.blocks.size := by
        intro a ha
        obtain ⟨label, hmem⟩ := Scope.exists_mem_of_targets hop ha
        exact hs _ hmem
      have hplace :
          Yields (Build.placeTerminator b h) (p.redefined h op) () (p.filled ⟨b, h, op⟩) :=
        Build.placeTerminator_yields (p := p.redefined h op) hb hget htargets
      exact follows_build hplace
    | false => exact follows_throw _
  | false =>
    have happend : Yields (Build.append b h) (p.redefined h op) () (p.filled ⟨b, h, op⟩) := by
      rw [Procedure.filled, Scope.targets_eq_nil hop hi, Procedure.linked_nil]
      exact Build.append_yields hb
    exact follows_build happend

theorem fillInsts_follows {is : List InstTree} {n : Nat} (hb : b.index < p.blocks.size)
    (hn : n + is.length ≤ p.insts.size) (hs : ∀ e ∈ s.blocks, e.2.index < p.blocks.size) :
    Follows (fillInsts label b (is.zip ((List.range' n is.length).map Handle.mk))) s p
      ((fun ops => ((), s, (rowFills b n ops).foldl Procedure.filled p)) <$>
        s.operations label is) := by
  induction is generalizing n p with
  | nil => exact follows_pure
  | cons i is ih =>
    rw [List.length_cons] at hn
    have hempty : (is.zip ((List.range' (n + 1) is.length).map Handle.mk : List Inst)).isEmpty =
        is.isEmpty := by
      cases is <;> rfl
    rw [List.length_cons, List.range'_succ, List.map_cons, List.zip_cons_cons, fillInsts, hempty,
      Scope.operations, map_bind]
    have hlt : n < p.insts.size := by omega
    refine (fillInst_follows hb hlt hs).bind fun op _ => ?_
    rw [bind_pure_comp, Functor.map_map]
    have hrest : n + 1 + is.length ≤ (p.filled ⟨b, ⟨n⟩, op⟩).insts.size := by
      rw [Procedure.size_insts_filled]
      omega
    exact ih (by simpa using hb) hrest (by simpa using hs)

/-- A block is filled in if its operations are found and only the last is a terminator. -/
theorem fillBlock_follows {t : BlockTree} {n : Nat} (hb : b.index < p.blocks.size)
    (hn : n + t.insts.length ≤ p.insts.size) (hs : ∀ e ∈ s.blocks, e.2.index < p.blocks.size) :
    Follows (fillBlock t b ((List.range' n t.insts.length).map Handle.mk)) s p
      ((fun ops => ((), s, (rowFills b n ops).foldl Procedure.filled p)) <$> t.operations s) := by
  rw [fillBlock, BlockTree.operations]
  split
  next => exact fillInsts_follows hb hn hs
  next => exact follows_throw _

/-- The last pass: blocks are filled in one after the other. -/
theorem fillBlocks_follows {bs : List BlockTree} {k n : Nat} (hk : k + bs.length ≤ p.blocks.size)
    (hn : n + (bs.flatMap BlockTree.insts).length ≤ p.insts.size)
    (hs : ∀ e ∈ s.blocks, e.2.index < p.blocks.size) :
    Follows ((bs.zip (((List.range' k bs.length).map Handle.mk).zip
        ((numbering n (bs.map fun b => b.insts.length)).map fun ns => ns.map Handle.mk))).forM
          fun e => fillBlock e.1 e.2.1 e.2.2) s p
      ((fun rows => ((), s, (fillsFrom k n rows).foldl Procedure.filled p)) <$>
        bs.mapM (·.operations s)) := by
  induction bs generalizing k n p with
  | nil => exact follows_pure
  | cons b bs ih =>
    rw [List.length_cons] at hk
    rw [List.flatMap_cons, List.length_append] at hn
    rw [List.mapM_cons, map_bind]
    have hlt : k < p.blocks.size := by omega
    have hfit : n + b.insts.length ≤ p.insts.size := by omega
    refine (fillBlock_follows (b := ⟨k⟩) hlt hfit hs).bind fun ops hops => ?_
    rw [bind_pure_comp, Functor.map_map]
    have hlen : b.insts.length = ops.length := (BlockTree.operations_eq_ok.mp hops).2.length_eq
    simp only [fillsFrom, List.foldl_append, ← hlen]
    refine ih ?_ ?_ (by simpa using hs)
    · rw [Procedure.size_blocks_foldl_filled]
      omega
    · rw [Procedure.size_insts_foldl_filled]
      omega

end Lowering

/-! ## The whole tree -/

namespace ProcTree

/-- The procedure of a tree with all instructions reserved. -/
def reserved (t : ProcTree) : Procedure :=
  { Procedure.new t.name with
    args := .ofList t.args
    blocks := t.opened
    insts := .ofList (t.insts.map Lowering.reserved) }

/-- The operations of a tree, block by block. -/
def operations (t : ProcTree) : Except SourceError (List (List Operation)) := do
  let scope ← t.scope
  t.blocks.mapM (·.operations scope)

theorem le_size_opened (t : ProcTree) : t.blocks.length ≤ t.opened.size := by
  rw [opened]
  split
  next h => simp [h]
  next => simp [Table.ofList, Table.size]

theorem reserved_eq (t : ProcTree) : t.reserved =
    { Procedure.new t.name with
      args := (Procedure.new t.name).args.extend t.args
      blocks := t.opened
      insts := (Procedure.new t.name).insts.extend (t.insts.map Lowering.reserved) } := by
  have hargs : (Procedure.new t.name).args.extend t.args = .ofList t.args :=
    Table.ofList_extend [] t.args
  have hinsts : (Procedure.new t.name).insts.extend (t.insts.map Lowering.reserved) =
      .ofList (t.insts.map Lowering.reserved) := Table.ofList_extend [] _
  rw [hargs, hinsts, reserved]

open Lowering in
/-- The four passes come to the names and the operations of the tree, and never fault. -/
theorem build_follows (t : ProcTree) :
    Follows t.build ⟨[], []⟩ (.new t.name) (do
      let scope ← t.scope
      (fun rows => ((), scope, (fillsFrom 0 0 rows).foldl Procedure.filled t.reserved)) <$>
        t.blocks.mapM (·.operations scope)) := by
  rw [scope, bind_assoc]
  refine (addArgs_follows t.args).bind fun args _ => ?_
  rw [bind_assoc]
  refine (openBlocks_follows t _ args).bind fun blocks hblocks => ?_
  rw [bind_assoc]
  refine (reserveRows_follows t.blocks (n := 0) rfl).bind fun values _ => ?_
  obtain ⟨rfl, -⟩ := extendNames_nil_eq_ok.mp hblocks
  have hscope : ∀ e ∈ t.labelNames, e.2.index < t.reserved.blocks.size := by
    rintro ⟨label, b⟩ he
    obtain ⟨bt, hbt, -⟩ := mem_labelNames.mp he
    exact Nat.lt_of_lt_of_le (List.getElem?_eq_some_iff.mp hbt).1 t.le_size_opened
  have hblocks : 0 + t.blocks.length ≤ t.reserved.blocks.size := by
    rw [Nat.zero_add]
    exact t.le_size_opened
  have hinsts : 0 + (t.blocks.flatMap BlockTree.insts).length ≤ t.reserved.insts.size := by
    simp [reserved, Table.ofList, Table.size, insts]
  have hfill := fillBlocks_follows (s := ⟨values, t.labelNames⟩) hblocks hinsts hscope
  rw [reserved_eq] at hfill ⊢
  rw [← List.range_eq_range'] at hfill
  exact hfill

/-- There is no fault, so the procedure is what the steps leave if they find no error. -/
theorem lower_of_follows {t : ProcTree} {r : Except SourceError (Unit × Scope × Procedure)}
    (h : t.build.Follows ⟨[], []⟩ (.new t.name) r) : t.lower = (·.2.2) <$> r := by
  rw [lower]
  cases r with
  | error e =>
    obtain ⟨p, hp⟩ := h
    rw [hp]
    rfl
  | ok u =>
    obtain ⟨_, s, p⟩ := u
    have h : (t.build.run ⟨[], []⟩).run.run.run (.new t.name) = (.ok (.ok ((), s)), p) := h
    rw [h]
    rfl

/-- The procedure of a tree is the one with all instructions reserved, after its operations were
filled in one by one. -/
theorem lower_eq (t : ProcTree) :
    t.lower = (fun rows => (fillsFrom 0 0 rows).foldl Procedure.filled t.reserved) <$>
      t.operations := by
  rw [lower_of_follows t.build_follows, operations]
  simp only [map_bind, Functor.map_map]

theorem exists_lower_of_operations {t : ProcTree} {rows : List (List Operation)}
    (h : t.operations = .ok rows) : ∃ p, t.lower = .ok p := by
  rw [lower_eq, h]
  exact ⟨_, rfl⟩

theorem exists_operations_of_lower {t : ProcTree} {p : Procedure} (h : t.lower = .ok p) :
    ∃ rows, t.operations = .ok rows := by
  rw [lower_eq, map_eq_ok] at h
  obtain ⟨rows, hrows, -⟩ := h
  exact ⟨rows, hrows⟩

end ProcTree

end SsaFlow
