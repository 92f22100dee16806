import SsaFlow.Procedure.Build
import SsaFlow.Text.Tree

/-!
# From trees to procedures

Names are looked up in the scope of the whole procedure, so they may be used
before the line that defines them.  A procedure is built in four passes.

* Arguments are added and named.
* Blocks are opened and get their labels.  The first is the entry, which a new
  procedure has already.
* Instructions are reserved.  Each is allocated without an operation, and its
  result is named.
* Block by block, instructions get their operations and are placed.  The
  terminator of a block brings the edges.

So instructions are numbered in the order they are written, and blocks likewise.
The order of the checks decides which error is reported.  Names of arguments
come first, then labels, then names of results.  In the last pass a block has to
end in a terminator, and each of its instructions has to find its operands and
labels and must not be a terminator before the last.
-/

namespace SsaFlow

/-! ## Scopes -/

/-- Adds names one after the other.  A name that is known already is refused. -/
def extendNames {α : Type} (sigil : String) :
    List (String × α) → List (String × α) → Except SourceError (List (String × α))
  | known, [] => .ok known
  | known, (name, a) :: rest =>
    if (known.lookup name).isSome then .error (.redefinition (sigil ++ name))
    else extendNames sigil (known ++ [(name, a)]) rest

/-- The names of a procedure. -/
structure Scope where
  /-- Arguments and results. -/
  values : List (String × Value)
  /-- Labels. -/
  blocks : List (String × Block)

namespace Scope

/-- The value of an operand. -/
def value (s : Scope) : OperandTree → Except SourceError Value
  | .name n =>
    match s.values.lookup n with
    | some v => .ok v
    | none => .error (.undefinedValue ("%" ++ n))
  | .int k => .ok (.const k)

/-- The block of a label. -/
def block (s : Scope) (label : String) : Except SourceError Block :=
  match s.blocks.lookup label with
  | some b => .ok b
  | none => .error (.undefinedBlock label)

/-- An incoming pair of a phi. -/
def pair (s : Scope) (p : OperandTree × String) : Except SourceError (Value × Block) := do
  let v ← s.value p.1
  return (v, ← s.block p.2)

/-- The operation of an instruction. -/
def operation (s : Scope) (i : InstTree) : Except SourceError Operation :=
  match i.action with
  | .compute opcode args => do
    return .compute opcode (← args.mapM s.value) i.result.isSome
  | .phi incoming => do return .phi (← incoming.mapM s.pair)
  | .br target => do return .terminator (.br (← s.block target))
  | .condBr cond ifTrue ifFalse => do
    let cond ← s.value cond
    let ifTrue ← s.block ifTrue
    return .terminator (.condBr cond ifTrue (← s.block ifFalse))
  | .switch value default targets => do
    let value ← s.value value
    let default ← s.block default
    return .terminator (.switch value default (← targets.mapM s.block))
  | .ret values => do return .terminator (.ret (← values.mapM s.value))
  | .unreachable => return .terminator .unreachable

end Scope

/-- Whether the last instruction is a terminator. -/
def BlockTree.endsInTerminator (b : BlockTree) : Bool :=
  b.insts.getLast?.any (·.action.isTerminator)

/-! ## Steps -/

/-- Steps that build the procedure of a tree.  They know the names so far, and stop where the tree
has an error. -/
abbrev Lowering := StateT Scope (ExceptT SourceError Build)

namespace Lowering

/-- Names a value. -/
def defineValue (name : String) (v : Value) : Lowering Unit := do
  let s ← get
  set { s with values := ← extendNames "%" s.values [(name, v)] }

/-- Names a block. -/
def defineBlock (label : String) (b : Block) : Lowering Unit := do
  let s ← get
  set { s with blocks := ← extendNames "" s.blocks [(label, b)] }

/-- Adds an argument. -/
def addArg (name : String) : Lowering Unit := do
  defineValue name (← Build.addArg name)

/-- Opens the block number `n`. -/
def openBlock (n : Nat) (label : String) : Lowering Block := do
  let b ← if n = 0 then Build.labelEntry label else Build.addBlock label
  defineBlock label b
  return b

/-- Allocates an instruction that gets its operation later. -/
def reserve (i : InstTree) : Lowering Inst := do
  let h ← Build.addInst { name := i.result, op := .placeholder }
  match i.result with
  | some name => defineValue name (.inst h)
  | none => pure ()
  return h

/-- Gives an instruction its operation and places it in a block. -/
def fillInst (label : String) (b : Block) (isLast : Bool) (i : InstTree) (h : Inst) :
    Lowering Unit := do
  let op ← (← get).operation i
  Build.redefine h op
  if i.action.isTerminator then
    if isLast then Build.placeTerminator b h else throw (.misplacedTerminator label)
  else Build.append b h

/-- Fills in the instructions of a block, one after the other. -/
def fillInsts (label : String) (b : Block) : List (InstTree × Inst) → Lowering Unit
  | [] => return
  | (i, h) :: rest => do
    fillInst label b rest.isEmpty i h
    fillInsts label b rest

/-- Fills in a block. -/
def fillBlock (t : BlockTree) (b : Block) (hs : List Inst) : Lowering Unit := do
  if t.endsInTerminator then fillInsts t.label b (t.insts.zip hs)
  else throw (.missingTerminator t.label)

end Lowering

/-! ## Procedures -/

namespace ProcTree

/-- Builds the procedure of a tree on a new one. -/
def build (t : ProcTree) : Lowering Unit := do
  t.args.forM Lowering.addArg
  let blocks ← t.blocks.zipIdx.mapM fun (b, n) => Lowering.openBlock n b.label
  let rows ← t.blocks.mapM fun b => b.insts.mapM Lowering.reserve
  (t.blocks.zip (blocks.zip rows)).forM fun (b, h, hs) => Lowering.fillBlock b h hs

/-- The procedure a tree describes.  No step names a block or an instruction that is not there, so
there is never a fault (`ProcTree.build_follows`). -/
def lower (t : ProcTree) : Except SourceError Procedure :=
  match (t.build.run { values := [], blocks := [] }).run.run.run (.new t.name) with
  | (.ok (.ok _), p) => .ok p
  | (.ok (.error e), _) => .error e
  | (.error _, p) => .ok p

end ProcTree

end SsaFlow
