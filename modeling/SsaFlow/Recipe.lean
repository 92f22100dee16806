import SsaFlow.Procedure.Build

/-!
# Recipes

A recipe is a short description from which any procedure shape can be made: any
graph of up to fifteen blocks, connected or not, with phis and computations
anywhere.  All numbers in it are bytes, and are taken modulo what they choose
from, so every recipe makes a procedure.  Recipes are read from a string of
bytes, which never runs out: past its end all bytes are zero.
-/

namespace SsaFlow

/-- An instruction of a recipe. -/
structure RecipeInst where
  /-- The block it is in. -/
  block : UInt8
  /-- Whether it is a phi. -/
  phi : Bool
  /-- Whether it has a result, if it is not a phi. -/
  hasResult : Bool
  /-- Its operands, or the inputs of the phi. -/
  operands : List UInt8
deriving DecidableEq, Repr

/-- The description of a procedure. -/
structure Recipe where
  numArgs : UInt8
  numBlocks : UInt8
  /-- The edges, from the first block to the second. -/
  edges : List (UInt8 × UInt8)
  insts : List RecipeInst
deriving DecidableEq, Repr

namespace Recipe

/-! ## Reading recipes -/

/-- Readers take bytes from the front of a list. -/
abbrev Reader := StateM (List UInt8)

/-- Takes a byte. -/
def byte : Reader UInt8 := do
  match ← get with
  | [] => return 0
  | b :: rest => set rest; return b

/-- Takes a byte as a truth value, by its lowest bit. -/
def flag : Reader Bool := return (← byte) % 2 == 1

/-- Takes items for as long as a true flag comes before them, `n` of them at most. -/
def many {α : Type} (item : Reader α) : Nat → Reader (List α)
  | 0 => return []
  | n + 1 => do
    if ← flag then
      let a ← item
      return a :: (← many item n)
    else return []

/-- Takes items for as long as a true flag comes before them.  There are no more of them than
bytes, since each takes one for its flag. -/
def items {α : Type} (item : Reader α) : Reader (List α) := do
  many item (← get).length

/-- Takes an edge. -/
def edge : Reader (UInt8 × UInt8) := do
  let source ← byte
  return (source, ← byte)

/-- Takes an instruction. -/
def inst : Reader RecipeInst := do
  let block ← byte
  let phi ← flag
  let hasResult ← flag
  let operands ← items byte
  return { block, phi, hasResult, operands }

/-- Takes a recipe. -/
def recipe : Reader Recipe := do
  let numArgs ← byte
  let numBlocks ← byte
  let edges ← items edge
  let insts ← items inst
  return { numArgs, numBlocks, edges, insts }

/-- The recipe that a string of bytes describes. -/
def ofBytes (bytes : List UInt8) : Recipe := (recipe.run bytes).1

/-! ## Making procedures -/

/-- The number of arguments. -/
def argCount (r : Recipe) : Nat := r.numArgs.toNat % 4

/-- The number of blocks. -/
def blockCount (r : Recipe) : Nat := max 1 (r.numBlocks.toNat % 16)

/-- The block that a byte chooses. -/
def chosenBlock (r : Recipe) (n : UInt8) : Block := ⟨n.toNat % r.blockCount⟩

/-- The edges between blocks. -/
def blockEdges (r : Recipe) : List (Block × Block) :=
  r.edges.map fun e => (r.chosenBlock e.1, r.chosenBlock e.2)

/-- The successors of a block. -/
def succs (r : Recipe) (b : Block) : List Block :=
  (r.blockEdges.filter (·.1 = b)).map Prod.snd

/-- The predecessors of a block. -/
def preds (r : Recipe) (b : Block) : List Block :=
  (r.blockEdges.filter (·.2 = b)).map Prod.fst

/-- The value that a byte chooses from those at hand, and a constant if there are none. -/
def pick (pool : List Value) (n : UInt8) : Value :=
  (pool[n.toNat % pool.length]?).getD (.const (Int64.ofNat n.toNat))

/-- The pairs of a phi: one for each predecessor, the values chosen by the operands in order. -/
def incoming (r : Recipe) (pool : List Value) (i : RecipeInst) : List (Value × Block) :=
  (r.preds (r.chosenBlock i.block)).zipIdx.map fun (pred, n) =>
    (pick pool ((i.operands[n]?).getD 0), pred)

/-- Adds an instruction, and gives the values at hand after it. -/
def addTo (r : Recipe) (pool : List Value) (i : RecipeInst) : Build (List Value) := do
  let b := r.chosenBlock i.block
  if i.phi then
    return pool ++ [.inst (← Build.appendPhi b (r.incoming pool i))]
  else
    let v ← Build.appendOp b "op" (i.operands.map (pick pool)) i.hasResult
    return if i.hasResult then pool ++ [.inst v] else pool

/-- The terminator for a list of successors. -/
def terminatorFor (v : Value) : List Block → Terminator
  | [] => .ret [v]
  | [target] => .br target
  | [ifTrue, ifFalse] => .condBr v ifTrue ifFalse
  | default :: targets => .switch v default targets

/-- Makes the procedure of a recipe, from one with only an entry block.  Phis are added before all
other instructions, so they lead their blocks. -/
def build (r : Recipe) : Build Unit := do
  let pool ← (List.range r.argCount).mapM fun i => Build.addArg ("a" ++ toString i)
  (List.range' 1 (r.blockCount - 1)).forM fun i => do
    let _ ← Build.addBlock ("b" ++ toString i)
  let pool ← (r.insts.filter (·.phi)).foldlM r.addTo pool
  let pool ← (r.insts.filter (!·.phi)).foldlM r.addTo pool
  (List.range r.blockCount).forM fun n => do
    let _ ← Build.endBlock ⟨n⟩ (terminatorFor (pick pool (UInt8.ofNat n)) (r.succs ⟨n⟩))

/-- The procedure of a recipe. -/
def procedure (r : Recipe) : Except Fault Procedure :=
  let (result, p) := r.build.run.run (Procedure.new "fuzz")
  result.map fun _ => p

end Recipe

end SsaFlow
