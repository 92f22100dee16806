/-!
# Handles

Arguments, blocks, instructions, procedures and positions in a block order are
named by handles.  A handle is an index together with the kind of entity it
names, so a block handle is never mistaken for an instruction handle.

Indices below `Handle.limit` name entities.  The index `Handle.limit` itself is
kept for the *invalid* handle, which names nothing and is printed with a
question mark.  `Handle.ofIndex?` is the way in from a plain number and refuses
everything from the limit on.
-/

namespace SsaFlow

/-- The kinds of entity a handle can name. -/
inductive Entity where
  /-- A formal argument of a procedure. -/
  | arg
  /-- A basic block. -/
  | block
  /-- An instruction. -/
  | inst
  /-- A procedure of a program. -/
  | func
  /-- A position in a reverse postorder. -/
  | rpo
deriving DecidableEq, Repr

/-- The letters a handle of this kind is printed with. -/
def Entity.letters : Entity → String
  | .arg => "arg"
  | .block => "block"
  | .inst => "v"
  | .func => "func"
  | .rpo => "rpo"

/-- The name of one entity of the kind `k`. -/
structure Handle (k : Entity) where
  /-- Position of the entity among those of its kind. -/
  index : Nat
deriving DecidableEq, Repr

/-- Handles of arguments. -/
abbrev Arg := Handle .arg

/-- Handles of blocks. -/
abbrev Block := Handle .block

/-- Handles of instructions. -/
abbrev Inst := Handle .inst

/-- Handles of procedures. -/
abbrev Func := Handle .func

/-- Positions in a reverse postorder. -/
abbrev RpoIndex := Handle .rpo

namespace Handle

variable {k : Entity}

/-- The first index that names no entity. -/
def limit : Nat := 4294967295

/-- The handle that names nothing. -/
def invalid : Handle k := ⟨limit⟩

instance : Inhabited (Handle k) := ⟨invalid⟩

/-- Whether the handle is not the invalid one. -/
def isValid (h : Handle k) : Bool := h.index != limit

/-- The handle with a given index.  There is none from `limit` on. -/
def ofIndex? (n : Nat) : Option (Handle k) := if n < limit then some ⟨n⟩ else none

/-- A handle as it is printed: `block3`, and `block?` for the invalid one. -/
def text (h : Handle k) : String :=
  k.letters ++ if h.isValid then toString h.index else "?"

/-- The first `n` handles of a kind, in index order. -/
def first (n : Nat) : List (Handle k) := (List.range n).map Handle.mk

@[simp] theorem length_first (n : Nat) : (first n : List (Handle k)).length = n := by
  simp [first]

@[simp] theorem mem_first {h : Handle k} {n : Nat} : h ∈ first n ↔ h.index < n := by
  cases h
  simp [first]

end Handle

end SsaFlow
