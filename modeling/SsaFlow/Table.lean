import SsaFlow.Error

/-!
# Dense tables

A `Table` has one slot for each of the first `size` handles of a kind.  `push`
adds a slot at the end and names it.  Reading or writing a slot that is not
there is a fault that tells the size of the table and the index asked for.

Tables have no largest size here.  A slot from `Handle.limit` on has a handle
that `Handle.ofIndex?` refuses, and allocating it should be the fault
`Fault.handleOverflow`.  `push` does not raise it.  So what is said of tables, and
of the procedures that are built from them, stands for real ones as long as they
have no more than `Handle.limit` slots of each kind.
-/

namespace SsaFlow

/-- One slot per handle, in handle order. -/
structure Table (k : Entity) (α : Type) where
  /-- The slots. -/
  slots : Array α
deriving DecidableEq, Repr

namespace Table

variable {k : Entity} {α β : Type}

/-- The table without slots. -/
def empty : Table k α := ⟨#[]⟩

instance : Inhabited (Table k α) := ⟨empty⟩

/-- The table with the items of a list as its slots. -/
def ofList (items : List α) : Table k α := ⟨items.toArray⟩

/-- The table of `n` slots that all hold `a`. -/
def replicate (n : Nat) (a : α) : Table k α := ⟨Array.replicate n a⟩

/-- The number of slots. -/
def size (t : Table k α) : Nat := t.slots.size

/-- The slots as a list. -/
def toList (t : Table k α) : List α := t.slots.toList

/-- The handles of the slots, in order. -/
def handles (t : Table k α) : List (Handle k) := Handle.first t.size

/-- Every slot with its handle, in order. -/
def entries (t : Table k α) : List (Handle k × α) :=
  t.toList.zipIdx.map fun (a, i) => (⟨i⟩, a)

/-- What the slot of `h` holds, if there is such a slot. -/
def get? (t : Table k α) (h : Handle k) : Option α := t.slots[h.index]?

/-- The fault of a handle without a slot. -/
def missing (t : Table k α) (h : Handle k) : Fault := .missingSlot t.size h.index

/-- What the slot of `h` holds. -/
def read (t : Table k α) (h : Handle k) : Except Fault α :=
  match t.get? h with
  | some a => .ok a
  | none => .error (t.missing h)

/-- The table with `f` applied to the slot of `h`. -/
def update (t : Table k α) (h : Handle k) (f : α → α) : Except Fault (Table k α) :=
  if h.index < t.size then .ok ⟨t.slots.modify h.index f⟩ else .error (t.missing h)

/-- The table with `a` in the slot of `h`. -/
def write (t : Table k α) (h : Handle k) (a : α) : Except Fault (Table k α) :=
  t.update h fun _ => a

/-- The handle of the next slot to be added. -/
def next (t : Table k α) : Handle k := ⟨t.size⟩

/-- The table with one more slot, which `next` names.  It never runs out of handles. -/
def push (t : Table k α) (a : α) : Table k α := ⟨t.slots.push a⟩

/-- The table with `f` applied to every slot. -/
def map (f : α → β) (t : Table k α) : Table k β := ⟨t.slots.map f⟩

end Table

end SsaFlow
