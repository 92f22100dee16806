import SsaFlow.Error

/-!
# Bit sets

A `BitSet` is a set of positions below a fixed length.  It is held as 64-bit
words, position `i` in bit `i % 64` of word `i / 64`.  There are just as many
words as the length needs, and the bits from the length on are kept clear
(`BitSet.WellFormed`).  So word-wise equality is equality of sets.

Every operation on two sets asks for equal lengths.  An operation that fails
says what it was given.

Sets are values: `set`, `union` and `inter` give a new set, and it is the caller
who puts it in the place of the old one.  When they fail there is nothing to put
there.  That a set is left as it was by an operation that fails is thus built into
their types, and is not a fact about their code.
-/

namespace SsaFlow

/-! ## Words -/

namespace Word

/-- The word with only bit `k` set. -/
def bit (k : Nat) : UInt64 := 1 <<< UInt64.ofNat k

/-- Whether bit `k` of a word is set. -/
def test (w : UInt64) (k : Nat) : Bool := w &&& bit k != 0

/-- The position of the lowest set bit, and 64 when there is none. -/
def lowest (w : UInt64) : Nat := ((List.range 64).find? (test w)).getD 64

/-- The number of set bits. -/
def count (w : UInt64) : Nat := (List.range 64).countP (test w)

/-- The word without its lowest set bit. -/
def dropLowest (w : UInt64) : UInt64 := w &&& (w - 1)

theorem toNat_dropLowest_lt {w : UInt64} (hw : w ≠ 0) : (dropLowest w).toNat < w.toNat := by
  have hle : (dropLowest w).toNat ≤ (w - 1).toNat := by
    rw [dropLowest, UInt64.toNat_and]
    exact Nat.and_le_right
  have hpos : w.toNat ≠ 0 := fun h => hw (UInt64.toNat_inj.mp h)
  have hone : 1 ≤ w := by
    rw [UInt64.le_iff_toNat_le, UInt64.toNat_one]
    omega
  rw [UInt64.toNat_sub_of_le _ _ hone, UInt64.toNat_one] at hle
  omega

/-- The positions of the set bits, ascending.  Each step takes the lowest one, until none is
left. -/
def ones (w : UInt64) : List Nat :=
  if w = 0 then [] else lowest w :: ones (dropLowest w)
termination_by w.toNat
decreasing_by exact toNat_dropLowest_lt ‹_›

end Word

/-! ## Sets -/

/-- A set of positions below `len`. -/
structure BitSet where
  /-- The bits, 64 to a word. -/
  words : Array UInt64
  /-- The number of positions. -/
  len : Nat
deriving DecidableEq, Repr

namespace BitSet

/-- The number of words that `n` positions need. -/
def wordsFor (n : Nat) : Nat := (n + 63) / 64

/-- The empty set over `n` positions. -/
def empty (n : Nat) : BitSet := ⟨Array.replicate (wordsFor n) 0, n⟩

instance : Inhabited BitSet := ⟨empty 0⟩

/-- Whether the bit at position `i` is set, looking at the words alone. -/
def hasBit (s : BitSet) (i : Nat) : Bool := Word.test (s.words.getD (i / 64) 0) (i % 64)

/-- As many words as the length needs, and no bit set from the length on. -/
def WellFormed (s : BitSet) : Prop :=
  s.words.size = wordsFor s.len ∧ ∀ i, s.len ≤ i → s.hasBit i = false

/-- Whether there are no positions at all. -/
def isVoid (s : BitSet) : Bool := s.len == 0

/-- Whether `i` is in the set.  There has to be a position `i`. -/
def get (s : BitSet) (i : Nat) : Except AnalysisError Bool :=
  if i < s.len then .ok (s.hasBit i) else .error (.indexOutOfBounds i s.len)

/-- Whether `i` is in the set.  A position that does not exist is not. -/
def contains (s : BitSet) (i : Nat) : Bool := i < s.len && s.hasBit i

/-- The set with `i` put in or taken out. -/
def set (s : BitSet) (i : Nat) (member : Bool) : Except AnalysisError BitSet :=
  if i < s.len then
    let mask := Word.bit (i % 64)
    .ok { s with words :=
      s.words.modify (i / 64) fun w => if member then w ||| mask else w &&& ~~~mask }
  else .error (.indexOutOfBounds i s.len)

/-- The set with `i` put in. -/
def insert (s : BitSet) (i : Nat) : Except AnalysisError BitSet := s.set i true

/-- The set with `i` taken out. -/
def erase (s : BitSet) (i : Nat) : Except AnalysisError BitSet := s.set i false

/-- The set with a list of positions put in, one after the other. -/
def insertAll (s : BitSet) (is : List Nat) : Except AnalysisError BitSet :=
  is.foldlM insert s

/-- The set with a list of positions taken out, one after the other. -/
def eraseAll (s : BitSet) (is : List Nat) : Except AnalysisError BitSet :=
  is.foldlM erase s

/-- Combines two sets of one length word by word, and tells whether a word of the first changed. -/
def combine (f : UInt64 → UInt64 → UInt64) (s t : BitSet) :
    Except AnalysisError (BitSet × Bool) :=
  if s.len = t.len then
    let changed := (s.words.zip t.words).any fun (a, b) => f a b != a
    .ok ({ s with words := Array.zipWith f s.words t.words }, changed)
  else .error (.domainMismatch s.len t.len)

/-- The union, and whether it differs from the first set. -/
def union (s t : BitSet) : Except AnalysisError (BitSet × Bool) := combine (· ||| ·) s t

/-- The intersection, and whether it differs from the first set. -/
def inter (s t : BitSet) : Except AnalysisError (BitSet × Bool) := combine (· &&& ·) s t

/-- Whether every member of the first set is one of the second. -/
def isSubset (s t : BitSet) : Except AnalysisError Bool :=
  if s.len = t.len then .ok ((s.words.zip t.words).all fun (a, b) => a &&& ~~~b == 0)
  else .error (.domainMismatch s.len t.len)

/-- The set with all its members taken out. -/
def clear (s : BitSet) : BitSet := { s with words := s.words.map fun _ => 0 }

/-- The number of members. -/
def count (s : BitSet) : Nat := s.words.toList.foldr (Word.count · + ·) 0

/-- The members, ascending. -/
def ones (s : BitSet) : List Nat :=
  s.words.toList.zipIdx.flatMap fun (w, i) => (Word.ones w).map (i * 64 + ·)

/-- The members between braces, then the length: `0, 64` and 130. -/
def text (s : BitSet) : String :=
  "\x7b" ++ ", ".intercalate (s.ones.map toString) ++ "\x7d/" ++ toString s.len

end BitSet

end SsaFlow
