import SsaFlow.Error

/-!
# Tokens

The textual form is made of names with a sigil (`%x` for values, `@f` for
procedures), bare words, integers of 64 bits, punctuation and line ends.
Blanks and comments divide tokens and are dropped.  A comment runs from a
semicolon to the end of its line, and the line end itself is a token.

A token is the longest match at its place.  `Token.next?` finds it, and `lex`
pairs every token of a text with the line it starts on.  From one token to the
next it adds the line ends between the places where they start.  A text is
refused at the first place where no token starts, or where an integer does not
fit.
-/

namespace SsaFlow

/-- The tokens of the textual form. -/
inductive Token where
  | newline
  /-- A value name, without its sigil. -/
  | localName (name : String)
  /-- A procedure name, without its sigil. -/
  | globalName (name : String)
  /-- A bare word. -/
  | ident (name : String)
  | int (k : Int64)
  | comma
  | colon
  | equals
  | lparen
  | rparen
  | lbrace
  | rbrace
  | lbracket
  | rbracket
deriving DecidableEq, Repr

namespace Token

/-! ## Classes of characters -/

/-- Characters that divide tokens and are dropped. -/
def isBlank (c : Char) : Bool := c == ' ' || c == '\t' || c == '\r'

/-- Characters a bare word starts with. -/
def isNameStart (c : Char) : Bool := c.isAlpha || c == '_'

/-- Characters of a name. -/
def isNameChar (c : Char) : Bool := c.isAlphanum || c == '_' || c == '.'

/-! ## One token -/

/-- The number that a list of decimal digits writes. -/
def digitsValue (ds : List Char) : Nat :=
  ds.foldl (fun n d => 10 * n + (d.toNat - '0'.toNat)) 0

/-- The 64-bit integer of a sign and a magnitude, if it fits. -/
def signed? (negative : Bool) (n : Nat) : Option Int64 :=
  if negative then if n ≤ 9223372036854775808 then some (Int64.ofInt (-n)) else none
  else if n < 9223372036854775808 then some (Int64.ofInt n) else none

/-- A name after its sigil, which has to have at least one character. -/
def sigiled? (make : String → Token) (cs : List Char) : Option (Token × List Char) :=
  let name := cs.takeWhile isNameChar
  if name.isEmpty then none else some (make (String.ofList name), cs.dropWhile isNameChar)

/-- An integer after its sign, which has to have at least one digit. -/
def number? (negative : Bool) (cs : List Char) : Option (Token × List Char) :=
  let ds := cs.takeWhile Char.isDigit
  if ds.isEmpty then none
  else (signed? negative (digitsValue ds)).map fun k => (int k, cs.dropWhile Char.isDigit)

/-- The punctuation that is one character long, line ends included. -/
def punctuation? (c : Char) : Option Token :=
  if c = '\n' then some newline
  else if c = ',' then some comma
  else if c = ':' then some colon
  else if c = '=' then some equals
  else if c = '(' then some lparen
  else if c = ')' then some rparen
  else if c = '\x7b' then some lbrace
  else if c = '\x7d' then some rbrace
  else if c = '[' then some lbracket
  else if c = ']' then some rbracket
  else none

/-- The token a text starts with, and the text after it. -/
def next? : List Char → Option (Token × List Char)
  | [] => none
  | c :: cs =>
    match punctuation? c with
    | some t => some (t, cs)
    | none =>
      if c = '%' then sigiled? localName cs
      else if c = '@' then sigiled? globalName cs
      else if c = '-' then number? true cs
      else if c.isDigit then number? false (c :: cs)
      else if isNameStart c then
        some (ident (String.ofList (c :: cs.takeWhile isNameChar)), cs.dropWhile isNameChar)
      else none

/-! ## Every token takes a character -/

theorem length_dropWhile_le {α : Type} (p : α → Bool) (l : List α) :
    (l.dropWhile p).length ≤ l.length :=
  (List.dropWhile_sublist p).length_le

theorem length_sigiled? {make : String → Token} {cs rest : List Char} {t : Token}
    (h : sigiled? make cs = some (t, rest)) : rest.length ≤ cs.length := by
  simp only [sigiled?] at h
  split at h
  · exact absurd h (by simp)
  · obtain ⟨-, rfl⟩ := Prod.mk.injEq .. ▸ Option.some.inj h
    exact length_dropWhile_le _ _

theorem length_number? {negative : Bool} {cs rest : List Char} {t : Token}
    (h : number? negative cs = some (t, rest)) : rest.length < cs.length := by
  simp only [number?] at h
  split at h
  · exact absurd h (by simp)
  next hd =>
    obtain ⟨k, -, hk⟩ := Option.map_eq_some_iff.mp h
    obtain ⟨-, rfl⟩ := Prod.mk.injEq .. ▸ hk
    cases cs with
    | nil => simp at hd
    | cons c cs =>
      by_cases hc : c.isDigit
      · simpa [List.dropWhile_cons, hc] using Nat.lt_succ_of_le (length_dropWhile_le _ cs)
      · simp [hc] at hd

theorem length_next? {cs rest : List Char} {t : Token} (h : next? cs = some (t, rest)) :
    rest.length < cs.length := by
  cases cs with
  | nil => simp [next?] at h
  | cons c cs =>
    simp only [next?] at h
    split at h
    · obtain ⟨-, rfl⟩ := Prod.mk.injEq .. ▸ Option.some.inj h
      simp
    split at h
    · exact Nat.lt_succ_of_le (length_sigiled? h)
    split at h
    · exact Nat.lt_succ_of_le (length_sigiled? h)
    split at h
    · exact Nat.lt_succ_of_lt (length_number? h)
    split at h
    · exact length_number? h
    split at h
    · obtain ⟨-, rfl⟩ := Prod.mk.injEq .. ▸ Option.some.inj h
      exact Nat.lt_succ_of_le (length_dropWhile_le _ _)
    · exact absurd h (by simp)

end Token

/-! ## All tokens -/

/-- Tokens with the line each starts on. -/
abbrev Tokens := List (Token × Nat)

/-- The line ends of a text before the part `rest` that it ends with. -/
def lineEnds (text rest : List Char) : Nat :=
  (text.take (text.length - rest.length)).count '\n'

/-- The tokens of the text `cs`, where the token before it started on `line` and `last` is the text
from that place on. -/
def lexAfter (line : Nat) (last cs : List Char) : Except SourceError Tokens :=
  match cs with
  | [] => .ok []
  | c :: rest =>
    if Token.isBlank c then lexAfter line last rest
    else if c = ';' then lexAfter line last (rest.dropWhile (· != '\n'))
    else
      match _ : Token.next? (c :: rest) with
      | none => .error (.lex (line + lineEnds last (c :: rest)))
      | some (t, after) => do
        let start := line + lineEnds last (c :: rest)
        let more ← lexAfter start (c :: rest) after
        return (t, start) :: more
termination_by cs.length
decreasing_by
  · simp
  · exact Nat.lt_succ_of_le (Token.length_dropWhile_le _ _)
  · exact Token.length_next? ‹_›

/-- The tokens of a text.  Lines are counted from one. -/
def lex (text : String) : Except SourceError Tokens := lexAfter 1 text.toList text.toList

end SsaFlow
