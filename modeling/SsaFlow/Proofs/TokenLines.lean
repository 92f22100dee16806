import SsaFlow.Proofs.LongestMatches

/-!
# Lines of tokens

`Cut text a ls b` says that `ls` are longest matches that follow each other in a text,
from the place `a` to the place `b`.  A match keeps the place it starts at, and its line
is told by the line ends before that place (`lineOf`), whatever was matched there.

Line ends are matched by the pattern for them and by no other
(`Pattern.count_newline`).  So counting tokens of this one kind gives the line at every
place (`lexFrom_of_cut`), also where blanks and comments are dropped in between.  A text
can be cut up to its end or up to a place where it is refused (`exists_cut`).
-/

namespace SsaFlow

open Pattern

/-! ## Cuts -/

/-- The line of a place in a text.  Lines are counted from one. -/
def lineOf (text : List Char) (place : Nat) : Nat := 1 + (text.take place).count '\n'

/-- A match and the place where it starts. -/
structure Lexeme where
  start : Nat
  pattern : Pattern
  piece : List Char

/-- The token of a match, if it has one, with the line it starts on. -/
def Lexeme.token? (text : List Char) (l : Lexeme) : Option (Token × Nat) :=
  (l.pattern.token? l.piece).map (·, lineOf text l.start)

/-- The tokens of some matches in a text. -/
def tokensOf (text : List Char) (ls : List Lexeme) : Tokens := ls.filterMap (·.token? text)

/-- Longest matches that fit follow each other from one place of a text to another. -/
inductive Cut (text : List Char) : Nat → List Lexeme → Nat → Prop where
  | stop (a : Nat) : Cut text a [] a
  | step {a b : Nat} {k : Pattern} {piece : List Char} {ls : List Lexeme}
      (longest : Longest (text.drop a) k piece) (fits : k.Fits piece)
      (more : Cut text (a + piece.length) ls b) : Cut text a (⟨a, k, piece⟩ :: ls) b

/-! ## Lines -/

variable {text piece : List Char} {k : Pattern} {a b : Nat} {ls : List Lexeme}

theorem Pattern.Longest.drop_eq (h : Longest (text.drop a) k piece) :
    text.drop a = piece ++ text.drop (a + piece.length) := by
  obtain ⟨rest, hrest⟩ := h.starts
  rw [← List.drop_drop, ← hrest, List.drop_left]

theorem Pattern.Longest.lineOf_eq (h : Longest (text.drop a) k piece) :
    lineOf text (a + piece.length) = lineOf text a + piece.count '\n' := by
  have htake : (text.drop a).take piece.length = piece := (List.prefix_iff_eq_take.mp h.starts).symm
  rw [lineOf, List.take_add, htake, List.count_append, lineOf, Nat.add_assoc]

theorem lineOf_mono (text : List Char) (h : a ≤ b) : lineOf text a ≤ lineOf text b :=
  Nat.add_le_add_left ((List.take_sublist_take_left h).count_le '\n') 1

theorem notMem_newline_of_class {p : Char → Bool} (hp : p '\n' = false)
    (hpiece : ∀ c ∈ piece, p c = true) : '\n' ∉ piece := by
  intro hmem
  rw [hpiece _ hmem] at hp
  cases hp

/-- No match goes past the end of a line, but for the line end itself. -/
theorem Pattern.notMem_newline (h : piece ∈ k.language) (ht : k.token? piece ≠ some .newline) :
    '\n' ∉ piece := by
  cases k with
  | skip =>
    rcases mem_skip.mp h with ⟨-, hblank⟩ | ⟨body, rfl, hbody⟩
    · exact notMem_newline_of_class rfl hblank
    · exact List.not_mem_cons_of_ne_of_not_mem (by decide) (notMem_newline_of_class rfl hbody)
  | symbol e known =>
    obtain rfl : piece = [e.1] := h
    have hall : ∀ e ∈ symbols, e.2 ≠ .newline → '\n' ∉ [e.1] := by decide
    exact hall e known fun he => ht (congrArg some he)
  | localName | globalName =>
    obtain ⟨n, rfl, -, hchars⟩ := mem_sigiled.mp h
    exact List.not_mem_cons_of_ne_of_not_mem (by decide)
      (notMem_newline_of_class (by decide) hchars)
  | word =>
    obtain ⟨c, tail, rfl, hc, htail⟩ := mem_word.mp h
    have hchars : ∀ d ∈ c :: tail, Token.isNameChar d = true :=
      List.forall_mem_cons.mpr ⟨Token.isNameChar_of_isNameStart hc, htail⟩
    exact notMem_newline_of_class (by decide) hchars
  | int =>
    obtain ⟨ds, rfl | rfl, -, hdigits⟩ := mem_int.mp h
    · exact notMem_newline_of_class (by decide) hdigits
    · exact List.not_mem_cons_of_ne_of_not_mem (by decide)
        (notMem_newline_of_class (by decide) hdigits)

theorem Pattern.eq_newline (h : piece ∈ k.language) (ht : k.token? piece = some .newline) :
    piece = ['\n'] := by
  cases k with
  | symbol e known =>
    obtain rfl : piece = [e.1] := h
    have hall : ∀ e ∈ symbols, e.2 = .newline → [e.1] = ['\n'] := by decide
    exact hall e known (Option.some.inj ht)
  | skip | localName | globalName | word | int => cases ht

/-- A match has as many line ends as it is tokens for one. -/
theorem Pattern.count_newline (h : piece ∈ k.language) :
    piece.count '\n' = if k.token? piece = some .newline then 1 else 0 := by
  split
  next ht => rw [eq_newline h ht, List.count_singleton_self]
  next ht => exact List.count_eq_zero.mpr (notMem_newline h ht)

theorem Pattern.eq_skip_of_token? (h : k.token? piece = none) : k = skip := by
  cases k with
  | skip => rfl
  | symbol | localName | globalName | word | int => cases h

@[simp] theorem tokensOf_nil (text : List Char) : tokensOf text [] = [] := rfl

theorem tokensOf_cons_none (ht : k.token? piece = none) :
    tokensOf text (⟨a, k, piece⟩ :: ls) = tokensOf text ls :=
  List.filterMap_cons_none (by rw [Lexeme.token?, ht, Option.map_none])

theorem tokensOf_cons_some {t : Token} (ht : k.token? piece = some t) :
    tokensOf text (⟨a, k, piece⟩ :: ls) = (t, lineOf text a) :: tokensOf text ls :=
  List.filterMap_cons_some (by rw [Lexeme.token?, ht, Option.map_some])

/-! ## Runs -/

/-- The lexer gives the tokens of a cut, and goes on where the cut ends. -/
theorem lexFrom_of_cut (h : Cut text a ls b) :
    lexFrom (lineOf text a) (text.drop a) =
      (tokensOf text ls ++ ·) <$> lexFrom (lineOf text b) (text.drop b) := by
  -- the line that is carried along is always that of the place the lexer has come to
  induction h with
  | stop a => simp
  | @step a b k piece ls longest fits more ih =>
    have hline := longest.lineOf_eq
    rw [count_newline longest.matched] at hline
    have hdrop := longest.drop_eq
    rw [hdrop] at longest ⊢
    cases ht : k.token? piece with
    | none =>
      obtain rfl := eq_skip_of_token? ht
      have hsame : lineOf text (a + piece.length) = lineOf text a := by simpa [ht] using hline
      rw [lexFrom_of_skip longest, ← hsame, ih, tokensOf_cons_none ht]
    | some t =>
      have hnext : (if t = .newline then lineOf text a + 1 else lineOf text a) =
          lineOf text (a + piece.length) := by
        rw [hline, ht]
        by_cases htoken : t = .newline <;> simp [htoken]
      rw [lexFrom_of_next? (longest.next?_eq fits ht), hnext, ih, Functor.map_map,
        tokensOf_cons_some ht]
      rfl

/-- A text can be cut up to its end, or up to where it is refused. -/
theorem exists_cut {a : Nat} (ha : a ≤ text.length) :
    ∃ ls b, Cut text a ls b ∧ (b = text.length ∨ Refused (text.drop b)) := by
  by_cases hend : a = text.length
  · exact ⟨[], a, .stop a, .inl hend⟩
  by_cases hrefused : Refused (text.drop a)
  · exact ⟨[], a, .stop a, .inr hrefused⟩
  have hne : text.drop a ≠ [] := by
    rw [ne_eq, List.drop_eq_nil_iff]
    omega
  obtain ⟨k, piece, longest, fits⟩ := exists_longest_of_not_refused hne hrefused
  have hpos : 0 < piece.length := List.length_pos_of_ne_nil (ne_nil_of_mem longest.matched)
  have hle : a + piece.length ≤ text.length := by
    have hlen := longest.starts.length_le
    rw [List.length_drop] at hlen
    omega
  obtain ⟨ls, b, hcut, hb⟩ := exists_cut hle
  exact ⟨_, b, .step longest fits hcut, hb⟩
termination_by text.length - a

theorem Cut.le_start (h : Cut text a ls b) : ∀ l ∈ ls, a ≤ l.start := by
  induction h with
  | stop a => exact List.forall_mem_nil _
  | step longest fits more ih =>
    intro l hl
    rcases List.mem_cons.mp hl with rfl | hl
    · exact Nat.le_refl _
    · exact Nat.le_of_add_right_le (ih l hl)

theorem Cut.starts_ascend (h : Cut text a ls b) : ls.Pairwise fun l l' => l.start ≤ l'.start := by
  induction h with
  | stop a => exact .nil
  | step longest fits more ih =>
    exact List.pairwise_cons.mpr ⟨fun l hl => Nat.le_of_add_right_le (more.le_start l hl), ih⟩

/-- The lines of tokens do not decrease. -/
theorem Cut.lines_ascend (h : Cut text a ls b) :
    ((tokensOf text ls).map Prod.snd).Pairwise (· ≤ ·) := by
  refine List.pairwise_map.mpr (h.starts_ascend.filterMap _ fun l l' hle e he e' he' => ?_)
  obtain ⟨t, -, rfl⟩ := Option.map_eq_some_iff.mp he
  obtain ⟨t', -, rfl⟩ := Option.map_eq_some_iff.mp he'
  exact lineOf_mono text hle

/-- The tokens for line ends in a cut are as many as the lines it goes on for. -/
theorem Cut.count_newline (h : Cut text a ls b) :
    lineOf text b =
      lineOf text a + ((tokensOf text ls).map Prod.fst).count .newline := by
  induction h with
  | stop a => simp
  | @step a b k piece ls longest fits more ih =>
    rw [ih, longest.lineOf_eq, Pattern.count_newline longest.matched]
    cases ht : k.token? piece with
    | none =>
      rw [tokensOf_cons_none ht]
      simp
    | some t =>
      rw [tokensOf_cons_some ht, List.map_cons, List.count_cons]
      by_cases htoken : t = .newline
      · simp [htoken]
        omega
      · simp [htoken]

/-! ## Texts -/

theorem lex_eq_ok_of_cut {text : String} (h : Cut text.toList 0 ls text.toList.length) :
    lex text = .ok (tokensOf text.toList ls) := by
  have hrun := lexFrom_of_cut h
  rw [List.drop_length, lexFrom] at hrun
  simpa [lineOf, lex_eq] using hrun

theorem lex_eq_error_of_cut {text : String} (h : Cut text.toList 0 ls b)
    (hb : Refused (text.toList.drop b)) : lex text = .error (.lex (lineOf text.toList b)) := by
  have hrun := lexFrom_of_cut h
  rw [lexFrom_of_refused hb] at hrun
  simpa [lineOf, lex_eq] using hrun

theorem exists_cut_of_lex_ok {text : String} {toks : Tokens} (h : lex text = .ok toks) :
    ∃ ls, Cut text.toList 0 ls text.toList.length ∧ tokensOf text.toList ls = toks := by
  obtain ⟨ls, b, hcut, rfl | hrefused⟩ := exists_cut (Nat.zero_le text.toList.length)
  · rw [lex_eq_ok_of_cut hcut] at h
    exact ⟨ls, hcut, Except.ok.inj h⟩
  · rw [lex_eq_error_of_cut hcut hrefused] at h
    cases h

theorem exists_cut_of_lex_error {text : String} {e : SourceError} (h : lex text = .error e) :
    ∃ ls place, Cut text.toList 0 ls place ∧ Refused (text.toList.drop place) ∧
      e = .lex (lineOf text.toList place) := by
  obtain ⟨ls, b, hcut, rfl | hrefused⟩ := exists_cut (Nat.zero_le text.toList.length)
  · rw [lex_eq_ok_of_cut hcut] at h
    cases h
  · rw [lex_eq_error_of_cut hcut hrefused] at h
    exact ⟨ls, b, hcut, hrefused, (Except.error.inj h).symm⟩

/-- A text has tokens just when longest matches take it up to its end, and the tokens are theirs.
Each is on the line after as many line ends as stand before its first character.  So lines do not
decrease, and each line end is a token.  Otherwise the text is refused on the line of the first
place where no pattern matches, or where an integer does not fit. -/
theorem lex_lines_exact (text : String) :
    (∀ toks, lex text = .ok toks ↔
      ∃ ls, Cut text.toList 0 ls text.toList.length ∧ tokensOf text.toList ls = toks) ∧
    (∀ toks, lex text = .ok toks → (toks.map Prod.snd).Pairwise (· ≤ ·) ∧
      (toks.map Prod.fst).count .newline = text.toList.count '\n') ∧
    (∀ e, lex text = .error e ↔
      ∃ ls place, Cut text.toList 0 ls place ∧ Refused (text.toList.drop place) ∧
        e = .lex (lineOf text.toList place)) := by
  refine ⟨fun toks => ⟨exists_cut_of_lex_ok, ?_⟩, fun toks h => ?_,
    fun e => ⟨exists_cut_of_lex_error, ?_⟩⟩
  · rintro ⟨ls, hcut, rfl⟩
    exact lex_eq_ok_of_cut hcut
  · obtain ⟨ls, hcut, rfl⟩ := exists_cut_of_lex_ok h
    refine ⟨hcut.lines_ascend, ?_⟩
    have hlines := hcut.count_newline
    simp only [lineOf, List.take_length, List.take_zero, List.count_nil] at hlines
    omega
  · rintro ⟨ls, place, hcut, hrefused, rfl⟩
    exact lex_eq_error_of_cut hcut hrefused

/-- A comment with a semicolon and what would be tokens in it, then an empty line. -/
def commented : String := "a ; %b ; c\n\n@d -7"

def commentedTokens : Tokens :=
  [(.ident "a", 1), (.newline, 1), (.newline, 2), (.globalName "d", 3), (.int (-7), 3)]

/-- The same lines, with an integer of more than 64 bits on the third. -/
def overlong : String := "a ; %b ; c\n\n@d 9223372036854775808"

theorem lex_lines_exact_commented :
    lex commented = .ok commentedTokens ∧
      (commentedTokens.map Prod.snd).Pairwise (· ≤ ·) ∧
      (commentedTokens.map Prod.fst).count .newline = commented.toList.count '\n' ∧
      ∃ ls place, Cut overlong.toList 0 ls place ∧ Refused (overlong.toList.drop place) ∧
        SourceError.lex 3 = .lex (lineOf overlong.toList place) := by
  have h : lex commented = .ok commentedTokens := by decide +kernel
  have herror : lex overlong = .error (.lex 3) := by decide +kernel
  obtain ⟨hlines, hcount⟩ := (lex_lines_exact commented).2.1 _ h
  exact ⟨h, hlines, hcount, ((lex_lines_exact overlong).2.2 _).mp herror⟩

end SsaFlow
