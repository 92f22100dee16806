import Mathlib.Computability.Language
import Mathlib.Data.Nat.Find
import SsaFlow.Proofs.Lexing

/-!
# Longest matches

A text is cut along patterns.  One of them is for what is dropped, blanks and comments,
and the others are for the kinds of tokens.  `Pattern.language` has the texts that match
a pattern.  `Pattern.Longest cs k piece` says that `piece` matches `k` at the start of
`cs`, and that no pattern matches more there.

The lexer cuts off longest matches.  It drops one of blanks or a comment
(`lexFrom_of_skip`) and takes the token of any other (`Pattern.Longest.next?_eq`).  It
refuses a text where no pattern matches, or where the longest match is an integer that
does not have 64 bits (`lexFrom_of_refused`).

That a match is longest is used in one way.  The next character cannot be one that the
pattern goes on with (`Pattern.Longest.stops`), so a run of characters of one class
ends where the match does.
-/

namespace SsaFlow

open Computability

/-! ## Patterns -/

/-- The texts of one character, which is of a class. -/
def oneOf (p : Char → Bool) : Language Char := {cs | ∃ c, p c = true ∧ cs = [c]}

/-- Names after a sigil. -/
def sigiled (s : Char) : Language Char :=
  oneOf (· == s) * (oneOf Token.isNameChar * (oneOf Token.isNameChar)∗)

/-- The characters that are tokens by themselves. -/
def symbols : List (Char × Token) :=
  [('\n', .newline), (',', .comma), (':', .colon), ('=', .equals), ('(', .lparen), (')', .rparen),
    ('\x7b', .lbrace), ('\x7d', .rbrace), ('[', .lbracket), (']', .rbracket)]

/-- The patterns that a text is cut along. -/
inductive Pattern where
  /-- Blanks, or a comment. -/
  | skip
  /-- A character that is a token by itself. -/
  | symbol (e : Char × Token) (known : e ∈ symbols)
  | localName
  | globalName
  | word
  | int

namespace Pattern

/-- The texts that match a pattern. -/
def language : Pattern → Language Char
  | skip => oneOf Token.isBlank * (oneOf Token.isBlank)∗ + oneOf (· == ';') * (oneOf (· != '\n'))∗
  | symbol e _ => {[e.1]}
  | localName => sigiled '%'
  | globalName => sigiled '@'
  | word => oneOf Token.isNameStart * (oneOf Token.isNameChar)∗
  | int => (1 + oneOf (· == '-')) * (oneOf Char.isDigit * (oneOf Char.isDigit)∗)

/-- The number that is written by a sign, if there is one, and digits. -/
def intValue : List Char → Int
  | '-' :: ds => -(Nat.ofDigitChars 10 ds 0 : Int)
  | ds => Nat.ofDigitChars 10 ds 0

/-- A token can be made of the text.  An integer has to have 64 bits. -/
def Fits : Pattern → List Char → Prop
  | int, piece => Int64.minValue.toInt ≤ intValue piece ∧ intValue piece ≤ Int64.maxValue.toInt
  | _, _ => True

/-- The token of a text that matches and fits. -/
def token? : Pattern → List Char → Option Token
  | skip, _ => none
  | symbol e _, _ => some e.2
  | localName, piece => some (.localName (String.ofList piece.tail))
  | globalName, piece => some (.globalName (String.ofList piece.tail))
  | word, piece => some (.ident (String.ofList piece))
  | int, piece => some (.int (Int64.ofInt (intValue piece)))

/-- The longest match at the start of a text. -/
structure Longest (cs : List Char) (k : Pattern) (piece : List Char) : Prop where
  starts : piece <+: cs
  matched : piece ∈ k.language
  longest : ∀ k' other, other <+: cs → other ∈ language k' → other.length ≤ piece.length

/-- There is a character, but no pattern matches, or an integer does not fit. -/
def Refused (cs : List Char) : Prop :=
  cs ≠ [] ∧ ((∀ k piece, piece <+: cs → piece ∉ language k) ∨
    ∃ piece, Longest cs int piece ∧ ¬ Fits int piece)

/-! ## Matching texts -/

variable {cs rest piece : List Char} {k : Pattern} {t : Token}

theorem mem_oneOf_mul {p : Char → Bool} {l : Language Char} :
    cs ∈ oneOf p * l ↔ ∃ c tail, cs = c :: tail ∧ p c = true ∧ tail ∈ l := by
  rw [Language.mem_mul]
  constructor
  · rintro ⟨_, ⟨c, hc, rfl⟩, tail, htail, rfl⟩
    exact ⟨c, tail, rfl, hc, htail⟩
  · rintro ⟨c, tail, rfl, hc, htail⟩
    exact ⟨[c], ⟨c, hc, rfl⟩, tail, htail, rfl⟩

theorem mem_oneOf_star {p : Char → Bool} : cs ∈ (oneOf p)∗ ↔ ∀ c ∈ cs, p c = true := by
  induction cs with
  | nil => simp [Language.nil_mem_kstar]
  | cons c cs ih =>
    rw [← Language.one_add_self_mul_kstar_eq_kstar, Language.mem_add, Language.mem_one,
      mem_oneOf_mul]
    simp [ih]

theorem mem_oneOf_plus {p : Char → Bool} :
    cs ∈ oneOf p * (oneOf p)∗ ↔ cs ≠ [] ∧ ∀ c ∈ cs, p c = true := by
  rw [mem_oneOf_mul]
  constructor
  · rintro ⟨c, tail, rfl, hc, htail⟩
    exact ⟨List.cons_ne_nil c tail, List.forall_mem_cons.mpr ⟨hc, mem_oneOf_star.mp htail⟩⟩
  · rintro ⟨hne, hall⟩
    obtain ⟨c, tail, rfl⟩ := List.exists_cons_of_ne_nil hne
    obtain ⟨hc, htail⟩ := List.forall_mem_cons.mp hall
    exact ⟨c, tail, rfl, hc, mem_oneOf_star.mpr htail⟩

theorem mem_skip : cs ∈ language skip ↔
    (cs ≠ [] ∧ ∀ c ∈ cs, Token.isBlank c = true) ∨
      ∃ body, cs = ';' :: body ∧ ∀ c ∈ body, (c != '\n') = true := by
  rw [language, Language.mem_add, mem_oneOf_plus, mem_oneOf_mul]
  simp [mem_oneOf_star]

theorem mem_sigiled {s : Char} : cs ∈ sigiled s ↔
    ∃ n, cs = s :: n ∧ n ≠ [] ∧ ∀ c ∈ n, Token.isNameChar c = true := by
  rw [sigiled, mem_oneOf_mul]
  simp [mem_oneOf_plus]

theorem mem_word : cs ∈ language word ↔
    ∃ c tail, cs = c :: tail ∧ Token.isNameStart c = true ∧
      ∀ d ∈ tail, Token.isNameChar d = true := by
  rw [language, mem_oneOf_mul]
  simp only [mem_oneOf_star]

theorem mem_int : cs ∈ language int ↔
    ∃ ds, (cs = ds ∨ cs = '-' :: ds) ∧ ds ≠ [] ∧ ∀ d ∈ ds, d.isDigit = true := by
  rw [language, add_mul, one_mul, Language.mem_add, mem_oneOf_plus, mem_oneOf_mul]
  simp only [mem_oneOf_plus, beq_iff_eq]
  constructor
  · rintro (h | ⟨_, ds, rfl, rfl, h⟩)
    · exact ⟨cs, .inl rfl, h⟩
    · exact ⟨ds, .inr rfl, h⟩
  · rintro ⟨ds, rfl | rfl, h⟩
    · exact .inl h
    · exact .inr ⟨'-', ds, rfl, rfl, h⟩

/-! ## Longest matches -/

theorem exists_longest (hstarts : piece <+: cs) (hmatch : piece ∈ k.language) :
    ∃ k' longest, Longest cs k' longest := by
  classical
  -- lengths of matches are bounded by that of the text, so one of them is greatest
  let MatchOf : Nat → Prop := fun n =>
    ∃ k' other, other <+: cs ∧ other ∈ language k' ∧ other.length = n
  have hpiece : MatchOf piece.length := ⟨k, piece, hstarts, hmatch, rfl⟩
  obtain ⟨k', longest, hstarts', hmatch', hlen⟩ :=
    Nat.findGreatest_spec hstarts.length_le hpiece
  refine ⟨k', longest, hstarts', hmatch', fun k'' other hother hmem => ?_⟩
  rw [hlen]
  exact Nat.le_findGreatest hother.length_le ⟨k'', other, hother, hmem, rfl⟩

theorem ne_nil_of_mem (h : piece ∈ k.language) : piece ≠ [] := by
  cases k with
  | skip =>
    rcases mem_skip.mp h with ⟨hne, -⟩ | ⟨body, rfl, -⟩
    · exact hne
    · exact List.cons_ne_nil _ _
  | symbol e known =>
    obtain rfl : piece = [e.1] := h
    exact List.cons_ne_nil _ _
  | localName | globalName =>
    obtain ⟨n, rfl, -⟩ := mem_sigiled.mp h
    exact List.cons_ne_nil _ _
  | word =>
    obtain ⟨c, tail, rfl, -⟩ := mem_word.mp h
    exact List.cons_ne_nil _ _
  | int =>
    obtain ⟨ds, rfl | rfl, hne, -⟩ := mem_int.mp h
    · exact hne
    · exact List.cons_ne_nil _ _

/-- A text that is not refused goes on with a longest match that fits. -/
theorem exists_longest_of_not_refused (hne : cs ≠ []) (h : ¬ Refused cs) :
    ∃ k piece, Longest cs k piece ∧ Fits k piece := by
  have hmatch : ∃ k piece, piece <+: cs ∧ piece ∈ language k := by
    by_contra hnone
    exact h ⟨hne, .inl fun k piece hstarts hmem => hnone ⟨k, piece, hstarts, hmem⟩⟩
  obtain ⟨_, _, hstarts, hmem⟩ := hmatch
  obtain ⟨k, piece, hlongest⟩ := exists_longest hstarts hmem
  refine ⟨k, piece, hlongest, ?_⟩
  cases k with
  | int =>
    by_contra hfits
    exact h ⟨hne, .inr ⟨piece, hlongest, hfits⟩⟩
  | _ => trivial

/-- No character follows that the pattern goes on with. -/
theorem Longest.stops (h : Longest (piece ++ rest) k piece) {q : Char → Bool}
    (hq : ∀ c, q c = true → piece ++ [c] ∈ k.language) : ∀ c ∈ rest.head?, q c = false := by
  intro c hc
  cases rest with
  | nil => cases hc
  | cons d rest =>
    cases hc
    refine Bool.eq_false_iff.mpr fun hqc => ?_
    have hstarts : piece ++ [c] <+: piece ++ c :: rest :=
      (List.prefix_append_right_inj piece).mpr (List.prefix_append [c] rest)
    have hle := h.longest k _ hstarts (hq c hqc)
    rw [List.length_append, List.length_singleton] at hle
    omega

theorem Longest.apart (h : Longest (piece ++ rest) k piece)
    (hq : ∀ c, Token.isNameChar c = true → piece ++ [c] ∈ k.language) : Apart rest := by
  have hstops := h.stops hq
  cases rest with
  | nil => trivial
  | cons c rest => exact hstops c rfl

theorem forall_mem_concat {p : Char → Bool} (hcs : ∀ c ∈ cs, p c = true) {c : Char}
    (hc : p c = true) : ∀ d ∈ cs ++ [c], p d = true := by
  intro d hd
  rcases List.mem_append.mp hd with hd | hd
  · exact hcs d hd
  · rwa [List.mem_singleton.mp hd]

/-! ## Tokens of matches -/

theorem punctuation?_eq_some_iff {c : Char} :
    Token.punctuation? c = some t ↔ (c, t) ∈ symbols := by
  constructor
  · intro h
    unfold Token.punctuation? at h
    repeat' split at h
    all_goals cases h
    all_goals subst_vars
    all_goals decide
  · have hall : ∀ e ∈ symbols, Token.punctuation? e.1 = some e.2 := by decide
    exact hall (c, t)

/-- Names after a sigil are read up to the end of the match. -/
theorem Longest.sigiled?_eq {s : Char} (h : Longest (piece ++ rest) k piece)
    (hk : k.language = sigiled s) (make : String → Token) :
    ∃ n, piece = s :: n ∧
      Token.sigiled? make (n ++ rest) = some (make (String.ofList n), rest) := by
  obtain ⟨n, rfl, hne, hchars⟩ := mem_sigiled.mp (hk ▸ h.matched)
  have hapart : Apart rest := h.apart fun c hc =>
    hk ▸ mem_sigiled.mpr ⟨n ++ [c], rfl, by simp, forall_mem_concat hchars hc⟩
  have hname : (String.ofList n).toList = n := String.toList_ofList
  have hread : Token.sigiled? make ((String.ofList n).toList ++ rest) =
      some (make (String.ofList n), rest) :=
    Token.sigiled?_append (by simpa using hne) (by rwa [hname]) hapart
  exact ⟨n, rfl, by rwa [hname] at hread⟩

theorem intValue_of_digits (hdigits : ∀ d ∈ cs, d.isDigit = true) :
    intValue cs = (Token.digitsValue cs : Int) := by
  unfold intValue
  split
  next => cases hdigits '-' List.mem_cons_self
  next => rfl

theorem signed?_eq (negative : Bool) {n : Nat} {v : Int}
    (hv : v = if negative then -(n : Int) else n) :
    Token.signed? negative n =
      if Int64.minValue.toInt ≤ v ∧ v ≤ Int64.maxValue.toInt then some (Int64.ofInt v)
      else none := by
  have hmin : Int64.minValue.toInt = -9223372036854775808 := rfl
  have hmax : Int64.maxValue.toInt = 9223372036854775807 := rfl
  subst hv
  rw [Token.signed?, hmin, hmax]
  cases negative with
  | true =>
    have hfits : n ≤ 9223372036854775808 ↔
        (-9223372036854775808 : Int) ≤ -n ∧ -(n : Int) ≤ 9223372036854775807 := by omega
    simp only [if_true, hfits]
  | false =>
    have hfits : n < 9223372036854775808 ↔
        (-9223372036854775808 : Int) ≤ n ∧ (n : Int) ≤ 9223372036854775807 := by omega
    simp only [Bool.false_eq_true, if_false, hfits]

/-- Digits are read up to the end of the match. -/
theorem Longest.next?_int (h : Longest (piece ++ rest) int piece) :
    Token.next? (piece ++ rest) =
      if Int64.minValue.toInt ≤ intValue piece ∧ intValue piece ≤ Int64.maxValue.toInt then
        some (.int (Int64.ofInt (intValue piece)), rest)
      else none := by
  obtain ⟨ds, hpiece, hne, hdigits⟩ := mem_int.mp h.matched
  have hstops : ∀ c ∈ rest.head?, c.isDigit = false := by
    refine h.stops fun c hc => mem_int.mpr ⟨ds ++ [c], ?_, by simp, forall_mem_concat hdigits hc⟩
    rcases hpiece with rfl | rfl
    · exact .inl rfl
    · exact .inr rfl
  have hnumber := fun negative => Token.number?_append negative hne hdigits hstops
  rcases hpiece with rfl | rfl
  · obtain ⟨d, ds, rfl⟩ := List.exists_cons_of_ne_nil hne
    have hd : d.isDigit = true := hdigits d List.mem_cons_self
    rw [List.cons_append, Token.next?_of_isNameChar (Token.isNameChar_of_isDigit hd), if_pos hd,
      ← List.cons_append, hnumber false, signed?_eq false (intValue_of_digits hdigits)]
    split <;> rfl
  · have hsign : Token.next? ('-' :: ds ++ rest) = Token.number? true (ds ++ rest) := rfl
    have hvalue : intValue ('-' :: ds) = -(Token.digitsValue ds : Int) := rfl
    rw [hsign, hnumber true, signed?_eq true hvalue]
    split <;> rfl

/-- The lexer takes the token of a longest match that fits. -/
theorem Longest.next?_eq (h : Longest (piece ++ rest) k piece) (hfits : k.Fits piece)
    (ht : k.token? piece = some t) : Token.next? (piece ++ rest) = some (t, rest) := by
  cases k with
  | skip => cases ht
  | symbol e known =>
    cases ht
    obtain rfl : piece = [e.1] := h.matched
    simp [Token.next?, punctuation?_eq_some_iff.mpr known]
  | localName =>
    cases ht
    obtain ⟨n, rfl, hread⟩ := h.sigiled?_eq rfl .localName
    exact hread
  | globalName =>
    cases ht
    obtain ⟨n, rfl, hread⟩ := h.sigiled?_eq rfl .globalName
    exact hread
  | word =>
    cases ht
    obtain ⟨c, tail, rfl, hc, htail⟩ := mem_word.mp h.matched
    have hapart : Apart rest := h.apart fun d hd =>
      mem_word.mpr ⟨c, tail ++ [d], rfl, hc, forall_mem_concat htail hd⟩
    have hvalid : (Token.ident (String.ofList (c :: tail))).Valid :=
      ⟨c, tail, String.toList_ofList, hc, htail⟩
    simpa [Token.text] using Token.next?_text hvalid hapart
  | int =>
    cases ht
    rw [h.next?_int]
    exact if_pos hfits

/-! ## Where nothing matches -/

theorem exists_run {p : Char → Bool} (h : ¬ (cs.takeWhile p).isEmpty = true) :
    ∃ run, run <+: cs ∧ run ≠ [] ∧ ∀ c ∈ run, p c = true :=
  ⟨cs.takeWhile p, List.takeWhile_prefix p, by simpa using h, List.all_eq_true.mp List.all_takeWhile⟩

theorem exists_name_of_sigiled? {make : String → Token}
    (h : Token.sigiled? make cs = some (t, rest)) :
    ∃ n, n <+: cs ∧ n ≠ [] ∧ ∀ c ∈ n, Token.isNameChar c = true := by
  simp only [Token.sigiled?] at h
  split at h
  next => cases h
  next hne => exact exists_run hne

theorem exists_digits_of_number? {negative : Bool}
    (h : Token.number? negative cs = some (t, rest)) :
    ∃ ds, ds <+: cs ∧ ds ≠ [] ∧ ∀ d ∈ ds, d.isDigit = true := by
  simp only [Token.number?] at h
  split at h
  next => cases h
  next hne => exact exists_run hne

/-- The lexer makes a token only where a pattern matches. -/
theorem exists_match_of_next? (h : Token.next? cs = some (t, rest)) :
    ∃ k piece, piece <+: cs ∧ piece ∈ language k := by
  cases cs with
  | nil => cases h
  | cons c cs =>
    simp only [Token.next?] at h
    split at h
    next u hu =>
      have known := punctuation?_eq_some_iff.mp hu
      exact ⟨symbol (c, u) known, [c], List.prefix_append [c] cs, rfl⟩
    split at h
    next hc =>
      obtain ⟨n, hn, hname⟩ := exists_name_of_sigiled? h
      have hmem : c :: n ∈ language localName := mem_sigiled.mpr ⟨n, hc ▸ rfl, hname⟩
      exact ⟨localName, c :: n, (List.prefix_cons_inj c).mpr hn, hmem⟩
    split at h
    next hc =>
      obtain ⟨n, hn, hname⟩ := exists_name_of_sigiled? h
      have hmem : c :: n ∈ language globalName := mem_sigiled.mpr ⟨n, hc ▸ rfl, hname⟩
      exact ⟨globalName, c :: n, (List.prefix_cons_inj c).mpr hn, hmem⟩
    split at h
    next hc =>
      obtain ⟨ds, hds, hdigits⟩ := exists_digits_of_number? h
      have hmem : c :: ds ∈ language int := mem_int.mpr ⟨ds, .inr (hc ▸ rfl), hdigits⟩
      exact ⟨int, c :: ds, (List.prefix_cons_inj c).mpr hds, hmem⟩
    split at h
    next =>
      obtain ⟨ds, hds, hdigits⟩ := exists_digits_of_number? h
      exact ⟨int, ds, hds, mem_int.mpr ⟨ds, .inl rfl, hdigits⟩⟩
    split at h
    next hc =>
      have hmem : [c] ∈ language word := mem_word.mpr ⟨c, [], rfl, hc, List.forall_mem_nil _⟩
      exact ⟨word, [c], List.prefix_append [c] cs, hmem⟩
    next => cases h

end Pattern

/-! ## The lexer follows the patterns -/

open Pattern

variable {cs rest piece : List Char}

theorem lexFrom_blanks (hblank : ∀ c ∈ cs, Token.isBlank c = true) (line : Nat) :
    lexFrom line (cs ++ rest) = lexFrom line rest := by
  induction cs with
  | nil => rfl
  | cons c cs ih =>
    obtain ⟨hc, hblank⟩ := List.forall_mem_cons.mp hblank
    rw [List.cons_append, lexFrom, if_pos hc, ih hblank]

/-- A longest match of blanks or a comment is dropped. -/
theorem lexFrom_of_skip (h : Longest (piece ++ rest) skip piece) (line : Nat) :
    lexFrom line (piece ++ rest) = lexFrom line rest := by
  rcases mem_skip.mp h.matched with ⟨-, hblank⟩ | ⟨body, rfl, hbody⟩
  · exact lexFrom_blanks hblank line
  · have hstops : ∀ c ∈ rest.head?, (c != '\n') = false := h.stops fun c hc =>
      mem_skip.mpr (.inr ⟨body ++ [c], rfl, forall_mem_concat hbody hc⟩)
    have hdrop := (Token.span_append hbody hstops).2
    rw [List.cons_append, lexFrom, if_neg (by decide), if_pos rfl, hdrop]

/-- A text is refused on the line it is on. -/
theorem lexFrom_of_refused (h : Refused cs) (line : Nat) :
    lexFrom line cs = .error (.lex line) := by
  obtain ⟨hne, hnone | ⟨piece, hint, hfits⟩⟩ := h
  · obtain ⟨c, cs, rfl⟩ := List.exists_cons_of_ne_nil hne
    have hskip := hnone skip [c] (List.prefix_append [c] cs)
    rw [mem_skip, not_or] at hskip
    refine lexFrom_eq_error (by simpa using hskip.1) (fun hc => ?_) ?_ line
    · exact hskip.2 ⟨[], hc ▸ rfl, List.forall_mem_nil _⟩
    · refine Option.eq_none_iff_forall_ne_some.mpr fun ⟨t, rest⟩ hnext => ?_
      obtain ⟨k, piece, hstarts, hmatch⟩ := exists_match_of_next? hnext
      exact hnone k piece hstarts hmatch
  · obtain ⟨rest, rfl⟩ := hint.starts
    have hnext := hint.next?_int.trans (if_neg hfits)
    obtain ⟨ds, rfl | rfl, hds, hdigits⟩ := mem_int.mp hint.matched
    · obtain ⟨d, ds, rfl⟩ := List.exists_cons_of_ne_nil hds
      have hd := Token.isNameChar_of_isDigit (hdigits d List.mem_cons_self)
      exact lexFrom_eq_error (Token.isBlank_of_isNameChar hd)
        (Token.ne_of_isNameChar hd (by decide)) hnext line
    · exact lexFrom_eq_error (by decide) (by decide) hnext line

end SsaFlow
