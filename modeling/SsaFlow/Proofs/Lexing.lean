import Mathlib.Data.List.Basic
import SsaFlow.Proofs.Recording
import SsaFlow.Text.Token

/-!
# Lexing

`Token.text` writes a token down, and the lexer reads it back from there
(`Token.next?_text`), if a name in it is one (`Token.Valid`) and what follows does not
go on with it (`Apart`).  The lexer makes no other tokens (`valid_of_lexFrom`).

The line of a token is told by the line ends in what was passed since the token before
(`lexAfter`).  What is read as one token has a line end in it only if it is that line end
(`Token.next?_piece`), and what is dropped has none.  So the lines are the same when the
tokens of line ends are counted instead (`lexFrom`, by `lex_eq`), and later modules do so.

`Spells cs ts` says that a text has the tokens `ts`.  Texts are put together from pieces.
A piece that `Writes` tokens may end in a name, so something has to be `Apart` after it,
while anything may follow a piece that `Ends` what it writes.  Blanks and punctuation
(`Divides`) turn the one into the other.
-/

namespace SsaFlow

namespace Token

/-! ## Characters -/

variable {c : Char}

theorem ne_of_isNameChar (hc : isNameChar c = true) {d : Char} (hd : isNameChar d = false) :
    c ≠ d := by
  rintro rfl
  rw [hc] at hd
  cases hd

theorem isBlank_of_isNameChar (hc : isNameChar c = true) : isBlank c = false := by
  have hne : ∀ {d : Char}, isNameChar d = false → c ≠ d := ne_of_isNameChar hc
  simp only [isBlank, Bool.or_eq_false_iff, beq_eq_false_iff_ne]
  exact ⟨⟨hne (by decide), hne (by decide)⟩, hne (by decide)⟩

theorem punctuation?_of_isNameChar (hc : isNameChar c = true) : punctuation? c = none := by
  have hne : ∀ {d : Char}, isNameChar d = false → c ≠ d := ne_of_isNameChar hc
  unfold punctuation?
  iterate 10 rw [if_neg (hne (by decide))]

theorem isNameChar_of_isDigit (hc : c.isDigit = true) : isNameChar c = true := by
  simp [isNameChar, Char.isAlphanum, hc]

theorem isNameChar_of_isNameStart (hc : isNameStart c = true) : isNameChar c = true := by
  simp only [isNameStart, Bool.or_eq_true] at hc
  rcases hc with hc | hc
  · simp [isNameChar, Char.isAlphanum, hc]
  · simp [isNameChar, hc]

theorem isDigit_of_isNameStart (hc : isNameStart c = true) : c.isDigit = false := by
  simp only [isNameStart, Bool.or_eq_true, beq_iff_eq] at hc
  rcases hc with hc | rfl
  · have hc : (decide (65 ≤ c.val ∧ c.val ≤ 90) || (97 ≤ c.val && c.val ≤ 122)) = true := hc
    show (48 ≤ c.val && c.val ≤ 57) = false
    simp only [Bool.or_eq_true, Bool.and_eq_true, decide_eq_true_eq, Bool.and_eq_false_iff,
      decide_eq_false_iff_not, UInt32.le_iff_toNat_le, UInt32.reduceToNat] at hc ⊢
    omega
  · rfl

/-! ## Written tokens -/

/-- A token as it is written. -/
def text : Token → String
  | newline => "\n"
  | localName n => "%" ++ n
  | globalName n => "@" ++ n
  | ident n => n
  | int k => toString k.toInt
  | comma => ","
  | colon => ":"
  | equals => "="
  | lparen => "("
  | rparen => ")"
  | lbrace => "\x7b"
  | rbrace => "\x7d"
  | lbracket => "["
  | rbracket => "]"

/-- Names are made of the characters of names, at least one.  A bare word starts as one. -/
def Valid : Token → Prop
  | localName n | globalName n => n ≠ "" ∧ ∀ c ∈ n.toList, isNameChar c = true
  | ident n => ∃ c cs, n.toList = c :: cs ∧ isNameStart c = true ∧ ∀ d ∈ cs, isNameChar d = true
  | _ => True

instance decidableValid : (t : Token) → Decidable t.Valid
  | localName n | globalName n =>
    decidable_of_iff (n ≠ "" ∧ n.toList.all isNameChar = true) (and_congr_right' List.all_eq_true)
  | ident n =>
    match h : n.toList with
    | [] => isFalse fun ⟨c, cs, hn, _⟩ => List.cons_ne_nil c cs (hn.symm.trans h)
    | c :: cs => decidable_of_iff (isNameStart c = true ∧ cs.all isNameChar = true)
        ⟨fun ⟨hc, hcs⟩ => ⟨c, cs, h, hc, List.all_eq_true.mp hcs⟩, fun ⟨c', cs', hn, hc, hcs⟩ => by
          obtain ⟨rfl, rfl⟩ := List.cons.inj (h.symm.trans hn)
          exact ⟨hc, List.all_eq_true.mpr hcs⟩⟩
  | newline | int _ | comma | colon | equals | lparen | rparen | lbrace | rbrace | lbracket
  | rbracket => isTrue trivial

end Token

/-- The text does not go on with a name that stands before it. -/
def Apart : List Char → Prop
  | [] => True
  | c :: _ => Token.isNameChar c = false

namespace Token

variable {cs rest : List Char} {t : Token}

/-- What does not go on with a name starts with none of its characters. -/
theorem head_of_apart {q : Char → Bool} (hq : ∀ c, q c = true → isNameChar c = true)
    (hrest : Apart rest) : ∀ c ∈ rest.head?, q c = false := by
  intro c hc
  cases rest with
  | nil => cases hc
  | cons d rest =>
    cases hc
    refine Bool.eq_false_iff.mpr fun hqc => ?_
    have hapart : isNameChar c = false := hrest
    rw [hq c hqc] at hapart
    cases hapart

/-- Characters of a class are taken up to the first that is not one. -/
theorem span_append {q : Char → Bool} (hcs : ∀ c ∈ cs, q c = true)
    (hrest : ∀ c ∈ rest.head?, q c = false) :
    (cs ++ rest).takeWhile q = cs ∧ (cs ++ rest).dropWhile q = rest := by
  rw [List.takeWhile_append_of_pos hcs, List.dropWhile_append_of_pos hcs]
  cases rest with
  | nil => simp
  | cons c rest => simp [hrest c rfl]

/-- Characters of a class are taken up to the end of a name. -/
theorem span_of_apart {q : Char → Bool} (hq : ∀ c, q c = true → isNameChar c = true)
    (hcs : ∀ c ∈ cs, q c = true) (hrest : Apart rest) :
    (cs ++ rest).takeWhile q = cs ∧ (cs ++ rest).dropWhile q = rest :=
  span_append hcs (head_of_apart hq hrest)

theorem sigiled?_append {make : String → Token} {n : String} (hn : n ≠ "")
    (hchars : ∀ c ∈ n.toList, isNameChar c = true) (hrest : Apart rest) :
    sigiled? make (n.toList ++ rest) = some (make n, rest) := by
  obtain ⟨htake, hdrop⟩ := span_of_apart (fun _ => id) hchars hrest
  have hne : n.toList.isEmpty = false := by simpa using hn
  simp only [sigiled?, htake, hdrop, hne, Bool.false_eq_true, if_false, String.ofList_toList]

theorem number?_append (negative : Bool) {ds : List Char} (hne : ds ≠ [])
    (hdigits : ∀ c ∈ ds, c.isDigit = true) (hrest : ∀ c ∈ rest.head?, c.isDigit = false) :
    number? negative (ds ++ rest) =
      (signed? negative (digitsValue ds)).map fun k => (int k, rest) := by
  obtain ⟨htake, hdrop⟩ := span_append hdigits hrest
  have hne : ds.isEmpty = false := by simpa using hne
  simp only [number?, htake, hdrop, hne, Bool.false_eq_true, if_false]

theorem number?_toDigits (negative : Bool) (n : Nat) (hrest : Apart rest) :
    number? negative (Nat.toDigits 10 n ++ rest) =
      (signed? negative n).map fun k => (int k, rest) := by
  have hdigits : ∀ c ∈ Nat.toDigits 10 n, c.isDigit = true :=
    fun c hc => Nat.isDigit_of_mem_toDigits (by decide) (by decide) hc
  have hvalue : digitsValue (Nat.toDigits 10 n) = n :=
    Nat.ofDigitChars_toDigits (by decide) (by decide)
  rw [number?_append negative Nat.toDigits_ne_nil hdigits
    (head_of_apart (fun _ => isNameChar_of_isDigit) hrest), hvalue]

theorem next?_of_isNameChar {c : Char} (hc : isNameChar c = true) (cs : List Char) :
    next? (c :: cs) =
      if c.isDigit then number? false (c :: cs)
      else if isNameStart c then
        some (ident (String.ofList (c :: cs.takeWhile isNameChar)), cs.dropWhile isNameChar)
      else none := by
  have hne : ∀ {d : Char}, isNameChar d = false → c ≠ d := ne_of_isNameChar hc
  simp only [next?, punctuation?_of_isNameChar hc]
  iterate 3 rw [if_neg (hne (by decide))]

theorem next?_int (k : Int64) (hrest : Apart rest) :
    next? ((int k).text.toList ++ rest) = some (int k, rest) := by
  have hk : Int64.ofInt k.toInt = k := Int64.ofInt_toInt k
  have hlow := Int64.le_toInt k
  have hhigh := Int64.toInt_lt k
  show next? (k.toInt.repr.toList ++ rest) = _
  cases hint : k.toInt with
  | ofNat n =>
    rw [hint] at hk hhigh
    have hsigned : signed? false n = some k := by
      have hlt : n < 9223372036854775808 := Int.ofNat_lt.mp hhigh
      simp only [signed?, Bool.false_eq_true, if_false, if_pos hlt]
      exact congrArg some hk
    have hnum := number?_toDigits false n hrest
    obtain ⟨d, ds, hds⟩ := List.exists_cons_of_ne_nil (Nat.toDigits_ne_nil (n := n) (b := 10))
    have hd : d.isDigit = true :=
      Nat.isDigit_of_mem_toDigits (by decide) (by decide) (hds ▸ List.mem_cons_self)
    have htext : (Int.ofNat n).repr.toList = d :: ds := by
      rw [← hds]
      exact String.toList_ofList
    rw [hds, hsigned] at hnum
    rw [htext, List.cons_append, next?_of_isNameChar (isNameChar_of_isDigit hd), if_pos hd]
    exact hnum
  | negSucc n =>
    rw [hint] at hk hlow
    have hsigned : signed? true (n + 1) = some k := by
      have hle : n + 1 ≤ 9223372036854775808 := by
        have : (Int.negSucc n) = -((n + 1 : Nat) : Int) := rfl
        omega
      simp only [signed?, if_true, if_pos hle]
      exact congrArg some hk
    have hnum := number?_toDigits true (n + 1) hrest
    have htext : (Int.negSucc n).repr.toList = '-' :: Nat.toDigits 10 (n + 1) := by
      show ("-" ++ (n + 1).repr).toList = _
      simp [Nat.repr]
    rw [hsigned] at hnum
    rw [htext]
    exact hnum

/-- The lexer reads a token back from where it is written. -/
theorem next?_text (ht : t.Valid) (hrest : Apart rest) :
    next? (t.text.toList ++ rest) = some (t, rest) := by
  cases t with
  | localName n =>
    rw [text, String.toList_append, List.append_assoc]
    exact sigiled?_append ht.1 ht.2 hrest
  | globalName n =>
    rw [text, String.toList_append, List.append_assoc]
    exact sigiled?_append ht.1 ht.2 hrest
  | ident n =>
    obtain ⟨c, cs, hn, hc, hcs⟩ := ht
    obtain ⟨htake, hdrop⟩ := span_of_apart (fun _ => id) hcs hrest
    rw [text, hn, List.cons_append, next?_of_isNameChar (isNameChar_of_isNameStart hc),
      isDigit_of_isNameStart hc, if_neg Bool.false_ne_true, if_pos hc, htake, hdrop, ← hn,
      String.ofList_toList]
  | int k => exact next?_int k hrest
  | _ => rfl

theorem next?_of_isBlank {c : Char} (hc : isBlank c = true) : next? (c :: cs) = none := by
  simp only [isBlank, Bool.or_eq_true, beq_iff_eq] at hc
  rcases hc with (rfl | rfl) | rfl
  · rfl
  · rfl
  · rfl

/-! ## Valid tokens -/

theorem valid_of_sigiled? {make : String → Token} (hmake : make = localName ∨ make = globalName)
    (h : sigiled? make cs = some (t, rest)) : t.Valid := by
  simp only [sigiled?] at h
  split at h
  next => cases h
  next hne =>
    cases h
    have hn : String.ofList (cs.takeWhile isNameChar) ≠ "" ∧
        ∀ c ∈ (String.ofList (cs.takeWhile isNameChar)).toList, isNameChar c = true := by
      rw [String.toList_ofList]
      exact ⟨by simpa using hne, List.all_eq_true.mp List.all_takeWhile⟩
    rcases hmake with rfl | rfl
    · exact hn
    · exact hn

theorem valid_of_number? {negative : Bool} (h : number? negative cs = some (t, rest)) :
    t.Valid := by
  simp only [number?] at h
  split at h
  next => cases h
  next =>
    obtain ⟨k, -, h⟩ := Option.map_eq_some_iff.mp h
    cases h
    trivial

theorem valid_of_punctuation? {c : Char} (h : punctuation? c = some t) : t.Valid := by
  unfold punctuation? at h
  repeat' split at h
  all_goals cases h
  all_goals trivial

/-- The lexer makes valid tokens only. -/
theorem valid_of_next? (h : next? cs = some (t, rest)) : t.Valid := by
  cases cs with
  | nil => cases h
  | cons c cs =>
    simp only [next?] at h
    split at h
    next u hu =>
      cases h
      exact valid_of_punctuation? hu
    split at h
    next => exact valid_of_sigiled? (.inl rfl) h
    split at h
    next => exact valid_of_sigiled? (.inr rfl) h
    split at h
    next => exact valid_of_number? h
    split at h
    next => exact valid_of_number? h
    split at h
    next hc =>
      cases h
      exact ⟨c, _, String.toList_ofList, hc, List.all_eq_true.mp List.all_takeWhile⟩
    next => cases h

/-! ## Line ends -/

/-- No line end is in a piece that has characters of one class, unless it is of that class. -/
theorem count_newline_takeWhile {q : Char → Bool} (hq : q '\n' = false) (cs : List Char) :
    (cs.takeWhile q).count '\n' = 0 := by
  refine List.count_eq_zero.mpr fun hmem => ?_
  have hnewline := List.all_eq_true.mp List.all_takeWhile _ hmem
  rw [hq] at hnewline
  cases hnewline

theorem sigiled?_piece {make : String → Token} (h : sigiled? make cs = some (t, rest)) :
    ∃ piece, cs = piece ++ rest ∧ piece.count '\n' = 0 ∧ ∃ n, t = make n := by
  simp only [sigiled?] at h
  split at h
  next => cases h
  next =>
    cases h
    exact ⟨_, List.takeWhile_append_dropWhile.symm, count_newline_takeWhile (by decide) cs, _, rfl⟩

theorem number?_piece {negative : Bool} (h : number? negative cs = some (t, rest)) :
    ∃ piece, cs = piece ++ rest ∧ piece.count '\n' = 0 ∧ ∃ k, t = int k := by
  simp only [number?] at h
  split at h
  next => cases h
  next =>
    obtain ⟨k, -, h⟩ := Option.map_eq_some_iff.mp h
    cases h
    exact ⟨_, List.takeWhile_append_dropWhile.symm, count_newline_takeWhile (by decide) cs, k, rfl⟩

theorem punctuation?_eq_newline {c : Char} (h : punctuation? c = some t) :
    t = newline ↔ c = '\n' := by
  unfold punctuation? at h
  repeat' split at h
  all_goals cases h
  all_goals simp_all

/-- What a token is made of has a line end in it only if it is the token for one. -/
theorem next?_piece (h : next? cs = some (t, rest)) :
    ∃ piece, cs = piece ++ rest ∧ piece.count '\n' = if t = newline then 1 else 0 := by
  cases cs with
  | nil => cases h
  | cons c cs =>
    simp only [next?] at h
    split at h
    next u hu =>
      cases h
      exact ⟨[c], rfl, by simp [punctuation?_eq_newline hu, List.count_singleton]⟩
    next hnone =>
      -- all other tokens start with a character that is no line end, and go on without one
      have hc : c ≠ '\n' := by
        rintro rfl
        cases hnone
      have hcons : ∀ {piece}, cs = piece ++ rest → piece.count '\n' = 0 → t ≠ newline →
          ∃ piece, c :: cs = piece ++ rest ∧ piece.count '\n' = if t = newline then 1 else 0 := by
        rintro piece rfl hcount ht
        exact ⟨c :: piece, rfl, by rw [List.count_cons_of_ne hc, hcount, if_neg ht]⟩
      split at h
      next =>
        obtain ⟨piece, hcs, hcount, n, rfl⟩ := sigiled?_piece h
        exact hcons hcs hcount (by simp)
      split at h
      next =>
        obtain ⟨piece, hcs, hcount, n, rfl⟩ := sigiled?_piece h
        exact hcons hcs hcount (by simp)
      split at h
      next =>
        obtain ⟨piece, hcs, hcount, k, rfl⟩ := number?_piece h
        exact hcons hcs hcount (by simp)
      split at h
      next =>
        obtain ⟨piece, hcs, hcount, k, rfl⟩ := number?_piece h
        exact ⟨piece, hcs, hcount⟩
      split at h
      next =>
        cases h
        exact hcons List.takeWhile_append_dropWhile.symm
          (count_newline_takeWhile (by decide) cs) (by simp)
      next => cases h

end Token

/-! ## All tokens -/

/-- The tokens of a text whose first character is on `line`, with a new line after each token for a
line end. -/
def lexFrom (line : Nat) (cs : List Char) : Except SourceError Tokens :=
  match cs with
  | [] => .ok []
  | c :: rest =>
    if Token.isBlank c then lexFrom line rest
    else if c = ';' then lexFrom line (rest.dropWhile (· != '\n'))
    else
      match h : Token.next? (c :: rest) with
      | none => .error (.lex line)
      | some (t, after) => do
        let more ← lexFrom (if t = .newline then line + 1 else line) after
        return (t, line) :: more
termination_by cs.length
decreasing_by
  · simp
  · exact Nat.lt_succ_of_le (Token.length_dropWhile_le _ _)
  · exact Token.length_next? h

/-- Where a token is next, it is taken off. -/
theorem lexFrom_of_next? {cs rest : List Char} {t : Token}
    (hnext : Token.next? cs = some (t, rest)) (line : Nat) :
    lexFrom line cs =
      ((t, line) :: ·) <$> lexFrom (if t = .newline then line + 1 else line) rest := by
  cases cs with
  | nil => cases hnext
  | cons c cs =>
    have hblank : ¬ Token.isBlank c = true := fun hc => by
      rw [Token.next?_of_isBlank hc] at hnext
      cases hnext
    have hcomment : c ≠ ';' := fun hc => by
      subst hc
      cases hnext
    rw [lexFrom, if_neg hblank, if_neg hcomment]
    split
    next h =>
      rw [hnext] at h
      cases h
    next h =>
      rw [hnext] at h
      cases h
      rfl

theorem lexFrom_eq_error {c : Char} {cs : List Char} (hblank : Token.isBlank c = false)
    (hcomment : c ≠ ';') (hnext : Token.next? (c :: cs) = none) (line : Nat) :
    lexFrom line (c :: cs) = .error (.lex line) := by
  rw [lexFrom, hblank, if_neg Bool.false_ne_true, if_neg hcomment]
  split
  next => rfl
  next h =>
    rw [hnext] at h
    cases h

theorem lineEnds_append (piece rest : List Char) :
    lineEnds (piece ++ rest) rest = piece.count '\n' := by
  simp [lineEnds]

/-- Past a piece of a text there are the line ends of that piece more. -/
theorem lineEnds_of_suffix {text piece rest : List Char} (h : piece ++ rest <:+ text) :
    lineEnds text rest = lineEnds text (piece ++ rest) + piece.count '\n' := by
  obtain ⟨before, rfl⟩ := h
  rw [lineEnds_append, ← List.append_assoc, lineEnds_append, List.count_append]

/-- Adding the line ends between the starts of tokens is counting the tokens for line ends. -/
theorem lexAfter_eq {line : Nat} {last cs : List Char} (h : cs <:+ last) :
    lexAfter line last cs = lexFrom (line + lineEnds last cs) cs := by
  fun_induction lexAfter line last cs with
  | case1 => rw [lexFrom]
  | case2 line last c cs hblank ih =>
    have hc : [c].count '\n' = 0 := by
      refine List.count_eq_zero.mpr fun hmem => ?_
      cases List.mem_singleton.mp hmem
      cases hblank
    have hends : lineEnds last cs = lineEnds last ([c] ++ cs) + [c].count '\n' :=
      lineEnds_of_suffix h
    rw [ih ((List.suffix_cons c cs).trans h), hends, hc, lexFrom.eq_def _ (c :: cs)]
    exact (if_pos hblank).symm
  | case3 line last cs hblank ih =>
    have hcs : ';' :: cs = (';' :: cs.takeWhile (· != '\n')) ++ cs.dropWhile (· != '\n') := by
      rw [List.cons_append, List.takeWhile_append_dropWhile]
    have hcount : (';' :: cs.takeWhile (· != '\n')).count '\n' = 0 := by
      rw [List.count_cons_of_ne (by decide)]
      exact Token.count_newline_takeWhile rfl cs
    have hends := lineEnds_of_suffix (hcs ▸ h)
    rw [← hcs, hcount] at hends
    have hsuffix : cs.dropWhile (· != '\n') <:+ last :=
      ((List.dropWhile_suffix _).trans (List.suffix_cons _ _)).trans h
    rw [ih hsuffix, hends, lexFrom.eq_def _ (';' :: cs)]
    rfl
  | case4 line last c cs hblank hc hnext =>
    exact (lexFrom_eq_error (Bool.eq_false_iff.mpr hblank) hc hnext _).symm
  | case5 line last c cs hblank hc t rest hnext start ih =>
    obtain ⟨piece, hcs, hcount⟩ := Token.next?_piece hnext
    have hends : start + lineEnds (c :: cs) rest =
        if t = .newline then start + 1 else start := by
      rw [hcs, lineEnds_append, hcount]
      split
      next => rfl
      next => rfl
    rw [ih ⟨piece, hcs.symm⟩, hends, lexFrom_of_next? hnext, bind_pure_comp]

theorem lex_eq (text : String) : lex text = lexFrom 1 text.toList := by
  rw [lex, lexAfter_eq List.suffix_rfl]
  simp [lineEnds]

theorem valid_of_lexFrom {line : Nat} {cs : List Char} {toks : Tokens}
    (h : lexFrom line cs = .ok toks) : ∀ e ∈ toks, e.1.Valid := by
  fun_induction lexFrom line cs generalizing toks with
  | case1 line =>
    cases h
    nofun
  | case2 line c cs hblank ih => exact ih h
  | case3 line cs hblank ih => exact ih h
  | case4 line c cs hblank hc hnext => cases h
  | case5 line c cs hblank hc t rest hnext ih =>
    obtain ⟨more, hmore, h⟩ := bind_eq_ok.mp h
    obtain rfl := pure_eq_ok.mp h
    intro e he
    cases he with
    | head => exact Token.valid_of_next? hnext
    | tail _ he => exact ih hmore e he

/-- The text has the tokens `ts`. -/
def Spells (cs : List Char) (ts : List Token) : Prop :=
  ∀ line, ∃ toks, lexFrom line cs = .ok toks ∧ toks.map Prod.fst = ts

variable {cs rest : List Char} {ts us : List Token}

theorem spells_nil : Spells [] [] := by
  intro line
  rw [lexFrom]
  exact ⟨[], rfl, rfl⟩

theorem Spells.blank (h : Spells cs ts) {c : Char} (hc : Token.isBlank c = true) :
    Spells (c :: cs) ts := by
  intro line
  rw [lexFrom, if_pos hc]
  exact h line

theorem Spells.comment (h : Spells (cs.dropWhile (· != '\n')) ts) : Spells (';' :: cs) ts := by
  intro line
  rw [lexFrom]
  exact h line

theorem Spells.token {t : Token} (h : Spells rest ts) (hnext : Token.next? cs = some (t, rest)) :
    Spells cs (t :: ts) := by
  intro line
  obtain ⟨toks, htoks, rfl⟩ := h (if t = .newline then line + 1 else line)
  exact ⟨(t, line) :: toks, by rw [lexFrom_of_next? hnext, htoks]; rfl, rfl⟩

/-! ## Pieces of text -/

/-- The piece has the tokens `ts`, whatever is apart from it and follows. -/
def Writes (text : String) (ts : List Token) : Prop :=
  ∀ rest us, Apart rest → Spells rest us → Spells (text.toList ++ rest) (ts ++ us)

/-- The piece has the tokens `ts`, whatever follows. -/
def Ends (text : String) (ts : List Token) : Prop :=
  ∀ rest us, Spells rest us → Spells (text.toList ++ rest) (ts ++ us)

/-- The tokens of a piece that is made of blanks and punctuation. -/
def separators? : List Char → Option (List Token)
  | [] => some []
  | c :: cs =>
    if Token.isBlank c then separators? cs
    else (Token.punctuation? c).bind fun t => (separators? cs).map (t :: ·)

/-- The piece is made of blanks and punctuation, and there is some. -/
def Divides (text : String) (ts : List Token) : Prop :=
  text ≠ "" ∧ separators? text.toList = some ts

instance {text : String} : Decidable (Divides text ts) := inferInstanceAs (Decidable (_ ∧ _))

theorem Token.writes_text {t : Token} (ht : t.Valid) : Writes t.text [t] :=
  fun _ _ hrest h => h.token (Token.next?_text ht hrest)

theorem apart_of_separators? {c : Char} (h : separators? (c :: cs) = some ts) (rest : List Char) :
    Apart (c :: rest) := by
  by_contra hc
  have hc : Token.isNameChar c = true := by simpa [Apart] using hc
  simp [separators?, Token.isBlank_of_isNameChar hc, Token.punctuation?_of_isNameChar hc] at h

theorem spells_separators? (h : separators? cs = some ts) (hrest : Spells rest us) :
    Spells (cs ++ rest) (ts ++ us) := by
  induction cs generalizing ts with
  | nil =>
    cases h
    exact hrest
  | cons c cs ih =>
    rw [separators?] at h
    split at h
    next hc => exact (ih h).blank hc
    next =>
      obtain ⟨t, ht, h⟩ := Option.bind_eq_some_iff.mp h
      obtain ⟨ts', hts', rfl⟩ := Option.map_eq_some_iff.mp h
      refine (ih hts').token ?_
      simp [Token.next?, ht]

variable {text text' : String}

theorem Divides.ends (h : Divides text ts) : Ends text ts :=
  fun _ _ hrest => spells_separators? h.2 hrest

theorem Divides.apart (h : Divides text ts) (rest : List Char) : Apart (text.toList ++ rest) := by
  obtain ⟨hne, htokens⟩ := h
  cases hchars : text.toList with
  | nil => exact absurd (String.toList_eq_nil_iff.mp hchars) hne
  | cons c cs =>
    rw [hchars] at htokens
    exact apart_of_separators? htokens _

theorem Ends.writes (h : Ends text ts) : Writes text ts := fun rest us _ hrest => h rest us hrest

theorem Ends.append (h : Ends text ts) (h' : Ends text' us) : Ends (text ++ text') (ts ++ us) := by
  intro rest vs hrest
  rw [String.toList_append, List.append_assoc, List.append_assoc]
  exact h _ _ (h' rest vs hrest)

theorem Ends.append_writes (h : Ends text ts) (h' : Writes text' us) :
    Writes (text ++ text') (ts ++ us) := by
  intro rest vs hapart hrest
  rw [String.toList_append, List.append_assoc, List.append_assoc]
  exact h _ _ (h' rest vs hapart hrest)

theorem Writes.divided (h : Writes text ts) (h' : Divides text' us) :
    Ends (text ++ text') (ts ++ us) := by
  intro rest vs hrest
  rw [String.toList_append, List.append_assoc, List.append_assoc]
  exact h _ _ (h'.apart rest) (h'.ends rest vs hrest)

/-- A comment leaves the end of its line. -/
theorem ends_comment (h : '\n' ∉ text.toList) : Ends (";" ++ text ++ "\n") [.newline] := by
  intro rest us hrest
  have hline : Spells ('\n' :: rest) (.newline :: us) := hrest.token rfl
  have hdrop : (text.toList ++ '\n' :: rest).dropWhile (· != '\n') = '\n' :: rest := by
    have hchars : ∀ c ∈ text.toList, (c != '\n') = true := fun c hc =>
      bne_iff_ne.mpr fun heq => h (heq ▸ hc)
    rw [List.dropWhile_append_of_pos hchars]
    simp
  have htext : (";" ++ text ++ "\n").toList ++ rest = ';' :: (text.toList ++ '\n' :: rest) := by
    simp
  rw [htext]
  exact Spells.comment (by rw [hdrop]; exact hline)

theorem writes_intercalate {texts : List String} {tss : List (List Token)}
    (h : List.Forall₂ Writes texts tss) :
    Writes (", ".intercalate texts) ([Token.comma].intercalate tss) := by
  induction h with
  | nil => exact fun rest us _ hrest => hrest
  | @cons text ts texts tss htext h ih =>
    cases h with
    | nil => simpa using htext
    | cons _ _ =>
      rw [String.intercalate_cons_cons, List.intercalate_cons_cons]
      exact (htext.divided (by decide)).append_writes ih

theorem ends_join {texts : List String} {tss : List (List Token)}
    (h : List.Forall₂ Ends texts tss) : Ends (String.join texts) tss.flatten := by
  induction h with
  | nil => exact fun rest us hrest => hrest
  | @cons text ts texts tss htext _ ih =>
    rw [String.join_cons, List.flatten_cons]
    exact htext.append ih

end SsaFlow
