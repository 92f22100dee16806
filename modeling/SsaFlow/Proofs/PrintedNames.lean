import Mathlib.Data.List.Nodup
import Mathlib.Data.List.Pairwise
import Mathlib.Data.List.Perm.Subperm
import SsaFlow.Procedure.Names
import SsaFlow.Proofs.Lexing
import SsaFlow.Proofs.Tables

/-!
# Printed names differ

A value without a name is printed as its handle with underscores after it.  The search
for a name that is not taken looks at one more name than are taken, so it finds one
(`untaken_not_mem`), and it is the one that a search without a bound ends in
(`FirstUntaken`).  No handle ends in an underscore, so different handles stay different
whatever is added to them.  Hence all arguments and instructions of a procedure are printed
under different names, if no name is given twice (`Procedure.bareName_inj`).
-/

namespace SsaFlow

/-! ## Names that are not taken -/

theorem toList_untaken (taken : List String) (fuel : Nat) (name : String) :
    ∃ n, (untaken taken fuel name).toList = name.toList ++ List.replicate n '_' := by
  induction fuel generalizing name with
  | zero => exact ⟨0, by simp [untaken]⟩
  | succ fuel ih =>
    unfold untaken
    split
    next =>
      obtain ⟨n, hn⟩ := ih (name.push '_')
      refine ⟨n + 1, ?_⟩
      rw [hn, String.toList_push, List.append_assoc, List.replicate_succ]
      rfl
    next => exact ⟨0, by simp⟩

/-- If the search ends in a taken name, it went through taken names only, all of different
lengths. -/
theorem exists_taken {taken : List String} {fuel : Nat} {name : String}
    (h : untaken taken fuel name ∈ taken) :
    ∃ names : List String, names.length = fuel + 1 ∧ names.Nodup ∧ names ⊆ taken ∧
      ∀ n ∈ names, name.length ≤ n.length := by
  induction fuel generalizing name with
  | zero => exact ⟨[name], rfl, List.nodup_singleton name, by simpa [untaken] using h, by simp⟩
  | succ fuel ih =>
    unfold untaken at h
    split at h
    next hname =>
      obtain ⟨names, hlength, hnodup, hsub, hlong⟩ := ih h
      have hlong : ∀ n ∈ names, name.length < n.length := by
        intro n hn
        have hpush := hlong n hn
        rw [String.length_push] at hpush
        exact hpush
      refine ⟨name :: names, by rw [List.length_cons, hlength], ?_, ?_, ?_⟩
      · exact List.nodup_cons.mpr ⟨fun hmem => Nat.lt_irrefl _ (hlong name hmem), hnodup⟩
      · exact List.cons_subset.mpr ⟨hname, hsub⟩
      · exact List.forall_mem_cons.mpr ⟨Nat.le_refl _, fun n hn => Nat.le_of_lt (hlong n hn)⟩
    next hname => exact absurd h hname

/-- With one more look than there are names taken, the search does not end in one of them. -/
theorem untaken_not_mem {taken : List String} {name : String} :
    untaken taken taken.length name ∉ taken := by
  intro h
  obtain ⟨names, hlength, hnodup, hsub, -⟩ := exists_taken h
  have hle := (List.subperm_of_subset hnodup hsub).length_le
  omega

/-- The search without a bound: underscores are added to the name as long as it is taken. -/
inductive FirstUntaken (taken : List String) : String → String → Prop where
  | keep {name : String} (hname : name ∉ taken) : FirstUntaken taken name name
  | push {name found : String} (hname : name ∈ taken)
      (hrest : FirstUntaken taken (name.push '_') found) : FirstUntaken taken name found

/-- A search that does not end in a taken name ends where the one without a bound does. -/
theorem firstUntaken_of_not_mem {taken : List String} {fuel : Nat} {name : String}
    (h : untaken taken fuel name ∉ taken) : FirstUntaken taken name (untaken taken fuel name) := by
  induction fuel generalizing name with
  | zero => exact .keep h
  | succ fuel ih =>
    unfold untaken at h ⊢
    split at h
    next hname =>
      rw [if_pos hname]
      exact .push hname (ih h)
    next hname =>
      rw [if_neg hname]
      exact .keep hname

/-- Underscores at the end do not make names equal that end otherwise. -/
theorem eq_of_append_underscores {xs ys : List Char} {m n : Nat}
    (h : xs ++ List.replicate m '_' = ys ++ List.replicate n '_')
    (hxs : xs.getLast? ≠ some '_') (hys : ys.getLast? ≠ some '_') : xs = ys := by
  induction m generalizing n with
  | zero =>
    rw [List.replicate_zero, List.append_nil] at h
    cases n with
    | zero => simpa using h
    | succ n =>
      rw [h, List.replicate_succ', ← List.append_assoc, List.getLast?_concat] at hxs
      exact absurd rfl hxs
  | succ m ih =>
    rw [List.replicate_succ', ← List.append_assoc] at h
    cases n with
    | zero =>
      rw [List.replicate_zero, List.append_nil] at h
      rw [← h, List.getLast?_concat] at hys
      exact absurd rfl hys
    | succ n =>
      rw [List.replicate_succ', ← List.append_assoc] at h
      exact ih (List.append_inj_left' h rfl)

/-! ## Handles -/

namespace Handle

variable {k : Entity} {h h' : Handle k}

theorem toList_text :
    h.text.toList = k.letters.toList ++ if h.isValid then Nat.toDigits 10 h.index else ['?'] := by
  have hdigits : (toString h.index).toList = Nat.toDigits 10 h.index := String.toList_ofList
  rw [text, String.toList_append]
  split
  next => rw [hdigits]
  next => rfl

theorem isDigit_of_mem_toDigits {c : Char} {n : Nat} (hc : c ∈ Nat.toDigits 10 n) :
    c.isDigit = true :=
  Nat.isDigit_of_mem_toDigits (by decide) (by decide) hc

theorem getLast?_toList_text : h.text.toList.getLast? ≠ some '_' := by
  intro hlast
  rw [toList_text, List.getLast?_append] at hlast
  split at hlast
  next =>
    cases hd : (Nat.toDigits 10 h.index).getLast? with
    | none =>
      rw [List.getLast?_eq_none_iff] at hd
      exact absurd hd Nat.toDigits_ne_nil
    | some d =>
      have hdigit := isDigit_of_mem_toDigits (List.mem_of_getLast? hd)
      rw [hd] at hlast
      cases hlast
      cases hdigit
  next => cases hlast

/-- Handles of one kind are printed differently. -/
theorem text_inj (heq : h.text = h'.text) : h = h' := by
  have hlist := congrArg String.toList heq
  rw [toList_text, toList_text] at hlist
  have htail := List.append_cancel_left hlist
  have hquestion : ∀ n, Nat.toDigits 10 n ≠ ['?'] := by
    intro n hn
    have hdigit := isDigit_of_mem_toDigits (hn ▸ List.mem_singleton_self '?')
    cases hdigit
  rw [Table.handle_eq_iff]
  split at htail
  next =>
    split at htail
    next =>
      rw [← Nat.ofDigitChars_ten_toDigits (n := h.index), htail, Nat.ofDigitChars_ten_toDigits]
    next => exact absurd htail (hquestion _)
  next hinvalid =>
    split at htail
    next => exact absurd htail.symm (hquestion _)
    next hinvalid' =>
      simp only [isValid, bne_iff_ne, ne_eq, Decidable.not_not] at hinvalid hinvalid'
      rw [hinvalid, hinvalid']

/-- A handle below the limit is printed with the characters of names. -/
theorem isNameChar_of_mem_text (hlt : h.index < limit) {c : Char} (hc : c ∈ h.text.toList) :
    Token.isNameChar c = true := by
  have hvalid : h.isValid = true := by
    simp only [isValid, bne_iff_ne, ne_eq]
    omega
  rw [toList_text, if_pos hvalid, List.mem_append] at hc
  rcases hc with hc | hc
  · have hletters : k.letters.toList.all Token.isNameChar = true := by cases k <;> decide
    exact List.all_eq_true.mp hletters c hc
  · exact Token.isNameChar_of_isDigit (isDigit_of_mem_toDigits hc)

end Handle

/-! ## Values -/

/-- The handle of a value as it is printed. -/
def Value.handleText : Value → String
  | .arg a => a.text
  | .inst i => i.text
  | .const k => toString k.toInt

namespace Procedure

/-- The arguments and the allocated instructions. -/
def values (p : Procedure) : List Value := p.args.handles.map .arg ++ p.insts.handles.map .inst

/-- The name that was given to a value, if one was.  An empty one is none for an argument. -/
def givenName? (p : Procedure) : Value → Option String
  | .arg a => (p.args.get? a).filter (· ≠ "")
  | .inst i => (p.insts.get? i).bind Instruction.name
  | .const _ => none

/-- No name is given twice. -/
def DistinctNames (p : Procedure) : Prop := (p.values.filterMap p.givenName?).Nodup

instance decidableDistinctNames {p : Procedure} : Decidable p.DistinctNames :=
  inferInstanceAs (Decidable (List.Nodup _))

/-- The name under which a value is printed, without its sigil. -/
def bareName (p : Procedure) (v : Value) : String := (p.givenName? v).getD (p.ownName v.handleText)

variable {p : Procedure} {v w : Value} {n : String}

@[simp] theorem arg_mem_values {a : Arg} : .arg a ∈ p.values ↔ a.index < p.args.size := by
  simp [values]

@[simp] theorem inst_mem_values {i : Inst} : .inst i ∈ p.values ↔ i.index < p.insts.size := by
  simp [values]

theorem bareName_of_given (h : p.givenName? v = some n) : p.bareName v = n := by
  rw [bareName, h]
  rfl

theorem bareName_of_none (h : p.givenName? v = none) : p.bareName v = p.ownName v.handleText := by
  rw [bareName, h]
  rfl

theorem valueName_arg (a : Arg) : p.valueName (.arg a) = "%" ++ p.bareName (.arg a) := by
  simp only [valueName, bareName, givenName?]
  cases p.args.get? a with
  | none => rfl
  | some n =>
    by_cases hn : n = ""
    · simp [hn, Option.filter, Value.handleText]
    · simp [hn, Option.filter]

theorem valueName_inst (i : Inst) : p.valueName (.inst i) = "%" ++ p.bareName (.inst i) := by
  simp only [valueName, bareName, givenName?]
  cases (p.insts.get? i).bind Instruction.name with
  | none => rfl
  | some n => rfl

/-- All names in use are known to the search. -/
theorem mem_givenNames (h : p.givenName? v = some n) : n ∈ p.givenNames := by
  rw [givenNames, List.mem_append, List.mem_filterMap]
  cases v with
  | arg a =>
    obtain ⟨hn, -⟩ := Option.filter_eq_some_iff.mp h
    exact .inl (Table.mem_toList.mpr ⟨a, hn⟩)
  | inst i =>
    obtain ⟨d, hd, hn⟩ := Option.bind_eq_some_iff.mp h
    exact .inr ⟨d, Table.mem_toList.mpr ⟨i, hd⟩, hn⟩
  | const k => cases h

theorem ownName_not_mem (handle : String) : p.ownName handle ∉ p.givenNames := untaken_not_mem

theorem DistinctNames.eq (h : p.DistinctNames) (hv : v ∈ p.values) (hw : w ∈ p.values)
    (hn : p.givenName? v = some n) (hn' : p.givenName? w = some n) : v = w := by
  have hsymm : Std.Symm fun v w =>
      ∀ b, p.givenName? v = some b → ∀ b', p.givenName? w = some b' → b ≠ b' :=
    ⟨fun _ _ h b hb b' hb' => (h b' hb' b hb).symm⟩
  by_contra hne
  exact (List.pairwise_filterMap.mp h).forall hv hw hne n hn n hn' rfl

theorem getLast?_handleText (hv : v ∈ p.values) :
    v.handleText.toList.getLast? ≠ some '_' := by
  cases v with
  | arg a => exact Handle.getLast?_toList_text
  | inst i => exact Handle.getLast?_toList_text
  | const k => simp [values] at hv

theorem handleText_ne_nil (hv : v ∈ p.values) : v.handleText.toList ≠ [] := by
  cases v with
  | arg a => simp [Value.handleText, Handle.toList_text, Entity.letters]
  | inst i => simp [Value.handleText, Handle.toList_text, Entity.letters]
  | const k => simp [values] at hv

/-- Arguments and instructions have different handles. -/
theorem handleText_inj (hv : v ∈ p.values) (hw : w ∈ p.values)
    (h : v.handleText = w.handleText) : v = w := by
  have hletters : ∀ (a : Arg) (i : Inst), a.text ≠ i.text := by
    intro a i h
    have hlist := congrArg String.toList h
    rw [Handle.toList_text, Handle.toList_text] at hlist
    cases hlist
  cases v with
  | arg a =>
    cases w with
    | arg b => rw [Handle.text_inj h]
    | inst j => exact absurd h (hletters a j)
    | const k => simp [values] at hw
  | inst i =>
    cases w with
    | arg b => exact absurd h.symm (hletters b i)
    | inst j => rw [Handle.text_inj h]
    | const k => simp [values] at hw
  | const k => simp [values] at hv

theorem ownName_inj (hv : v ∈ p.values) (hw : w ∈ p.values)
    (h : p.ownName v.handleText = p.ownName w.handleText) : v = w := by
  obtain ⟨m, hm⟩ := toList_untaken p.givenNames p.givenNames.length v.handleText
  obtain ⟨n, hn⟩ := toList_untaken p.givenNames p.givenNames.length w.handleText
  have hlist : v.handleText.toList ++ List.replicate m '_' =
      w.handleText.toList ++ List.replicate n '_' := by
    rw [← hm, ← hn]
    exact congrArg String.toList h
  exact handleText_inj hv hw (String.toList_inj.mp (eq_of_append_underscores hlist
    (getLast?_handleText hv) (getLast?_handleText hw)))

/-- Different arguments and instructions are printed under different names. -/
theorem bareName_inj (h : p.DistinctNames) (hv : v ∈ p.values) (hw : w ∈ p.values)
    (heq : p.bareName v = p.bareName w) : v = w := by
  cases hn : p.givenName? v with
  | some n =>
    rw [bareName_of_given hn] at heq
    cases hn' : p.givenName? w with
    | some n' =>
      rw [bareName_of_given hn'] at heq
      subst heq
      exact h.eq hv hw hn hn'
    | none =>
      rw [bareName_of_none hn'] at heq
      exact absurd (heq ▸ mem_givenNames hn) (ownName_not_mem _)
  | none =>
    rw [bareName_of_none hn] at heq
    cases hn' : p.givenName? w with
    | some n' =>
      rw [bareName_of_given hn'] at heq
      exact absurd (heq ▸ mem_givenNames hn') (ownName_not_mem _)
    | none =>
      rw [bareName_of_none hn'] at heq
      exact ownName_inj hv hw heq

/-- How a value is to be printed: under the name it was given, else under the first name from its
handle on that is not taken. -/
inductive PrintedAs (p : Procedure) (v : Value) : String → Prop where
  | given {n : String} (hn : p.givenName? v = some n) : PrintedAs p v ("%" ++ n)
  | own {n : String} (hnone : p.givenName? v = none)
      (hn : FirstUntaken p.givenNames v.handleText n) : PrintedAs p v ("%" ++ n)

theorem printedAs_bareName (p : Procedure) (v : Value) : p.PrintedAs v ("%" ++ p.bareName v) := by
  cases hn : p.givenName? v with
  | some n =>
    rw [bareName_of_given hn]
    exact .given hn
  | none =>
    rw [bareName_of_none hn]
    exact .own hn (firstUntaken_of_not_mem (ownName_not_mem v.handleText))

theorem valueName_of_mem (hv : v ∈ p.values) : p.valueName v = "%" ++ p.bareName v := by
  cases v with
  | arg a => exact valueName_arg a
  | inst i => exact valueName_inst i
  | const k => simp [values] at hv

/-- The search for a name ends for every argument and every instruction, placed or not, and if no
name is given twice, no two of them are printed alike. -/
theorem valueName_inj (h : p.DistinctNames) :
    (∀ v ∈ p.values, p.PrintedAs v (p.valueName v)) ∧
      ∀ v ∈ p.values, ∀ w ∈ p.values, p.valueName v = p.valueName w → v = w := by
  constructor
  · intro v hv
    rw [valueName_of_mem hv]
    exact printedAs_bareName p v
  · intro v hv w hw heq
    rw [valueName_of_mem hv, valueName_of_mem hw] at heq
    exact bareName_inj h hv hw ((String.append_right_inj _).mp heq)

/-- Names that look like those of other values, on arguments and on instructions in no block. -/
def lookalikes : Procedure :=
  { new "f" with
    args := .ofList ["", "v0", "arg0", "", "v0_"]
    insts := .ofList [{ op := .placeholder }, { name := some "arg0_", op := .placeholder },
      { name := some "", op := .placeholder }, { op := .placeholder }] }

theorem valueName_inj_lookalikes :
    lookalikes.DistinctNames ∧
      lookalikes.values.map lookalikes.valueName =
        ["%arg0__", "%v0", "%arg0", "%arg3", "%v0_", "%v0__", "%arg0_", "%", "%v3"] ∧
      ∀ v ∈ lookalikes.values, ∀ w ∈ lookalikes.values,
        lookalikes.valueName v = lookalikes.valueName w → v = w := by
  have hdistinct : lookalikes.DistinctNames := by decide
  exact ⟨hdistinct, by decide, (valueName_inj hdistinct).2⟩

/-- A printed name has the characters of names, if a given one has, and the tables are not too long
for their handles. -/
theorem valid_bareName (hargs : p.args.size ≤ Handle.limit) (hinsts : p.insts.size ≤ Handle.limit)
    (hgiven : ∀ n, p.givenName? v = some n → (Token.localName n).Valid) (hv : v ∈ p.values) :
    (Token.localName (p.bareName v)).Valid := by
  cases hn : p.givenName? v with
  | some n =>
    rw [bareName_of_given hn]
    exact hgiven n hn
  | none =>
    have hhandle : ∀ c ∈ v.handleText.toList, Token.isNameChar c = true := by
      cases v with
      | arg a =>
        exact fun c =>
          Handle.isNameChar_of_mem_text (Nat.lt_of_lt_of_le (arg_mem_values.mp hv) hargs)
      | inst i =>
        exact fun c =>
          Handle.isNameChar_of_mem_text (Nat.lt_of_lt_of_le (inst_mem_values.mp hv) hinsts)
      | const k => simp [values] at hv
    obtain ⟨m, hm⟩ := toList_untaken p.givenNames p.givenNames.length v.handleText
    have hlist : (p.bareName v).toList = v.handleText.toList ++ List.replicate m '_' := by
      rw [bareName_of_none hn]
      exact hm
    constructor
    · intro hempty
      rw [hempty] at hlist
      obtain ⟨hnil, -⟩ := List.append_eq_nil_iff.mp hlist.symm
      exact handleText_ne_nil hv hnil
    · intro c hc
      rw [hlist, List.mem_append] at hc
      rcases hc with hc | hc
      · exact hhandle c hc
      · rw [List.eq_of_mem_replicate hc]
        rfl

/-! ## Labels -/

/-- The label under which a block is printed. -/
def labelOf (p : Procedure) (b : Block) : String :=
  match p.blocks.get? b with
  | some blk => if blk.name = "" then b.text else blk.name
  | none => b.text

theorem blockLabel_of_lt {b : Block} (hb : b.index < p.blocks.size) :
    p.blockLabel b = .ok (p.labelOf b) := by
  obtain ⟨blk, hblk⟩ := Table.exists_get? hb
  simp only [blockLabel, bind_eq_ok, pure_eq_ok, Table.read_eq_ok, labelOf, hblk]
  exact ⟨blk, rfl, rfl⟩

theorem valid_labelOf {b : Block} {blk : BasicBlock} (hblocks : p.blocks.size ≤ Handle.limit)
    (hblk : p.blocks.get? b = some blk) (hname : blk.name = "" ∨ (Token.ident blk.name).Valid) :
    (Token.ident (p.labelOf b)).Valid := by
  simp only [labelOf, hblk]
  split
  next =>
    have hlt : b.index < Handle.limit := Nat.lt_of_lt_of_le (Table.lt_size hblk) hblocks
    have hchars := fun c => Handle.isNameChar_of_mem_text (c := c) hlt
    rw [Handle.toList_text] at hchars
    refine ⟨'b', "lock".toList ++ _, Handle.toList_text, rfl, fun d hd => hchars d ?_⟩
    exact List.mem_cons_of_mem 'b' hd
  next hne => exact hname.resolve_left hne

end Procedure

end SsaFlow
