import Less.Proofs.Formula
import Less.Proofs.Location

/-! # Words

    A **word** is a text that the reader takes as one name: characters of names, each
    hyphen before another of them, and a start that no other token has (a letter of
    any script, an underscore, or a hyphen before one of these or a hyphen).

    A word in front of a text that ends it is read as one token
    (`word_of_isWord`), and this token as an operand (`spells_word`). -/

namespace Less.Parse

open Less.Text

/-- The start of a word: a letter or an underscore, or a hyphen before one of these or
    before a hyphen. -/
def startsWord : List Char → Bool
  | [] => false
  | c :: cs => isNameStart c || c == '-' && nextIs (fun d => isNameStart d || d == '-') cs

/-- **A text that is read as one name.** -/
def isWord (w : List Char) : Bool :=
  startsWord w && (name w).2.isEmpty

/-! ## Characters of words -/

theorem isNameChar_of_continuesName {c : Char} {rest : List Char}
    (h : continuesName c rest = true) : isNameChar c = true := by
  rw [continuesName] at h
  by_cases hc : c = '-'
  · rw [hc]
    rfl
  · rw [if_neg hc] at h
    rw [isNameChar, Bool.or_right_comm, h]
    rfl

theorem isNameChar_of_mem_name {cs : List Char} : ∀ c ∈ (name cs).1, isNameChar c = true := by
  induction cs with
  | nil => exact List.forall_mem_nil _
  | cons c cs ih =>
      rw [name]
      split
      · rename_i h
        exact List.forall_mem_cons.mpr ⟨isNameChar_of_continuesName h, ih⟩
      · exact List.forall_mem_nil _

/-- A name that ends with its text goes on to the next character that is none of a
    name. -/
theorem name_append_of_ends {w rest : List Char} (h : name w = (w, []))
    (hrest : nextIs isNameChar rest = false) : name (w ++ rest) = (w, rest) := by
  induction w with
  | nil => exact name_identifierTail rfl hrest
  | cons c w ih =>
      rw [name] at h
      split at h
      · rename_i hgo
        have hw : name w = (w, []) := by
          have hfst : (name w).1 = w := (List.cons.inj (Prod.mk.inj h).1).2
          have hsnd : (name w).2 = [] := (Prod.mk.inj h).2
          exact Prod.ext hfst hsnd
        have hgo' : continuesName c (w ++ rest) = true := by
          rw [continuesName] at hgo ⊢
          by_cases hc : c = '-'
          · rw [if_pos hc] at hgo ⊢
            cases w with
            | nil => cases hgo
            | cons d w => exact hgo
          · rw [if_neg hc] at hgo ⊢
            exact hgo
        rw [List.cons_append, name, if_pos hgo', ih hw]
        rfl
      · cases h

variable {w rest : List Char}

theorem name_of_isWord (h : isWord w = true) : name w = (w, []) := by
  have hend : (name w).2 = [] := List.isEmpty_iff.mp (Bool.and_eq_true_iff.mp h).2
  have hall := name_append w
  rw [hend, List.append_nil] at hall
  exact Prod.ext hall hend

theorem isNameChar_of_isWord (h : isWord w = true) : ∀ c ∈ w, isNameChar c = true := by
  have hall : ∀ c ∈ (name w).1, isNameChar c = true := isNameChar_of_mem_name
  rwa [name_of_isWord h] at hall

theorem ne_nil_of_isWord (h : isWord w = true) : w ≠ [] := by
  rintro rfl
  cases h

theorem tight_of_isWord (h : isWord w = true) : Tight w :=
  tight_of_no_blanks (ne_nil_of_isWord h) fun c hc =>
    isBlank_of_isNameChar (isNameChar_of_isWord h c hc)

/-! ## The first character -/

theorem isDigit_of_isNameStart {c : Char} (h : isNameStart c = true) : c.isDigit = false := by
  cases hd : c.isDigit with
  | false => rfl
  | true =>
      have hrange := toNat_of_isDigit hd
      have hunderscore : c ≠ '_' := by
        rintro rfl
        cases hd
      rw [isNameStart, isLetter, if_pos (by omega), beq_eq_false_iff_ne.mpr hunderscore,
        Bool.or_false] at h
      rw [isDigit_of_isAlpha h] at hd
      cases hd

theorem isNameChar_of_isNameStart {c : Char} (h : isNameStart c = true) : isNameChar c = true := by
  rcases Bool.or_eq_true_iff.mp h with hletter | hunderscore
  · rw [isNameChar, isWordChar, hletter]
    rfl
  · rw [isNameChar, hunderscore, Bool.or_true]

/-- What starts a number is taken as one. -/
theorem Cursor.numberText_ne_nil {ch : Char} {next : List Char}
    (h : (ch.isDigit || (ch == '.' && nextIs Char.isDigit next)) = true) :
    (numberText (ch :: next)).1 ≠ [] := by
  rw [numberText, mantissa, if_pos h]
  exact List.cons_ne_nil _ _

/-- What starts a word is taken as a name. -/
theorem name_ne_nil_of_startsWord {w : List Char} (h : startsWord w = true) : (name w).1 ≠ [] := by
  cases w with
  | nil => cases h
  | cons c cs =>
      have hgo : continuesName c cs = true := by
        rw [continuesName]
        rcases Bool.or_eq_true_iff.mp h with hstart | hhyphen
        · have hne : c ≠ '-' := ne_of_test hstart rfl
          have hname := isNameChar_of_isNameStart hstart
          rw [if_neg hne]
          rwa [isNameChar, beq_eq_false_iff_ne.mpr hne, Bool.or_false] at hname
        · obtain ⟨hc, hnext⟩ := Bool.and_eq_true_iff.mp hhyphen
          rw [if_pos (beq_iff_eq.mp hc)]
          cases cs with
          | nil => cases hnext
          | cons d cs =>
              rcases Bool.or_eq_true_iff.mp hnext with hstart | hhyphen
              · exact isNameChar_of_isNameStart hstart
              · rw [beq_iff_eq.mp hhyphen]
                rfl
      rw [name, if_pos hgo]
      exact List.cons_ne_nil _ _

/-- What starts a word is none of the marks that are tried before. -/
theorem tokenAt_of_startsWord {ch : Char} {next : List Char}
    (h : startsWord (ch :: next) = true) (c : Cursor) : c.tokenAt ch next = c.word := by
  rcases Bool.or_eq_true_iff.mp h with hstart | hhyphen
  · have hne : ∀ d : Char, isNameStart d = false → (ch == d) = false := fun d hd =>
      beq_eq_false_iff_ne.mpr (ne_of_test (p := isNameStart) hstart hd)
    have hquote : isQuote ch = false := by
      rw [isQuote, hne _ rfl, hne _ rfl]
      rfl
    rw [Cursor.tokenAt]
    simp only [isDigit_of_isNameStart hstart, hne '.' rfl, hne '#' rfl, hne '@' rfl, hquote,
      hne '~' rfl, hne '%' rfl, hne '(' rfl, hne ')' rfl, hne ',' rfl, hne '+' rfl, hne '*' rfl,
      hne '/' rfl, hne '-' rfl, hstart, Bool.false_and, Bool.or_false, Bool.false_eq_true,
      if_false, if_true]
  · obtain ⟨hch, hnext⟩ := Bool.and_eq_true_iff.mp hhyphen
    rw [beq_iff_eq.mp hch, Cursor.tokenAt]
    simp only [hnext]
    rfl

theorem startsWord_append {ch : Char} {cs : List Char} (h : isWord (ch :: cs) = true)
    (rest : List Char) : startsWord (ch :: (cs ++ rest)) = true := by
  have hstart := (Bool.and_eq_true_iff.mp h).1
  cases cs with
  | nil =>
      -- a hyphen alone is no word
      rw [startsWord, nextIs, Bool.and_false, Bool.or_false] at hstart
      rw [startsWord, hstart]
      rfl
  | cons d cs => exact hstart

/-- **A word is read as one token.** -/
theorem word_of_isWord (hw : isWord w = true) (hrest : Cursor.EndsWord rest) (p : Position) :
    Cursor.word ⟨w ++ rest, p⟩ = .ok (.word (String.ofList w), ⟨rest, p.after w⟩) := by
  have hname : Cursor.name ⟨w ++ rest, p⟩ = (String.ofList w, ⟨rest, p.after w⟩) := by
    show (String.ofList (name (w ++ rest)).1, Cursor.move _ (name (w ++ rest))) = _
    rw [name_append_of_ends (name_of_isWord hw) hrest.name]
    rfl
  rw [Cursor.word, hname]
  exact if_pos hrest.call

/-- A word starts neither with a blank nor with a mark. -/
theorem first_of_isWord (hw : isWord w = true) (rest : List Char) :
    ∃ ch cs, w = ch :: cs ∧ isNameChar ch = true ∧ ∀ p,
      Cursor.EndsWord rest → Cursor.tokenAt ⟨ch :: (cs ++ rest), p⟩ ch (cs ++ rest) =
        .ok (.word (String.ofList w), ⟨rest, p.after w⟩) := by
  obtain ⟨ch, cs, rfl⟩ := List.exists_cons_of_ne_nil (ne_nil_of_isWord hw)
  refine ⟨ch, cs, rfl, isNameChar_of_isWord hw ch List.mem_cons_self, fun p hrest => ?_⟩
  rw [tokenAt_of_startsWord (startsWord_append hw rest)]
  exact word_of_isWord hw hrest p

theorem not_mem_of_isNameChar {ch : Char} (h : isNameChar ch = true) {marks : List Char}
    (hmarks : marks.any isNameChar = false) : ch ∉ marks :=
  fun hmem => List.any_eq_false.mp hmarks ch hmem h

theorem solid_of_isNameChar {ch : Char} (h : isNameChar ch = true) (cs : List Char) :
    Solid (ch :: cs) :=
  solid_cons (isBlank_of_isNameChar h) (ne_of_test (p := isNameChar) h rfl) cs

theorem quiet_of_isWord (h : isWord w = true) : Quiet w :=
  fun c hc => isQuiet_of_isNameChar (isNameChar_of_isWord h c hc)

/-! ## Words as operands -/

theorem spells_word {gap : Bool} (w : String) (p : Option Position) (q : Position) :
    Spells 3 gap (.literal w p) [⟨.word w, q, gap⟩] where
  opens := ⟨_, _, rfl, rfl, by simp, rfl⟩
  reads := by
    intro last n depth _ rest
    refine ⟨.literal w (some q), rfl, ?_⟩
    rw [List.singleton_append, signed.eq_def]
    rfl

theorem readsAs_word {stops : List Char} (hstops : IsStops stops) {w : String}
    (hw : isWord w.toList = true) (hrest : Cursor.EndsWord rest) (gap : Bool) (depth : Nat) :
    ReadsAs stops depth depth (gapText gap ++ w.toList) rest
      fun ts => ∃ q, ts = [⟨.word w, q, gap⟩] := by
  obtain ⟨ch, cs, heq, hch, htoken⟩ := first_of_isWord hw rest
  rw [String.ofList_toList] at htoken
  rw [heq]
  refine readsAs_token gap ch cs (trivia_gap (gap_gapText gap) (solid_of_isNameChar hch _))
    (fun _ => hstops.not_mem (not_mem_of_isNameChar hch rfl)) (not_mem_of_isNameChar hch rfl)
    (fun p => ⟨_, htoken p hrest⟩) rfl

end Less.Parse
