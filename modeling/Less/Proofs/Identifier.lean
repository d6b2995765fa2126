import Less.Parse.Token
import Less.Proofs.Spacing

/-! # Scanning identifiers and gaps

    A text that is written consists of identifiers, marks and gaps between them.
    An **identifier** is a letter of ASCII followed by letters, digits,
    underscores, and hyphens that stand directly before a letter or digit; a
    **gap** is a run of blanks, possibly none.

    Scanners find the ends of both: `trivia` takes a gap (`trivia_gap`), `name`
    an identifier (`name_identifier`).  Identifiers and gaps are **quiet**: they
    hold no quotes, braces and other marks that the lookaheads watch for, so that
    these run over them (`headFrom_quiet`, `splitTop_joined`,
    `entryKind_quiet`). -/

namespace Less.Parse

open Less.Text

/-! ## Characters -/

/-- The codes of the blanks. -/
def blankCodes : List Nat :=
  [0x09, 0x0a, 0x0b, 0x0c, 0x0d, 0x20, 0x85, 0xa0, 0x1680, 0x2000, 0x2001, 0x2002, 0x2003, 0x2004,
    0x2005, 0x2006, 0x2007, 0x2008, 0x2009, 0x200a, 0x2028, 0x2029, 0x202f, 0x205f, 0x3000]

theorem toNat_mem_blankCodes {c : Char} (h : isBlank c = true) : c.toNat ∈ blankCodes := by
  simp only [isBlank, Bool.or_eq_true, Bool.and_eq_true, decide_eq_true_eq, beq_iff_eq] at h
  simp only [blankCodes, List.mem_cons, List.not_mem_nil, or_false]
  omega

/-- No blank is part of a name. -/
theorem isNameChar_of_isBlank {c : Char} (h : isBlank c = true) : isNameChar c = false := by
  have hall : ∀ n ∈ blankCodes, isNameChar (Char.ofNat n) = false := by decide +kernel
  have hc := hall c.toNat (toNat_mem_blankCodes h)
  rwa [Char.ofNat_toNat] at hc

theorem isBlank_of_isNameChar {c : Char} (h : isNameChar c = true) : isBlank c = false := by
  cases hc : isBlank c with
  | false => rfl
  | true => rw [isNameChar_of_isBlank hc] at h; cases h

/-- Characters that a test tells apart differ. -/
theorem ne_of_test {p : Char → Bool} {c d : Char} (hc : p c = true) (hd : p d = false) : c ≠ d := by
  rintro rfl
  rw [hc] at hd
  cases hd

/-- Characters of names, blanks, and the marks that neither open nor close
    anything. -/
def isQuiet (c : Char) : Bool :=
  isNameChar c || isBlank c || c == '.' || c == ',' || c == '!' || c == ':'

theorem isQuiet_of_isNameChar {c : Char} (h : isNameChar c = true) : isQuiet c = true := by
  simp [isQuiet, h]

theorem isQuiet_of_isBlank {c : Char} (h : isBlank c = true) : isQuiet c = true := by
  simp [isQuiet, h]

theorem isQuote_of_isQuiet {c : Char} (h : isQuiet c = true) : isQuote c = false := by
  have hdouble : c ≠ '"' := ne_of_test h rfl
  have hsingle : c ≠ '\'' := ne_of_test h rfl
  simp [isQuote, hdouble, hsingle]

theorem no_bracket_of_isQuiet {c : Char} (h : isQuiet c = true) :
    ¬(c = '(' ∨ c = '[') ∧ ¬(c = ')' ∨ c = ']') := by
  have hne : ∀ d : Char, isQuiet d = false → c ≠ d := fun d hd => ne_of_test h hd
  exact ⟨fun h => h.elim (hne _ rfl) (hne _ rfl),
    fun h => h.elim (hne _ rfl) (hne _ rfl)⟩

/-- The codes of the letters of ASCII. -/
theorem toNat_of_isAlpha {c : Char} (h : c.isAlpha = true) :
    (65 ≤ c.toNat ∧ c.toNat ≤ 90) ∨ (97 ≤ c.toNat ∧ c.toNat ≤ 122) := by
  rcases Bool.or_eq_true_iff.mp h with hupper | hlower
  · have hrange : 'A'.val ≤ c.val ∧ c.val ≤ 'Z'.val := of_decide_eq_true hupper
    exact Or.inl ⟨UInt32.le_iff_toNat_le.mp hrange.1, UInt32.le_iff_toNat_le.mp hrange.2⟩
  · obtain ⟨hfirst, hlast⟩ := Bool.and_eq_true_iff.mp hlower
    have hrange : 'a'.val ≤ c.val ∧ c.val ≤ 'z'.val :=
      ⟨of_decide_eq_true hfirst, of_decide_eq_true hlast⟩
    exact Or.inr ⟨UInt32.le_iff_toNat_le.mp hrange.1, UInt32.le_iff_toNat_le.mp hrange.2⟩

/-- A letter of ASCII is a letter. -/
theorem isLetter_of_isAlpha {c : Char} (h : c.isAlpha = true) : isLetter c = true := by
  have hcode := toNat_of_isAlpha h
  rw [isLetter, if_pos (by omega), h]

theorem isWordChar_of_isAlpha {c : Char} (h : c.isAlpha = true) : isWordChar c = true := by
  rw [isWordChar, isLetter_of_isAlpha h]
  rfl

/-- The codes of the digits of ASCII. -/
theorem toNat_of_isDigit {c : Char} (h : c.isDigit = true) : 48 ≤ c.toNat ∧ c.toNat ≤ 57 := by
  simp only [Char.isDigit, Bool.and_eq_true, decide_eq_true_eq, UInt32.le_iff_toNat_le,
    ge_iff_le] at h
  exact h

theorem isDigit_of_isAlpha {c : Char} (h : c.isAlpha = true) : c.isDigit = false := by
  have hcode := toNat_of_isAlpha h
  cases hd : c.isDigit with
  | false => rfl
  | true =>
      have hrange := toNat_of_isDigit hd
      omega

/-- A letter of ASCII is none of the marks. -/
theorem ne_of_isAlpha {c : Char} (h : c.isAlpha = true) (d : Char) (hd : d.isAlpha = false) :
    c ≠ d :=
  ne_of_test (p := Char.isAlpha) h hd

/-! ## Identifiers -/

/-- Letters, digits, underscores, and hyphens directly before a letter or
    digit. -/
def isIdentifierTail : List Char → Bool
  | [] => true
  | c :: cs => (if c = '-' then nextIs isWordChar cs else isWordChar c || c == '_') &&
      isIdentifierTail cs

/-- A letter of ASCII followed by letters, digits, underscores, and hyphens
    directly before a letter or digit. -/
def isIdentifier : List Char → Bool
  | [] => false
  | c :: cs => c.isAlpha && isIdentifierTail cs

theorem isNameChar_of_isWordChar {c : Char} (h : isWordChar c = true) : isNameChar c = true := by
  rw [isNameChar, h]
  rfl

theorem isNameChar_of_mem_tail {w : List Char} (h : isIdentifierTail w = true) :
    ∀ c ∈ w, isNameChar c = true := by
  induction w with
  | nil => exact nofun
  | cons c w ih =>
      rw [isIdentifierTail, Bool.and_eq_true] at h
      refine List.forall_mem_cons.mpr ⟨?_, ih h.2⟩
      by_cases hc : c = '-'
      · rw [hc]
        rfl
      · rw [if_neg hc, Bool.or_eq_true] at h
        rcases h.1 with h | h
        · exact isNameChar_of_isWordChar h
        · rw [beq_iff_eq.mp h]
          rfl

theorem isIdentifierTail_of_isIdentifier {w : List Char} (h : isIdentifier w = true) :
    isIdentifierTail w = true := by
  cases w with
  | nil => rfl
  | cons c w =>
      rw [isIdentifier, Bool.and_eq_true] at h
      have hc : c ≠ '-' := ne_of_isAlpha h.1 _ rfl
      rw [isIdentifierTail, if_neg hc, isWordChar_of_isAlpha h.1, h.2]
      rfl

theorem isNameChar_of_mem {w : List Char} (h : isIdentifier w = true) :
    ∀ c ∈ w, isNameChar c = true :=
  isNameChar_of_mem_tail (isIdentifierTail_of_isIdentifier h)

theorem not_mem_of_isIdentifier {w : List Char} (h : isIdentifier w = true) {c : Char}
    (hc : isNameChar c = false) : c ∉ w :=
  fun hmem => ne_of_test (isNameChar_of_mem h c hmem) hc rfl

/-- An identifier starts with a letter of ASCII. -/
theorem exists_cons_of_isIdentifier {w : List Char} (h : isIdentifier w = true) :
    ∃ c cs, w = c :: cs ∧ c.isAlpha = true := by
  cases w with
  | nil => cases h
  | cons c cs =>
      rw [isIdentifier, Bool.and_eq_true] at h
      exact ⟨c, cs, rfl, h.1⟩

theorem tight_of_isIdentifier {w : List Char} (h : isIdentifier w = true) : Tight w := by
  obtain ⟨c, cs, rfl, -⟩ := exists_cons_of_isIdentifier h
  exact tight_of_no_blanks (List.cons_ne_nil c cs) fun d hd =>
    isBlank_of_isNameChar (isNameChar_of_mem h d hd)

/-- **A name ends where no name character follows.** -/
theorem name_identifierTail {w rest : List Char} (h : isIdentifierTail w = true)
    (hrest : nextIs isNameChar rest = false) : name (w ++ rest) = (w, rest) := by
  induction w with
  | nil =>
      cases rest with
      | nil => rfl
      | cons d rest =>
          have hd : isNameChar d = false := hrest
          have hhyphen : d ≠ '-' := (ne_of_test (c := '-') rfl hd).symm
          have hstop : continuesName d rest = false := by
            rw [continuesName, if_neg hhyphen]
            rw [isNameChar, Bool.or_eq_false_iff, Bool.or_eq_false_iff] at hd
            rw [hd.1.1, hd.2]
            rfl
          rw [List.nil_append, name, hstop]
          rfl
  | cons c w ih =>
      rw [isIdentifierTail, Bool.and_eq_true] at h
      have hgo : continuesName c (w ++ rest) = true := by
        rw [continuesName]
        by_cases hc : c = '-'
        · rw [if_pos hc] at h ⊢
          cases w with
          | nil => cases h.1
          | cons d w => exact isNameChar_of_isWordChar h.1
        · rw [if_neg hc] at h ⊢
          exact h.1
      rw [List.cons_append, name, if_pos hgo, ih h.2]
      rfl

theorem name_identifier {w rest : List Char} (h : isIdentifier w = true)
    (hrest : nextIs isNameChar rest = false) : name (w ++ rest) = (w, rest) :=
  name_identifierTail (isIdentifierTail_of_isIdentifier h) hrest

/-! ## Runs of characters -/

section Run

variable {test : Char → Bool} {w rest : List Char} (hw : ∀ c ∈ w, test c = true)
  (hrest : nextIs test rest = false)
include hw hrest

/-- The characters that pass a test are taken up to one that does not. -/
theorem takeWhile_run : (w ++ rest).takeWhile test = w := by
  rw [List.takeWhile_append_of_pos hw]
  cases rest with
  | nil => exact List.append_nil w
  | cons c rest =>
      have hc : ¬ test c = true := Bool.eq_false_iff.mp hrest
      rw [List.takeWhile_cons_of_neg hc, List.append_nil]

theorem dropWhile_run : (w ++ rest).dropWhile test = rest := by
  rw [List.dropWhile_append_of_pos hw]
  cases rest with
  | nil => rfl
  | cons c rest =>
      have hc : ¬ test c = true := Bool.eq_false_iff.mp hrest
      exact List.dropWhile_cons_of_neg hc

theorem Cursor.takeWhile_eq (p : Position) :
    Cursor.takeWhile ⟨w ++ rest, p⟩ test = (w, ⟨rest, p.after w⟩) := by
  rw [Cursor.takeWhile, takeWhile_run hw hrest, dropWhile_run hw hrest]
  rfl

end Run

/-! ## Gaps -/

/-- Blanks only, or nothing. -/
def Gap (g : List Char) : Prop :=
  ∀ c ∈ g, isBlank c = true

theorem gap_nil : Gap [] :=
  nofun

theorem Gap.append {g h : List Char} (hg : Gap g) (hh : Gap h) : Gap (g ++ h) :=
  List.forall_mem_append.mpr ⟨hg, hh⟩

theorem gap_space : Gap [' '] :=
  List.forall_mem_singleton.mpr isBlank_space

/-- The text starts neither with a blank nor with a comment. -/
def Solid (cs : List Char) : Prop :=
  ∀ c, cs.head? = some c → isBlank c = false ∧ c ≠ '/'

theorem solid_cons {c : Char} (hblank : isBlank c = false) (hslash : c ≠ '/') (cs : List Char) :
    Solid (c :: cs) := by
  rintro d ⟨⟩
  exact ⟨hblank, hslash⟩

theorem solid_of_isAlpha {c : Char} (h : c.isAlpha = true) (cs : List Char) : Solid (c :: cs) :=
  solid_cons (isBlank_of_isNameChar (isNameChar_of_isWordChar (isWordChar_of_isAlpha h)))
    (ne_of_isAlpha h _ rfl) cs

/-- Where no comment starts, blanks go on or end. -/
theorem trivia_cons {c : Char} {cs : List Char} (hline : ∀ rest, c = '/' → cs = '/' :: rest → False)
    (hblock : ∀ rest, c = '/' → cs = '*' :: rest → False) :
    trivia (c :: cs) = if isBlank c then keep c (trivia cs) else ([], c :: cs) := by
  rw [trivia.eq_def]
  split
  · rename_i h
    cases h
  · rename_i h
    cases h
    exact absurd rfl (hline _ rfl)
  · rename_i h
    cases h
    exact absurd rfl (hblock _ rfl)
  · rename_i h
    cases h
    rfl

theorem trivia_lineComment (cs : List Char) :
    trivia ('/' :: '/' :: cs) = keep '/' (keep '/' (lineComment cs)) := by
  rw [trivia.eq_def]
  rfl

theorem trivia_blockComment (cs : List Char) :
    trivia ('/' :: '*' :: cs) = keep '/' (keep '*' (blockComment cs)) := by
  rw [trivia.eq_def]
  rfl

/-- **Blanks and comments end with a gap.** -/
theorem trivia_gap {g rest : List Char} (hg : Gap g) (hrest : Solid rest) :
    trivia (g ++ rest) = (g, rest) := by
  induction g with
  | nil =>
      cases rest with
      | nil => rfl
      | cons c rest =>
          obtain ⟨hblank, hslash⟩ := hrest c rfl
          rw [List.nil_append, trivia_cons (fun _ h _ => hslash h) (fun _ h _ => hslash h), hblank]
          rfl
  | cons c g ih =>
      obtain ⟨hc, hg⟩ := List.forall_mem_cons.mp hg
      have hslash : c ≠ '/' := ne_of_test hc (by decide)
      rw [List.cons_append, trivia_cons (fun _ h _ => hslash h) (fun _ h _ => hslash h), if_pos hc,
        ih hg]
      rfl

/-- No name goes on behind a gap. -/
theorem nextIs_gap {g : List Char} (hg : Gap g) {t : Char} (ht : isNameChar t = false)
    (rest : List Char) : nextIs isNameChar (g ++ t :: rest) = false := by
  cases g with
  | nil => exact ht
  | cons c g => exact isNameChar_of_isBlank (hg c List.mem_cons_self)

/-- Gaps around a tight text are cut off. -/
theorem trim_gaps {g cs g' : List Char} (hg : Gap g) (hcs : Tight cs) (hg' : Gap g') :
    trim (g ++ (cs ++ g')) = cs := by
  have hstart : trimStart (g ++ (cs ++ g')) = cs ++ g' := by
    obtain ⟨c, rest, rfl, hc⟩ := hcs.head
    rw [trimStart, List.dropWhile_append_of_pos hg]
    exact trimStart_of_head hc (rest ++ g')
  rw [trim, hstart, trimEnd, List.reverse_append,
    List.dropWhile_append_of_pos fun c hc => hg' c (List.mem_reverse.mp hc)]
  exact trimEnd_of_last hcs.last

/-- A gap before a text without blanks is cut off. -/
theorem collapse_gap {g cs : List Char} (hg : Gap g) (htight : Tight cs)
    (hcs : ∀ c ∈ cs, isBlank c = false) : collapse (g ++ cs) = cs := by
  have hgap : ∀ after, Gap (squeeze after g) := by
    intro after c hc
    by_contra hblank
    rw [Bool.not_eq_true] at hblank
    exact absurd (hg c ((mem_squeeze hblank after g).mp hc)) (by rw [hblank]; decide)
  have htrim := trim_gaps (hgap false) htight gap_nil
  rw [List.append_nil] at htrim
  rw [collapse, squeeze_append, squeeze_of_no_blanks hcs, htrim]

/-! ## Texts in front of a block -/

/-- All characters are quiet. -/
def Quiet (cs : List Char) : Prop :=
  ∀ c ∈ cs, isQuiet c = true

theorem Gap.quiet {g : List Char} (hg : Gap g) : Quiet g :=
  fun c hc => isQuiet_of_isBlank (hg c hc)

theorem quiet_of_isIdentifier {w : List Char} (h : isIdentifier w = true) : Quiet w :=
  fun c hc => isQuiet_of_isNameChar (isNameChar_of_mem h c hc)

theorem Quiet.append {xs ys : List Char} (hx : Quiet xs) (hy : Quiet ys) : Quiet (xs ++ ys) :=
  List.forall_mem_append.mpr ⟨hx, hy⟩

/-- The text in front of a brace is read as it is. -/
theorem headFrom_quiet {h : List Char} (hh : Quiet h) (rest : List Char) (p : Position) :
    ∃ p', Cursor.headFrom 0 none p (h ++ '{' :: rest) = .ok (h, ⟨'{' :: rest, p'⟩) := by
  induction h generalizing p with
  | nil => exact ⟨p, by rw [List.nil_append, Cursor.headFrom, if_pos ⟨rfl, rfl⟩]⟩
  | cons c h ih =>
      obtain ⟨hc, hh⟩ := List.forall_mem_cons.mp hh
      obtain ⟨p', hp'⟩ := ih hh (p.advance c)
      have hne : ∀ d : Char, isQuiet d = false → c ≠ d := fun d hd => ne_of_test hc hd
      have hbrace : c ≠ '{' := hne _ rfl
      have hend : ¬((c = ';' ∨ c = '}') ∧ 0 = 0) := by
        rintro ⟨h | h, -⟩
        · exact hne _ rfl h
        · exact hne _ rfl h
      obtain ⟨hopen, hclose⟩ := no_bracket_of_isQuiet hc
      refine ⟨p', ?_⟩
      rw [List.cons_append, Cursor.headFrom, if_neg fun h => hbrace h.1, if_neg hend]
      simp only [if_neg hopen, if_neg hclose, isQuote_of_isQuiet hc, Bool.false_eq_true, if_false]
      rw [hp']
      rfl

/-- Parts with commas between them, each comma with a gap behind it. -/
def joined (g : List Char) : List (List Char) → List Char
  | [] => []
  | part :: parts => part ++ parts.flatMap fun q => ',' :: (g ++ q)

theorem quiet_joined {g : List Char} (hg : Gap g) {parts : List (List Char)}
    (hparts : ∀ q ∈ parts, Quiet q) : Quiet (joined g parts) := by
  cases parts with
  | nil => exact nofun
  | cons part parts =>
      obtain ⟨hpart, hparts⟩ := List.forall_mem_cons.mp hparts
      refine hpart.append fun c hc => ?_
      obtain ⟨q, hq, hc⟩ := List.mem_flatMap.mp hc
      rcases List.mem_cons.mp hc with rfl | hc
      · rfl
      · exact hg.quiet.append (hparts q hq) c hc

/-- A quiet part without commas is not cut. -/
theorem splitTop_quiet {part : List Char} (hpart : Quiet part) (hcomma : ',' ∉ part)
    {rest : List Char} {first : List Char} {more : List (List Char)}
    (hrest : splitTop ',' 0 none rest = first :: more) :
    splitTop ',' 0 none (part ++ rest) = (part ++ first) :: more := by
  induction part with
  | nil => exact hrest
  | cons c part ih =>
      obtain ⟨hc, hpart⟩ := List.forall_mem_cons.mp hpart
      rw [List.mem_cons, not_or] at hcomma
      obtain ⟨hopen, hclose⟩ := no_bracket_of_isQuiet hc
      rw [List.cons_append, splitTop]
      simp only [isQuote_of_isQuiet hc, Bool.false_eq_true, if_false, if_neg hopen, if_neg hclose,
        ih hpart hcomma.2]
      rw [if_neg fun h => hcomma.1 h.1.symm]
      rfl

/-- **Parts are cut at the commas between them.** -/
theorem splitTop_joined {g : List Char} (hg : Gap g) {part : List Char} {parts : List (List Char)}
    (hparts : ∀ q ∈ part :: parts, Quiet q ∧ ',' ∉ q) :
    splitTop ',' 0 none (joined g (part :: parts)) = part :: parts.map (g ++ ·) := by
  have hcomma : ',' ∉ g := fun h => by
    have := hg _ h
    revert this
    decide
  have hall : ∀ (parts : List (List Char)) (front : List Char),
      (∀ q ∈ parts, Quiet q ∧ ',' ∉ q) → Quiet front → ',' ∉ front →
      splitTop ',' 0 none (front ++ parts.flatMap fun q => ',' :: (g ++ q)) =
        front :: parts.map (g ++ ·) := by
    intro parts
    induction parts with
    | nil =>
        intro front _ hquiet hfront
        have hnil : splitTop ',' 0 none [] = [[]] := rfl
        rw [List.flatMap_nil, splitTop_quiet hquiet hfront hnil, List.append_nil]
        rfl
    | cons q parts ih =>
        intro front hparts hquiet hfront
        obtain ⟨hq, hparts⟩ := List.forall_mem_cons.mp hparts
        have hlater := ih (g ++ q) hparts (hg.quiet.append hq.1)
          (by rw [List.mem_append, not_or]; exact ⟨hcomma, hq.2⟩)
        have hcut : splitTop ',' 0 none
            (',' :: ((g ++ q) ++ parts.flatMap fun q => ',' :: (g ++ q))) =
              [] :: (g ++ q) :: parts.map (g ++ ·) := by
          rw [splitTop]
          simp only [show isQuote ',' = false from rfl, Bool.false_eq_true, if_false]
          rw [if_neg (by decide), if_neg (by decide), if_pos ⟨trivial, trivial⟩, hlater]
        have := splitTop_quiet hquiet hfront hcut
        rwa [List.append_nil] at this
  obtain ⟨hpart, hparts⟩ := List.forall_mem_cons.mp hparts
  exact hall parts part hparts hpart.1 hpart.2

/-! ## Lookaheads -/

/-- A class or an element: an identifier, possibly with a period before it. -/
def isSimpleSelector : List Char → Bool
  | [] => false
  | c :: cs => if c = '.' then isIdentifier cs else isIdentifier (c :: cs)

/-- Only a class is a mixin name, and it ends with the selector. -/
theorem mixinName?_selector {s rest : List Char} (h : isSimpleSelector s = true)
    (hrest : nextIs isNameChar rest = false) :
    mixinName? (s ++ rest) = none ∨ mixinName? (s ++ rest) = some (s, rest) := by
  cases s with
  | nil => cases h
  | cons c cs =>
      rw [isSimpleSelector] at h
      by_cases hc : c = '.'
      · rw [if_pos hc] at h
        obtain ⟨d, ds, rfl, -⟩ := exists_cons_of_isIdentifier h
        right
        rw [List.cons_append, mixinName?, if_pos (Or.inl hc), name_identifier h hrest]
        rfl
      · rw [if_neg hc] at h
        obtain ⟨d, ds, heq, hd⟩ := exists_cons_of_isIdentifier h
        cases heq
        left
        have hhash : c ≠ '#' := ne_of_isAlpha hd _ rfl
        rw [List.cons_append, mixinName?, if_neg fun h => h.elim hc hhash]

/-- What follows a selector ends a name. -/
theorem afterTrivia_selector {g : List Char} (hg : Gap g) {t : Char} (ht : t = ',' ∨ t = '{')
    (rest : List Char) : nextIs isNameChar (g ++ t :: rest) = false ∧
      afterTrivia (g ++ t :: rest) = t :: rest := by
  have hsolid : Solid (t :: rest) ∧ isNameChar t = false := by
    rcases ht with rfl | rfl
    · exact ⟨solid_cons rfl (by decide) rest, rfl⟩
    · exact ⟨solid_cons rfl (by decide) rest, rfl⟩
  exact ⟨nextIs_gap hg hsolid.2 rest, by rw [afterTrivia, trivia_gap hg hsolid.1]⟩

/-- **A rule set starts neither the definition nor the call of a mixin.** -/
theorem no_mixin_ahead {s g : List Char} (hs : isSimpleSelector s = true) (hg : Gap g) {t : Char}
    (ht : t = ',' ∨ t = '{') (rest : List Char) :
    mixinDefinitionAhead (s ++ (g ++ t :: rest)) = false ∧
      mixinCallAhead (s ++ (g ++ t :: rest)) = false := by
  obtain ⟨hnext, hafter⟩ := afterTrivia_selector hg ht rest
  rcases mixinName?_selector hs hnext with h | h
  · rw [mixinDefinitionAhead, mixinCallAhead, h]
    exact ⟨rfl, rfl⟩
  · rw [mixinDefinitionAhead, mixinCallAhead, h]
    simp only [hafter]
    rcases ht with rfl | rfl
    · exact ⟨rfl, rfl⟩
    · exact ⟨rfl, rfl⟩

/-- A declaration starts neither the definition nor the call of a mixin. -/
theorem no_mixin_ahead_of_isNameChar {c : Char} (hc : isNameChar c = true) (rest : List Char) :
    mixinDefinitionAhead (c :: rest) = false ∧ mixinCallAhead (c :: rest) = false := by
  have hdot : c ≠ '.' := ne_of_test hc rfl
  have hhash : c ≠ '#' := ne_of_test hc rfl
  have hnone : mixinName? (c :: rest) = none := by
    rw [mixinName?, if_neg fun h => h.elim hdot hhash]
  rw [mixinDefinitionAhead, mixinCallAhead, hnone]
  exact ⟨rfl, rfl⟩

/-- Looking for the kind of an entry runs over quiet texts and remembers a
    colon. -/
theorem entryKind_quiet {cs : List Char} (hcs : Quiet cs) (colon : Bool) (rest : List Char) :
    entryKind colon none (cs ++ rest) = entryKind (colon || cs.contains ':') none rest := by
  induction cs generalizing colon with
  | nil => rw [List.nil_append]; simp
  | cons c cs ih =>
      obtain ⟨hc, hcs⟩ := List.forall_mem_cons.mp hcs
      have hne : ∀ d : Char, isQuiet d = false → c ≠ d := fun d hd => ne_of_test hc hd
      rw [List.cons_append, entryKind, if_neg (hne _ rfl),
        if_neg (hne _ rfl), if_neg (hne _ rfl),
        isQuote_of_isQuiet hc, if_neg (by decide), ih hcs, Bool.or_assoc]
      congr 2
      rw [List.contains_cons, Bool.beq_comm]

/-! ## Open strings -/

/-- A string that is open was opened by a quote. -/
def OpenedByQuote (quote : Option Char) : Prop :=
  ∀ q, quote = some q → isQuote q = true

theorem openedByQuote_none : OpenedByQuote none := by
  rintro q ⟨⟩

theorem openedByQuote_some {q : Char} (h : isQuote q = true) : OpenedByQuote (some q) := by
  rintro q ⟨⟩
  exact h

/-- Behind a character a string is still open, or its quote has closed it. -/
theorem OpenedByQuote.next {q : Char} (h : OpenedByQuote (some q)) (c : Char) :
    OpenedByQuote (if c = q then none else some q) := by
  split
  · exact openedByQuote_none
  · exact h

end Less.Parse
