import Less.Proofs.InBounds
import Less.Proofs.ReadWords
import Less.Proofs.StringsInValues

/-! # Lists of selectors

    The text in front of a block is read by one scanner, which takes a string at once
    and lets a backslash in it take the next character along, and cut into selectors by
    another, for which a string ends at the next quote of its kind.

    * Cutting loses nothing (`intercalate_partsFrom`).
    * A comma is a cut exactly if the text before it leaves nothing open
      (`cutBehind_iff_shut`), where strings are **bare**: a quote and all up to the next
      one.
    * Where every string that is read is bare, these are the commas outside brackets
      and strings as they are read (`head_cut_at_commas`).  A string with its own quote
      escaped is not: behind it, what is outside is taken for a string
      (`comma_hidden_by_escaped_quote`). -/

namespace Less.Parse

open Less.Text

/-! ## Texts that leave nothing open -/

/-- A bracket or a parenthesis that opens. -/
def IsOpening (c : Char) : Prop :=
  c = '(' ∨ c = '['

/-- A bracket or a parenthesis that closes. -/
def IsClosing (c : Char) : Prop :=
  c = ')' ∨ c = ']'

instance (c : Char) : Decidable (IsOpening c) :=
  inferInstanceAs (Decidable (_ ∨ _))

instance (c : Char) : Decidable (IsClosing c) :=
  inferInstanceAs (Decidable (_ ∨ _))

/-- Neither a quote nor a bracket. -/
structure IsPlain (c : Char) : Prop where
  quote : isQuote c = false
  opening : ¬ IsOpening c
  closing : ¬ IsClosing c

/-- **Nothing that the text opens is left open**: it is made of plain characters,
    strings, and brackets around such a text.  A closing bracket without a partner closes
    nothing; at the `top` it may stand, and inside brackets it would close these. -/
inductive Shut (IsString : List Char → Prop) : Bool → List Char → Prop where
  | nil {top : Bool} : Shut IsString top []
  | plain {top : Bool} {c : Char} {cs : List Char} (hc : IsPlain c) (h : Shut IsString top cs) :
      Shut IsString top (c :: cs)
  | string {top : Bool} {s cs : List Char} (hs : IsString s) (h : Shut IsString top cs) :
      Shut IsString top (s ++ cs)
  | group {top : Bool} {o c : Char} {inner cs : List Char} (ho : IsOpening o)
      (hinner : Shut IsString false inner) (hc : IsClosing c) (h : Shut IsString top cs) :
      Shut IsString top (o :: (inner ++ c :: cs))
  | stray {c : Char} {cs : List Char} (hc : IsClosing c) (h : Shut IsString true cs) :
      Shut IsString true (c :: cs)

/-- A string with its quotes, as it is read: a backslash takes the next character
    along. -/
def IsQuoted (s : List Char) : Prop :=
  ∃ q body, isQuote q = true ∧ s = q :: body ∧ Cursor.stringRest? q body = some (body, [])

/-- A quote and all up to the next quote of its kind. -/
def IsBare (s : List Char) : Prop :=
  ∃ q content, isQuote q = true ∧ q ∉ content ∧ s = q :: (content ++ [q])

/-! ## Where a text is left -/

/-- The number of open brackets, and the quote of an open string. -/
structure Place where
  depth : Nat
  quote : Option Char

namespace Place

/-- The place behind a character. -/
def step (p : Place) (c : Char) : Place :=
  match p.quote with
  | some q => ⟨p.depth, if c = q then none else some q⟩
  | none =>
    if isQuote c then ⟨p.depth, some c⟩
    else if IsOpening c then ⟨p.depth + 1, none⟩
    else if IsClosing c then ⟨p.depth - 1, none⟩
    else p

/-- The place behind a text. -/
def run (p : Place) (cs : List Char) : Place :=
  cs.foldl step p

/-- Outside brackets and strings. -/
def outside : Place :=
  ⟨0, none⟩

variable {c q : Char} {cs content s : List Char} {d : Nat}

theorem run_append (p : Place) (xs ys : List Char) : p.run (xs ++ ys) = (p.run xs).run ys :=
  List.foldl_append

theorem step_of_isPlain (hc : IsPlain c) : step ⟨d, none⟩ c = ⟨d, none⟩ := by
  show (if isQuote c then _ else _) = _
  rw [if_neg (by rw [hc.quote]; simp), if_neg hc.opening, if_neg hc.closing]

theorem step_of_isQuote (hq : isQuote q = true) : step ⟨d, none⟩ q = ⟨d, some q⟩ :=
  if_pos hq

theorem isQuote_of_isOpening (hc : IsOpening c) : isQuote c = false := by
  rcases hc with rfl | rfl <;> decide

theorem isQuote_of_isClosing (hc : IsClosing c) : isQuote c = false := by
  rcases hc with rfl | rfl <;> decide

theorem not_isOpening_of_isClosing (hc : IsClosing c) : ¬ IsOpening c := by
  rcases hc with rfl | rfl <;> decide

theorem step_of_isOpening (hc : IsOpening c) : step ⟨d, none⟩ c = ⟨d + 1, none⟩ := by
  show (if isQuote c then _ else _) = _
  rw [if_neg (by rw [isQuote_of_isOpening hc]; simp), if_pos hc]

theorem step_of_isClosing (hc : IsClosing c) : step ⟨d, none⟩ c = ⟨d - 1, none⟩ := by
  show (if isQuote c then _ else _) = _
  rw [if_neg (by rw [isQuote_of_isClosing hc]; simp), if_neg (not_isOpening_of_isClosing hc),
    if_pos hc]

/-- A string stays open up to its quote. -/
theorem run_of_notMem (h : q ∉ content) : run ⟨d, some q⟩ content = ⟨d, some q⟩ := by
  induction content with
  | nil => rfl
  | cons c content ih =>
      rw [List.mem_cons, not_or] at h
      have hstep : step ⟨d, some q⟩ c = ⟨d, some q⟩ := by
        show Place.mk d (if c = q then none else some q) = _
        rw [if_neg (Ne.symm h.1)]
      show run (step ⟨d, some q⟩ c) content = _
      rw [hstep, ih h.2]

theorem run_of_isBare (hs : IsBare s) : run ⟨d, none⟩ s = ⟨d, none⟩ := by
  obtain ⟨q, content, hq, hcontent, rfl⟩ := hs
  show run (step ⟨d, none⟩ q) (content ++ [q]) = _
  rw [step_of_isQuote hq, run_append, run_of_notMem hcontent]
  show Place.mk d (if q = q then none else some q) = _
  rw [if_pos rfl]

/-- **A text that leaves nothing open ends where it starts.** -/
theorem run_of_shut {top : Bool} (h : Shut IsBare top cs) (hd : top = true → d = 0) :
    run ⟨d, none⟩ cs = ⟨d, none⟩ := by
  induction h generalizing d with
  | nil => rfl
  | @plain top c cs hc h ih =>
      show run (step ⟨d, none⟩ c) cs = _
      rw [step_of_isPlain hc, ih hd]
  | string hs h ih => rw [run_append, run_of_isBare hs, ih hd]
  | @group top o c inner cs ho hinner hc h ihinner ih =>
      show run (step ⟨d, none⟩ o) (inner ++ c :: cs) = _
      rw [step_of_isOpening ho, run_append, ihinner fun hfalse => absurd hfalse Bool.false_ne_true]
      show run (step ⟨d + 1, none⟩ c) cs = _
      rw [step_of_isClosing hc]
      exact ih hd
  | @stray c cs hc h ih =>
      obtain rfl := hd rfl
      show run (step ⟨0, none⟩ c) cs = _
      rw [step_of_isClosing hc]
      exact ih fun _ => rfl

/-! ### What closes -/

/-- The text closes `d` brackets and leaves nothing open. -/
def Closes : Nat → List Char → Prop
  | 0, cs => Shut IsBare true cs
  | d + 1, cs =>
    ∃ inner c rest, cs = inner ++ c :: rest ∧ Shut IsBare false inner ∧ IsClosing c ∧ Closes d rest

/-- The text closes what is open at a place, a string first. -/
def Completes (p : Place) (cs : List Char) : Prop :=
  match p.quote with
  | none => Closes p.depth cs
  | some q => ∃ content rest, q ∉ content ∧ cs = content ++ q :: rest ∧ Closes p.depth rest

/-- A part that may stand in front of texts that leave nothing open may stand in front of
    one that closes brackets. -/
theorem Closes.append (hs : ∀ top cs, Shut IsBare top cs → Shut IsBare top (s ++ cs))
    (h : Closes d cs) : Closes d (s ++ cs) := by
  cases d with
  | zero => exact hs true cs h
  | succ d =>
      obtain ⟨inner, c, rest, rfl, hinner, hc, hrest⟩ := h
      refine ⟨s ++ inner, c, rest, ?_, hs false inner hinner, hc, hrest⟩
      rw [List.append_assoc]

/-- A closing bracket closes one of the open ones, if there are any. -/
theorem Closes.closing (hc : IsClosing c) (h : Closes (d - 1) cs) : Closes d (c :: cs) := by
  cases d with
  | zero => exact .stray hc h
  | succ d => exact ⟨[], c, cs, rfl, .nil, hc, h⟩

/-- **A text that ends outside closes what was open.** -/
theorem completes_of_run {p : Place} (h : p.run cs = outside) : p.Completes cs := by
  induction cs generalizing p with
  | nil =>
      obtain rfl : p = outside := h
      exact Shut.nil
  | cons c cs ih =>
      have hlater : (p.step c).Completes cs := ih h
      obtain ⟨d, quote⟩ := p
      cases quote with
      | some q =>
          by_cases hc : c = q
          · -- the string ends here
            subst hc
            have hstep : step ⟨d, some c⟩ c = ⟨d, none⟩ := congrArg (Place.mk d) (if_pos rfl)
            rw [hstep] at hlater
            exact ⟨[], cs, List.not_mem_nil, rfl, hlater⟩
          · have hstep : step ⟨d, some q⟩ c = ⟨d, some q⟩ := congrArg (Place.mk d) (if_neg hc)
            rw [hstep] at hlater
            obtain ⟨content, rest, hcontent, rfl, hrest⟩ := hlater
            refine ⟨c :: content, rest, ?_, rfl, hrest⟩
            rw [List.mem_cons, not_or]
            exact ⟨Ne.symm hc, hcontent⟩
      | none =>
          by_cases hquote : isQuote c = true
          · rw [step_of_isQuote hquote] at hlater
            obtain ⟨content, rest, hcontent, rfl, hrest⟩ := hlater
            have hbare : IsBare (c :: (content ++ [c])) := ⟨c, content, hquote, hcontent, rfl⟩
            have hall : Closes d (c :: (content ++ [c]) ++ rest) :=
              Closes.append (fun _ _ h => .string hbare h) hrest
            rw [List.cons_append, List.append_assoc] at hall
            exact hall
          · by_cases hopening : IsOpening c
            · rw [step_of_isOpening hopening] at hlater
              obtain ⟨inner, c', rest, rfl, hinner, hc', hrest⟩ := hlater
              have hall : Closes d (c :: (inner ++ [c']) ++ rest) := by
                refine Closes.append (fun top cs h => ?_) hrest
                rw [List.cons_append, List.append_assoc]
                exact .group hopening hinner hc' h
              rw [List.cons_append, List.append_assoc] at hall
              exact hall
            · by_cases hclosing : IsClosing c
              · rw [step_of_isClosing hclosing] at hlater
                exact Closes.closing hclosing hlater
              · have hplain : IsPlain c := ⟨Bool.eq_false_iff.mpr hquote, hopening, hclosing⟩
                rw [step_of_isPlain hplain] at hlater
                exact Closes.append (s := [c]) (fun _ _ h => .plain hplain h) hlater

/-- **A text leaves nothing open exactly if it ends outside.** -/
theorem run_eq_outside_iff : outside.run cs = outside ↔ Shut IsBare true cs :=
  ⟨completes_of_run, fun h => run_of_shut h fun _ => rfl⟩

end Place

/-! ## Cuts -/

/-- The parts are cut behind `front`: it is made of some of them, and more follow. -/
def CutBehind (parts : List (List Char)) (front : List Char) : Prop :=
  ∃ before behind, before ≠ [] ∧ behind ≠ [] ∧ parts = before ++ behind
    ∧ [','].intercalate before = front

variable {parts : List (List Char)} {front : List Char} {c : Char}

theorem intercalate_nil_cons (h : parts ≠ []) :
    [','].intercalate ([] :: parts) = ',' :: [','].intercalate parts := by
  rw [List.intercalate_cons_of_ne_nil h]
  rfl

theorem intercalate_modifyHead (c : Char) (h : parts ≠ []) :
    [','].intercalate (parts.modifyHead (c :: ·)) = c :: [','].intercalate parts := by
  obtain ⟨part, parts, rfl⟩ := List.exists_cons_of_ne_nil h
  exact List.intercalate_cons_cons_left

theorem cutBehind_nil (h : parts ≠ []) : CutBehind ([] :: parts) [] :=
  ⟨[[]], parts, List.cons_ne_nil _ _, h, rfl, rfl⟩

/-- The parts behind a cut are cut as they are on their own. -/
theorem cutBehind_comma (h : parts ≠ []) :
    CutBehind ([] :: parts) (',' :: front) ↔ CutBehind parts front := by
  constructor
  · rintro ⟨before, behind, hbefore, hbehind, hparts, hfront⟩
    cases before with
    | nil => exact absurd rfl hbefore
    | cons first before =>
        rw [List.cons_append] at hparts
        injection hparts with hfirst hparts
        subst hfirst
        have hne : before ≠ [] := by
          rintro rfl
          cases hfront
        rw [intercalate_nil_cons hne] at hfront
        injection hfront with _ hfront
        exact ⟨before, behind, hne, hbehind, hparts, hfront⟩
  · rintro ⟨before, behind, hbefore, hbehind, rfl, rfl⟩
    exact ⟨[] :: before, behind, List.cons_ne_nil _ _, hbehind, rfl, intercalate_nil_cons hbefore⟩

/-- A character that is kept moves the cuts. -/
theorem cutBehind_cons (c : Char) (h : parts ≠ []) :
    CutBehind (parts.modifyHead (c :: ·)) (c :: front) ↔ CutBehind parts front := by
  obtain ⟨part, parts, rfl⟩ := List.exists_cons_of_ne_nil h
  constructor
  · rintro ⟨before, behind, hbefore, hbehind, hparts, hfront⟩
    cases before with
    | nil => exact absurd rfl hbefore
    | cons first before =>
        rw [List.modifyHead_cons, List.cons_append] at hparts
        injection hparts with hfirst hparts
        subst hfirst
        rw [List.intercalate_cons_cons_left] at hfront
        injection hfront with _ hfront
        refine ⟨part :: before, behind, List.cons_ne_nil _ _, hbehind, ?_, hfront⟩
        rw [List.cons_append, hparts]
  · rintro ⟨before, behind, hbefore, hbehind, hparts, rfl⟩
    refine ⟨before.modifyHead (c :: ·), behind, ?_, hbehind, ?_, intercalate_modifyHead c hbefore⟩
    · simpa using hbefore
    · obtain ⟨first, before, rfl⟩ := List.exists_cons_of_ne_nil hbefore
      rw [hparts]
      rfl

theorem not_cutBehind_nil (c : Char) (h : parts ≠ []) :
    ¬ CutBehind (parts.modifyHead (c :: ·)) [] := by
  obtain ⟨part, parts, rfl⟩ := List.exists_cons_of_ne_nil h
  rintro ⟨before, behind, hbefore, -, hparts, hfront⟩
  cases before with
  | nil => exact hbefore rfl
  | cons first before =>
      rw [List.modifyHead_cons, List.cons_append] at hparts
      injection hparts with hfirst
      rw [← hfirst, List.intercalate_cons_cons_left] at hfront
      cases hfront

/-! ### The cuts of a list -/

/-- The parts of what follows a place. -/
abbrev partsFrom (p : Place) (cs : List Char) : List (List Char) :=
  splitTop ',' p.depth p.quote cs

/-- The parts with a character that is kept in front. -/
def withKept (c : Char) : List (List Char) → List (List Char)
  | [] => [[c]]
  | part :: parts => (c :: part) :: parts

/-- A comma outside is a cut. -/
theorem partsFrom_comma (cs : List Char) :
    partsFrom .outside (',' :: cs) = [] :: partsFrom .outside cs :=
  rfl

/-- All else is kept, and leads to the next place. -/
theorem partsFrom_eq_withKept {p : Place} (h : ¬ (c = ',' ∧ p = .outside)) (cs : List Char) :
    partsFrom p (c :: cs) = withKept c (partsFrom (p.step c) cs) := by
  obtain ⟨d, quote⟩ := p
  cases quote with
  | some q => rfl
  | none =>
      show splitTop ',' d none (c :: cs) = _
      rw [splitTop]
      split
      · rename_i hquote
        rw [Place.step_of_isQuote hquote]
        rfl
      · split
        · rename_i hopening
          rw [Place.step_of_isOpening hopening]
          rfl
        · split
          · rename_i hclosing
            rw [Place.step_of_isClosing hclosing]
            rfl
          · rename_i hquote hopening hclosing
            rw [Place.step_of_isPlain ⟨Bool.eq_false_iff.mpr hquote, hopening, hclosing⟩]
            split
            · rename_i hcut
              exact absurd ⟨hcut.1, congrArg (Place.mk · none) hcut.2⟩ h
            · rfl

theorem partsFrom_ne_nil (p : Place) (cs : List Char) : partsFrom p cs ≠ [] := by
  cases cs with
  | nil => exact List.cons_ne_nil _ _
  | cons c cs =>
      by_cases h : c = ',' ∧ p = .outside
      · obtain ⟨rfl, rfl⟩ := h
        exact List.cons_ne_nil _ _
      · rw [partsFrom_eq_withKept h]
        cases partsFrom (p.step c) cs with
        | nil => exact List.cons_ne_nil _ _
        | cons part parts => exact List.cons_ne_nil _ _

theorem partsFrom_cons {p : Place} (h : ¬ (c = ',' ∧ p = .outside)) (cs : List Char) :
    partsFrom p (c :: cs) = (partsFrom (p.step c) cs).modifyHead (c :: ·) := by
  obtain ⟨first, more, hparts⟩ := List.exists_cons_of_ne_nil (partsFrom_ne_nil (p.step c) cs)
  rw [partsFrom_eq_withKept h, hparts]
  rfl

/-- **Cutting loses nothing.** -/
theorem intercalate_partsFrom (p : Place) (cs : List Char) :
    [','].intercalate (partsFrom p cs) = cs := by
  induction cs generalizing p with
  | nil => rfl
  | cons c cs ih =>
      by_cases h : c = ',' ∧ p = .outside
      · obtain ⟨rfl, rfl⟩ := h
        rw [partsFrom_comma, intercalate_nil_cons (partsFrom_ne_nil _ cs), ih]
      · rw [partsFrom_cons h, intercalate_modifyHead c (partsFrom_ne_nil _ cs), ih]

/-- A comma is a cut exactly if the text before it leads outside. -/
theorem cutBehind_iff_run (p : Place) (front back : List Char) :
    CutBehind (partsFrom p (front ++ ',' :: back)) front ↔ p.run front = .outside := by
  induction front generalizing p with
  | nil =>
      rw [List.nil_append]
      by_cases hp : p = .outside
      · rw [hp, partsFrom_comma]
        exact iff_of_true (cutBehind_nil (partsFrom_ne_nil _ back)) rfl
      · rw [partsFrom_cons fun h => hp h.2]
        exact iff_of_false (not_cutBehind_nil ',' (partsFrom_ne_nil _ back)) hp
  | cons c front ih =>
      have hne := partsFrom_ne_nil (p.step c) (front ++ ',' :: back)
      rw [List.cons_append]
      show _ ↔ (p.step c).run front = .outside
      rw [← ih]
      by_cases h : c = ',' ∧ p = .outside
      · obtain ⟨rfl, rfl⟩ := h
        rw [partsFrom_comma]
        exact cutBehind_comma hne
      · rw [partsFrom_cons h]
        exact cutBehind_cons c hne

/-- **A comma is a cut exactly if the text before it leaves nothing open**, where a
    string ends at the next quote of its kind. -/
theorem cutBehind_iff_shut (front back : List Char) :
    CutBehind (splitTop ',' 0 none (front ++ ',' :: back)) front ↔ Shut IsBare true front := by
  rw [← Place.run_eq_outside_iff, ← cutBehind_iff_run]
  rfl

/-! ## Strings of a text -/

/-- The text is made of the strings `ss`, in this order, and of other characters that are
    no quotes. -/
inductive MadeOf (IsString : List Char → Prop) : List Char → List (List Char) → Prop where
  | nil : MadeOf IsString [] []
  | other {c : Char} {cs : List Char} {ss : List (List Char)} (hc : isQuote c = false)
      (h : MadeOf IsString cs ss) : MadeOf IsString (c :: cs) ss
  | string {s cs : List Char} {ss : List (List Char)} (hs : IsString s)
      (h : MadeOf IsString cs ss) : MadeOf IsString (s ++ cs) (s :: ss)

/-- Strings stand between quotes, and where one starts no other does. -/
structure Delimits (IsString : List Char → Prop) : Prop where
  quotes : ∀ s, IsString s → ∃ q content, isQuote q = true ∧ s = q :: (content ++ [q])
  unique : ∀ s s' rest rest', IsString s → IsString s' → s ++ rest = s' ++ rest' → s = s'

theorem delimits_isBare : Delimits IsBare where
  quotes := by
    rintro s ⟨q, content, hq, -, rfl⟩
    exact ⟨q, content, hq, rfl⟩
  unique := by
    rintro s s' rest rest' ⟨q, content, hq, hcontent, rfl⟩ ⟨q', content', hq', hcontent', rfl⟩ h
    -- both contents are what stands before the first quote of the kind
    have hends : ∀ (content rest : List Char), q ∉ content →
        (content ++ [q] ++ rest).takeWhile (· ≠ q) = content := by
      intro content rest hcontent
      have hall : ∀ c ∈ content, decide (c ≠ q) = true := by
        intro c hc
        simpa using fun heq : c = q => hcontent (heq ▸ hc)
      have hend : nextIs (fun c => decide (c ≠ q)) (q :: rest) = false := by simp [nextIs]
      rw [List.append_assoc]
      exact takeWhile_run hall hend
    injection h with hq h
    subst hq
    have hsame : content = content' := by
      rw [← hends content rest hcontent, ← hends content' rest' hcontent']
      exact congrArg _ h
    rw [hsame]

/-- What follows a string does not change where it ends. -/
theorem stringRest?_append_rest {q : Char} (hq : q ≠ '\\') {cs : List Char} {s : Split}
    (h : Cursor.stringRest? q cs = some s) (rest : List Char) :
    Cursor.stringRest? q (cs ++ rest) = some (s.1, s.2 ++ rest) := by
  induction cs using Cursor.stringRest?.induct q generalizing s with
  | case1 => cases h
  | case2 c cs ih =>
      rw [Cursor.stringRest?] at h
      obtain ⟨t, ht, rfl⟩ := Option.map_eq_some_iff.mp h
      rw [List.cons_append, List.cons_append, Cursor.stringRest?, ih ht]
      rfl
  | case3 cs hne =>
      rw [Cursor.stringRest?, if_pos rfl] at h
      · cases h
        rw [List.cons_append, Cursor.stringRest?, if_pos rfl]
        intro _ _ hescape
        exact absurd hescape hq
      · assumption
  | case4 c cs hescape hc ih =>
      rw [Cursor.stringRest?, if_neg hc] at h
      · obtain ⟨t, ht, rfl⟩ := Option.map_eq_some_iff.mp h
        rw [List.cons_append, Cursor.stringRest?, if_neg hc, ih ht]
        · rfl
        · -- a backslash with nothing behind it is in no string
          rintro d ds rfl -
          cases cs with
          | nil => cases ht
          | cons e cs => exact hescape e cs rfl rfl
      · assumption

theorem ne_backslash_of_isQuote {q : Char} (hq : isQuote q = true) : q ≠ '\\' := by
  rintro rfl
  exact absurd hq (by decide)

theorem delimits_isQuoted : Delimits IsQuoted where
  quotes := by
    rintro s ⟨q, body, hq, rfl, hbody⟩
    obtain ⟨content, hcontent⟩ := Cursor.exists_content hbody
    exact ⟨q, content, hq, congrArg (q :: ·) hcontent⟩
  unique := by
    rintro s s' rest rest' ⟨q, body, hq, rfl, hbody⟩ ⟨q', body', -, rfl, hbody'⟩ h
    injection h with hsame h
    subst hsame
    have hread := stringRest?_append_rest (ne_backslash_of_isQuote hq) hbody rest
    have hread' := stringRest?_append_rest (ne_backslash_of_isQuote hq) hbody' rest'
    have h : body ++ rest = body' ++ rest' := h
    rw [h, hread'] at hread
    injection hread with hread
    have hbodies : body' = body := congrArg Prod.fst hread
    rw [hbodies]

namespace MadeOf

variable {S T : List Char → Prop} {cs xs : List Char} {ss : List (List Char)}

theorem of_others (hxs : xs.any isQuote = false) (h : MadeOf S cs ss) :
    MadeOf S (xs ++ cs) ss := by
  induction xs with
  | nil => exact h
  | cons c xs ih =>
      obtain ⟨hc, hxs⟩ := Bool.or_eq_false_iff.mp hxs
      exact .other hc (ih hxs)

/-- The text with what is known of its strings. -/
theorem and_of_mem (h : MadeOf S cs ss) (hss : ∀ s ∈ ss, T s) :
    MadeOf (fun s => S s ∧ T s) cs ss := by
  induction h with
  | nil => exact .nil
  | other hc _ ih => exact .other hc (ih hss)
  | string hs _ ih =>
      obtain ⟨hT, hss⟩ := List.forall_mem_cons.mp hss
      exact .string ⟨hs, hT⟩ (ih hss)

/-- No string starts with a character that is no quote. -/
theorem of_other (hS : Delimits S) (hc : isQuote c = false) (h : MadeOf S (c :: cs) ss) :
    MadeOf S cs ss := by
  generalize htext : c :: cs = text at h
  cases h with
  | nil => cases htext
  | other _ h =>
      injection htext with _ htext
      exact htext ▸ h
  | string hs h =>
      obtain ⟨q, content, hq, rfl⟩ := hS.quotes _ hs
      injection htext with htext
      rw [htext, hq] at hc
      cases hc

/-- A string of the text is the one that starts at its quote. -/
theorem of_string (hS : Delimits S) {s : List Char} (hs : S s)
    (h : MadeOf (fun s => S s ∧ T s) (s ++ cs) ss) :
    T s ∧ ∃ more, MadeOf (fun s => S s ∧ T s) cs more := by
  generalize htext : s ++ cs = text at h
  obtain ⟨q, content, hq, heq⟩ := hS.quotes s hs
  cases h with
  | nil => rw [heq] at htext; cases htext
  | other hc =>
      rw [heq] at htext
      injection htext with htext
      rw [← htext, hq] at hc
      cases hc
  | @string s' cs' more hs' h =>
      obtain rfl := hS.unique s s' cs cs' hs hs'.1 htext
      rw [List.append_cancel_left htext]
      exact ⟨hs'.2, more, h⟩

/-- Blanks in front belong to no string. -/
theorem trimStart (hS : Delimits S) (h : MadeOf S cs ss) : MadeOf S (trimStart cs) ss := by
  induction h with
  | nil => exact .nil
  | @other c cs ss hc h ih =>
      by_cases hblank : isBlank c = true
      · rw [Text.trimStart, List.dropWhile_cons_of_pos hblank]
        exact ih
      · rw [trimStart_of_head (Bool.eq_false_iff.mpr hblank)]
        exact .other hc h
  | @string s cs ss hs h ih =>
      have hstart : Text.trimStart (s ++ cs) = s ++ cs := by
        obtain ⟨q, content, hq, rfl⟩ := hS.quotes s hs
        rw [List.cons_append, trimStart_of_head (isBlank_of_isQuote hq)]
      rw [hstart]
      exact .string hs h

/-- Nor do blanks at the end. -/
theorem of_append_blanks (hS : Delimits S) {blanks : List Char}
    (hblanks : ∀ c ∈ blanks, isBlank c = true) (h : MadeOf S (xs ++ blanks) ss) :
    MadeOf S xs ss := by
  generalize htext : xs ++ blanks = text at h
  induction h generalizing xs blanks with
  | nil =>
      obtain ⟨rfl, -⟩ := List.append_eq_nil_iff.mp htext
      exact .nil
  | @other c cs ss hc h ih =>
      cases xs with
      | nil =>
          -- only blanks are left, and the first of them is passed
          subst htext
          exact ih (fun d hd => hblanks d (List.mem_cons_of_mem c hd)) rfl
      | cons x xs =>
          injection htext with hx htext
          subst hx
          exact .other hc (ih hblanks htext)
  | @string s cs ss hs h ih =>
      obtain ⟨cut, hcut, rfl⟩ | ⟨behind, rfl, rfl⟩ := List.append_eq_append_iff.mp htext
      · rcases List.eq_nil_or_concat' cut with rfl | ⟨cut, d, rfl⟩
        · rw [List.append_nil] at hcut
          subst hcut
          have hnil : MadeOf S [] ss := ih hblanks rfl
          have hall := MadeOf.string hs hnil
          rwa [List.append_nil] at hall
        · -- the string would end with a blank
          obtain ⟨q, content, hq, rfl⟩ := hS.quotes s hs
          have hends : q :: content ++ [q] = xs ++ cut ++ [d] := by
            rw [List.append_assoc]
            exact hcut
          obtain ⟨-, hlast⟩ := List.append_inj' hends rfl
          injection hlast with hlast
          have hd : isBlank d = true := hblanks d (by simp)
          rw [← hlast, isBlank_of_isQuote hq] at hd
          cases hd
      · exact .string hs (ih hblanks rfl)

theorem trim (hS : Delimits S) (h : MadeOf S cs ss) : MadeOf S (trim cs) ss := by
  obtain ⟨blanks, hcs, hblanks⟩ := trimEnd_append_blanks (Text.trimStart cs)
  have hstart := h.trimStart hS
  rw [hcs] at hstart
  exact hstart.of_append_blanks hS hblanks

end MadeOf

/-! ## The text in front of a block -/

/-- What is taken behind an open quote goes on with the rest of its string. -/
def Continues (quote : Option (Char × Position)) (taken : List Char) : Prop :=
  match quote with
  | none => ∃ ss, MadeOf IsQuoted taken ss
  | some (q, _) => ∃ body rest ss, taken = body ++ rest
      ∧ Cursor.stringRest? q body = some (body, []) ∧ MadeOf IsQuoted rest ss

theorem continues_of_headFrom {depth : Nat} {quote : Option (Char × Position)} {p : Position}
    {cs taken : List Char} {after : Cursor}
    (h : Cursor.headFrom depth quote p cs = .ok (taken, after)) : Continues quote taken := by
  induction depth, quote, p, cs using Cursor.headFrom.induct generalizing taken with
  | case1 => cases h
  | case2 => cases h
  | case3 depth quote start p c cs ih =>
      rw [Cursor.headFrom] at h
      obtain ⟨⟨taken, last⟩, hrest, h⟩ := exists_of_bind_eq_ok h
      cases h
      obtain ⟨body, rest, ss, rfl, hbody, hss⟩ := ih hrest
      refine ⟨'\\' :: c :: body, rest, ss, rfl, ?_, hss⟩
      rw [Cursor.stringRest?, hbody]
      rfl
  | case4 depth quote start p c cs hescape ih =>
      rw [Cursor.headFrom] at h
      · obtain ⟨⟨taken, last⟩, hrest, h⟩ := exists_of_bind_eq_ok h
        cases h
        by_cases hc : c = quote
        · subst hc
          have hlater := ih hrest
          rw [if_pos rfl] at hlater
          obtain ⟨ss, hss⟩ := hlater
          refine ⟨[c], taken, ss, rfl, ?_, hss⟩
          rw [Cursor.stringRest?, if_pos rfl]
          rintro _ _ _ ⟨⟩
        · have hlater := ih hrest
          rw [if_neg hc] at hlater
          obtain ⟨body, rest, ss, rfl, hbody, hss⟩ := hlater
          refine ⟨c :: body, rest, ss, rfl, ?_, hss⟩
          rw [Cursor.stringRest?, if_neg hc, hbody]
          · rfl
          · -- nothing is taken behind a backslash at the end
            rintro d ds rfl -
            cases cs with
            | nil =>
                rw [if_neg hc, Cursor.headFrom] at hrest
                cases hrest
            | cons e cs => exact hescape e cs rfl rfl
      · assumption
  | case5 depth p c cs hbrace =>
      rw [Cursor.headFrom, if_pos hbrace] at h
      cases h
      exact ⟨[], .nil⟩
  | case6 depth p c cs hbrace hend =>
      rw [Cursor.headFrom, if_neg hbrace, if_pos hend] at h
      cases h
  | case7 depth p c cs hbrace hend depth' quote =>
      rename_i ih
      rw [Cursor.headFrom, if_neg hbrace, if_neg hend] at h
      obtain ⟨⟨taken, last⟩, hrest, h⟩ := exists_of_bind_eq_ok h
      cases h
      have hlater : Continues (if isQuote c = true then some (c, p) else none) taken := ih hrest
      by_cases hc : isQuote c = true
      · rw [if_pos hc] at hlater
        obtain ⟨body, rest, ss, rfl, hbody, hss⟩ := hlater
        exact ⟨(c :: body) :: ss, .string ⟨c, body, hc, rfl, hbody⟩ hss⟩
      · rw [if_neg hc] at hlater
        obtain ⟨ss, hss⟩ := hlater
        exact ⟨ss, .other (Bool.eq_false_iff.mpr hc) hss⟩

/-- **The text in front of a block is made of strings and other characters.** -/
theorem exists_strings_of_head {c after : Cursor} {head : List Char}
    (h : c.head = .ok (head, after)) : ∃ strings, MadeOf IsQuoted head strings := by
  obtain ⟨⟨taken, last⟩, htaken, h⟩ := exists_of_bind_eq_ok h
  cases h
  obtain ⟨strings, hstrings⟩ := continues_of_headFrom htaken
  exact ⟨strings, hstrings.trim delimits_isQuoted⟩

/-- Where the strings of a text are strings in another sense too, a text in front of it
    that leaves nothing open in one sense leaves nothing open in the other. -/
theorem Shut.transfer {S T : List Char → Prop} (hS : Delimits S) {top : Bool}
    {cs rest : List Char} {ss : List (List Char)} (h : Shut S top cs)
    (hss : MadeOf (fun s => S s ∧ T s) (cs ++ rest) ss) :
    Shut T top cs ∧ ∃ more, MadeOf (fun s => S s ∧ T s) rest more := by
  have hboth : Delimits fun s => S s ∧ T s :=
    ⟨fun s hs => hS.quotes s hs.1, fun s s' r r' hs hs' => hS.unique s s' r r' hs.1 hs'.1⟩
  induction h generalizing rest ss with
  | nil => exact ⟨.nil, ss, hss⟩
  | plain hc h ih =>
      obtain ⟨hcs, hmore⟩ := ih (hss.of_other hboth hc.quote)
      exact ⟨.plain hc hcs, hmore⟩
  | string hs h ih =>
      rw [List.append_assoc] at hss
      obtain ⟨hT, more, hss⟩ := hss.of_string hS hs
      obtain ⟨hcs, hmore⟩ := ih hss
      exact ⟨.string hT hcs, hmore⟩
  | @group top o c inner cs ho hinner hc h ihinner ih =>
      rw [List.cons_append, List.append_assoc] at hss
      have hbehind := hss.of_other hboth (Place.isQuote_of_isOpening ho)
      obtain ⟨hinner, more, hbehind⟩ := ihinner hbehind
      obtain ⟨hcs, hmore⟩ := ih (hbehind.of_other hboth (Place.isQuote_of_isClosing hc))
      exact ⟨.group ho hinner hc hcs, hmore⟩
  | stray hc h ih =>
      obtain ⟨hcs, hmore⟩ := ih (hss.of_other hboth (Place.isQuote_of_isClosing hc))
      exact ⟨.stray hc hcs, hmore⟩

/-- The two notions of strings agree on what is left open, where all strings are bare. -/
theorem shut_isQuoted_iff {head front back : List Char} {strings : List (List Char)}
    (hstrings : MadeOf IsQuoted head strings) (hbare : ∀ s ∈ strings, IsBare s)
    (hhead : head = front ++ back) : Shut IsBare true front ↔ Shut IsQuoted true front := by
  subst hhead
  have hboth := hstrings.and_of_mem hbare
  constructor
  · intro h
    have hswapped : MadeOf (fun s => IsBare s ∧ IsQuoted s) (front ++ back) strings := by
      simpa only [and_comm] using hboth
    exact (h.transfer delimits_isBare hswapped).1
  · intro h
    exact (h.transfer delimits_isQuoted hboth).1

/-- **WHERE A LIST OF SELECTORS IS CUT.**  For every text that is read in front of a
    block, cutting it loses nothing, and a comma is a cut exactly if what stands before it
    leaves nothing open, where a string ends at the next quote of its kind.  So if each
    string of the text, as it is read, ends there, the cuts are exactly the commas outside
    brackets and strings. -/
theorem head_cut_at_commas {c after : Cursor} {head : List Char}
    (h : c.head = .ok (head, after)) :
    [','].intercalate (splitTop ',' 0 none head) = head
      ∧ (∀ front back, head = front ++ ',' :: back →
          (CutBehind (splitTop ',' 0 none head) front ↔ Shut IsBare true front))
      ∧ (∃ strings, MadeOf IsQuoted head strings)
      ∧ ∀ strings, MadeOf IsQuoted head strings → (∀ s ∈ strings, IsBare s) →
          ∀ front back, head = front ++ ',' :: back →
            (CutBehind (splitTop ',' 0 none head) front ↔ Shut IsQuoted true front) := by
  have hcuts : ∀ front back, head = front ++ ',' :: back →
      (CutBehind (splitTop ',' 0 none head) front ↔ Shut IsBare true front) := by
    rintro front back rfl
    exact cutBehind_iff_shut front back
  refine ⟨intercalate_partsFrom .outside head, hcuts, exists_strings_of_head h, ?_⟩
  intro strings hstrings hbare front back hhead
  rw [hcuts front back hhead]
  exact shut_isQuoted_iff hstrings hbare hhead

/-- Two selectors, the first with a comma in parentheses and one in a string, behind an
    escaped backslash. -/
theorem head_cut_at_commas_of_two :
    let string := "\"\\\\,\"".toList
    let front := ":is(a,b)[c=".toList ++ (string ++ [']'])
    let head := front ++ ",d".toList
    (∃ after, (Cursor.ofText (head ++ "{w:1}".toList)).head = .ok (head, after))
      ∧ MadeOf IsQuoted head [string] ∧ IsBare string
      ∧ [','].intercalate (splitTop ',' 0 none head) = head
      ∧ CutBehind (splitTop ',' 0 none head) front ∧ Shut IsQuoted true front := by
  intro string front head
  have hread : (Cursor.ofText (head ++ "{w:1}".toList)).head =
      .ok (head, ⟨"{w:1}".toList, Position.start.after head⟩) := by rfl
  have hquoted : IsQuoted string := ⟨'"', "\\\\,\"".toList, rfl, rfl, rfl⟩
  have hbare : IsBare string := ⟨'"', "\\\\,".toList, rfl, by decide, rfl⟩
  have hstrings : MadeOf IsQuoted head [string] := by
    have hbehind : MadeOf IsQuoted "],d".toList [] := .other rfl (.other rfl (.other rfl .nil))
    have hfront : ":is(a,b)[c=".toList.any isQuote = false := by rfl
    have htext : head = ":is(a,b)[c=".toList ++ (string ++ "],d".toList) := by rfl
    rw [htext]
    exact MadeOf.of_others hfront (.string hquoted hbehind)
  have hcut : CutBehind (splitTop ',' 0 none head) front :=
    ⟨[front], ["d".toList], by simp, by simp, rfl, rfl⟩
  obtain ⟨hjoined, -, -, hcuts⟩ := head_cut_at_commas hread
  have hall : ∀ s ∈ [string], IsBare s := by
    intro s hs
    rwa [List.mem_singleton.mp hs]
  exact ⟨⟨_, hread⟩, hstrings, hbare, hjoined, hcut,
    (hcuts [string] hstrings hall front "d".toList rfl).mp hcut⟩

/-- **Not every comma outside is a cut**: behind a string that has its own quote escaped,
    the rest of the text is taken for a string, and the two selectors `[a="\""]` and `.b`
    stay one. -/
theorem comma_hidden_by_escaped_quote :
    let string := "\"\\\"\"".toList
    let front := "[a=".toList ++ (string ++ [']'])
    let head := front ++ ",.b".toList
    (∃ after, (Cursor.ofText (head ++ "{w:1}".toList)).head = .ok (head, after))
      ∧ IsQuoted string ∧ Shut IsQuoted true front
      ∧ splitTop ',' 0 none head = [head] ∧ ¬ CutBehind (splitTop ',' 0 none head) front := by
  intro string front head
  have hquoted : IsQuoted string := ⟨'"', "\\\"\"".toList, rfl, rfl, rfl⟩
  have hplain : ∀ c ∈ ['a', '='], IsPlain c := by
    intro c hc
    rcases List.mem_pair.mp hc with rfl | rfl
    · exact ⟨by decide, by decide, by decide⟩
    · exact ⟨by decide, by decide, by decide⟩
  have hstring : Shut IsQuoted false (string ++ []) := .string hquoted .nil
  have hinner : Shut IsQuoted false ("a=".toList ++ (string ++ [])) :=
    .plain (hplain 'a' (by simp)) (.plain (hplain '=' (by simp)) hstring)
  have hfront : Shut IsQuoted true ('[' :: ("a=".toList ++ (string ++ []) ++ ']' :: [])) :=
    .group (Or.inr rfl) hinner (Or.inr rfl) .nil
  have hone : splitTop ',' 0 none head = [head] := by rfl
  refine ⟨⟨_, rfl⟩, hquoted, hfront, hone, ?_⟩
  rintro ⟨before, behind, hbefore, hbehind, hparts, -⟩
  -- one part is not made of some and more
  have hlength := congrArg List.length hparts
  rw [hone, List.length_append, List.length_singleton] at hlength
  have hone := List.length_pos_of_ne_nil hbefore
  have htwo := List.length_pos_of_ne_nil hbehind
  omega

end Less.Parse
