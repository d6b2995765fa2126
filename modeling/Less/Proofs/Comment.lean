import Less.Proofs.ReadWritten
import Less.Proofs.Word

/-! # Comments in a value

    The readers pass over a comment like over a blank, whatever is in it.  But before a
    block reads an entry, it looks ahead for a brace or a semicolon to tell a
    declaration from a rule set, and this look ahead runs through comments as through
    any text: it knows quotes only.

    So a comment behind a value is transparent exactly if the look ahead through its
    text does not come to an opening brace first (`parse_ruleText_comment`).
    Otherwise the declaration is taken for the start of a nested rule set, and the
    sheet, if it is read at all, is another one. -/

namespace Less.Parse

open Less.Text Cursor

/-! ## Gaps with comments -/

/-- Blanks and comments up to a text that goes on with neither. -/
def IsTrivia (g : List Char) : Prop :=
  ∀ rest, Solid rest → trivia (g ++ rest) = (g, rest)

theorem isTrivia_space : IsTrivia [' '] :=
  fun _ hrest => trivia_gap gap_space hrest

/-- A comment ends at its first closing mark. -/
theorem blockComment_of_not_infix {c : List Char} (hc : ¬"*/".toList <:+: c) {rest : List Char}
    (hrest : Solid rest) : blockComment (c ++ '*' :: '/' :: rest) = (c ++ ['*', '/'], rest) := by
  induction c with
  | nil =>
      have hnone : trivia rest = ([], rest) := trivia_gap gap_nil hrest
      rw [List.nil_append, blockComment, hnone]
      rfl
  | cons d c ih =>
      have hlater : ¬"*/".toList <:+: c := fun h => hc (h.trans (List.suffix_cons d c).isInfix)
      have hmark : ∀ cs, d = '*' → c ++ '*' :: '/' :: rest = '/' :: cs → False := by
        rintro cs rfl heq
        cases c with
        | nil => cases heq
        | cons e c =>
            obtain rfl : e = '/' := (List.cons.inj heq).1
            exact hc (List.prefix_append ['*', '/'] c).isInfix
      rw [List.cons_append, blockComment.eq_3 _ _ hmark, ih hlater]
      rfl

/-- A comment with a space before it. -/
def comment (c : List Char) : List Char :=
  ' ' :: '/' :: '*' :: (c ++ ['*', '/'])

theorem isTrivia_comment {c : List Char} (hc : ¬"*/".toList <:+: c) : IsTrivia (comment c) := by
  intro rest hrest
  have htext : comment c ++ rest = ' ' :: '/' :: '*' :: (c ++ '*' :: '/' :: rest) := by
    simp [comment]
  have hblank : ∀ cs, trivia (' ' :: cs) = keep ' ' (trivia cs) := fun cs =>
    (trivia_cons (fun _ h => by cases h) (fun _ h => by cases h)).trans (if_pos isBlank_space)
  rw [htext, hblank, trivia_blockComment, blockComment_of_not_infix hc hrest]
  rfl

theorem endsValue_of_isTrivia {g : List Char} (hg : IsTrivia g) (rest : List Char) :
    EndsValue statementStops (g ++ ';' :: rest) (';' :: rest) := by
  intro n hn p
  obtain ⟨n, rfl⟩ := Nat.exists_eq_succ_of_ne_zero (Nat.ne_zero_of_lt hn)
  have htrivia : trivia (g ++ ';' :: rest) = (g, ';' :: rest) :=
    hg _ (solid_cons rfl (by decide) rest)
  rw [tokensFrom]
  simp only [htrivia]
  exact gives_ok ⟨rfl, rfl⟩

/-! ## One declaration in one rule set -/

/-- A declaration up to the end of its block; the gap stands behind the value. -/
def declarationText (property value gap : List Char) : List Char :=
  property ++ ':' :: ' ' :: (value ++ (gap ++ [';', ' ', '}']))

/-- A rule set with one declaration. -/
def ruleText (property value gap : List Char) : List Char :=
  '.' :: 'a' :: ' ' :: '{' :: ' ' :: declarationText property value gap

/-- The declaration that is written. -/
def writtenDeclaration (property value : List Char) : Declaration where
  property := String.ofList property
  values := [.literal (String.ofList value) none]

/-- The rule set that is written. -/
def writtenRuleSet (property value : List Char) : RuleSet where
  selectors := [⟨".a"⟩]
  params := none
  items := [.declaration (writtenDeclaration property value)]
  container := .empty
  position := none

/-- The look ahead at the declaration is that through the gap: a colon is seen already. -/
theorem entryKind_declarationText {property value : List Char} (hp : isWord property = true)
    (hv : isWord value = true) (gap : List Char) :
    entryKind false none (declarationText property value gap) =
      entryKind true none (gap ++ [';', ' ', '}']) := by
  have hcolon : Quiet [':', ' '] := List.all_eq_true.mp rfl
  have hquiet : Quiet (property ++ ([':', ' '] ++ value)) :=
    (quiet_of_isWord hp).append (hcolon.append (quiet_of_isWord hv))
  have htext : declarationText property value gap =
      (property ++ ([':', ' '] ++ value)) ++ (gap ++ [';', ' ', '}']) := by
    simp [declarationText]
  rw [htext, entryKind_quiet hquiet]
  congr 1
  simp

variable {property value gap : List Char}

theorem exists_cons_declarationText (hp : isWord property = true) (value gap : List Char) :
    ∃ ch tail, declarationText property value gap = ch :: tail ∧ isNameChar ch = true := by
  obtain ⟨ch, cs, rfl⟩ := List.exists_cons_of_ne_nil (ne_nil_of_isWord hp)
  exact ⟨ch, _, rfl, isNameChar_of_isWord hp ch List.mem_cons_self⟩

/-- The gap is passed, and the value ends before it. -/
structure IsGap (gap : List Char) : Prop where
  trivia : IsTrivia gap
  endsWord : EndsWord (gap ++ [';', ' ', '}'])

theorem gives_declarationText (hp : isWord property = true) (hv : isWord value = true)
    (hgap : IsGap gap) (p : Position) :
    Gives (declaration ⟨declarationText property value gap, p⟩) [' ', '}']
      (SameDeclaration (writtenDeclaration property value)) := by
  have htight := tight_of_isWord hp
  have hstops : IsStops statementStops := fun c hc => List.mem_append_left _ hc
  have hword := readsAs_word hstops (w := String.ofList value) (by rwa [String.toList_ofList])
    hgap.endsWord true 0
  rw [String.toList_ofList] at hword
  have hspells : ReadsAs statementStops 0 0 (' ' :: value) (gap ++ [';', ' ', '}'])
      (Spells 1 true (.literal (String.ofList value) none)) := by
    refine hword.imp ?_
    rintro ts ⟨q, rfl⟩
    exact (spells_word _ none q).of_le (by decide)
  rw [declarationText, declaration, takeWhile_property (isNameChar_of_isWord hp)]
  simp only [trim_of_tight htight]
  rw [if_neg htight.ne_nil, skipTrivia_solid (solid_cons rfl (by decide) _), expect_eq]
  have hvalue := value_of_readsAs hspells (endsValue_of_isTrivia hgap.trivia [' ', '}'])
  refine (hvalue _).bind fun found q hfound => ?_
  obtain ⟨himportant, item, hitems, hitem⟩ := hfound
  refine gives_ok ?_
  show Declaration.withoutPositions ⟨_, _, _, _⟩ = _
  rw [himportant, hitems, Declaration.withoutPositions, List.map_singleton, hitem]
  rfl

/-- **Where the look ahead tells a declaration**, the block holds the declaration. -/
theorem gives_block_text (hp : isWord property = true) (hv : isWord value = true)
    (hgap : IsGap gap) (hkind : entryKind true none (gap ++ [';', ' ', '}']) = some .declaration)
    (p : Position) :
    Gives (block ⟨' ' :: declarationText property value gap, p⟩) [] fun b =>
      b.items.map Item.withoutPositions = (writtenRuleSet property value).items
        ∧ b.container = .empty := by
  rw [← entryKind_declarationText hp hv] at hkind
  have hdeclaration := gives_declarationText hp hv hgap (p.after [' '])
  obtain ⟨ch, tail, hcons, hch⟩ := exists_cons_declarationText hp value gap
  rw [hcons] at hkind hdeclaration ⊢
  have hentries : Gives (entries (tail.length + 3) true ⟨[' '] ++ ch :: tail, p⟩) []
      fun es => List.Forall₂ IsDeclaration [writtenDeclaration property value] es := by
    rw [entries_of_name gap_space hch]
    simp only [hkind]
    refine hdeclaration.bind fun d q hd => ?_
    have hdone := gives_entries_done gap_space [] (tail.length + 1) true q
    refine hdone.bind fun es q' hes => ?_
    subst hes
    exact gives_ok (.cons ⟨d, rfl, hd⟩ .nil)
  exact hentries.bind fun es q hes => gives_ok (ofEntries_declarations hes)

/-- The rule set is read up to its block. -/
theorem statement_rule (body : List Char) (p : Position) :
    ∃ q, statement ⟨'.' :: 'a' :: ' ' :: '{' :: body, p⟩ = (do
      let (b, after) ← block ⟨body, q⟩
      return (.element (.ruleSet ⟨[⟨".a"⟩], none, b.items, b.container, some p⟩), after)) := by
  have hdefinition : mixinDefinitionAhead ('.' :: 'a' :: ' ' :: '{' :: body) = false :=
    (no_mixin_ahead (s := ['.', 'a']) rfl gap_space (Or.inr rfl) body).1
  have hcall : mixinCallAhead ('.' :: 'a' :: ' ' :: '{' :: body) = false :=
    (no_mixin_ahead (s := ['.', 'a']) rfl gap_space (Or.inr rfl) body).2
  have hquiet : Quiet ['.', 'a', ' '] := List.all_eq_true.mp rfl
  obtain ⟨q, hhead⟩ := headFrom_quiet hquiet body p
  have hrule : ruleSet block ⟨'.' :: 'a' :: ' ' :: '{' :: body, p⟩ = (do
      let (b, after) ← block ⟨body, q.advance '{'⟩
      return (⟨[⟨".a"⟩], none, b.items, b.container, some p⟩, after)) := by
    have hbrace : head ⟨'.' :: 'a' :: ' ' :: '{' :: body, p⟩ =
        .ok (['.', 'a'], ⟨'{' :: body, q⟩) := by
      show (headFrom 0 none p (['.', 'a', ' '] ++ '{' :: body) >>= _) = _
      rw [hhead]
      rfl
    rw [ruleSet, hbrace]
    rfl
  refine ⟨q.advance '{', ?_⟩
  rw [statement, if_neg (by simp [peek?])]
  simp only [hdefinition, hcall, Bool.false_eq_true, if_false]
  rw [hrule]
  cases block ⟨body, q.advance '{'⟩ with
  | error f => rfl
  | ok b => rfl

/-! ## The sheet -/

/-- The first statement is read, then the statements behind it. -/
theorem statementsFrom_rule (n : Nat) (body : List Char) (p : Position) :
    statementsFrom (n + 1) ⟨'.' :: body, p⟩ =
      match statement ⟨'.' :: body, p⟩ with
      | .error f => ([], some f)
      | .ok (s, after) => (s :: (statementsFrom n after).1, (statementsFrom n after).2) := by
  rw [statementsFrom, skipTrivia_solid (solid_cons rfl (by decide) body)]
  exact if_neg (List.cons_ne_nil _ _)

/-- **Where the look ahead tells a declaration**, the sheet is the rule set that is
    written. -/
theorem parse_of_declaration (hp : isWord property = true) (hv : isWord value = true)
    (hgap : IsGap gap) (hkind : entryKind true none (gap ++ [';', ' ', '}']) = some .declaration) :
    ∃ sheet, Sheet.parse (ruleText property value gap) = .ok sheet
      ∧ sheet.withoutPositions =
        { container := ⟨.empty, [.ruleSet (writtenRuleSet property value)]⟩ } := by
  obtain ⟨q, hstatement⟩ := statement_rule (' ' :: declarationText property value gap) .start
  obtain ⟨b, last, hblock, hitems, hcontainer⟩ := gives_block_text hp hv hgap hkind q
  rw [hblock] at hstatement
  have hstatements : statements (ruleText property value gap) =
      ([.element (.ruleSet ⟨[⟨".a"⟩], none, b.items, b.container, some .start⟩)], none) := by
    rw [statements, ruleText, ofText, statementsFrom_rule, hstatement]
    rfl
  refine ⟨_, by rw [Sheet.parse, hstatements], ?_⟩
  have hsame : IsElement (.ruleSet (writtenRuleSet property value))
      (.element (.ruleSet ⟨[⟨".a"⟩], none, b.items, b.container, some .start⟩)) := by
    refine ⟨_, rfl, ?_⟩
    rw [SameElement, Element.ruleSet_withoutPositions, Element.ruleSet_withoutPositions, hitems,
      hcontainer]
    rfl
  rw [perform_elements (.cons hsame .nil)]
  rfl

/-- Elements are added behind those that a sheet has. -/
theorem prefix_foldl_perform (ss : List Statement) (sheet : Sheet) :
    sheet.container.body <+: (ss.foldl Sheet.perform sheet).container.body := by
  induction ss generalizing sheet with
  | nil => exact List.prefix_refl _
  | cons s ss ih =>
      refine List.IsPrefix.trans ?_ (ih (sheet.perform s))
      cases s with
      | element e => exact List.prefix_append _ [e]
      | charset | cssImport | fileImport | «variable» => exact List.prefix_refl _

/-- Elements are added behind those that a block has. -/
theorem prefix_foldl_add (es : List Entry) (b : Block) :
    b.container.body <+: (es.foldl Block.add b).container.body := by
  induction es generalizing b with
  | nil => exact List.prefix_refl _
  | cons e es ih =>
      refine List.IsPrefix.trans ?_ (ih (b.add e))
      cases e with
      | element e => exact List.prefix_append _ [e]
      | item | «variable» => exact List.prefix_refl _

/-- **Where the look ahead tells a rule set**, the block that is read holds one. -/
theorem body_ne_nil_of_ruleSet (hp : isWord property = true) (hv : isWord value = true)
    (hkind : entryKind true none (gap ++ [';', ' ', '}']) = some .ruleSet) {p : Position}
    {b : Block} {after : Cursor}
    (hread : block ⟨' ' :: declarationText property value gap, p⟩ = .ok (b, after)) :
    b.container.body ≠ [] := by
  rw [← entryKind_declarationText hp hv] at hkind
  obtain ⟨ch, tail, hcons, hch⟩ := exists_cons_declarationText hp value gap
  rw [hcons] at hkind hread
  obtain ⟨⟨es, c⟩, hentries, hb⟩ := exists_of_bind_eq_ok hread
  rw [show (⟨' ' :: ch :: tail, p⟩ : Cursor) = ⟨[' '] ++ ch :: tail, p⟩ from rfl,
    entries_of_name gap_space hch] at hentries
  simp only [hkind, if_true] at hentries
  obtain ⟨⟨r, c'⟩, -, hentries⟩ := exists_of_bind_eq_ok hentries
  obtain ⟨⟨more, c''⟩, -, hentries⟩ := exists_of_bind_eq_ok hentries
  cases hentries
  cases hb
  have hprefix : [Element.ruleSet r] <+:
      (Block.ofEntries (.element (.ruleSet r) :: more)).container.body :=
    prefix_foldl_add more (Block.add {} (.element (.ruleSet r)))
  intro hnil
  rw [hnil, List.prefix_nil] at hprefix
  cases hprefix

/-- The elements of a sheet that is read start with that of its first statement. -/
theorem exists_cons_of_parse {body : List Char} {sheet : Sheet}
    (hread : Sheet.parse ('.' :: body) = .ok sheet) :
    ∃ s after, statement ⟨'.' :: body, .start⟩ = .ok (s, after)
      ∧ (Sheet.perform .empty s).container.body <+: sheet.container.body := by
  rw [Sheet.parse, statements, ofText, statementsFrom_rule] at hread
  cases hstatement : statement ⟨'.' :: body, .start⟩ with
  | error f =>
      rw [hstatement] at hread
      cases hread
  | ok found =>
      obtain ⟨s, after⟩ := found
      rw [hstatement] at hread
      refine ⟨s, after, rfl, ?_⟩
      simp only at hread
      split at hread
      · cases hread
      · rename_i ss hss
        cases hread
        rw [← (Prod.mk.inj hss).1]
        exact prefix_foldl_perform _ (Sheet.perform .empty s)

/-- **Where the look ahead tells a rule set**, the sheet is not the rule set that is
    written. -/
theorem parse_of_ruleSet (hp : isWord property = true) (hv : isWord value = true)
    (hkind : entryKind true none (gap ++ [';', ' ', '}']) = some .ruleSet) {sheet : Sheet}
    (hread : Sheet.parse (ruleText property value gap) = .ok sheet) :
    sheet.withoutPositions ≠
      { container := ⟨.empty, [.ruleSet (writtenRuleSet property value)]⟩ } := by
  obtain ⟨q, hstatement⟩ := statement_rule (' ' :: declarationText property value gap) .start
  obtain ⟨s, after, hs, more, hmore⟩ := exists_cons_of_parse hread
  rw [hstatement] at hs
  obtain ⟨⟨b, after⟩, hblock, hs⟩ := exists_of_bind_eq_ok hs
  cases hs
  have hbody := body_ne_nil_of_ruleSet hp hv hkind hblock
  intro hsame
  have helements : elementsWithoutPositions sheet.container.body =
      [.ruleSet (writtenRuleSet property value)] :=
    congrArg (fun sheet : Sheet => sheet.container.body) hsame
  rw [← hmore] at helements
  have hfirst := (List.cons.inj helements).1
  rw [Element.ruleSet_withoutPositions] at hfirst
  have hnil : elementsWithoutPositions b.container.body = [] :=
    congrArg (fun r : RuleSet => r.container.body) (Element.ruleSet.inj hfirst)
  rw [elementsWithoutPositions_eq_map, List.map_eq_nil_iff] at hnil
  exact hbody hnil

/-! ## Comments -/

/-- A comment that is closed, and the end of a declaration. -/
def commentEnd : List Char :=
  ['*', '/', ';', ' ', '}']

theorem entryKind_commentEnd {quote : Option Char} (hquote : OpenedByQuote quote) :
    entryKind true quote commentEnd = some .declaration := by
  cases quote with
  | none => rfl
  | some q =>
      have hq := hquote q rfl
      rw [isQuote, Bool.or_eq_true, beq_iff_eq, beq_iff_eq] at hq
      rcases hq with rfl | rfl <;> rfl

/-- The look ahead comes out of a comment, or stays in a string that it took the comment
    to open: either way it has seen no brace, and tells a declaration. -/
theorem entryKind_append_commentEnd {colon : Bool} {quote : Option Char} {c : List Char}
    (hcolon : colon = true) (hquote : OpenedByQuote quote) :
    entryKind colon quote (c ++ commentEnd) =
      if entryKind colon quote c = some .ruleSet then some .ruleSet else some .declaration := by
  fun_induction entryKind colon quote c with
  | case1 quote => exact entryKind_commentEnd hquote
  | case2 _ _ h => exact absurd hcolon h
  | case3 colon q d cs ih => exact ih hcolon hquote
  | case4 colon q d cs hpair ih =>
      by_cases hslash : d = '\\' ∧ cs = []
      · -- the backslash takes the star of the mark with it
        obtain ⟨rfl, rfl⟩ := hslash
        subst hcolon
        have hq := hquote q rfl
        rw [isQuote, Bool.or_eq_true, beq_iff_eq, beq_iff_eq] at hq
        rcases hq with rfl | rfl <;> rfl
      · have hpair' : ∀ e es, d = '\\' → cs ++ commentEnd = e :: es → False := by
          rintro e es rfl heq
          cases cs with
          | nil => exact hslash ⟨rfl, rfl⟩
          | cons e' cs => exact hpair _ _ rfl rfl
        rw [List.cons_append, entryKind.eq_3 _ _ _ _ hpair']
        exact ih hcolon (hquote.next d)
  | case5 => rfl
  | case6 => rfl
  | case7 => rfl
  | case8 _ _ h => exact absurd hcolon h
  | case9 colon d cs hopen hsemicolon hclose hd ih =>
      rw [List.cons_append, entryKind, if_neg hopen, if_neg hsemicolon, if_neg hclose, if_pos hd]
      exact ih hcolon (openedByQuote_some hd)
  | case10 colon d cs hopen hsemicolon hclose hd ih =>
      rw [List.cons_append, entryKind, if_neg hopen, if_neg hsemicolon, if_neg hclose, if_neg hd]
      exact ih (by rw [hcolon]; rfl) openedByQuote_none

theorem entryKind_comment (c : List Char) :
    entryKind true none (comment c ++ [';', ' ', '}']) =
      if entryKind true none c = some .ruleSet then some .ruleSet else some .declaration := by
  have htext : comment c ++ [';', ' ', '}'] = ' ' :: '/' :: '*' :: (c ++ commentEnd) := by
    simp [comment, commentEnd]
  rw [htext]
  exact entryKind_append_commentEnd rfl openedByQuote_none

theorem isGap_comment {c : List Char} (hc : ¬"*/".toList <:+: c) : IsGap (comment c) :=
  ⟨isTrivia_comment hc, rfl, by simp [comment]⟩

theorem isGap_space : IsGap [' '] :=
  ⟨isTrivia_space, rfl, by simp⟩

/-- **WHEN A COMMENT IS TRANSPARENT.**  A rule set with one declaration is read as that
    rule set.  With a comment behind the value it is read as the same rule set, up to
    positions, if and only if the text of the comment has no opening brace before the
    first semicolon or closing brace, strings left out. -/
theorem parse_ruleText_comment {c : List Char} (hp : isWord property = true)
    (hv : isWord value = true) (hc : ¬"*/".toList <:+: c) :
    ∃ sheet, Sheet.parse (ruleText property value [' ']) = .ok sheet
      ∧ sheet.withoutPositions =
        { container := ⟨.empty, [.ruleSet (writtenRuleSet property value)]⟩ }
      ∧ ((∃ sheet', Sheet.parse (ruleText property value (comment c)) = .ok sheet'
          ∧ sheet'.withoutPositions = sheet.withoutPositions)
        ↔ entryKind true none c ≠ some .ruleSet) := by
  obtain ⟨sheet, hread, hsheet⟩ := parse_of_declaration hp hv isGap_space rfl
  refine ⟨sheet, hread, hsheet, ?_⟩
  rw [hsheet]
  have hkind := entryKind_comment c
  constructor
  · rintro ⟨sheet', hread', hsame⟩ hbrace
    rw [if_pos hbrace] at hkind
    exact parse_of_ruleSet hp hv hkind hread' hsame
  · intro hbrace
    rw [if_neg hbrace] at hkind
    exact parse_of_declaration hp hv (isGap_comment hc) hkind

/-- Marks in a comment do no harm where a closing brace or a string comes before the
    opening brace. -/
theorem parse_ruleText_comment_of_marks :
    let marks := "': \x7b;' // \x7d\x7b".toList
    isWord "border-top".toList = true ∧ isWord "größe".toList = true
      ∧ ¬"*/".toList <:+: marks ∧ ∃ sheet sheet',
        Sheet.parse (ruleText "border-top".toList "größe".toList [' ']) = .ok sheet
          ∧ Sheet.parse (ruleText "border-top".toList "größe".toList (comment marks)) = .ok sheet'
          ∧ sheet'.withoutPositions = sheet.withoutPositions := by
  intro marks
  have hp : isWord "border-top".toList = true := by decide +kernel
  have hv : isWord "größe".toList = true := by decide +kernel
  have hmarks : ¬"*/".toList <:+: marks := by decide +kernel
  obtain ⟨sheet, hread, -, hiff⟩ := parse_ruleText_comment hp hv hmarks
  obtain ⟨sheet', hread', hsame⟩ := hiff.mpr (by decide +kernel)
  exact ⟨hp, hv, hmarks, sheet, sheet', hread, hread', hsame⟩

/-- **An opening brace in a comment is taken for that of a block**: the declaration is
    refused. -/
theorem comment_with_brace_is_refused :
    ruleText ['p'] ['v'] [' '] = ".a \x7b p: v ; \x7d".toList
      ∧ ruleText ['p'] ['v'] (comment ['{']) = ".a \x7b p: v /*\x7b*/; \x7d".toList
      ∧ (Sheet.parse (ruleText ['p'] ['v'] [' '])).isOk = true
      ∧ (Sheet.parse (ruleText ['p'] ['v'] (comment ['{']))).isOk = false :=
  ⟨rfl, rfl, by decide +kernel, by decide +kernel⟩

end Less.Parse
