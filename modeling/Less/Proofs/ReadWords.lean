import Less.Parse.Block
import Less.Proofs.Written

/-! # Reading words

    A value that is written as words is read as the literals of these words
    (`gives_value`): first as tokens, with `!important` taken out, then as the
    items of a list.  The positions that a reader passes along decide nothing, so
    that a step is described by the text it leaves and by what it has read
    (`Gives`). -/

namespace Less.Parse

open Less.Text

variable {α β : Type} {rest : List Char}

/-- The reader gives a result with `P` and leaves the text `rest`. -/
def Gives (x : Except Fault (Parsed α)) (rest : List Char) (P : α → Prop) : Prop :=
  ∃ a p, x = .ok (a, ⟨rest, p⟩) ∧ P a

theorem Gives.bind {x : Except Fault (Parsed α)} {f : Parsed α → Except Fault (Parsed β)}
    {P : α → Prop} {Q : β → Prop} {last : List Char} (hx : Gives x rest P)
    (hf : ∀ a p, P a → Gives (f (a, ⟨rest, p⟩)) last Q) : Gives (x >>= f) last Q := by
  obtain ⟨a, p, rfl, ha⟩ := hx
  exact hf a p ha

/-- What comes from two steps comes from a result of the first one. -/
theorem exists_of_bind_eq_ok {ε : Type} {x : Except ε α} {f : α → Except ε β} {b : β}
    (h : x >>= f = .ok b) : ∃ a, x = .ok a ∧ f a = .ok b := by
  cases x with
  | error e => cases h
  | ok a => exact ⟨a, rfl, h⟩

theorem eq_ok_of_toOption {ε : Type} {x : Except ε α} {a : α} (h : x.toOption = some a) :
    x = .ok a := by
  cases x with
  | error e => cases h
  | ok b => exact congrArg Except.ok (Option.some.inj h)

theorem gives_ok {a : α} {p : Position} {P : α → Prop} (ha : P a) :
    Gives (.ok (a, ⟨rest, p⟩)) rest P :=
  ⟨a, p, rfl, ha⟩

/-! ## Cursors -/

namespace Cursor

/-- Blanks and comments end with a gap. -/
theorem skipTrivia_gap {g : List Char} (hg : Gap g) (hrest : Solid rest) (p : Position) :
    skipTrivia ⟨g ++ rest, p⟩ = ⟨rest, p.after g⟩ := by
  show move _ (trivia (g ++ rest)) = _
  rw [trivia_gap hg hrest]
  rfl

theorem skipTrivia_solid (hrest : Solid rest) (p : Position) : skipTrivia ⟨rest, p⟩ = ⟨rest, p⟩ :=
  skipTrivia_gap gap_nil hrest p

theorem name_eq {w : List Char} (hw : isIdentifier w = true)
    (hrest : nextIs isNameChar rest = false) (p : Position) :
    Cursor.name ⟨w ++ rest, p⟩ = (String.ofList w, ⟨rest, p.after w⟩) := by
  show (String.ofList (Parse.name (w ++ rest)).1, move _ (Parse.name (w ++ rest))) = _
  rw [name_identifier hw hrest]
  rfl

theorem expect_eq (ch : Char) (cs : List Char) (p : Position) :
    expect ⟨ch :: cs, p⟩ ch = .ok ⟨cs, p.advance ch⟩ := by
  show (if ch = ch then Except.ok _ else _) = _
  rw [if_pos rfl]
  rfl

/-! ## Tokens -/

/-- The text ends a word, and starts no call. -/
structure EndsWord (rest : List Char) : Prop where
  name : nextIs isNameChar rest = false
  call : rest.head? ≠ some '('

theorem not_mem_of_isAlpha {ch : Char} (h : ch.isAlpha = true) {marks : List Char}
    (hmarks : marks.any Char.isAlpha = false) : ch ∉ marks :=
  fun hmem => List.any_eq_false.mp hmarks ch hmem h

/-- A letter of ASCII starts a word. -/
theorem tokenAt_of_isAlpha {ch : Char} (h : ch.isAlpha = true) (c : Cursor) (next : List Char) :
    tokenAt c ch next = c.word := by
  have hne : ∀ d : Char, d.isAlpha = false → (ch == d) = false := fun d hd =>
    beq_eq_false_iff_ne.mpr (ne_of_isAlpha h d hd)
  have hstart : isNameStart ch = true := by
    rw [isNameStart, isLetter_of_isAlpha h]
    rfl
  have hquote : isQuote ch = false := by
    rw [isQuote, hne _ rfl, hne _ rfl]
    rfl
  rw [tokenAt]
  -- none of the marks that are tried before comes next
  simp only [isDigit_of_isAlpha h, hne '.' rfl, hne '#' rfl, hne '@' rfl, hquote, hne '~' rfl,
    hne '%' rfl, hne '(' rfl, hne ')' rfl, hne ',' rfl, hne '+' rfl, hne '*' rfl, hne '/' rfl,
    hne '-' rfl, hstart, Bool.false_and, Bool.or_false, Bool.false_eq_true, if_false, if_true]

theorem word_eq {w : List Char} (hw : isIdentifier w = true) (hrest : EndsWord rest)
    (p : Position) :
    word ⟨w ++ rest, p⟩ = .ok (.word (String.ofList w), ⟨rest, p.after w⟩) := by
  rw [word, name_eq hw hrest.name]
  exact if_pos hrest.call

/-- **A token behind a gap is read**, then the tokens behind it. -/
theorem gives_tokensFrom_token {stops : List Char} {n depth inner : Nat} {g cs last : List Char}
    {ch : Char} {kind : TokenKind} {P : Tokens → Prop}
    (htrivia : trivia (g ++ ch :: cs) = (g, ch :: cs)) (hstop : depth = 0 → ch ∉ stops)
    (hmark : ch ∉ ['{', '}', '!'])
    (htoken : ∀ p, ∃ q, tokenAt ⟨ch :: cs, p⟩ ch cs = .ok (kind, ⟨rest, q⟩))
    (hnesting : nesting? depth kind = some inner)
    (hlater : ∀ p, Gives (tokensFrom stops n inner ⟨rest, p⟩) last P) (p : Position) :
    Gives (tokensFrom stops (n + 1) depth ⟨g ++ ch :: cs, p⟩) last
      fun ts => ∃ q more, P more ∧
        ts = { more with list := ⟨kind, q, !g.isEmpty⟩ :: more.list } := by
  simp only [List.mem_cons, List.not_mem_nil, or_false, not_or] at hmark
  obtain ⟨hopen, hclose, hbang⟩ := hmark
  rw [tokensFrom]
  simp only [htrivia]
  show Gives (if _ then _ else _) _ _
  rw [if_neg fun h => hstop h.1 (List.contains_iff_mem.mp h.2), if_neg fun h => h.elim hopen hclose,
    if_neg hbang]
  obtain ⟨q, hq⟩ := htoken (p.after g)
  have hkind : Gives (tokenAt ⟨ch :: cs, p.after g⟩ ch cs) rest (· = kind) := ⟨kind, q, hq, rfl⟩
  refine hkind.bind fun found q hfound => ?_
  subst hfound
  simp only [hnesting]
  refine (hlater q).bind fun more q' hmore => ?_
  exact gives_ok ⟨_, more, hmore, rfl⟩

/-- A word is read as a token, then the tokens behind it. -/
theorem gives_tokensFrom_word {g w last : List Char} (hg : Gap g) (hw : isIdentifier w = true)
    (hrest : EndsWord rest) {n : Nat} {P : Tokens → Prop}
    (hlater : ∀ p, Gives (tokensFrom statementStops n 0 ⟨rest, p⟩) last P) (p : Position) :
    Gives (tokensFrom statementStops (n + 1) 0 ⟨g ++ (w ++ rest), p⟩) last
      fun ts => ∃ q more, P more ∧
        ts = { more with list := ⟨.word (String.ofList w), q, !g.isEmpty⟩ :: more.list } := by
  obtain ⟨ch, cs, rfl, hch⟩ := exists_cons_of_isIdentifier hw
  refine gives_tokensFrom_token (trivia_gap hg (solid_of_isAlpha hch (cs ++ rest)))
    (fun _ => not_mem_of_isAlpha hch rfl) (not_mem_of_isAlpha hch rfl) (fun q => ?_) rfl hlater p
  rw [tokenAt_of_isAlpha hch]
  exact ⟨_, word_eq hw hrest q⟩

/-- A stop ends the tokens. -/
theorem gives_tokensFrom_stop {stops : List Char} {t : Char} (ht : t = ';' ∨ t = '}')
    (hstop : t ∈ stops) (cs : List Char) (n : Nat) (p : Position) :
    Gives (tokensFrom stops (n + 1) 0 ⟨t :: cs, p⟩) (t :: cs)
      fun ts => ts.list = [] ∧ ts.important = false := by
  have hsolid : Solid (t :: cs) := by
    rcases ht with rfl | rfl
    · exact solid_cons rfl (by decide) cs
    · exact solid_cons rfl (by decide) cs
  have htrivia : trivia (t :: cs) = ([], t :: cs) := trivia_gap gap_nil hsolid
  rw [tokensFrom]
  simp only [htrivia]
  show Gives (if _ then _ else _) _ _
  rw [if_pos ⟨trivial, List.contains_iff_mem.mpr hstop⟩]
  exact gives_ok ⟨rfl, rfl⟩

theorem mem_statementStops {t : Char} (ht : t = ';' ∨ t = '}') : t ∈ statementStops := by
  rcases ht with rfl | rfl
  · decide
  · decide

/-- A mark behind a gap ends a word. -/
theorem endsWord_gap {g : List Char} (hg : Gap g) {t : Char} (ht : isNameChar t = false)
    (hparen : t ≠ '(') (cs : List Char) : EndsWord (g ++ t :: cs) := by
  refine ⟨nextIs_gap hg ht cs, ?_⟩
  cases g with
  | nil => exact fun h => hparen (Option.some.inj h)
  | cons c g =>
      have hne : c ≠ '(' := ne_of_test (hg c List.mem_cons_self) (by decide)
      exact fun h => hne (Option.some.inj h)

/-- `!important` is no token. -/
theorem gives_tokensFrom_important {g : List Char} (hg : Gap g) {t : Char}
    (ht : t = ';' ∨ t = '}') (cs : List Char) (n : Nat) (p : Position) :
    Gives (tokensFrom statementStops (n + 2) 0 ⟨g ++ ("!important".toList ++ t :: cs), p⟩) (t :: cs)
      fun ts => ts.list = [] ∧ ts.important = true := by
  have hmark : "!important".toList ++ t :: cs = '!' :: ("important".toList ++ t :: cs) := rfl
  have hsolid : Solid ('!' :: ("important".toList ++ t :: cs)) :=
    solid_cons rfl (by decide) _
  have hname : isNameChar t = false := by
    rcases ht with rfl | rfl
    · rfl
    · rfl
  have hword : startsWithWord "important".toList ("important".toList ++ t :: cs) = true := by
    rw [startsWithWord, List.drop_left, show nextIs isNameChar (t :: cs) = false from hname,
      List.isPrefixOf_iff_prefix.mpr (List.prefix_append _ _)]
    rfl
  rw [hmark, tokensFrom]
  simp only [trivia_gap hg hsolid]
  show Gives (if _ then _ else _) _ _
  rw [if_neg (by rintro ⟨-, h⟩; revert h; decide), if_neg (by decide), if_pos rfl]
  show Gives (if startsWithWord "important".toList ("important".toList ++ t :: cs) = true then _
    else _) _ _
  rw [if_pos hword]
  exact (gives_tokensFrom_stop ht (mem_statementStops ht) cs n _).bind fun ts q hts =>
    gives_ok ⟨hts.1, rfl⟩

/-- The end of a value: `!important`, if it is, and a stop. -/
structure EndOfValue (important : Bool) (last rest : List Char) : Prop where
  length_pos : 0 < rest.length
  endsWord : EndsWord rest
  gives : ∀ n p, Gives (tokensFrom statementStops (n + 2) 0 ⟨rest, p⟩) last
    fun ts => ts.list = [] ∧ ts.important = important

theorem endOfValue (d : Declaration) {g : List Char} (hg : Gap g) {t : Char}
    (ht : t = ';' ∨ t = '}') (cs : List Char) :
    EndOfValue d.important (t :: cs) (Written.importance d g ++ t :: cs) := by
  have hname : isNameChar t = false ∧ t ≠ '(' := by
    rcases ht with rfl | rfl
    · exact ⟨rfl, by decide⟩
    · exact ⟨rfl, by decide⟩
  have hlength : 0 < (Written.importance d g ++ t :: cs).length := by
    rw [List.length_append, List.length_cons]
    omega
  rw [Written.importance] at hlength ⊢
  cases himportant : d.important with
  | true =>
      rw [himportant, if_pos rfl, List.append_assoc] at hlength
      rw [if_pos rfl, List.append_assoc]
      exact ⟨hlength, endsWord_gap hg rfl (by decide) _,
        fun n p => gives_tokensFrom_important hg ht cs n p⟩
  | false =>
      rw [if_neg (by decide)]
      exact ⟨Nat.succ_pos _, endsWord_gap gap_nil hname.1 hname.2 cs,
        fun n p => gives_tokensFrom_stop ht (mem_statementStops ht) cs (n + 1) p⟩

/-- The token is the word, with blanks before it. -/
def IsSpacedWord (w : String) (t : Token) : Prop :=
  t.kind = .word w ∧ t.spaced = true

/-- **Words are read as the tokens of these words.** -/
theorem gives_tokensFrom_words {important : Bool} {last rest : List Char}
    (hrest : EndOfValue important last rest) :
    ∀ {words : List String}, (∀ w ∈ words, isIdentifier w.toList = true) →
      EndsWord (spacedWords words ++ rest) ∧ ∀ n p,
        Gives (tokensFrom statementStops (n + words.length + 2) 0 ⟨spacedWords words ++ rest, p⟩)
          last fun ts => List.Forall₂ IsSpacedWord words ts.list ∧ ts.important = important := by
  intro words
  induction words with
  | nil =>
      intro _
      refine ⟨hrest.endsWord, fun n p => ?_⟩
      obtain ⟨ts, q, hts, hlist, himportant⟩ := hrest.gives n p
      exact ⟨ts, q, hts, hlist ▸ .nil, himportant⟩
  | cons w words ih =>
      intro hwords
      obtain ⟨hw, hwords⟩ := List.forall_mem_cons.mp hwords
      obtain ⟨hends, hlater⟩ := ih hwords
      have hsplit : spacedWords (w :: words) ++ rest =
          [' '] ++ (w.toList ++ (spacedWords words ++ rest)) := by
        rw [spacedWords, List.flatMap_cons, List.append_assoc]
        rfl
      rw [hsplit]
      refine ⟨endsWord_gap gap_nil rfl (by decide) _, fun n p => ?_⟩
      obtain ⟨ts, q, hts, place, more, hmore, rfl⟩ :=
        gives_tokensFrom_word gap_space hw hends (hlater n) p
      refine ⟨_, q, hts, .cons ⟨?_, rfl⟩ hmore.1, hmore.2⟩
      show TokenKind.word (String.ofList w.toList) = .word w
      rw [String.ofList_toList]

end Cursor

/-! ## Values -/

/-- A word before words is an operand by itself. -/
theorem sum_word {last : Position} {inner arguments : List Token → Except Fault (Rest (List Expr))}
    {w : String} {t : Token} (ht : t.kind = .word w) {ts : List Token}
    (hts : ∀ t' ts', ts = t' :: ts' → ∃ w', t'.kind = .word w') :
    sum last (operand last inner arguments) 0 (t :: ts) =
      .ok (.literal w (some t.position), ts) := by
  obtain ⟨kind, p, spaced⟩ := t
  cases ht
  have hsigned : signed (operand last inner arguments) (⟨.word w, p, spaced⟩ :: ts) =
      .ok (.literal w (some p), ts) := by
    rw [signed.eq_def]
    rfl
  have hchain : ∀ (operator? : Token → List Token → Option Operator) next e,
      (∀ w' p' spaced' ts', operator? ⟨.word w', p', spaced'⟩ ts' = none) →
      chain last operator? next (ts.length + 1) e ts = .ok (e, ts) := by
    intro operator? next e hnone
    cases ts with
    | nil => rfl
    | cons t' ts' =>
        obtain ⟨w', hw'⟩ := hts t' ts' rfl
        obtain ⟨kind, p', spaced'⟩ := t'
        cases hw'
        rw [chain, hnone]
  have hproduct : product last (operand last inner arguments) 0 (⟨.word w, p, spaced⟩ :: ts) =
      .ok (.literal w (some p), ts) := by
    rw [product, hsigned]
    exact hchain _ _ _ fun _ _ _ _ => rfl
  rw [sum, hproduct]
  exact hchain _ _ _ fun _ _ _ _ => rfl

/-- A word is read as an item, then the items behind it. -/
theorem items_word {last : Position} {n : Nat} {w : String} {t : Token} (ht : t.kind = .word w)
    {ts : List Token} (hts : ∀ t' ts', ts = t' :: ts' → ∃ w', t'.kind = .word w') {es : List Expr}
    (hes : items last n 0 [] false ts = .ok (es, [])) (separated : Bool) :
    items last (n + 1) 0 [] separated (t :: ts) =
      .ok (blankIf (t.spaced && !separated) ++ .literal w (some t.position) :: es, []) := by
  have hseparator : separatorText? t.kind = none := by
    rw [ht]
    rfl
  rw [items, hseparator]
  show (sum _ _ _ _ >>= _) = _
  rw [sum_word ht hts]
  show (items _ _ _ _ _ _ >>= _) = _
  rw [hes]
  rfl

theorem exists_word_of_forall₂ {words : List String} {ts : List Token}
    (hts : List.Forall₂ Cursor.IsSpacedWord words ts) :
    ∀ t' ts', ts = t' :: ts' → ∃ w', t'.kind = .word w' := by
  rintro t' ts' rfl
  cases hts with
  | cons h _ => exact ⟨_, h.1⟩

/-- Words with blanks before them become literals with spaces before them. -/
theorem items_spaced (last : Position) {words : List String} {ts : List Token}
    (hts : List.Forall₂ Cursor.IsSpacedWord words ts) :
    ∀ n, ∃ es, items last (n + ts.length + 1) 0 [] false ts = .ok (es, []) ∧
      es.map Expr.withoutPositions =
        words.flatMap fun w => [.literal " " none, .literal w none] := by
  induction hts with
  | nil => exact fun n => ⟨[], rfl, rfl⟩
  | @cons w t words ts ht hts ih =>
      intro n
      obtain ⟨es, hes, heq⟩ := ih n
      refine ⟨_, items_word ht.1 (exists_word_of_forall₂ hts) hes false, ?_⟩
      rw [ht.2, List.map_append, List.map_cons, heq]
      rfl

/-- **Words are read as the literals of these words.** -/
theorem gives_value {important : Bool} {last rest : List Char}
    (hrest : Cursor.EndOfValue important last rest) {g : List Char} (hg : Gap g) {w : String}
    {words : List String} (hwords : ∀ v ∈ w :: words, isIdentifier v.toList = true)
    (p : Position) :
    Gives (Cursor.value ⟨g ++ (w.toList ++ (spacedWords words ++ rest)), p⟩ statementStops)
      last fun value => value.items.map Expr.withoutPositions = literalsOf (w :: words) ∧
        value.important = important := by
  obtain ⟨hw, hwords⟩ := List.forall_mem_cons.mp hwords
  obtain ⟨hends, hlater⟩ := Cursor.gives_tokensFrom_words hrest hwords
  -- the text is longer than the list of its words
  have hlength : ∃ n, (g ++ (w.toList ++ (spacedWords words ++ rest))).length =
      n + words.length + 2 := by
    have hpos := List.length_pos_iff.mpr (tight_of_isIdentifier hw).ne_nil
    have hspaced := length_le_spacedWords words
    have hend := hrest.length_pos
    refine ⟨_, (Nat.sub_add_cancel (m := words.length + 2) ?_).symm⟩
    simp only [List.length_append]
    omega
  obtain ⟨n, hn⟩ := hlength
  rw [Cursor.value, Cursor.tokens]
  show Gives (Cursor.tokensFrom _ ((g ++ _).length + 1) 0 _ >>= _) _ _
  rw [hn]
  refine (Cursor.gives_tokensFrom_word hg hw hends (hlater n) p).bind fun ts q hts => ?_
  obtain ⟨place, more, ⟨hmore, himportant⟩, rfl⟩ := hts
  rw [String.ofList_toList]
  -- the bound on the items is twice their number
  obtain ⟨es, hes, heq⟩ := items_spaced q hmore (more.list.length + 2)
  have hitems := items_word (t := ⟨.word w, place, !g.isEmpty⟩) rfl (exists_word_of_forall₂ hmore)
    hes true
  have hbound : more.list.length + 2 + more.list.length + 1 + 1 =
      2 * (more.list.length + 1 + 1) := by
    omega
  rw [hbound] at hitems
  show Gives (items q (2 * (more.list.length + 1 + 1)) 0 [] true (_ :: more.list) >>= _) _ _
  rw [hitems]
  refine gives_ok ⟨?_, himportant⟩
  rw [literalsOf_cons, Bool.not_true, Bool.and_false]
  show Expr.literal w none :: es.map Expr.withoutPositions = _
  rw [heq]

end Less.Parse
