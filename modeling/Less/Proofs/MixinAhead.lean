import Less.Parse.Block
import Less.Proofs.Parentheses

/-! # Looking ahead for mixins

    Before a block reads a mixin it looks ahead for the end of the parentheses behind
    the name, and counts every parenthesis on the way.  The readers of arguments and
    parameters count the parentheses of tokens.  What they pass without counting is
    **hidden** from them: comments and strings (`Cursor.hiddenText`).

    The two agree on where the parentheses end if the parentheses in the hidden text
    come in pairs (`mixin_ahead_of_matched`).  Otherwise they need not: with a single
    parenthesis in a string, a call that would be read is not recognized as one
    (`call_with_parenthesis_in_string`). -/

namespace Less.Parse

open Less.Text

/-! ## Blanks and comments -/

/-- Behind blanks and comments there are no more of them. -/
theorem trivia_trivia (cs : List Char) : trivia (trivia cs).2 = ([], (trivia cs).2) := by
  refine (trivia.mutual_induct
    (fun cs => trivia (trivia cs).2 = ([], (trivia cs).2))
    (fun cs => trivia (blockComment cs).2 = ([], (blockComment cs).2))
    (fun cs => trivia (lineComment cs).2 = ([], (lineComment cs).2))
    rfl ?_ ?_ ?_ ?_ rfl ?_ ?_ rfl ?_ ?_).1 cs
  -- blanks and comments
  · intro cs ih
    rwa [trivia_lineComment]
  · intro cs ih
    rwa [trivia_blockComment]
  · intro c cs hline hblock hc ih
    rwa [trivia_cons hline hblock, if_pos hc]
  · intro c cs hline hblock hc
    rw [trivia_cons hline hblock, if_neg hc, trivia_cons hline hblock, if_neg hc]
  -- comments up to a mark
  · intro cs ih
    rwa [blockComment]
  · intro c cs hend ih
    rw [blockComment]
    · exact ih
    · exact hend
  -- comments up to the end of the line
  · intro cs ih
    rwa [lineComment, if_pos rfl]
  · intro c cs hc ih
    rwa [lineComment, if_neg hc]

namespace Cursor

theorem skipTrivia_skipTrivia (c : Cursor) : c.skipTrivia.skipTrivia = c.skipTrivia := by
  show c.skipTrivia.move (trivia (trivia c.rest).2) = _
  rw [trivia_trivia]
  rfl

theorem rest_skipTrivia (c : Cursor) : c.rest = (trivia c.rest).1 ++ c.skipTrivia.rest :=
  (trivia_append c.rest).symm

/-! ## What is hidden -/

/-- The nesting and the place behind a token, or behind the mark of importance. -/
def pass? (depth : Nat) (c : Cursor) (ch : Char) (next : List Char) : Option (Nat × Cursor) :=
  if ch = '!' then
    let after := c.advance.skipBlanks
    some (depth, if startsWithWord "important".toList after.rest then
      after.drop "important".length else after)
  else
    match c.tokenAt ch next with
    | .error _ => none
    | .ok (kind, after) => (nesting? depth kind).map (·, after)

/-- The text between two places. -/
def textTo (c after : Cursor) : List Char :=
  c.rest.take (c.rest.length - after.rest.length)

/-- The text of comments and strings up to the parenthesis that closes `depth + 1` open
    ones, and the place behind that parenthesis. -/
def hiddenFrom : Nat → Nat → Cursor → Option (List Char × Cursor)
  | 0, _, _ => none
  | n + 1, depth, before =>
      let c := before.skipTrivia
      match c.rest with
      | [] => none
      | ch :: next =>
          if depth = 0 ∧ ch = ')' then some ((trivia before.rest).1, c.advance)
          else do
            let (inner, after) ← pass? depth c ch next
            let (hidden, last) ← hiddenFrom n inner after
            return ((trivia before.rest).1 ++ (quotedText none (c.textTo after) ++ hidden), last)

/-- **What is hidden between the parentheses behind a mixin name**, if there are any. -/
def hiddenText (c : Cursor) : List Char :=
  match mixinName? c.rest with
  | none => []
  | some s =>
      match (c.move s).skipTrivia.accept? '(' with
      | none => []
      | some inside => ((hiddenFrom (inside.rest.length + 1) 0 inside).map Prod.fst).getD []

/-- The steps of `hiddenFrom`, without a bound. -/
inductive Hides : Nat → Cursor → List Char → Cursor → Prop where
  | close {before : Cursor} {next : List Char} (hrest : before.skipTrivia.rest = ')' :: next) :
      Hides 0 before (trivia before.rest).1 before.skipTrivia.advance
  | token {depth inner : Nat} {before after last : Cursor} {ch : Char} {next hidden : List Char}
      (hrest : before.skipTrivia.rest = ch :: next) (hopen : ¬(depth = 0 ∧ ch = ')'))
      (hpass : pass? depth before.skipTrivia ch next = some (inner, after))
      (hlater : Hides inner after hidden last) :
      Hides depth before ((trivia before.rest).1 ++
        (quotedText none (before.skipTrivia.textTo after) ++ hidden)) last

variable {depth inner k : Nat} {c before after last : Cursor} {ch : Char}
  {next hidden : List Char}

/-- The mark of importance has neither quotes nor parentheses. -/
theorem level_important (hrest : c.rest = '!' :: next) :
    let blanks := c.advance.skipBlanks
    let after := if startsWithWord "important".toList blanks.rest then
      blanks.drop "important".length else blanks
    ∃ t, t ≠ [] ∧ c.rest = t ++ after.rest ∧ Level t := by
  intro blanks after
  have hmark : Level ['!'] := level_singleton rfl
  have hword : Level "important".toList := level_of_plain (List.all_eq_true.mp rfl)
  have hnext : c.rest = '!' :: (c.advance.rest.takeWhile isBlank ++ blanks.rest) := by
    rw [← rest_skipBlanks, rest_advance hrest, hrest]
  by_cases himportant : startsWithWord "important".toList blanks.rest = true
  · obtain ⟨rest, hprefix⟩ := List.isPrefixOf_iff_prefix.mp (Bool.and_eq_true_iff.mp himportant).1
    refine ⟨['!'] ++ (c.advance.rest.takeWhile isBlank ++ "important".toList),
      List.cons_ne_nil _ _, ?_, hmark.append ((level_blanks _).append hword)⟩
    have hafter : after.rest = rest := by
      simp only [after, if_pos himportant]
      show blanks.rest.drop "important".toList.length = rest
      rw [← hprefix, List.drop_left]
    rw [hnext, hafter, ← hprefix]
    simp only [List.append_assoc, List.cons_append, List.nil_append]
  · refine ⟨['!'] ++ c.advance.rest.takeWhile isBlank, List.cons_ne_nil _ _, ?_,
      hmark.append (level_blanks _)⟩
    simp only [after, if_neg himportant]
    exact hnext

/-- **A step** takes a text that is not empty, and a walk through it changes the depth as the
    step does. -/
theorem walk_of_pass (hrest : c.rest = ch :: next)
    (h : pass? depth c ch next = some (inner, after)) :
    c.textTo after ≠ [] ∧ c.rest = c.textTo after ++ after.rest
      ∧ walk none depth (c.textTo after) = some inner := by
  obtain ⟨t, hne, ht, hwalk⟩ : ∃ t, t ≠ [] ∧ c.rest = t ++ after.rest
      ∧ walk none depth t = some inner := by
    rw [pass?] at h
    split at h
    · rename_i hmark
      cases h
      obtain ⟨t, hne, ht, hlevel⟩ := level_important (hmark ▸ hrest)
      exact ⟨t, hne, ht, hlevel depth⟩
    · split at h
      · cases h
      · rename_i kind found htoken
        obtain ⟨d, hnesting, heq⟩ := Option.map_eq_some_iff.mp h
        cases heq
        obtain ⟨t, ht, htext⟩ := takes_tokenAt hrest kind after htoken
        exact ⟨t, htext.ne_nil, ht, htext.walk hnesting⟩
  have htext : c.textTo after = t := by
    rw [textTo, ht, List.length_append, Nat.add_sub_cancel, List.take_left]
  rw [htext]
  exact ⟨hne, ht, hwalk⟩

/-- The bound on the steps is large enough. -/
theorem hiddenFrom_of_hides (h : Hides depth before hidden last) :
    ∀ n, before.rest.length < n → hiddenFrom n depth before = some (hidden, last) := by
  induction h with
  | @close before next hrest =>
      intro n hn
      obtain ⟨n, rfl⟩ := Nat.exists_eq_succ_of_ne_zero (Nat.ne_zero_of_lt hn)
      rw [hiddenFrom]
      simp only [hrest]
      rfl
  | @token depth inner before after last ch next hidden hrest hopen hpass hlater ih =>
      intro n hn
      obtain ⟨n, rfl⟩ := Nat.exists_eq_succ_of_ne_zero (Nat.ne_zero_of_lt hn)
      obtain ⟨hne, htext, -⟩ := walk_of_pass hrest hpass
      have hshorter : after.rest.length < before.rest.length := by
        rw [rest_skipTrivia before, htext, List.length_append, List.length_append]
        have := List.length_pos_iff.mpr hne
        omega
      rw [hiddenFrom]
      simp only [hrest, if_neg hopen, hpass]
      show (hiddenFrom n inner after).bind _ = _
      rw [ih n (by omega)]
      rfl

/-- **The look ahead comes to the same end** if the parentheses in what is hidden come in
    pairs. -/
theorem afterBalanced?_of_hides (h : Hides depth before hidden last) :
    ∀ {k : Nat}, countAll k hidden = some 0 →
      afterBalanced? (depth + k) before.rest = some last.rest := by
  induction h with
  | @close before next hrest =>
      intro k hk
      rw [rest_skipTrivia before, afterBalanced?_of_countAll hk, hrest, rest_advance hrest]
      rfl
  | @token depth inner before after last ch next hidden hrest hopen hpass hlater ih =>
      intro k hk
      rw [countAll_append] at hk
      obtain ⟨k₁, hblanks, hk⟩ := Option.bind_eq_some_iff.mp hk
      rw [countAll_append] at hk
      obtain ⟨k₂, hquoted, hk⟩ := Option.bind_eq_some_iff.mp hk
      obtain ⟨-, htext, hwalk⟩ := walk_of_pass hrest hpass
      rw [rest_skipTrivia before, afterBalanced?_of_countAll hblanks, htext,
        afterBalanced?_of_walk hwalk hquoted, ih hk]

/-! ## The readers pass the same text -/

theorem hides_of_skipTrivia (h : Hides depth before.skipTrivia hidden last) :
    ∃ hidden', Hides depth before hidden' last := by
  cases h with
  | close hrest =>
      rw [skipTrivia_skipTrivia] at hrest ⊢
      exact ⟨_, .close hrest⟩
  | token hrest hopen hpass hlater =>
      rw [skipTrivia_skipTrivia] at hrest hpass
      exact ⟨_, .token hrest hopen hpass hlater⟩

/-- **What one step of the reader of tokens can do**: it ends outside parentheses, or it
    passes a token and goes on. -/
theorem tokensFrom_cases {stops : List Char} {n : Nat} {ts : Tokens} {stop : Cursor}
    (h : tokensFrom stops (n + 1) depth before = .ok (ts, stop)) :
    (depth = 0 ∧ stop = before.skipTrivia) ∨
      ∃ ch next inner after more, before.skipTrivia.rest = ch :: next
        ∧ ¬(depth = 0 ∧ stops.contains ch = true)
        ∧ pass? depth before.skipTrivia ch next = some (inner, after)
        ∧ tokensFrom stops n inner after = .ok (more, stop) := by
  rw [tokensFrom] at h
  change (match before.skipTrivia.rest with | [] => _ | ch :: next => _) = _ at h
  split at h
  · split at h
    · cases h
    · rename_i hdepth
      cases h
      exact Or.inl ⟨Nat.eq_zero_of_not_pos hdepth, rfl⟩
  · rename_i ch next hrest
    split at h
    · rename_i hstop
      cases h
      exact Or.inl ⟨hstop.1, rfl⟩
    · rename_i hstop
      split at h
      · cases h
      · right
        split at h
        · rename_i hmark
          dsimp only at h
          -- the mark of importance, or an exclamation mark alone
          split at h
          · rename_i himportant
            obtain ⟨⟨more, stop'⟩, hmore, h⟩ := exists_of_bind_eq_ok h
            cases h
            refine ⟨ch, next, depth, _, more, hrest, hstop, ?_, hmore⟩
            rw [pass?, if_pos hmark]
            exact congrArg some (congrArg (Prod.mk depth) (if_pos himportant))
          · rename_i himportant
            obtain ⟨⟨more, stop'⟩, hmore, h⟩ := exists_of_bind_eq_ok h
            cases h
            refine ⟨ch, next, depth, _, more, hrest, hstop, ?_, hmore⟩
            rw [pass?, if_pos hmark]
            exact congrArg some (congrArg (Prod.mk depth) (if_neg himportant))
        · rename_i hmark
          obtain ⟨⟨kind, after⟩, htoken, h⟩ := exists_of_bind_eq_ok h
          simp only at h
          split at h
          · cases h
          · rename_i inner hnesting
            obtain ⟨⟨more, stop'⟩, hmore, h⟩ := exists_of_bind_eq_ok h
            cases h
            refine ⟨ch, next, inner, after, more, hrest, hstop, ?_, hmore⟩
            rw [pass?, if_neg hmark, show tokenAt before.skipTrivia ch next = _ from htoken]
            exact congrArg (Option.map (·, after)) hnesting

/-- **The tokens of an argument**: what is hidden up to a stop goes on behind it. -/
theorem hides_of_tokensFrom {n : Nat} {ts : Tokens} {stop : Cursor}
    (h : tokensFrom argumentStops n depth before = .ok (ts, stop))
    (hlater : Hides 0 stop hidden last) : ∃ hidden', Hides depth before hidden' last := by
  induction n generalizing depth before ts with
  | zero => cases h
  | succ n ih =>
      rcases tokensFrom_cases h with
        ⟨rfl, rfl⟩ | ⟨ch, next, inner, after, more, hrest, hstop, hpass, hmore⟩
      · exact hides_of_skipTrivia hlater
      · obtain ⟨hidden', hhides⟩ := ih hmore
        refine ⟨_, .token hrest ?_ hpass hhides⟩
        rintro ⟨hdepth, rfl⟩
        exact hstop ⟨hdepth, rfl⟩

/-- A mark between arguments or parameters is passed. -/
theorem hides_of_mark (hch : ch = ',' ∨ ch = ';' ∨ ch = ':') (hrest : c.rest = ch :: next)
    (hlater : Hides 0 c.advance hidden last) : ∃ hidden', Hides 0 c hidden' last := by
  obtain ⟨cs, p⟩ := c
  obtain rfl : cs = ch :: next := hrest
  have hsolid : skipTrivia ⟨ch :: next, p⟩ = ⟨ch :: next, p⟩ := by
    refine skipTrivia_solid (solid_cons ?_ ?_ next) p
    · rcases hch with rfl | rfl | rfl <;> rfl
    · rcases hch with rfl | rfl | rfl <;> decide
  have hpass : pass? 0 (skipTrivia ⟨ch :: next, p⟩) ch next =
      some (0, advance ⟨ch :: next, p⟩) := by
    rw [hsolid]
    rcases hch with rfl | rfl | rfl <;> rfl
  have hne : ch ≠ ')' := by
    rcases hch with rfl | rfl | rfl <;> decide
  exact ⟨_, .token (by rw [hsolid]) (fun h => hne h.2) hpass hlater⟩

theorem hides_of_close (hrest : c.rest = ')' :: next) : ∃ hidden, Hides 0 c hidden c.advance := by
  obtain ⟨cs, p⟩ := c
  obtain rfl : cs = ')' :: next := hrest
  have hsolid : skipTrivia ⟨')' :: next, p⟩ = ⟨')' :: next, p⟩ :=
    skipTrivia_solid (solid_cons rfl (by decide) next) p
  have hclose := Hides.close (show (skipTrivia ⟨')' :: next, p⟩).rest = ')' :: next by rw [hsolid])
  rw [hsolid] at hclose
  exact ⟨_, hclose⟩

theorem hides_of_value {value : ValueText} {stop : Cursor}
    (h : before.value argumentStops = .ok (value, stop)) (hlater : Hides 0 stop hidden last) :
    ∃ hidden', Hides 0 before hidden' last := by
  obtain ⟨⟨ts, stop'⟩, hts, h⟩ := exists_of_bind_eq_ok h
  obtain ⟨⟨items, rest⟩, -, h⟩ := exists_of_bind_eq_ok h
  cases h
  exact hides_of_tokensFrom hts hlater

theorem accept?_eq_some {c after : Cursor} {ch : Char} (h : c.accept? ch = some after) :
    ∃ next, c.rest = ch :: next ∧ after = c.advance := by
  rw [accept?] at h
  split at h
  · rename_i hpeek
    cases h
    obtain ⟨next, hrest⟩ := List.head?_eq_some_iff.mp hpeek
    exact ⟨next, hrest, rfl⟩
  · cases h

/-- Behind an argument or a parameter come others, or the end. -/
theorem hides_of_separator {α : Type} {a b : α} {later : Except Fault (Parsed α)} {f : Fault}
    (hlater : later = .ok (b, last) → ∃ hidden, Hides 0 c.advance hidden last)
    (h : (match c.peek? with
      | some ',' | some ';' => later
      | some ')' => .ok (a, c.advance)
      | _ => .error f) = .ok (b, last)) :
    ∃ hidden, Hides 0 c hidden last := by
  split at h
  · rename_i hpeek
    obtain ⟨next, hrest⟩ := List.head?_eq_some_iff.mp hpeek
    obtain ⟨hidden, hhides⟩ := hlater h
    exact hides_of_mark (Or.inl rfl) hrest hhides
  · rename_i hpeek
    obtain ⟨next, hrest⟩ := List.head?_eq_some_iff.mp hpeek
    obtain ⟨hidden, hhides⟩ := hlater h
    exact hides_of_mark (Or.inr (Or.inl rfl)) hrest hhides
  · rename_i hpeek
    obtain ⟨next, hrest⟩ := List.head?_eq_some_iff.mp hpeek
    cases h
    exact hides_of_close hrest
  · cases h

/-- **The arguments of a call.** -/
theorem hides_of_callArguments {n : Nat} {arguments : List Expr}
    (h : callArgumentsFrom n before = .ok (arguments, last)) :
    ∃ hidden, Hides 0 before hidden last := by
  induction n generalizing before arguments with
  | zero => cases h
  | succ n ih =>
      rw [callArgumentsFrom] at h
      dsimp only at h
      split at h
      · rename_i after haccept
        cases h
        obtain ⟨next, hrest, rfl⟩ := accept?_eq_some haccept
        exact ⟨_, .close hrest⟩
      · obtain ⟨⟨value, stop⟩, hvalue, h⟩ := exists_of_bind_eq_ok h
        obtain ⟨hidden, hstop⟩ : ∃ hidden, Hides 0 stop hidden last := by
          refine hides_of_separator (fun hlater => ?_) h
          obtain ⟨⟨more, last'⟩, hmore, hlater⟩ := exists_of_bind_eq_ok hlater
          cases hlater
          exact ih hmore
        obtain ⟨hidden', hhides⟩ := hides_of_value hvalue hstop
        exact hides_of_skipTrivia hhides

/-- The name of a parameter is passed as a variable. -/
theorem hides_of_variable (hrest : before.skipTrivia.rest = '@' :: next)
    (hname : before.skipTrivia.advance.name.1 ≠ "")
    (hlater : Hides 0 before.skipTrivia.advance.name.2 hidden last) :
    ∃ hidden', Hides 0 before hidden' last := by
  have hpass : pass? 0 before.skipTrivia '@' next =
      some (0, before.skipTrivia.advance.name.2) := by
    rw [pass?, if_neg (by decide), tokenAt_variable, if_neg hname]
    rfl
  exact ⟨_, .token hrest (fun h => by cases h.2) hpass hlater⟩

/-- **The parameters of a mixin.** -/
theorem hides_of_parameters {n : Nat} {params params' : Parameters}
    (h : parametersFrom n params before = .ok (params', last)) :
    ∃ hidden, Hides 0 before hidden last := by
  induction n generalizing before params with
  | zero => cases h
  | succ n ih =>
      rw [parametersFrom] at h
      dsimp only at h
      split at h
      · rename_i after haccept
        cases h
        obtain ⟨next, hrest, rfl⟩ := accept?_eq_some haccept
        exact ⟨_, .close hrest⟩
      · obtain ⟨after, hexpect, h⟩ := exists_of_bind_eq_ok h
        obtain ⟨next, hrest, rfl⟩ := expect_eq_ok hexpect
        change (if before.skipTrivia.advance.name.1 = "" then _ else _) = _ at h
        split at h
        · cases h
        · rename_i hname
          obtain ⟨hidden, hcolon⟩ :
              ∃ hidden, Hides 0 before.skipTrivia.advance.name.2.skipTrivia hidden last := by
            split at h
            · obtain ⟨hidden, hend⟩ := hides_of_separator ih h
              exact hides_of_skipTrivia hend
            · -- a colon and a default
              rename_i inside haccept
              obtain ⟨next, hcolon, rfl⟩ := accept?_eq_some haccept
              obtain ⟨⟨value, stop⟩, hvalue, h⟩ := exists_of_bind_eq_ok h
              obtain ⟨hidden, hend⟩ := hides_of_separator ih h
              obtain ⟨hidden, hstop⟩ := hides_of_skipTrivia hend
              obtain ⟨hidden, hinside⟩ := hides_of_value hvalue hstop
              exact hides_of_mark (Or.inr (Or.inr rfl)) hcolon hinside
          obtain ⟨hidden, hlater⟩ := hides_of_skipTrivia hcolon
          exact hides_of_variable hrest hname hlater

/-! ## The look ahead -/

/-- A mixin call up to its end. -/
def callUpToEnd (c : Cursor) : Except Fault (Parsed MixinCall) := do
  let start := c.position
  let (name, c) ← c.mixinName
  let c := c.skipTrivia
  let (arguments, c) ←
    match c.accept? '(' with
    | none => pure ([], c)
    | some c => callArgumentsFrom (c.rest.length + 1) c
  let call : MixinCall := { selector := .ofText name, arguments, position := some start }
  return (call, c.skipTrivia)

/-- **A mixin call is read up to its end**, and then a semicolon if it is there. -/
theorem mixinCall_eq (c : Cursor) : c.mixinCall = (do
    let (call, before) ← c.callUpToEnd
    return (call, before.skip ';')) := by
  rw [mixinCall, callUpToEnd]
  cases c.mixinName with
  | error f => rfl
  | ok named =>
      obtain ⟨name, after⟩ := named
      show (match after.skipTrivia.accept? '(' with | none => _ | some inside => _) =
        (match after.skipTrivia.accept? '(' with | none => _ | some inside => _) >>= _
      cases after.skipTrivia.accept? '(' with
      | none => rfl
      | some inside =>
          show (callArgumentsFrom _ inside >>= _) = (callArgumentsFrom _ inside >>= _) >>= _
          cases callArgumentsFrom (inside.rest.length + 1) inside with
          | error f => rfl
          | ok found => rfl

theorem mixinName_eq_ok {name : String} (h : c.mixinName = .ok (name, after)) :
    ∃ s, mixinName? c.rest = some s ∧ after = c.move s := by
  rw [mixinName] at h
  split at h
  · rename_i s hs
    cases h
    exact ⟨s, hs, rfl⟩
  · split at h
    · cases h
    · cases h

/-- **Where the parentheses end**, if what is hidden in them is matched. -/
theorem afterBalanced?_of_matched {s : Split} {inside : Cursor}
    (hname : mixinName? c.rest = some s) (hopen : (c.move s).skipTrivia.accept? '(' = some inside)
    (hhides : Hides 0 inside hidden last) (hmatched : Matched c.hiddenText) :
    afterTrivia s.2 = '(' :: inside.rest ∧ afterBalanced? 0 inside.rest = some last.rest := by
  have hhidden : c.hiddenText = hidden := by
    rw [hiddenText, hname]
    simp only [hopen, hiddenFrom_of_hides hhides _ (Nat.lt_succ_self _)]
    rfl
  rw [hhidden] at hmatched
  obtain ⟨next, hrest, rfl⟩ := accept?_eq_some hopen
  refine ⟨?_, afterBalanced?_of_hides hhides hmatched⟩
  rw [rest_advance hrest]
  exact hrest

/-- A call that is read up to a semicolon is recognized. -/
theorem mixinCallAhead_of_matched {call : MixinCall} (hread : c.callUpToEnd = .ok (call, before))
    (hend : before.accept? ';' = some after) (hmatched : Matched c.hiddenText) :
    mixinCallAhead c.rest = true := by
  obtain ⟨next, hsemicolon, -⟩ := accept?_eq_some hend
  rw [callUpToEnd] at hread
  obtain ⟨⟨name, named⟩, hname, hread⟩ := exists_of_bind_eq_ok hread
  obtain ⟨s, hs, rfl⟩ := mixinName_eq_ok hname
  rw [mixinCallAhead, hs]
  dsimp only at hread ⊢
  split at hread
  · -- no parentheses
    obtain rfl : (c.move s).skipTrivia.skipTrivia = before :=
      (Prod.mk.inj (Except.ok.inj hread)).2
    rw [skipTrivia_skipTrivia] at hsemicolon
    rw [show afterTrivia s.2 = ';' :: next from hsemicolon]
    rfl
  · rename_i inside hopen
    obtain ⟨⟨arguments, last⟩, harguments, hread⟩ := exists_of_bind_eq_ok hread
    obtain rfl : last.skipTrivia = before := (Prod.mk.inj (Except.ok.inj hread)).2
    obtain ⟨hidden, hhides⟩ := hides_of_callArguments harguments
    obtain ⟨hparen, hclose⟩ := afterBalanced?_of_matched hs hopen hhides hmatched
    simp only [hparen, hclose]
    rw [show afterTrivia last.rest = ';' :: next from hsemicolon]
    rfl

/-- A head that is read up to a brace is recognized. -/
theorem mixinDefinitionAhead_of_matched {head : Selector × Parameters}
    (hread : c.mixinHead = .ok (head, before)) (hend : before.accept? '{' = some after)
    (hmatched : Matched c.hiddenText) : mixinDefinitionAhead c.rest = true := by
  obtain ⟨next, hbrace, -⟩ := accept?_eq_some hend
  rw [mixinHead] at hread
  obtain ⟨⟨name, named⟩, hname, hread⟩ := exists_of_bind_eq_ok hread
  obtain ⟨s, hs, rfl⟩ := mixinName_eq_ok hname
  obtain ⟨⟨params, last⟩, hparams, hread⟩ := exists_of_bind_eq_ok hread
  obtain ⟨inside, hinside, hparams⟩ := exists_of_bind_eq_ok hparams
  have hopen : (c.move s).skipTrivia.accept? '(' = some inside := by
    obtain ⟨next, hrest, rfl⟩ := expect_eq_ok hinside
    rw [accept?, peek?, hrest]
    rfl
  obtain ⟨hidden, hhides⟩ := hides_of_parameters hparams
  obtain ⟨hparen, hclose⟩ := afterBalanced?_of_matched hs hopen hhides hmatched
  rw [mixinDefinitionAhead, hs]
  simp only [hparen, hclose]
  -- the guard is passed by both in the same way
  have hguard : (if startsWithWord "when".toList (afterTrivia last.rest) then
      (guard 0 ((afterTrivia last.rest).drop 4)).2 else afterTrivia last.rest) = '{' :: next := by
    have hrest : afterTrivia last.rest = last.skipTrivia.rest := rfl
    rw [← hbrace, hrest, ← (Prod.mk.inj (Except.ok.inj hread)).2]
    by_cases hwhen : startsWithWord "when".toList last.skipTrivia.rest = true
    · rw [if_pos hwhen, if_pos hwhen]
      rfl
    · rw [if_neg hwhen, if_neg hwhen]
  rw [hguard]
  rfl

/-- **THE LOOK AHEAD AGREES WITH THE READERS** wherever the parentheses in comments and
    strings come in pairs.  A call that is read up to its semicolon is recognized as a
    call; a name, parameters and a guard that are read up to a brace are recognized as a
    definition. -/
theorem mixin_ahead_of_matched (c : Cursor) (hmatched : Matched c.hiddenText) :
    (∀ call before after, c.callUpToEnd = .ok (call, before) → before.accept? ';' = some after →
        c.mixinCall = .ok (call, after) ∧ mixinCallAhead c.rest = true)
      ∧ ∀ head before after, c.mixinHead = .ok (head, before) → before.accept? '{' = some after →
        mixinDefinitionAhead c.rest = true := by
  refine ⟨fun call before after hread hend => ⟨?_, ?_⟩, fun head before after hread hend => ?_⟩
  · rw [mixinCall_eq, hread]
    show Except.ok (call, before.skip ';') = _
    rw [skip, hend]
    rfl
  · exact mixinCallAhead_of_matched hread hend hmatched
  · exact mixinDefinitionAhead_of_matched hread hend hmatched

/-- Strings that share a pair of parentheses, a comment with a pair, and arguments that are not
    looked at. -/
theorem mixin_ahead_of_matched_in_strings :
    let c := ofText ".m(\"(a)\", url(b) /* () */; 'c(' ')d');".toList
    Matched c.hiddenText ∧ mixinCallAhead c.rest = true := by
  intro c
  have hmatched : Matched c.hiddenText := by decide +kernel
  have hends : (c.callUpToEnd.toOption.bind fun r => r.2.accept? ';').isSome = true := by
    decide +kernel
  obtain ⟨after, hafter⟩ := Option.isSome_iff_exists.mp hends
  obtain ⟨⟨call, before⟩, hread, hend⟩ := Option.bind_eq_some_iff.mp hafter
  have hread' : c.callUpToEnd = .ok (call, before) := by
    cases hcall : c.callUpToEnd with
    | error f =>
        rw [hcall] at hread
        cases hread
    | ok found =>
        rw [hcall] at hread
        exact congrArg Except.ok (Option.some.inj hread)
  exact ⟨hmatched, ((mixin_ahead_of_matched c hmatched).1 call before after hread' hend).2⟩

/-- **A parenthesis in a string is counted by the look ahead**: the call and the head are
    read, and neither is recognized. -/
theorem call_with_parenthesis_in_string :
    let call := ofText ".m(\")\");".toList
    let definition := ofText ".m(@a: \")\") \x7b".toList
    (call.callUpToEnd.toOption.bind fun r => r.2.accept? ';').isSome = true
      ∧ call.mixinCall.isOk = true
      ∧ mixinCallAhead call.rest = false ∧ mixinDefinitionAhead call.rest = false
      ∧ (definition.mixinHead.toOption.bind fun r => r.2.accept? '{').isSome = true
      ∧ mixinDefinitionAhead definition.rest = false := by
  decide +kernel

end Cursor

end Less.Parse
