import Less.Proofs.Rounds
import Less.Proofs.Word

/-! # The reader makes progress

    Every loop of the reader settles: each of its rounds takes at least one character, or it
    ends.  So no fault comes from a bound, and a source text is read to its end or to a
    fault of its own.

    One lemma for a reader says that it ends and what it leaves at most (`Leaves`); the
    readers that take a mark they expect leave fewer characters than they find.  The rounds
    of a loop are made of such readers. -/

namespace Less.Parse

open Less.Text

/-! ## What a reader leaves -/

namespace Cursor

variable {c : Cursor}

theorem length_move {s : Split} (h : s.1 ++ s.2 = c.rest) :
    (c.move s).rest.length ≤ c.rest.length := by
  rw [← h, List.length_append]
  exact Nat.le_add_left _ _

theorem length_move_lt {s : Split} (h : s.1 ++ s.2 = c.rest) (hne : s.1 ≠ []) :
    (c.move s).rest.length < c.rest.length := by
  rw [← h, List.length_append]
  exact Nat.lt_add_of_pos_left (List.length_pos_of_ne_nil hne)

theorem length_advance_lt {ch : Char} {next : List Char} (h : c.rest = ch :: next) :
    c.advance.rest.length < c.rest.length := by
  rw [advance, h]
  exact Nat.lt_succ_self _

theorem length_advance (c : Cursor) : c.advance.rest.length ≤ c.rest.length := by
  cases h : c.rest with
  | nil =>
      rw [advance, h]
      exact Nat.le_of_eq (congrArg List.length h)
  | cons ch next =>
      rw [← h]
      exact Nat.le_of_lt (length_advance_lt h)

theorem length_skipTrivia (c : Cursor) : c.skipTrivia.rest.length ≤ c.rest.length :=
  length_move (trivia_append c.rest)

theorem length_takeWhile (c : Cursor) (p : Char → Bool) :
    (c.takeWhile p).2.rest.length ≤ c.rest.length :=
  length_move List.takeWhile_append_dropWhile

theorem length_skipBlanks (c : Cursor) : c.skipBlanks.rest.length ≤ c.rest.length :=
  c.length_takeWhile isBlank

theorem length_drop (c : Cursor) (n : Nat) : (c.drop n).rest.length ≤ c.rest.length :=
  length_move (List.take_append_drop n c.rest)

theorem length_name (c : Cursor) : c.name.2.rest.length ≤ c.rest.length :=
  length_move (name_append c.rest)

theorem length_advance_of_peek {ch : Char} (h : c.peek? = some ch) :
    c.advance.rest.length < c.rest.length := by
  obtain ⟨next, hrest⟩ := List.head?_eq_some_iff.mp h
  exact length_advance_lt hrest

theorem length_accept {ch : Char} {after : Cursor} (h : c.accept? ch = some after) :
    after.rest.length < c.rest.length := by
  rw [accept?] at h
  split at h
  · rename_i hpeek
    cases h
    exact length_advance_of_peek hpeek
  · cases h

theorem length_skip (c : Cursor) (ch : Char) : (c.skip ch).rest.length ≤ c.rest.length := by
  rw [skip]
  cases h : c.accept? ch with
  | none => exact Nat.le_refl _
  | some after => exact Nat.le_of_lt (length_accept h)

theorem length_atKeyword (c : Cursor) : c.atKeyword.2.rest.length ≤ c.rest.length :=
  Nat.le_trans (length_name _) (c.length_skip '@')

end Cursor

/-- The reader ends and leaves fewer than `n` characters. -/
abbrev Leaves {α : Type} (n : Nat) (x : Except Fault (Parsed α)) : Prop :=
  Ends (fun r => r.2.rest.length < n) x

theorem Leaves.mono {α : Type} {n m : Nat} {x : Except Fault (Parsed α)} (hx : Leaves n x)
    (h : n ≤ m) : Leaves m x :=
  hx.imp fun _ hr => Nat.lt_of_lt_of_le hr h

/-- What is made of a result leaves the same. -/
theorem Leaves.map {α β : Type} {n : Nat} {x : Except Fault (Parsed α)} (hx : Leaves n x)
    (f : α → β) : Leaves n (do let (a, after) ← x; return (f a, after)) :=
  hx.bind fun _ hr => .result hr

namespace Cursor

variable {c : Cursor}

/-! ## Parts of values -/

theorem ends_expect (c : Cursor) (ch : Char) :
    Ends (fun after => after.rest.length < c.rest.length) (c.expect ch) := by
  rw [expect]
  split
  · exact .fault rfl
  · rename_i found next hrest
    split
    · exact .result (length_advance_lt hrest)
    · exact .fault rfl

theorem leaves_mixinName (c : Cursor) : Leaves c.rest.length c.mixinName := by
  rw [mixinName]
  split
  · rename_i s hs
    refine .result (length_move_lt (mixinName?_append hs) fun hnil => ?_)
    obtain ⟨taken, rest⟩ := s
    rw [mixinName?.eq_def] at hs
    split at hs
    · split at hs
      · simp only at hs
        split at hs
        · cases hs
        · cases hs
          cases hnil
      · cases hs
    · cases hs
  · split
    · exact .fault rfl
    · exact .fault rfl

theorem leaves_quoted (c : Cursor) : Leaves c.rest.length c.quoted := by
  rw [quoted]
  split
  · exact .fault rfl
  · rename_i quote cs hrest
    split
    · rename_i s hs
      refine .result (length_move_lt ?_ (List.cons_ne_nil _ _))
      rw [keep_append, stringRest?_append hs, hrest]
    · exact .fault rfl

theorem leaves_quotedContent (c : Cursor) : Leaves c.rest.length c.quotedContent :=
  c.leaves_quoted.map fun cs => String.ofList cs.tail.dropLast

theorem leaves_upTo (c : Cursor) (stop : Char) : Leaves (c.rest.length + 1) (c.upTo stop) := by
  rw [upTo]
  simp only
  split
  · exact .fault rfl
  · exact .result (Nat.lt_succ_of_le (c.length_takeWhile _))

theorem leaves_headFrom (depth : Nat) (quote : Option (Char × Position)) (p : Position)
    (cs : List Char) : Leaves (cs.length + 1) (headFrom depth quote p cs) := by
  induction depth, quote, p, cs using headFrom.induct with
  | case1 | case2 => exact .fault rfl
  | case3 depth quote start p ch cs ih =>
      rw [headFrom]
      exact (Leaves.map ih fun taken => '\\' :: ch :: taken).mono (Nat.le_add_right _ 2)
  | case4 depth quote start p ch cs hescape ih =>
      rw [headFrom]
      · exact (Leaves.map ih _).mono (Nat.le_succ _)
      · assumption
  | case5 depth p ch cs hbrace =>
      rw [headFrom, if_pos hbrace]
      exact .result (Nat.lt_succ_self _)
  | case6 depth p ch cs hbrace hend =>
      rw [headFrom, if_neg hbrace, if_pos hend]
      exact .fault rfl
  | case7 depth p ch cs hbrace hend depth' quote ih =>
      rw [headFrom, if_neg hbrace, if_neg hend]
      exact (Leaves.map ih _).mono (Nat.le_succ _)

theorem leaves_head (c : Cursor) : Leaves (c.rest.length + 1) c.head :=
  (leaves_headFrom 0 none c.position c.rest).map trim

theorem leaves_rawArguments (start : Position) (depth : Nat) (quote : Option (Char × Position))
    (p : Position) (cs : List Char) :
    Leaves (cs.length + 1) (rawArguments start depth quote p cs) := by
  induction depth, quote, p, cs using rawArguments.induct with
  | case1 | case2 => exact .fault rfl
  | case3 depth quote opened p ch cs ih =>
      rw [rawArguments]
      exact (Leaves.map ih fun taken => '\\' :: ch :: taken).mono (Nat.le_add_right _ 2)
  | case4 depth quote opened p ch cs hescape ih =>
      rw [rawArguments]
      · exact (Leaves.map ih _).mono (Nat.le_succ _)
      · assumption
  | case5 depth p ch cs hclose =>
      rw [rawArguments, if_pos hclose]
      exact .result (Nat.lt_succ_of_lt (Nat.lt_succ_self _))
  | case6 depth p ch cs hclose depth' quote ih =>
      rw [rawArguments, if_neg hclose]
      exact (Leaves.map ih _).mono (Nat.le_succ _)

/-- A word takes at least its first character. -/
theorem leaves_word (hstart : startsWord c.rest = true) : Leaves c.rest.length c.word := by
  have hname : c.name.2.rest.length < c.rest.length :=
    length_move_lt (name_append c.rest) (name_ne_nil_of_startsWord hstart)
  rw [word]
  refine .ite (fun _ => .result hname) (.ite (fun _ => ?_)
    (.result (Nat.lt_of_le_of_lt (length_advance _) hname)))
  exact ((leaves_rawArguments c.position 0 none c.name.2.position c.name.2.rest).map fun arguments =>
    TokenKind.word (c.name.1 ++ String.ofList arguments)).mono hname

theorem leaves_member (c : Cursor) : Leaves (c.rest.length + 1) c.member := by
  rw [member.eq_def]
  split
  · exact .result (Nat.lt_succ_of_le (Nat.le_trans (length_name _) c.length_advance))
  · exact (c.leaves_quotedContent.map Member.property).mono (Nat.le_succ _)
  · exact (c.leaves_quotedContent.map Member.property).mono (Nat.le_succ _)
  · exact .result (Nat.lt_succ_of_le c.length_name)

theorem leaves_accessor (c : Cursor) (target : String) :
    Leaves c.rest.length (c.accessor target) := by
  rw [accessor]
  refine (c.ends_expect '[').bind fun inside hinside => ?_
  refine inside.skipBlanks.leaves_member.bind fun r hr => ?_
  refine (r.2.skipBlanks.ends_expect ']').bind fun after hafter => ?_
  have hinner := inside.length_skipBlanks
  have hclose := r.2.length_skipBlanks
  refine .ite (fun _ => .fault rfl) (.result ?_)
  show after.rest.length < c.rest.length
  omega

theorem leaves_accessorOr (c : Cursor) (target : String) (kind : TokenKind) :
    Leaves (c.rest.length + 1) (c.accessorOr target kind) := by
  rw [accessorOr]
  exact .ite (fun _ => (c.leaves_accessor target).mono (Nat.le_succ _)) (.result (Nat.lt_succ_self _))

/-- **A token takes at least one character.** -/
theorem leaves_tokenAt {ch : Char} {next : List Char} (hrest : c.rest = ch :: next) :
    Leaves c.rest.length (c.tokenAt ch next) := by
  have hadvance := length_advance_lt hrest
  have hsingle : ∀ k : TokenKind,
      Leaves c.rest.length (.ok (k, c.advance) : Except Fault (Parsed TokenKind)) :=
    fun _ => .result hadvance
  have hname := Nat.lt_of_le_of_lt c.advance.length_name hadvance
  have htaken := Nat.lt_of_le_of_lt (c.advance.length_takeWhile isNameChar) hadvance
  have hword : startsWord (ch :: next) = true → Leaves c.rest.length c.word := by
    rw [← hrest]
    exact leaves_word
  rw [tokenAt]
  refine .ite (fun hnumber => .result (length_move_lt (numberText_append c.rest) ?_)) ?_
  · rw [hrest]
    exact numberText_ne_nil hnumber
  refine .ite (fun _ => (leaves_accessorOr _ _ _).mono hname) ?_
  refine .ite (fun _ => (leaves_accessorOr _ _ _).mono htaken) ?_
  refine .ite (fun _ => .ite (fun _ => .fault rfl) (.result hname)) ?_
  refine .ite (fun _ => c.leaves_quoted.map fun text => TokenKind.word (String.ofList text)) ?_
  refine .ite (fun _ => (c.advance.leaves_quotedContent.map TokenKind.word).mono
    (Nat.le_of_lt hadvance)) ?_
  refine .ite (fun _ => .result (Nat.lt_of_le_of_lt c.advance.length_advance hadvance)) ?_
  refine .ite (fun _ => hsingle _) (.ite (fun _ => hsingle _) (.ite (fun _ => hsingle _)
    (.ite (fun _ => hsingle _) (.ite (fun _ => hsingle _) (.ite (fun _ => hsingle _) ?_)))))
  refine .ite (fun hhyphen => hword ?_) (.ite (fun _ => hsingle _) (.ite (fun hstart => hword ?_)
    (hsingle _)))
  · rw [startsWord, hhyphen, Bool.or_true]
  · rw [startsWord, hstart, Bool.true_or]

/-! ## Tokens and values -/

/-- A round of the tokens of a value: the state is the number of open parentheses and the
    place. -/
def tokenRound (stops : List Char) :
    Nat × Cursor → Round (Nat × Cursor) (Except Fault (Parsed Tokens))
  | (depth, before) =>
    let blanks := trivia before.rest
    let c := before.move blanks
    let spaced := !blanks.1.isEmpty
    match c.rest with
    | [] => .done (if 0 < depth then c.fail .missingParenthesis else .ok (⟨[], false⟩, c))
    | ch :: next =>
      if depth = 0 ∧ stops.contains ch then .done (.ok (⟨[], false⟩, c))
      else if ch = '{' ∨ ch = '}' then .done (c.fail (.unexpectedInValue ch))
      else if ch = '!' then
        let after := c.advance.skipBlanks
        if startsWithWord "important".toList after.rest then
          .next (depth, after.drop "important".length) (withResult fun tokens =>
            { tokens with important := true })
        else
          .next (depth, after) (withResult fun tokens =>
            { tokens with list := ⟨.word "!", c.position, spaced⟩ :: tokens.list })
      else
        .read (c.tokenAt ch next) fun (kind, after) =>
          match nesting? depth kind with
          | none => .done (c.fail .unexpectedParenthesis)
          | some depth =>
            .next (depth, after) (withResult fun tokens =>
              { tokens with list := ⟨kind, c.position, spaced⟩ :: tokens.list })

theorem tokensFrom_succ (stops : List Char) (n depth : Nat) (c : Cursor) :
    tokensFrom stops (n + 1) depth c =
      (tokenRound stops (depth, c)).run fun s => tokensFrom stops n s.1 s.2 := by
  rw [tokensFrom, tokenRound]
  simp only
  cases (c.move (trivia c.rest)).rest with
  | nil => rfl
  | cons ch next =>
      simp only
      split
      · rfl
      · split
        · rfl
        · split
          · split
            · rfl
            · rfl
          · rw [Round.run_read]
            congr 1
            funext r
            cases nesting? depth r.1 with
            | none | some => rfl

/-- **A round of the tokens of a value takes at least one character.** -/
theorem settles_tokens (stops : List Char) :
    Settles (fun s => s.2.rest.length) (tokenRound stops) (fun n s => tokensFrom stops n s.1 s.2)
      fun s => Leaves (s.2.rest.length + 1) where
  unfolds n s _ _ := tokensFrom_succ stops n s.1 s.2
  fits s _ := by
    obtain ⟨depth, before⟩ := s
    have hc : (before.move (trivia before.rest)).rest.length ≤ before.rest.length :=
      before.length_skipTrivia
    have hdone : ∀ tokens : Tokens, Leaves (before.rest.length + 1)
        (.ok (tokens, before.move (trivia before.rest)) : Except Fault (Parsed Tokens)) :=
      fun _ => .result (Nat.lt_succ_of_le hc)
    have hnext : ∀ {depth' : Nat} {after : Cursor} {g : Tokens → Tokens},
        after.rest.length < before.rest.length →
        (Round.next (depth', after) (withResult g)).Fits (fun s => s.2.rest.length)
          (fun s => Leaves (s.2.rest.length + 1)) (depth, before) :=
      fun hlt => .next hlt fun r hr => Ends.withResult hr fun _ _ hle => Nat.lt_trans hle
        (Nat.succ_lt_succ hlt)
    rw [tokenRound]
    simp only
    split
    · exact .done (.ite (fun _ => .fault rfl) (hdone _))
    · rename_i ch next hrest
      have hadvance := Nat.lt_of_lt_of_le (length_advance_lt hrest) hc
      split
      · exact .done (hdone _)
      · split
        · exact .done (.fault rfl)
        · split
          · have hblanks := Nat.lt_of_le_of_lt (length_skipBlanks _) hadvance
            split
            · exact hnext (Nat.lt_of_le_of_lt (length_drop _ _) hblanks)
            · exact hnext hblanks
          · refine (leaves_tokenAt hrest).fits_read (fun _ hf => .fault hf) fun r hr => ?_
            split
            · exact .done (.fault rfl)
            · exact hnext (Nat.lt_of_lt_of_le hr hc)

theorem leaves_tokens (c : Cursor) (stops : List Char) :
    Leaves (c.rest.length + 1) (c.tokens stops) :=
  ((settles_tokens stops).settledAt (0, c)).good _ (Nat.lt_succ_self _)

theorem leaves_value (c : Cursor) (stops : List Char) :
    Leaves (c.rest.length + 1) (c.value stops) := by
  refine (c.leaves_tokens stops).bind fun r hr => ?_
  exact (leavesTokens_readItems 0 [] true r.1.list).bind fun _ _ => .result hr

/-! ## Parameters and arguments of mixins -/

/-- What to do behind a parameter or an argument: go on, stop at the closing parenthesis, or
    refuse another character. -/
def atMark {β : Type} (c : Cursor) (go stop refuse : β) : β :=
  match c.peek? with
  | some ',' | some ';' => go
  | some ')' => stop
  | _ => refuse

theorem run_atMark {σ ρ : Type} (loop : σ → ρ) (c : Cursor) (go stop refuse : Round σ ρ) :
    (c.atMark go stop refuse).run loop =
      c.atMark (go.run loop) (stop.run loop) (refuse.run loop) := by
  rw [atMark, atMark]
  split <;> rfl

/-- Going on and stopping take the mark. -/
theorem atMark_of {β : Type} {P : β → Prop} {go stop refuse : β}
    (hgo : c.advance.rest.length < c.rest.length → P go)
    (hstop : c.advance.rest.length < c.rest.length → P stop) (hrefuse : P refuse) :
    P (c.atMark go stop refuse) := by
  rw [atMark]
  split
  · exact hgo (length_advance_of_peek ‹_›)
  · exact hgo (length_advance_of_peek ‹_›)
  · exact hstop (length_advance_of_peek ‹_›)
  · exact hrefuse

/-- The default of a parameter that starts at `start`, if there is one. -/
def parameterDefault (start : Position) (c : Cursor) : Except Fault (Parsed (Option Expr)) :=
  match c.accept? ':' with
  | none => .ok (none, c)
  | some c => do
    let (value, c) ← c.value argumentStops
    return (some (Expr.ofItems value.items start), c)

/-- A round of the parameters of a mixin: the state is the parameters before and the place. -/
def parameterRound :
    Parameters × Cursor → Round (Parameters × Cursor) (Except Fault (Parsed Parameters))
  | (params, before) =>
    let c := before.skipTrivia
    match c.accept? ')' with
    | some last => .done (.ok (params, last))
    | none =>
      .read (c.expect '@') fun after =>
        let (name, after) := after.name
        if name = "" then .done (c.fail .expectedParameterName)
        else
          .read (parameterDefault c.position after.skipTrivia) fun (default, after) =>
            let params := params.set name default
            let after := after.skipTrivia
            after.atMark (.next (params, after.advance) id) (.done (.ok (params, after.advance)))
              (.done (after.advance.fail .expectedParameterEnd))

theorem parametersFrom_succ (n : Nat) (params : Parameters) (c : Cursor) :
    parametersFrom (n + 1) params c =
      (parameterRound (params, c)).run fun s => parametersFrom n s.1 s.2 := by
  rw [parametersFrom, parameterRound]
  simp only
  cases c.skipTrivia.accept? ')' with
  | some last => rfl
  | none =>
      simp only [Round.run_read]
      congr 1
      funext after
      split
      · rfl
      · simp only [Round.run_read, run_atMark, parameterDefault]
        cases after.name.2.skipTrivia.accept? ':' with
        | none => rfl
        | some inside =>
            simp only
            cases inside.value argumentStops with
            | error | ok => rfl

theorem leaves_parameterDefault (start : Position) (c : Cursor) :
    Leaves (c.rest.length + 1) (parameterDefault start c) := by
  rw [parameterDefault]
  split
  · exact .result (Nat.lt_succ_self _)
  · rename_i inside hinside
    refine ((inside.leaves_value argumentStops).map fun value =>
      some (Expr.ofItems value.items start)).mono ?_
    exact Nat.succ_le_succ (Nat.le_of_lt (length_accept hinside))

/-- **A round of the parameters of a mixin takes at least one character.** -/
theorem settles_parameters :
    Settles (fun s => s.2.rest.length) parameterRound (fun n s => parametersFrom n s.1 s.2)
      fun s => Leaves s.2.rest.length where
  unfolds n s _ _ := parametersFrom_succ n s.1 s.2
  fits s _ := by
    obtain ⟨params, before⟩ := s
    have hc := before.length_skipTrivia
    rw [parameterRound]
    simp only
    split
    · rename_i last hlast
      exact .done (.result (Nat.lt_of_lt_of_le (length_accept hlast) hc))
    · refine (ends_expect _ '@').fits_read (fun _ hf => .fault hf) fun after hafter => ?_
      split
      · exact .done (.fault rfl)
      · refine (leaves_parameterDefault _ _).fits_read (fun _ hf => .fault hf) fun r hr => ?_
        have hname := after.length_name
        have hblanks := after.name.2.length_skipTrivia
        have hend := r.2.length_skipTrivia
        have hlt : r.2.skipTrivia.advance.rest.length < r.2.skipTrivia.rest.length →
            r.2.skipTrivia.advance.rest.length < before.rest.length := by
          omega
        refine atMark_of (fun hmark => .next (hlt hmark) fun x hx => ?_)
          (fun hmark => .done (.result (hlt hmark))) (.done (.fault rfl))
        exact Leaves.mono hx (Nat.le_of_lt (hlt hmark))

theorem leaves_parameters (c : Cursor) : Leaves c.rest.length c.parameters := by
  refine (c.ends_expect '(').bind fun inside hinside => ?_
  exact Leaves.mono ((settles_parameters.settledAt (.empty, inside)).good _ (Nat.lt_succ_self _))
    (Nat.le_of_lt hinside)

/-- A round of the arguments of a mixin call. -/
def callArgumentRound (before : Cursor) : Round Cursor (Except Fault (Parsed (List Expr))) :=
  let c := before.skipTrivia
  match c.accept? ')' with
  | some last => .done (.ok ([], last))
  | none =>
    .read (c.value argumentStops) fun (value, after) =>
      let argument := Expr.ofItems value.items c.position
      after.atMark (.next after.advance (withResult fun more => argument :: more))
        (.done (.ok ([argument], after.advance))) (.done (after.advance.fail .expectedArgumentEnd))

theorem callArgumentsFrom_succ (n : Nat) (c : Cursor) :
    callArgumentsFrom (n + 1) c = (callArgumentRound c).run (callArgumentsFrom n) := by
  rw [callArgumentsFrom, callArgumentRound]
  simp only
  cases c.skipTrivia.accept? ')' with
  | some last => rfl
  | none =>
      simp only [Round.run_read, run_atMark]
      rfl

/-- **A round of the arguments of a mixin call takes at least one character**: an argument may
    be empty, and then a mark follows it. -/
theorem settles_callArguments :
    Settles (fun c => c.rest.length) callArgumentRound callArgumentsFrom
      fun c => Leaves c.rest.length where
  unfolds n c _ _ := callArgumentsFrom_succ n c
  fits before _ := by
    have hc := before.length_skipTrivia
    rw [callArgumentRound]
    simp only
    split
    · rename_i last hlast
      exact .done (.result (Nat.lt_of_lt_of_le (length_accept hlast) hc))
    · refine (leaves_value _ _).fits_read (fun _ hf => .fault hf) fun r hr => ?_
      have hlt : r.2.advance.rest.length < r.2.rest.length →
          r.2.advance.rest.length < before.rest.length := by
        omega
      refine atMark_of (fun hmark => .next (hlt hmark) fun x hx => ?_)
        (fun hmark => .done (.result (hlt hmark))) (.done (.fault rfl))
      exact Ends.withResult hx fun _ _ hlast => Nat.lt_trans hlast (hlt hmark)

/-! ## Statements of blocks -/

theorem leaves_variableDefinition (c : Cursor) : Leaves c.rest.length c.variableDefinition := by
  rw [variableDefinition]
  refine (c.ends_expect '@').bind fun c₁ h₁ => ?_
  refine (c₁.name.2.skipTrivia.ends_expect ':').bind fun c₂ h₂ => ?_
  refine (c₂.leaves_value statementStops).bind fun r hr => .result ?_
  have hname := c₁.length_name
  have hblanks := c₁.name.2.length_skipTrivia
  have hend := r.2.length_skip ';'
  show (r.2.skip ';').rest.length < c.rest.length
  omega

theorem leaves_declaration (c : Cursor) : Leaves c.rest.length c.declaration := by
  have hproperty := c.length_takeWhile (!endsProperty ·)
  have hblanks := (c.takeWhile (!endsProperty ·)).2.length_skipTrivia
  rw [declaration]
  refine .ite (fun _ => .fault rfl) ?_
  refine ((c.takeWhile (!endsProperty ·)).2.skipTrivia.ends_expect ':').bind fun c₁ h₁ => ?_
  refine (c₁.leaves_value statementStops).bind fun r hr => .result ?_
  have hend := r.2.length_skip ';'
  show (r.2.skip ';').rest.length < c.rest.length
  omega

theorem leaves_mixinCall (c : Cursor) : Leaves c.rest.length c.mixinCall := by
  rw [mixinCall]
  refine c.leaves_mixinName.bind fun r hr => ?_
  have hname := r.2.length_skipTrivia
  have hcall : ∀ (r' : Parsed (List Expr)), r'.2.rest.length < c.rest.length →
      Leaves c.rest.length (.ok ((⟨.ofText r.1, r'.1, some c.position⟩ : MixinCall),
        r'.2.skipTrivia.skip ';')) := by
    intro r' hr'
    have hblanks := r'.2.length_skipTrivia
    have hend := r'.2.skipTrivia.length_skip ';'
    refine .result ?_
    show (r'.2.skipTrivia.skip ';').rest.length < c.rest.length
    omega
  simp only
  split
  · exact hcall ([], r.2.skipTrivia) (Nat.lt_of_le_of_lt hname hr)
  · rename_i inside hinside
    have hinside := length_accept hinside
    refine ((settles_callArguments.settledAt inside).good _ (Nat.lt_succ_self _)).bind
      fun s hs => hcall s ?_
    omega

theorem leaves_mixinHead (c : Cursor) : Leaves c.rest.length c.mixinHead := by
  rw [mixinHead]
  refine c.leaves_mixinName.bind fun r hr => ?_
  refine r.2.skipTrivia.leaves_parameters.bind fun s hs => .result ?_
  have hname := r.2.length_skipTrivia
  have hend := s.2.length_skipTrivia
  show (Cursor.rest (if _ then _ else _)).length < c.rest.length
  split
  · have hdrop := s.2.skipTrivia.length_drop "when".length
    have hguard := length_move (guard_append 0 (s.2.skipTrivia.drop "when".length).rest)
    omega
  · omega

end Cursor

end Less.Parse
