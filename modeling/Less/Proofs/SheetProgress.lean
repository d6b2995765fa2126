import Less.Proofs.Groups
import Less.Proofs.InBounds
import Less.Proofs.Progress

/-! # A source text is read to its end

    A block is read by a loop that calls itself on the blocks inside: these start behind a
    brace, so that they are shorter, and the loop settles (`settles_entries`).  Then the
    loops of media and of statements settle, too.

    So every source text is read, or refused for a fault of its own (`ends_parse`).
    `MakesProgress` puts this together with the progress of each loop and with the counters
    and cuts that stay in bounds. -/

namespace Less.Parse

open Less.Text

namespace Cursor

variable {c : Cursor}

/-! ## Rule sets -/

/-- The reader of blocks ends on fewer than `n` characters. -/
def EndsBelow (n : Nat) (block : BlockReader) : Prop :=
  ∀ c : Cursor, c.rest.length < n → Leaves c.rest.length (block c)

section RuleSets

variable {block block' : BlockReader} (hblock : EndsBelow c.rest.length block)
  (heq : ∀ inside : Cursor, inside.rest.length < c.rest.length → block inside = block' inside)

include hblock in
/-- A rule set behind `after` takes the brace of its block. -/
theorem leaves_ruleSetBlock {after : Cursor} (hafter : after.rest.length ≤ c.rest.length)
    (start : Position) (selectors : List Selector) (params : Option Parameters) :
    Leaves c.rest.length (after.ruleSetBlock block start selectors params) := by
  rw [ruleSetBlock]
  refine (after.ends_expect '{').bind fun inside hinside => ?_
  have hlt := Nat.lt_of_lt_of_le hinside hafter
  exact (hblock inside hlt).bind fun r hr => .result (Nat.lt_trans hr hlt)

include heq in
theorem ruleSetBlock_congr {after : Cursor} (hafter : after.rest.length ≤ c.rest.length)
    (start : Position) (selectors : List Selector) (params : Option Parameters) :
    after.ruleSetBlock block start selectors params =
      after.ruleSetBlock block' start selectors params := by
  rw [ruleSetBlock, ruleSetBlock]
  refine (after.ends_expect '{').bind_congr fun inside hinside => ?_
  rw [heq inside (Nat.lt_of_lt_of_le hinside hafter)]

include hblock in
theorem leaves_mixinDefinition : Leaves c.rest.length (c.mixinDefinition block) :=
  c.leaves_mixinHead.bind fun _ hr => leaves_ruleSetBlock hblock (Nat.le_of_lt hr) _ _ _

include heq in
theorem mixinDefinition_congr : c.mixinDefinition block = c.mixinDefinition block' :=
  c.leaves_mixinHead.bind_congr fun _ hr => ruleSetBlock_congr heq (Nat.le_of_lt hr) _ _ _

include hblock in
theorem leaves_ruleSet : Leaves c.rest.length (c.ruleSet block) := by
  rw [ruleSet]
  refine c.leaves_head.bind fun r hr => ?_
  simp only
  split
  · exact .fault rfl
  · exact leaves_ruleSetBlock hblock (Nat.le_of_lt_succ hr) _ _ _

include heq in
theorem ruleSet_congr : c.ruleSet block = c.ruleSet block' := by
  rw [ruleSet, ruleSet]
  refine c.leaves_head.bind_congr fun r hr => ?_
  simp only
  split
  · rfl
  · exact ruleSetBlock_congr heq (Nat.le_of_lt_succ hr) _ _ _

end RuleSets

/-! ## Entries of blocks -/

/-- What to do in a block: at the end of the text, at its closing brace, at the name of a
    rule or a variable, or at another character. -/
def atEntry {β : Type} (c : Cursor) (ended closed keyword other : β) : β :=
  match c.peek? with
  | none => ended
  | some '}' => closed
  | some '@' => keyword
  | some _ => other

theorem run_atEntry {σ ρ : Type} (loop : σ → ρ) (c : Cursor)
    (ended closed keyword other : Round σ ρ) :
    (c.atEntry ended closed keyword other).run loop =
      c.atEntry (ended.run loop) (closed.run loop) (keyword.run loop) (other.run loop) := by
  rw [atEntry, atEntry]
  split <;> rfl

/-- The closing brace is taken. -/
theorem atEntry_of {β : Type} {P : β → Prop} {ended closed keyword other : β} (hended : P ended)
    (hclosed : c.advance.rest.length < c.rest.length → P closed) (hkeyword : P keyword)
    (hother : P other) : P (c.atEntry ended closed keyword other) := by
  rw [atEntry]
  split
  · exact hended
  · exact hclosed (length_advance_of_peek ‹_›)
  · exact hkeyword
  · exact hother

/-- A round that reads an entry. -/
def entryFrom {α : Type} (x : Except Fault (Parsed α)) (entry : α → Entry) :
    Round Cursor (Except Fault (Parsed (List Entry))) :=
  .read x fun (a, after) => .next after (withResult fun more => entry a :: more)

theorem run_entryFrom {α : Type} (loop : Cursor → Except Fault (Parsed (List Entry)))
    (x : Except Fault (Parsed α)) (entry : α → Entry) :
    (entryFrom x entry).run loop = (do
      let (a, after) ← x
      let (more, last) ← loop after
      return (entry a :: more, last)) :=
  Round.run_read _ _ _

/-- A round of the entries of a block, with the reader of the blocks in it. -/
def entryRound (block : BlockReader) (nested : Bool) (before : Cursor) :
    Round Cursor (Except Fault (Parsed (List Entry))) :=
  let c := before.skipTrivia
  c.atEntry (.done (c.fail .missingBrace)) (.done (.ok ([], c.advance)))
    (if c.variableAhead then entryFrom c.variableDefinition fun v => .variable v.1 v.2
      else .done c.nestedAtRule)
    (if mixinDefinitionAhead c.rest then
      if nested then entryFrom (c.mixinDefinition block) fun r => .element (.ruleSet r)
      else .done (c.fail .mixinDefinitionInside)
    else if mixinCallAhead c.rest then entryFrom c.mixinCall fun call => .item (.mixin call)
    else
      match entryKind false none c.rest with
      | some .declaration => entryFrom c.declaration fun d => .item (.declaration d)
      | some .ruleSet =>
        if nested then entryFrom (c.ruleSet block) fun r => .element (.ruleSet r)
        else .done (c.fail .nestedRuleSet)
      | none => .done (c.fail .expectedItem))

/-- A block within a bound. -/
def blockWithin (n : Nat) : BlockReader := fun c => do
  let (inner, c) ← entries n true c
  return (.ofEntries inner, c)

theorem entries_succ (n : Nat) (nested : Bool) (c : Cursor) :
    entries (n + 1) nested c = (entryRound (blockWithin n) nested c).run (entries n nested) := by
  rw [entries, entryRound, run_atEntry]
  simp only [apply_ite (Round.run (entries n nested)), run_entryFrom]
  show atEntry _ _ _ _ _ = atEntry _ _ _ _ _
  congr 1
  cases entryKind false none c.skipTrivia.rest with
  | none => rfl
  | some kind =>
      cases kind with
      | declaration =>
          simp only [run_entryFrom]
          rfl
      | ruleSet =>
          simp only [apply_ite (Round.run (entries n nested)), run_entryFrom]
          rfl

/-- A round depends on the blocks behind its start only. -/
theorem entryRound_congr {block block' : BlockReader} {nested : Bool} {before : Cursor}
    (heq : ∀ inside : Cursor, inside.rest.length < before.rest.length →
      block inside = block' inside) :
    entryRound block nested before = entryRound block' nested before := by
  have hc : ∀ inside : Cursor, inside.rest.length < before.skipTrivia.rest.length →
      block inside = block' inside :=
    fun inside hinside => heq inside (Nat.lt_of_lt_of_le hinside before.length_skipTrivia)
  rw [entryRound, entryRound, mixinDefinition_congr hc, ruleSet_congr hc]

/-- What a round of entries has to do: the entry is taken, and the rest leaves less. -/
abbrev FitsEntries (before : Cursor) (r : Round Cursor (Except Fault (Parsed (List Entry)))) :
    Prop :=
  r.Fits (fun c => c.rest.length) (fun c => Leaves c.rest.length) before

theorem fits_entryFrom {α : Type} {before : Cursor} {x : Except Fault (Parsed α)}
    (hx : Leaves before.rest.length x) (entry : α → Entry) :
    FitsEntries before (entryFrom x entry) :=
  hx.fits_read (fun _ hf => .fault hf) fun _ hr =>
    .next hr fun _ hy => Ends.withResult hy fun _ _ hlt => Nat.lt_trans hlt hr

/-- A round of entries takes at least one character. -/
theorem fits_entryRound {block : BlockReader} {before : Cursor}
    (hblock : EndsBelow before.rest.length block) (nested : Bool) :
    FitsEntries before (entryRound block nested before) := by
  have hc := before.length_skipTrivia
  have hinner : EndsBelow before.skipTrivia.rest.length block :=
    fun inside hinside => hblock inside (Nat.lt_of_lt_of_le hinside hc)
  rw [entryRound]
  refine atEntry_of (.done (.fault rfl))
    (fun hlt => .done (.result (Nat.lt_of_lt_of_le hlt hc))) ?_ ?_
  · refine Round.fits_ite ?_ (.done (.fault rfl))
    exact fits_entryFrom ((leaves_variableDefinition _).mono hc) _
  · refine Round.fits_ite (Round.fits_ite ?_ (.done (.fault rfl))) (Round.fits_ite ?_ ?_)
    · exact fits_entryFrom ((leaves_mixinDefinition hinner).mono hc) _
    · exact fits_entryFrom ((leaves_mixinCall _).mono hc) _
    · split
      · exact fits_entryFrom ((leaves_declaration _).mono hc) _
      · refine Round.fits_ite ?_ (.done (.fault rfl))
        exact fits_entryFrom ((leaves_ruleSet hinner).mono hc) _
      · exact .done (.fault rfl)

/-- **The loop of the entries of a block settles.** -/
theorem settles_entries :
    Settles (fun s : Bool × Cursor => s.2.rest.length)
      (fun s => (entryRound block s.1 s.2).map (Prod.mk s.1)) (fun n s => entries n s.1 s.2)
      fun s => Leaves s.2.rest.length where
  unfolds n s hn hbelow := by
    have hblock : ∀ inside : Cursor, inside.rest.length < s.2.rest.length →
        blockWithin n inside = block inside := by
      intro inside hinside
      rw [blockWithin, block, (hbelow (true, inside) hinside).eq n _
        (Nat.lt_of_lt_of_le hinside hn) (Nat.lt_succ_self _)]
    rw [entries_succ, entryRound_congr hblock, Round.run_map]
  fits s hbelow := by
    refine Round.Fits.map (g := Prod.mk s.1) (s := s.2) ?_
    refine fits_entryRound (fun inside hinside => ?_) s.1
    exact ((hbelow (true, inside) hinside).good _ (Nat.lt_succ_self _)).map Block.ofEntries

theorem leaves_entries (nested : Bool) (c : Cursor) :
    Leaves c.rest.length (entries (c.rest.length + 1) nested c) :=
  (settles_entries.settledAt (nested, c)).good _ (Nat.lt_succ_self _)

theorem endsBelow_block (n : Nat) : EndsBelow n block :=
  fun c _ => (leaves_entries true c).map Block.ofEntries

/-! ## Pages, media and keyframes -/

/-- The head behind a keyword. It may be empty. -/
theorem leaves_atHead (c : Cursor) : Leaves (c.rest.length + 1) c.atKeyword.2.head :=
  c.atKeyword.2.leaves_head.mono (Nat.succ_le_succ c.length_atKeyword)

theorem leaves_page (c : Cursor) : Leaves c.rest.length c.page := by
  rw [page]
  refine c.leaves_atHead.bind fun r hr => ?_
  refine (r.2.ends_expect '{').bind fun inside hinside => ?_
  refine (leaves_entries false inside).bind fun s hs => .result ?_
  have hinside' := Nat.lt_of_lt_of_le hinside (Nat.le_of_lt_succ hr)
  exact Nat.lt_trans hs hinside'

/-- A round of the entries of media or keyframes. -/
def elementRound (before : Cursor) : Round Cursor (Except Fault (Parsed (List Entry))) :=
  let c := before.skipTrivia
  c.atEntry (.done (c.fail .missingBrace)) (.done (.ok ([], c.advance)))
    (if c.variableAhead then entryFrom c.variableDefinition fun v => .variable v.1 v.2
      else if lowerAscii c.atKeyword.1 = "page" then entryFrom c.page fun p => .element (.page p)
      else .done c.nestedAtRule)
    (if mixinDefinitionAhead c.rest then
      entryFrom (c.mixinDefinition block) fun r => .element (.ruleSet r)
    else if mixinCallAhead c.rest then .done (c.fail .mixinCallOutside)
    else entryFrom (c.ruleSet block) fun r => .element (.ruleSet r))

theorem elementEntries_succ (n : Nat) (c : Cursor) :
    elementEntries (n + 1) c = (elementRound c).run (elementEntries n) := by
  rw [elementEntries, elementRound, run_atEntry]
  simp only [apply_ite (Round.run (elementEntries n)), run_entryFrom]
  rfl

/-- **The loop of the entries of media or keyframes settles.** -/
theorem settles_elementEntries :
    Settles (fun c => c.rest.length) elementRound elementEntries fun c => Leaves c.rest.length where
  unfolds n c _ _ := elementEntries_succ n c
  fits before _ := by
    have hc := before.length_skipTrivia
    rw [elementRound]
    refine atEntry_of (P := FitsEntries before) (.done (.fault rfl))
      (fun hlt => .done (.result (Nat.lt_of_lt_of_le hlt hc))) ?_ ?_
    · refine Round.fits_ite ?_ (Round.fits_ite ?_ ?_)
      · exact fits_entryFrom ((leaves_variableDefinition _).mono hc) _
      · exact fits_entryFrom ((leaves_page _).mono hc) _
      · exact .done (.fault rfl)
    · refine Round.fits_ite ?_ (Round.fits_ite (.done (.fault rfl)) ?_)
      · exact fits_entryFrom ((leaves_mixinDefinition (endsBelow_block _)).mono hc) _
      · exact fits_entryFrom ((leaves_ruleSet (endsBelow_block _)).mono hc) _

theorem leaves_elementEntries (c : Cursor) :
    Leaves c.rest.length (elementEntries (c.rest.length + 1) c) :=
  (settles_elementEntries.settledAt c).good _ (Nat.lt_succ_self _)

theorem leaves_elementBlock (c : Cursor) : Leaves c.rest.length c.elementBlock := by
  rw [elementBlock]
  refine (c.ends_expect '{').bind fun inside hinside => ?_
  exact (leaves_elementEntries inside).bind fun r hr => .result (Nat.lt_trans hr hinside)

theorem leaves_media (c : Cursor) : Leaves c.rest.length c.media := by
  rw [media]
  refine c.leaves_atHead.bind fun r hr => ?_
  refine r.2.leaves_elementBlock.bind fun s hs => .result ?_
  exact Nat.lt_of_lt_of_le hs (Nat.le_of_lt_succ hr)

theorem leaves_keyframes (c : Cursor) : Leaves c.rest.length c.keyframes := by
  rw [keyframes]
  refine c.leaves_atHead.bind fun r hr => ?_
  refine r.2.leaves_elementBlock.bind fun s hs => .result ?_
  exact Nat.lt_of_lt_of_le hs (Nat.le_of_lt_succ hr)

theorem leaves_atRuleSet (c : Cursor) : Leaves c.rest.length c.atRuleSet := by
  rw [atRuleSet]
  refine c.leaves_atHead.bind fun r hr => ?_
  exact leaves_ruleSetBlock (endsBelow_block _) (Nat.le_of_lt_succ hr) _ _ _

/-! ## Statements -/

theorem leaves_statementText (c : Cursor) : Leaves c.rest.length c.statementText := by
  rw [statementText]
  refine (c.leaves_upTo ';').bind fun r hr => ?_
  exact (r.2.ends_expect ';').bind fun after hafter =>
    .result (Nat.lt_of_lt_of_le hafter (Nat.le_of_lt_succ hr))

theorem ends_importOptions (c : Cursor) (cs : List Char) :
    Ends (fun _ => True) (importOptions c cs) := by
  rw [importOptions.eq_def]
  split
  · exact .ite (fun _ => .result trivial) (.fault rfl)
  · exact .result trivial

theorem leaves_importStatement (c : Cursor) : Leaves c.rest.length c.importStatement := by
  rw [importStatement]
  refine c.atKeyword.2.leaves_statementText.bind fun r hr => ?_
  have hlt := Nat.lt_of_lt_of_le hr c.length_atKeyword
  refine (ends_importOptions c _).bind fun s _ => ?_
  simp only
  split
  · exact .ite (fun _ => .result hlt) (.result hlt)
  · exact .result hlt

theorem leaves_atStatement (c : Cursor) : Leaves c.rest.length c.atStatement := by
  rw [atStatement]
  refine .ite (fun _ => c.leaves_variableDefinition.map fun v => Statement.variable v.1 v.2) ?_
  refine .ite (fun _ => c.leaves_importStatement) ?_
  refine .ite (fun _ => ((leaves_statementText _).map fun text =>
    Statement.charset (String.ofList (trim text))).mono c.length_atKeyword) ?_
  refine .ite (fun _ => c.leaves_media.map fun m => Statement.element (.media m)) ?_
  refine .ite (fun _ => c.leaves_page.map fun p => Statement.element (.page p)) ?_
  refine .ite (fun _ => c.leaves_keyframes.map fun k => Statement.element (.keyframes k)) ?_
  exact .ite (fun _ => c.leaves_atRuleSet.map fun r => Statement.element (.ruleSet r)) (.fault rfl)

/-- **A statement takes at least one character.** -/
theorem leaves_statement (c : Cursor) : Leaves c.rest.length c.statement := by
  rw [statement]
  refine .ite (fun _ => c.leaves_atStatement) (.ite (fun _ => ?_) (.ite (fun _ => .fault rfl) ?_))
  · exact (leaves_mixinDefinition (endsBelow_block _)).map fun r => Statement.element (.ruleSet r)
  · exact (leaves_ruleSet (endsBelow_block _)).map fun r => Statement.element (.ruleSet r)

/-- A round of the statements of a source text. -/
def statementRound (before : Cursor) : Round Cursor (List Statement × Option Fault) :=
  let c := before.skipTrivia
  if c.rest = [] then .done ([], none)
  else
    match c.statement with
    | .error f => .done ([], some f)
    | .ok (s, after) => .next after fun r => (s :: r.1, r.2)

/-- **The loop of the statements settles.** -/
theorem settles_statements :
    Settles (fun c => c.rest.length) statementRound statementsFrom
      fun _ r => ∀ f, r.2 = some f → f.cause.isOfText = true where
  unfolds n c _ _ := by
    rw [statementsFrom, statementRound]
    simp only
    split
    · rfl
    · cases c.skipTrivia.statement with
      | error | ok => rfl
  fits before _ := by
    have hstatement := before.skipTrivia.leaves_statement.mono before.length_skipTrivia
    rw [statementRound]
    split
    · refine .done fun f hf => ?_
      cases hf
    · generalize before.skipTrivia.statement = x at hstatement ⊢
      cases hstatement with
      | fault hf =>
          refine .done fun f hsome => ?_
          cases hsome
          exact hf
      | result hlt => exact .next hlt fun _ hr => hr

end Cursor

/-- **A source text is read, or refused for a fault of its own.** -/
theorem ends_parse (cs : List Char) : Ends (fun _ => True) (Sheet.parse cs) := by
  have hgood : ∀ f, (statements cs).2 = some f → f.cause.isOfText = true :=
    (Cursor.settles_statements.settledAt (.ofText cs)).good _ (Nat.lt_succ_self _)
  rw [Sheet.parse]
  split
  · rename_i f hstatements
    exact .fault (hgood f (congrArg Prod.snd hstatements))
  · exact .result trivial

/-! ## The whole reader -/

/-- A parenthesis is closed if one is open, and the number of open ones is exact. -/
theorem nesting?_cases (depth : Nat) (kind : TokenKind) :
    (depth = 0 ∧ kind = .rparen ∧ Cursor.nesting? depth kind = none) ∨
      ∃ inner : Nat, Cursor.nesting? depth kind = some inner ∧
        (inner : Int) = depth + kind.change := by
  cases kind with
  | rparen =>
      cases depth with
      | zero => exact Or.inl ⟨rfl, rfl, rfl⟩
      | succ depth => exact Or.inr ⟨depth, rfl, nesting?_eq_some rfl⟩
  | lparen | call => exact Or.inr ⟨depth + 1, rfl, nesting?_eq_some rfl⟩
  | number | color | var | word | access | comma | plus | minus | star | slash =>
      exact Or.inr ⟨depth, rfl, nesting?_eq_some rfl⟩

/-- **The reader makes progress and stays in bounds.** -/
structure MakesProgress : Prop where
  /-- A source text is read or refused; no fault comes from a bound. -/
  ends : ∀ cs, (∃ sheet, Sheet.parse cs = .ok sheet) ∨ ∃ f, Sheet.parse cs = .error f ∧
    f.cause ≠ .exhausted ∧ f.toError.kind = .parse f.cause.message
  statements : Progresses (fun c => c.rest.length) Cursor.statementRound
    fun c => Cursor.statementsFrom (c.rest.length + 1) c
  entries : ∀ nested, Progresses (fun c => c.rest.length)
    (Cursor.entryRound Cursor.block nested)
    fun c => Cursor.entries (c.rest.length + 1) nested c
  elementEntries : Progresses (fun c => c.rest.length) Cursor.elementRound
    fun c => Cursor.elementEntries (c.rest.length + 1) c
  parameters : Progresses (fun s => s.2.rest.length) Cursor.parameterRound
    fun s => Cursor.parametersFrom (s.2.rest.length + 1) s.1 s.2
  callArguments : Progresses (fun c => c.rest.length) Cursor.callArgumentRound
    fun c => Cursor.callArgumentsFrom (c.rest.length + 1) c
  tokens : ∀ stops, Progresses (fun s => s.2.rest.length) (Cursor.tokenRound stops)
    fun s => Cursor.tokensFrom stops (s.2.rest.length + 1) s.1 s.2
  items : ∀ last depth stops, Progresses (fun s => s.2.length)
    (itemRound last (readItems last (depth + 1) [.rparen] true) (readArguments last (depth + 1))
      depth stops)
    fun s => readItems last depth stops s.1 s.2
  arguments : ∀ last depth, Progresses List.length
    (argumentRound last (readItems last depth [.comma, .rparen] true)) (readArguments last depth)
  /-- A token takes at least one character. -/
  token : ∀ (c : Cursor) ch next kind after, c.rest = ch :: next →
    c.tokenAt ch next = .ok (kind, after) → after.rest.length < c.rest.length
  /-- The number of open parentheses is exact, and a closing one is refused at zero. -/
  nesting : ∀ depth kind, (depth = 0 ∧ kind = .rparen ∧ Cursor.nesting? depth kind = none) ∨
    ∃ inner : Nat, Cursor.nesting? depth kind = some inner ∧ (inner : Int) = depth + kind.change
  balanced : ∀ cs, skipBalanced? 1 cs = some (afterBalanced? 0 cs)
  rawCall : ∀ start (c : Cursor), c.peek? = some '(' →
    Cursor.rawScan? start 0 none c.position c.rest =
      some (Cursor.rawArguments start 0 none c.position c.rest)
  /-- The content of a string is cut out behind `~`. -/
  escaped : ∀ (c : Cursor) next, c.rest = '~' :: next → nextIs isQuote next = true →
    c.advance.quotedSlice? = some c.advance.quotedContent
  /-- The content of a string is cut out as the name of a member. -/
  member : ∀ c : Cursor, c.peek? = some '"' ∨ c.peek? = some '\'' →
    c.quotedSlice? = some c.quotedContent
  importOptions : ∀ c cs, importSlices? c cs = some (importOptions c cs)

/-- **On every source text the reader makes progress and stays in bounds.** -/
theorem reader_makes_progress : MakesProgress where
  ends cs := by
    have hends := ends_parse cs
    generalize Sheet.parse cs = x at hends ⊢
    cases hends with
    | fault hf => exact Or.inr ⟨_, rfl, Cause.isOfText_iff.mp hf, rfl⟩
    | result _ => exact Or.inl ⟨_, rfl⟩
  statements := Cursor.settles_statements.progresses fun _ => Nat.lt_succ_self _
  entries nested := by
    have hall : Progresses (fun s : Bool × Cursor => s.2.rest.length)
        (fun s => (Cursor.entryRound Cursor.block s.1 s.2).map (Prod.mk s.1))
        fun s => Cursor.entries (s.2.rest.length + 1) s.1 s.2 :=
      Cursor.settles_entries.progresses fun _ => Nat.lt_succ_self _
    exact hall.comap (g := Prod.mk nested) (fun _ => rfl) fun _ _ h => h
  elementEntries := Cursor.settles_elementEntries.progresses fun _ => Nat.lt_succ_self _
  parameters := Cursor.settles_parameters.progresses fun _ => Nat.lt_succ_self _
  callArguments := Cursor.settles_callArguments.progresses fun _ => Nat.lt_succ_self _
  tokens stops := (Cursor.settles_tokens stops).progresses fun _ => Nat.lt_succ_self _
  items last depth stops := progresses_items depth stops
  arguments last depth := progresses_arguments depth
  token c ch next kind after hrest htoken := by
    have hleaves := Cursor.leaves_tokenAt hrest
    rw [htoken] at hleaves
    cases hleaves with
    | result hlt => exact hlt
  nesting := nesting?_cases
  balanced := skipBalanced?_eq 0
  rawCall start c := Cursor.rawScan?_of_peek start
  escaped c next hrest hquote := by
    refine Cursor.quotedSlice?_eq ?_
    rw [Cursor.advance, hrest]
    exact hquote
  member c hquote := by
    refine Cursor.quotedSlice?_eq ?_
    rcases hquote with hquote | hquote
    · obtain ⟨rest, hrest⟩ := List.head?_eq_some_iff.mp hquote
      rw [hrest]
      rfl
    · obtain ⟨rest, hrest⟩ := List.head?_eq_some_iff.mp hquote
      rw [hrest]
      rfl
  importOptions := importSlices?_eq

end Less.Parse
