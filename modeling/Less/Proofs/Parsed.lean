import Less.Parse.Statement
import Less.Proofs.Diagnostics
import Less.Proofs.Grounded

/-! # Every diagnostic points into the source

    Whatever is read from a source text has positions of that text: declarations
    and calls, the elements of a sheet, and the expressions in them.  So the
    sheet is anchored in the positions of the text, and **every diagnostic points
    into the source** (`diagnostics_in_source`): a fault of the reader, and
    whatever resolving the sheet reports.

    The readers of blocks recurse on a bound, and take the reader of the blocks
    inside them as an argument; `SoundBlock` is what they ask of it. -/

namespace Less

namespace Parse

variable {source : List Char} {c : Cursor}

/-! ## Contents of blocks -/

/-- The expression is anchored in the text. -/
abbrev ExprIn (source : List Char) (e : Expr) : Prop :=
  e.Anchored (Position.IsIn source)

/-- The item is anchored in the text. -/
abbrev ItemIn (source : List Char) (i : Item) : Prop :=
  i.Anchored (Position.IsIn source)

/-- The element is anchored in the text. -/
abbrev ElementIn (source : List Char) (e : Element) : Prop :=
  e.Anchored (Position.IsIn source)

/-- The defaults of parameters are anchored in the text. -/
def ParametersIn (source : List Char) (params : Parameters) : Prop :=
  ∀ entry ∈ params.entries, ∀ v, entry.2 = some v → ExprIn source v

/-- The entry is anchored in the text. -/
def EntryIn (source : List Char) : Entry → Prop
  | .variable _ value => ExprIn source value
  | .item i => ItemIn source i
  | .element e => ElementIn source e

/-- All that stands in the block is anchored in the text. -/
structure BlockIn (source : List Char) (b : Block) : Prop where
  items : ∀ i ∈ b.items, ItemIn source i
  container : b.container.Anchored (Position.IsIn source)

theorem containerIn_empty {S : Position → Prop} : Container.empty.Anchored S :=
  ⟨nofun, nofun⟩

theorem BlockIn.add {b : Block} (hb : BlockIn source b) {entry : Entry}
    (h : EntryIn source entry) : BlockIn source (b.add entry) := by
  match entry with
  | .variable name value => exact ⟨hb.items, hb.container.setVariable name h⟩
  | .item i =>
      refine ⟨fun j hj => ?_, hb.container⟩
      rcases List.mem_append.mp hj with hj | hj
      · exact hb.items j hj
      · rw [List.mem_singleton.mp hj]
        exact h
  | .element e => exact ⟨hb.items, hb.container.addAll (List.forall_mem_singleton.mpr h)⟩

theorem blockIn_ofEntries {entries : List Entry} (h : ∀ e ∈ entries, EntryIn source e) :
    BlockIn source (.ofEntries entries) := by
  have hall : ∀ b : Block, BlockIn source b → BlockIn source (entries.foldl Block.add b) := by
    induction entries with
    | nil => exact fun b hb => hb
    | cons entry entries ih =>
        obtain ⟨hentry, hentries⟩ := List.forall_mem_cons.mp h
        exact fun b hb => ih hentries _ (hb.add hentry)
  exact hall {} ⟨nofun, containerIn_empty⟩

namespace Cursor

/-! ## Variables, declarations, mixins -/

theorem reads_variableDefinition (h : c.On source) :
    Reads source (fun v => ExprIn source v.2) c.variableDefinition := by
  rw [variableDefinition]
  refine (sound_expect h '@').bind fun c₁ h₁ => ?_
  refine (sound_expect h₁.name.skipTrivia ':').bind fun c₂ h₂ => ?_
  refine (reads_value h₂ statementStops).bind fun r hr => ?_
  exact .result ⟨(Expr.Grounded.ofItems hr.1 h.isIn).anchored, hr.2.skip ';'⟩

theorem reads_declaration (h : c.On source) :
    Reads source (fun d => ItemIn source (.declaration d)) c.declaration := by
  have hafter := (h.takeWhile (!endsProperty ·)).skipTrivia
  rw [declaration]
  refine .ite (sound_fail h _) ?_
  refine (sound_expect hafter ':').bind fun c₁ h₁ => ?_
  refine (reads_value h₁ statementStops).bind fun r hr => ?_
  exact .result ⟨⟨⟨c.position, rfl, h.isIn⟩, fun e he => (hr.1 e he).anchored⟩, hr.2.skip ';'⟩

theorem parametersIn_set {params : Parameters} (hparams : ParametersIn source params)
    (name : String) {default : Option Expr} (h : ∀ v, default = some v → ExprIn source v) :
    ParametersIn source (params.set name default) := by
  intro entry hentry
  rcases Bindings.mem_setEntry hentry with rfl | hentry
  · exact h
  · exact hparams entry hentry

theorem reads_parametersFrom : ∀ {n : Nat} {params : Parameters} {c : Cursor},
    ParametersIn source params → c.On source →
      Reads source (ParametersIn source) (parametersFrom n params c) := by
  intro n
  induction n with
  | zero => intro params c _ h; exact sound_fail h _
  | succ n ih =>
      intro params c hparams h
      have hstart := h.skipTrivia
      rw [parametersFrom]
      simp only
      split
      · rename_i after hafter
        exact .result ⟨hparams, hstart.accept? hafter⟩
      · refine (sound_expect hstart '@').bind fun c₁ h₁ => ?_
        refine .ite (sound_fail hstart _) ?_
        -- the default, if there is one
        have hdefault : ∀ {default : Option Expr} {after : Cursor}, after.On source →
            (∀ v, default = some v → ExprIn source v) →
            Reads source (fun default => ∀ v, default = some v → ExprIn source v)
              (pure (default, after)) := fun hafter hv => .result ⟨hv, hafter⟩
        split
        case' h_1 =>
          refine (hdefault h₁.name.skipTrivia fun _ h => by cases h).bind fun r hr => ?_
        case' h_2 after hafter =>
          refine (reads_value (h₁.name.skipTrivia.accept? hafter) argumentStops).bind
            fun value hvalue => (hdefault hvalue.2 ?_).bind fun r hr => ?_
          · rintro v ⟨⟩
            exact (Expr.Grounded.ofItems hvalue.1 hstart.isIn).anchored
        -- what follows it
        all_goals
          have hset := parametersIn_set hparams c₁.name.1 hr.1
          have hend := hr.2.skipTrivia
          split
          · exact ih hset hend.advance
          · exact ih hset hend.advance
          · exact .result ⟨hset, hend.advance⟩
          · exact sound_fail hend.advance _

theorem reads_parameters (h : c.On source) :
    Reads source (ParametersIn source) c.parameters :=
  (sound_expect h '(').bind fun _ h₁ => reads_parametersFrom nofun h₁

theorem reads_callArgumentsFrom : ∀ {n : Nat} {c : Cursor}, c.On source →
    Reads source (fun es => ∀ e ∈ es, ExprIn source e) (callArgumentsFrom n c) := by
  intro n
  induction n with
  | zero => intro c h; exact sound_fail h _
  | succ n ih =>
      intro c h
      have hstart := h.skipTrivia
      rw [callArgumentsFrom]
      simp only
      split
      · rename_i after hafter
        exact .result ⟨nofun, hstart.accept? hafter⟩
      · refine (reads_value hstart argumentStops).bind fun r hr => ?_
        have hargument := (Expr.Grounded.ofItems hr.1 hstart.isIn).anchored
        simp only
        split
        · exact (ih hr.2.advance).bind fun s hs =>
            .result ⟨List.forall_mem_cons.mpr ⟨hargument, hs.1⟩, hs.2⟩
        · exact (ih hr.2.advance).bind fun s hs =>
            .result ⟨List.forall_mem_cons.mpr ⟨hargument, hs.1⟩, hs.2⟩
        · exact .result ⟨List.forall_mem_singleton.mpr hargument, hr.2.advance⟩
        · exact sound_fail hr.2.advance _

theorem reads_mixinCall (h : c.On source) :
    Reads source (fun call => ItemIn source (.mixin call)) c.mixinCall := by
  rw [mixinCall]
  refine (reads_mixinName h).bind fun r hr => ?_
  have hname := hr.2.skipTrivia
  have hcall : ∀ (r' : Parsed (List Expr)), (∀ e ∈ r'.1, ExprIn source e) → r'.2.On source →
      Reads source (fun call => ItemIn source (.mixin call))
        (.ok (⟨.ofText r.1, r'.1, some c.position⟩, r'.2.skipTrivia.skip ';')) :=
    fun r' harguments hr' =>
      .result ⟨⟨⟨c.position, rfl, h.isIn⟩, harguments⟩, hr'.skipTrivia.skip ';'⟩
  simp only
  split
  · exact hcall ([], r.2.skipTrivia) nofun hname
  · rename_i after hafter
    exact (reads_callArgumentsFrom (hname.accept? hafter)).bind fun s hs => hcall s hs.1 hs.2

theorem reads_mixinHead (h : c.On source) :
    Reads source (fun head => ParametersIn source head.2) c.mixinHead := by
  rw [mixinHead]
  refine (reads_mixinName h).bind fun r hr => ?_
  refine (reads_parameters hr.2.skipTrivia).bind fun s hs => .result ⟨hs.1, ?_⟩
  have hend := hs.2.skipTrivia
  show Cursor.On source (if _ then _ else _)
  split
  · exact (hend.drop _).move (guard_append 0 _)
  · exact hend

/-! ## Rule sets -/

/-- The reader of blocks is sound, and what it reads is anchored in the text. -/
def SoundBlock (source : List Char) (block : BlockReader) : Prop :=
  ∀ c : Cursor, c.On source → Reads source (BlockIn source) (block c)

theorem reads_ruleSetBlock {block : BlockReader} (hblock : SoundBlock source block)
    {start : Position} (hstart : start.IsIn source) (selectors : List Selector)
    {params : Option Parameters} (hparams : ∀ ps, params = some ps → ParametersIn source ps)
    (h : c.On source) :
    Reads source (fun r => ElementIn source (.ruleSet r))
      (c.ruleSetBlock block start selectors params) := by
  rw [ruleSetBlock]
  refine (sound_expect h '{').bind fun c₁ h₁ => ?_
  refine (hblock c₁ h₁).bind fun r hr => .result ⟨?_, hr.2⟩
  refine ⟨⟨start, rfl, hstart⟩, hr.1.items, fun x hx => ?_, hr.1.container.values,
    hr.1.container.body⟩
  -- a default of the rule set is one of its parameters
  cases params with
  | none => exact absurd hx List.not_mem_nil
  | some ps =>
      obtain ⟨entry, hentry, hdefault⟩ := List.mem_filterMap.mp hx
      exact hparams ps rfl entry hentry x hdefault

theorem reads_mixinDefinition {block : BlockReader} (hblock : SoundBlock source block)
    (h : c.On source) :
    Reads source (fun r => ElementIn source (.ruleSet r)) (c.mixinDefinition block) := by
  rw [mixinDefinition]
  refine (reads_mixinHead h).bind fun r hr => reads_ruleSetBlock hblock h.isIn _ ?_ hr.2
  rintro ps ⟨⟩
  exact hr.1

theorem reads_ruleSet {block : BlockReader} (hblock : SoundBlock source block) (h : c.On source) :
    Reads source (fun r => ElementIn source (.ruleSet r)) (c.ruleSet block) := by
  rw [ruleSet]
  refine (reads_head h).bind fun r hr => ?_
  simp only
  split
  · exact sound_fail h _
  · exact reads_ruleSetBlock hblock h.isIn _ nofun hr.2

theorem sound_nestedAtRule {α : Type} {P : α → Prop} (h : c.On source) :
    Sound source P (c.nestedAtRule : Except Fault α) :=
  sound_fail h _

/-- An entry is read, then those behind it. -/
theorem reads_next {α : Type} {P : α → Prop} {x : Except Fault (Parsed α)} (hx : Reads source P x)
    (entry : α → Entry) (hentry : ∀ a, P a → EntryIn source (entry a))
    {rest : Cursor → Except Fault (Parsed (List Entry))}
    (hrest : ∀ c : Cursor, c.On source →
      Reads source (fun es => ∀ e ∈ es, EntryIn source e) (rest c)) :
    Reads source (fun es => ∀ e ∈ es, EntryIn source e)
      (do
        let (a, after) ← x
        let (more, last) ← rest after
        return (entry a :: more, last)) :=
  hx.bind fun r hr => (hrest r.2 hr.2).bind fun _ hs =>
    .result ⟨List.forall_mem_cons.mpr ⟨hentry r.1 hr.1, hs.1⟩, hs.2⟩

/-- **All entries of a block are anchored in the text.** -/
theorem reads_entries : ∀ {n : Nat} {nested : Bool} {c : Cursor}, c.On source →
    Reads source (fun es => ∀ e ∈ es, EntryIn source e) (entries n nested c) := by
  intro n
  induction n with
  | zero => intro nested c h; exact sound_fail h _
  | succ n ih =>
      intro nested before hbefore
      have h := hbefore.skipTrivia
      have hblock : SoundBlock source fun c => do
          let (inner, c) ← entries n true c
          return (.ofEntries inner, c) :=
        fun c hc => (ih hc).bind fun _ hr => .result ⟨blockIn_ofEntries hr.1, hr.2⟩
      rw [entries]
      simp only
      split
      · exact sound_fail h _
      · exact .result ⟨nofun, h.advance⟩
      · refine .ite ?_ (sound_nestedAtRule h)
        exact reads_next (reads_variableDefinition h) (fun v => .variable v.1 v.2) (fun _ => id)
          fun _ => ih
      · refine .ite (.ite ?_ (sound_fail h _)) (.ite ?_ ?_)
        · exact reads_next (reads_mixinDefinition hblock h) (fun r => .element (.ruleSet r))
            (fun _ => id) fun _ => ih
        · exact reads_next (reads_mixinCall h) (fun call => .item (.mixin call)) (fun _ => id)
            fun _ => ih
        · split
          · exact reads_next (reads_declaration h) (fun d => .item (.declaration d)) (fun _ => id)
              fun _ => ih
          · refine .ite ?_ (sound_fail h _)
            exact reads_next (reads_ruleSet hblock h) (fun r => .element (.ruleSet r)) (fun _ => id)
              fun _ => ih
          · exact sound_fail h _

theorem soundBlock_block : SoundBlock source block :=
  fun _ hc => (reads_entries hc).bind fun _ hr => .result ⟨blockIn_ofEntries hr.1, hr.2⟩

/-! ## Pages, media and keyframes -/

theorem reads_page (h : c.On source) :
    Reads source (fun p => ElementIn source (.page p)) c.page := by
  rw [page]
  refine (reads_head h.atKeyword).bind fun r hr => ?_
  refine (sound_expect hr.2 '{').bind fun c₁ h₁ => ?_
  refine (reads_entries h₁).bind fun s hs => ?_
  have hb := blockIn_ofEntries hs.1
  exact .result ⟨⟨⟨c.position, rfl, h.isIn⟩, hb.items, nofun, hb.container.values,
    hb.container.body⟩, hs.2⟩

theorem reads_elementEntries : ∀ {n : Nat} {c : Cursor}, c.On source →
    Reads source (fun es => ∀ e ∈ es, EntryIn source e) (elementEntries n c) := by
  intro n
  induction n with
  | zero => intro c h; exact sound_fail h _
  | succ n ih =>
      intro before hbefore
      have h := hbefore.skipTrivia
      rw [elementEntries]
      simp only
      split
      · exact sound_fail h _
      · exact .result ⟨nofun, h.advance⟩
      · refine .ite ?_ (.ite ?_ (sound_nestedAtRule h))
        · exact reads_next (reads_variableDefinition h) (fun v => .variable v.1 v.2) (fun _ => id)
            fun _ => ih
        · exact reads_next (reads_page h) (fun p => .element (.page p)) (fun _ => id) fun _ => ih
      · refine .ite ?_ (.ite (sound_fail h _) ?_)
        · exact reads_next (reads_mixinDefinition soundBlock_block h)
            (fun r => .element (.ruleSet r))
            (fun _ => id) fun _ => ih
        · exact reads_next (reads_ruleSet soundBlock_block h) (fun r => .element (.ruleSet r))
            (fun _ => id) fun _ => ih

theorem reads_elementBlock (h : c.On source) :
    Reads source (fun c => c.Anchored (Position.IsIn source)) c.elementBlock := by
  rw [elementBlock]
  refine (sound_expect h '{').bind fun c₁ h₁ => ?_
  exact (reads_elementEntries h₁).bind fun r hr =>
    .result ⟨(blockIn_ofEntries hr.1).container, hr.2⟩

theorem reads_media (h : c.On source) :
    Reads source (fun m => ElementIn source (.media m)) c.media := by
  rw [media]
  refine (reads_head h.atKeyword).bind fun r hr => ?_
  refine (reads_elementBlock hr.2).bind fun s hs => .result ⟨?_, hs.2⟩
  exact ⟨⟨c.position, rfl, h.isIn⟩, nofun, nofun, hs.1.values, hs.1.body⟩

theorem reads_keyframes (h : c.On source) :
    Reads source (fun k => ElementIn source (.keyframes k)) c.keyframes := by
  rw [keyframes]
  refine (reads_head h.atKeyword).bind fun r hr => ?_
  refine (reads_elementBlock hr.2).bind fun s hs => .result ⟨?_, hs.2⟩
  exact ⟨⟨c.position, rfl, h.isIn⟩, nofun, nofun, hs.1.values, hs.1.body⟩

theorem reads_atRuleSet (h : c.On source) :
    Reads source (fun r => ElementIn source (.ruleSet r)) c.atRuleSet := by
  rw [atRuleSet]
  refine (reads_head h.atKeyword).bind fun r hr => ?_
  exact reads_ruleSetBlock soundBlock_block h.isIn _ nofun hr.2

/-! ## Statements -/

/-- What the statement adds to a sheet is anchored in the text. -/
def StatementIn (source : List Char) : Statement → Prop
  | .charset _ | .cssImport _ | .fileImport _ _ _ => True
  | .variable _ value => ExprIn source value
  | .element e => ElementIn source e

theorem reads_statementText (h : c.On source) : Reads source Any c.statementText := by
  rw [statementText]
  refine (reads_upTo h ';').bind fun r hr => ?_
  exact (sound_expect hr.2 ';').bind fun c₁ h₁ => .result ⟨trivial, h₁⟩

theorem sound_importOptions (h : c.On source) (cs : List Char) :
    Sound source Any (importOptions c cs) := by
  rw [importOptions.eq_def]
  split
  · exact .ite (.result trivial) (sound_fail h _)
  · exact .result trivial

theorem reads_importStatement (h : c.On source) :
    Reads source (StatementIn source) c.importStatement := by
  rw [importStatement]
  refine (reads_statementText h.atKeyword).bind fun r hr => ?_
  refine (sound_importOptions h _).bind fun s _ => ?_
  simp only
  split
  · exact .ite (.result ⟨trivial, hr.2⟩) (.result ⟨trivial, hr.2⟩)
  · exact .result ⟨trivial, hr.2⟩

/-- What is read is made into a statement. -/
theorem reads_as {α : Type} {P : α → Prop} {x : Except Fault (Parsed α)} (hx : Reads source P x)
    (statement : α → Statement) (h : ∀ a, P a → StatementIn source (statement a)) :
    Reads source (StatementIn source) (do let (a, after) ← x; return (statement a, after)) :=
  hx.bind fun r hr => .result ⟨h r.1 hr.1, hr.2⟩

theorem reads_atStatement (h : c.On source) :
    Reads source (StatementIn source) c.atStatement := by
  rw [atStatement]
  refine .ite (reads_as (reads_variableDefinition h) (fun v => .variable v.1 v.2) fun _ => id) ?_
  refine .ite (reads_importStatement h) ?_
  refine .ite (reads_as (reads_statementText h.atKeyword)
    (fun text => .charset (String.ofList (Text.trim text))) fun _ _ => trivial) ?_
  refine .ite (reads_as (reads_media h) (fun m => .element (.media m)) fun _ => id) ?_
  refine .ite (reads_as (reads_page h) (fun p => .element (.page p)) fun _ => id) ?_
  refine .ite (reads_as (reads_keyframes h) (fun k => .element (.keyframes k)) fun _ => id) ?_
  refine .ite (reads_as (reads_atRuleSet h) (fun r => .element (.ruleSet r)) fun _ => id) ?_
  exact sound_fail h _

theorem reads_statement (h : c.On source) : Reads source (StatementIn source) c.statement := by
  rw [statement]
  refine .ite (reads_atStatement h) (.ite ?_ (.ite (sound_fail h _) ?_))
  · exact reads_as (reads_mixinDefinition soundBlock_block h) (fun r => .element (.ruleSet r))
      fun _ => id
  · exact reads_as (reads_ruleSet soundBlock_block h) (fun r => .element (.ruleSet r)) fun _ => id

/-- The statements before a fault are anchored in the text, and the fault is in
    the text. -/
theorem statementsFrom_in : ∀ {n : Nat} {c : Cursor}, c.On source →
    (∀ s ∈ (statementsFrom n c).1, StatementIn source s) ∧
      ∀ f, (statementsFrom n c).2 = some f → f.position.IsIn source := by
  intro n
  induction n with
  | zero =>
      intro c h
      refine ⟨nofun, ?_⟩
      rintro f ⟨⟩
      exact h.isIn
  | succ n ih =>
      intro before hbefore
      have h := hbefore.skipTrivia
      have hstatement := reads_statement h
      rw [statementsFrom]
      simp only
      split
      · exact ⟨nofun, nofun⟩
      · split
        · rename_i f hf
          rw [hf] at hstatement
          refine ⟨nofun, ?_⟩
          rintro f' ⟨⟩
          cases hstatement with
          | fault h => exact h
        · rename_i s after hs
          rw [hs] at hstatement
          cases hstatement with
          | result h =>
              obtain ⟨hmore, hfault⟩ := ih h.2
              exact ⟨List.forall_mem_cons.mpr ⟨h.1, hmore⟩, hfault⟩

end Cursor

end Parse

/-! ## Sheets -/

open Parse

variable {source : List Char}

theorem Sheet.perform_in {sheet : Sheet} (hsheet : sheet.container.Anchored (Position.IsIn source))
    {s : Statement} (hs : Cursor.StatementIn source s) :
    (sheet.perform s).container.Anchored (Position.IsIn source) := by
  match s with
  | .charset _ | .cssImport _ | .fileImport _ _ _ => exact hsheet
  | .variable name value => exact hsheet.setVariable name hs
  | .element e => exact hsheet.addAll (List.forall_mem_singleton.mpr hs)

/-- **Reading** ends with a fault in the text, or with a sheet that is anchored
    in the text. -/
theorem Sheet.sound_parse (source : List Char) :
    Sound source (fun sheet => sheet.container.Anchored (Position.IsIn source))
      (Sheet.parse source) := by
  obtain ⟨hstatements, hfault⟩ :=
    Cursor.statementsFrom_in (n := source.length + 1) (Cursor.On.ofText source)
  rw [Sheet.parse, statements]
  split
  · rename_i ss f heq
    rw [heq] at hfault
    exact .fault (hfault f rfl)
  · rename_i ss heq
    rw [heq] at hstatements
    have hall : ∀ sheet : Sheet, sheet.container.Anchored (Position.IsIn source) →
        (ss.foldl Sheet.perform sheet).container.Anchored (Position.IsIn source) := by
      clear heq
      induction ss with
      | nil => exact fun sheet hsheet => hsheet
      | cons s ss ih =>
          obtain ⟨hs, hss⟩ := List.forall_mem_cons.mp hstatements
          exact fun sheet hsheet => ih hss _ (Sheet.perform_in hsheet hs)
    exact .result (hall .empty containerIn_empty)

/-! ## All positions of a sheet -/

mutual

/-- All positions in an expression. -/
def Expr.positions : Expr → List Position
  | .constant _ p | .literal _ p | .var _ p | .access _ _ p => p.toList
  | .list items p => p.toList ++ positionsOfAll items
  | .call _ arguments p => p.toList ++ positionsOfAll arguments
  | .binary _ left right p => p.toList ++ (left.positions ++ right.positions)

/-- All positions in expressions. -/
def positionsOfAll : List Expr → List Position
  | [] => []
  | e :: es => e.positions ++ positionsOfAll es

end

/-- All positions in a declaration or a call. -/
def Item.positions (i : Item) : List Position :=
  i.position.toList ++ positionsOfAll i.exprs

/-- The positions in an element outside the elements in it. -/
def Element.positions (e : Element) : List Position :=
  e.position.toList ++ e.items.flatMap Item.positions ++ positionsOfAll e.defaults ++
    positionsOfAll e.container.values

/-- All positions in a sheet, at any depth. -/
def Sheet.positions (sheet : Sheet) : List Position :=
  positionsOfAll sheet.container.values ++ sheet.container.elements.flatMap Element.positions

variable {S : Position → Prop}

theorem mem_positionsOfAll {es : List Expr} {p : Position} :
    p ∈ positionsOfAll es ↔ ∃ e ∈ es, p ∈ e.positions := by
  induction es with
  | nil => simp [positionsOfAll]
  | cons e es ih => simp only [positionsOfAll, List.mem_append, ih, List.exists_mem_cons_iff]

theorem forall_positionsOfAll {es : List Expr} (h : ∀ e ∈ es, ∀ p ∈ e.positions, S p) :
    ∀ p ∈ positionsOfAll es, S p := by
  intro p hp
  obtain ⟨e, he, hp⟩ := mem_positionsOfAll.mp hp
  exact h e he p hp

theorem forall_toList {p : Option Position} (h : ∀ q, p = some q → S q) : ∀ q ∈ p.toList, S q :=
  fun q hq => h q (Option.mem_toList.mp hq)

/-- All positions of an anchored expression are in `S`. -/
theorem Expr.Anchored.positions {e : Expr} (h : e.Anchored S) : ∀ p ∈ e.positions, S p := by
  induction h with
  | constant hp | literal hp => exact forall_toList hp
  | var hp | access hp => exact forall_toList hp.forall
  | list hp _ ih | call hp _ ih =>
      exact List.forall_mem_append.mpr ⟨forall_toList hp.forall, forall_positionsOfAll ih⟩
  | binary hp _ _ _ ihl ihr =>
      exact List.forall_mem_append.mpr
        ⟨forall_toList hp, List.forall_mem_append.mpr ⟨ihl, ihr⟩⟩

theorem Item.Anchored.positions {i : Item} (h : i.Anchored S) : ∀ p ∈ i.positions, S p :=
  List.forall_mem_append.mpr
    ⟨forall_toList h.position.forall, forall_positionsOfAll fun e he => (h.exprs e he).positions⟩

theorem Element.Anchored.positions {e : Element} (h : e.Anchored S) : ∀ p ∈ e.positions, S p := by
  have hitems : ∀ p ∈ e.items.flatMap Item.positions, S p := by
    intro p hp
    obtain ⟨i, hi, hp⟩ := List.mem_flatMap.mp hp
    exact (h.items i hi).positions p hp
  refine List.forall_mem_append.mpr ⟨List.forall_mem_append.mpr
    ⟨List.forall_mem_append.mpr ⟨forall_toList h.position.forall, hitems⟩, ?_⟩, ?_⟩
  · exact forall_positionsOfAll fun x hx => (h.defaults x hx).positions
  · exact forall_positionsOfAll fun v hv => (h.container.values v hv).positions

/-- The elements inside an anchored element are anchored. -/
theorem Element.Anchored.of_mem_tree {e : Element} (h : e.Anchored S) :
    ∀ x ∈ e.tree fun _ => true, x.Anchored S := by
  induction e using Element.induction with
  | step e ih =>
      intro x hx
      rcases Element.mem_tree.mp hx with rfl | ⟨-, hx⟩
      · exact h
      · obtain ⟨o, ho, hx⟩ := Container.mem_tree.mp hx
        exact ih o ho (h.container.body o ho) x hx

/-- All positions of an anchored sheet are in `S`. -/
theorem Sheet.positions_of_anchored {sheet : Sheet} (h : sheet.container.Anchored S) :
    ∀ p ∈ sheet.positions, S p := by
  refine List.forall_mem_append.mpr
    ⟨forall_positionsOfAll fun v hv => (h.values v hv).positions, fun p hp => ?_⟩
  obtain ⟨e, he, hp⟩ := List.mem_flatMap.mp hp
  obtain ⟨top, htop, he⟩ := Container.mem_tree.mp he
  exact ((h.body top htop).of_mem_tree e he).positions p hp

/-! ## Diagnostics -/

/-- **EVERY DIAGNOSTIC POINTS INTO THE SOURCE.**  The fault that stops the reader
    has a position in the source.  Otherwise all positions of the sheet are in
    the source, and every diagnostic of its resolution has a position, which is
    in the source too. -/
theorem Sheet.diagnostics_in_source (source : List Char) :
    (∀ f, Sheet.parse source = .error f →
      ∃ p, f.toError.position? = some p ∧ p.IsIn source) ∧
    ∀ sheet, Sheet.parse source = .ok sheet →
      (∀ p ∈ sheet.positions, p.IsIn source) ∧
      ∀ n result ds, Transform.transformSheet n .builtin sheet = some (result, ds) →
        ∀ d ∈ ds, ∃ p, d.position? = some p ∧ p.IsIn source := by
  have hsound := Sheet.sound_parse source
  refine ⟨fun f hf => ?_, fun sheet hsheet => ?_⟩
  · rw [hf] at hsound
    cases hsound with
    | fault h => exact ⟨f.position, rfl, h⟩
  · rw [hsheet] at hsound
    cases hsound with
    | result h =>
        exact ⟨Sheet.positions_of_anchored h,
          fun n result ds => Transform.transformSheet_anchored h⟩

/-- In `.a { w: (,) * @x; }` the product has no position, as it starts with a
    separator; the variable that is not defined is reported where it stands. -/
theorem Sheet.diagnostics_in_source_behind_separator :
    ∃ sheet result d, Sheet.parse ".a { w: (,) * @x; }".toList = .ok sheet ∧
      Transform.transformSheet 9 .builtin sheet = some (result, [d]) ∧
      d = .located ⟨1, 14⟩ (.undefinedVariable "x") ∧
      Position.IsIn ".a { w: (,) * @x; }".toList ⟨1, 14⟩ := by
  have hrun : ((Sheet.parse ".a { w: (,) * @x; }".toList).toOption.bind
      (Transform.transformSheet 9 .builtin)).map Prod.snd =
      some [.located ⟨1, 14⟩ (.undefinedVariable "x")] := by decide +kernel
  obtain ⟨⟨result, ds⟩, hresult, rfl⟩ := Option.map_eq_some_iff.mp hrun
  obtain ⟨sheet, hsheet, hresult⟩ := Option.bind_eq_some_iff.mp hresult
  cases hparse : Sheet.parse ".a { w: (,) * @x; }".toList with
  | error f => rw [hparse] at hsheet; cases hsheet
  | ok sheet' =>
      rw [hparse] at hsheet
      cases hsheet
      refine ⟨sheet, result, _, rfl, hresult, rfl, ?_⟩
      obtain ⟨p, hp, hin⟩ := ((Sheet.diagnostics_in_source _).2 sheet hparse).2 9 result _ hresult
        _ List.mem_cons_self
      cases hp
      exact hin

end Less
