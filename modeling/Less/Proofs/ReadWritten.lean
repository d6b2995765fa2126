import Less.Parse.Statement
import Less.Proofs.ReadWords

/-! # Reading what is written

    A written form of a simple sheet is read as that sheet, up to positions
    (`parse_written`).  The reader is followed from the declarations to the
    statements of a sheet; at each place the lookaheads decide by the text that
    follows.  The loops over declarations, rule sets and statements have a bound,
    for which the length of the text is enough. -/

namespace Less.Parse

open Less.Text

variable {rest : List Char}

/-- What is shorter than a part of the text leaves something of its length. -/
theorem exists_length_eq {α : Type} {xs : List α} {cs : List Char} (h : xs.length < cs.length)
    (rest : List Char) : ∃ n, (cs ++ rest).length = n + xs.length := by
  refine ⟨(cs ++ rest).length - xs.length, ?_⟩
  rw [List.length_append]
  omega

/-! ## Declarations -/

/-- The declarations are the same up to positions. -/
def SameDeclaration (d d' : Declaration) : Prop :=
  d'.withoutPositions = d.withoutPositions

theorem quiet_spacedWords {words : List String}
    (h : ∀ w ∈ words, isIdentifier w.toList = true) : Quiet (spacedWords words) := by
  intro c hc
  obtain ⟨w, hw, hc⟩ := List.mem_flatMap.mp hc
  rcases List.mem_cons.mp hc with rfl | hc
  · exact isQuiet_of_isBlank isBlank_space
  · exact quiet_of_isIdentifier (h w hw) c hc

/-- A written declaration is quiet and has a colon. -/
theorem quiet_declared {d : Declaration} (hd : d.IsSimple) {cs : List Char}
    (hcs : Written.Declared d cs) : Quiet cs ∧ cs.contains ':' = true := by
  obtain ⟨words, hne, hwords, hvalues⟩ := hd.values
  obtain ⟨w, words, rfl⟩ := List.exists_cons_of_ne_nil hne
  obtain ⟨hw, hwords⟩ := List.forall_mem_cons.mp hwords
  obtain @⟨g, g', hg, hg'⟩ := hcs
  have hmark : "!important".toList.all isQuiet = true := rfl
  have himportance : Quiet (Written.importance d g') := by
    rw [Written.importance]
    split
    · exact hg'.quiet.append (List.all_eq_true.mp hmark)
    · exact gap_nil.quiet
  refine ⟨?_, by simp⟩
  rw [Declaration.valueText_eq hvalues]
  refine (quiet_of_isIdentifier hd.property).append ?_
  refine List.forall_mem_cons.mpr ⟨rfl, ?_⟩
  exact hg.quiet.append (((quiet_of_isIdentifier hw).append (quiet_spacedWords hwords)).append
    himportance)

namespace Cursor

/-- The semicolon behind a declaration is passed. -/
theorem skip_semicolon (t : Char) (cs : List Char) (p : Position) :
    ∃ q, skip ⟨t :: cs, p⟩ ';' = ⟨if t = ';' then cs else t :: cs, q⟩ := by
  rw [skip, accept?, peek?]
  by_cases ht : t = ';'
  · subst ht
    exact ⟨_, rfl⟩
  · rw [if_neg (by simpa using ht), if_neg ht]
    exact ⟨p, rfl⟩

/-- The name of a property ends before its colon. -/
theorem takeWhile_property {w : List Char} (hw : ∀ c ∈ w, isNameChar c = true)
    (cs : List Char) (p : Position) :
    takeWhile ⟨w ++ ':' :: cs, p⟩ (!endsProperty ·) = (w, ⟨':' :: cs, p.after w⟩) := by
  have hall : ∀ c ∈ w, (!endsProperty c) = true := by
    intro c hc
    have hne : ∀ d : Char, isNameChar d = false → (c == d) = false :=
      fun d hd => beq_eq_false_iff_ne.mpr (ne_of_test (hw c hc) hd)
    rw [endsProperty, hne _ rfl, hne _ rfl,
      hne _ rfl, hne _ rfl]
    rfl
  exact takeWhile_eq hall rfl p

/-- **A written declaration is read as that declaration.** -/
theorem gives_declaration {d : Declaration} (hd : d.IsSimple) {cs : List Char}
    (hcs : Written.Declared d cs) {t : Char} (ht : t = ';' ∨ t = '}') (p : Position) :
    Gives (declaration ⟨cs ++ t :: rest, p⟩) (if t = ';' then rest else t :: rest)
      (SameDeclaration d) := by
  obtain ⟨words, hne, hwords, hvalues⟩ := hd.values
  obtain ⟨w, words, rfl⟩ := List.exists_cons_of_ne_nil hne
  obtain @⟨g, g', hg, hg'⟩ := hcs
  have htext : d.property.toList ++ ':' :: (g ++ (d.valueText.toList ++ Written.importance d g')) ++
      t :: rest = d.property.toList ++ ':' :: (g ++ (w.toList ++ (spacedWords words ++
        (Written.importance d g' ++ t :: rest)))) := by
    rw [Declaration.valueText_eq hvalues]
    simp only [List.append_assoc, List.cons_append]
  have htight := tight_of_isIdentifier hd.property
  -- the property, its colon, and then the value with what ends it
  rw [htext, declaration, takeWhile_property (isNameChar_of_mem hd.property)]
  simp only [trim_of_tight htight]
  rw [if_neg htight.ne_nil, skipTrivia_solid (solid_cons rfl (by decide) _), expect_eq]
  refine (gives_value (endOfValue d hg' ht rest) hg hwords _).bind fun value q hvalue => ?_
  obtain ⟨q', hq'⟩ := skip_semicolon t rest q
  show Gives (.ok (_, skip ⟨t :: rest, q⟩ ';')) _ _
  rw [hq']
  refine gives_ok ?_
  obtain ⟨hitems, himportant⟩ := hvalue
  show Declaration.withoutPositions ⟨_, _, _, _⟩ = _
  rw [Declaration.withoutPositions, Declaration.withoutPositions, hitems, hvalues, himportant,
    String.ofList_toList]

/-! ## Blocks of declarations -/

/-- The entry is the declaration up to positions. -/
def IsDeclaration (d : Declaration) (e : Entry) : Prop :=
  ∃ d', e = .item (.declaration d') ∧ SameDeclaration d d'

/-- A closing brace ends the entries. -/
theorem gives_entries_done {g : List Char} (hg : Gap g) (rest : List Char) (n : Nat)
    (nested : Bool) (p : Position) :
    Gives (entries (n + 1) nested ⟨g ++ '}' :: rest, p⟩) rest fun es => es = [] := by
  have hsolid : Solid ('}' :: rest) := solid_cons rfl (by decide) rest
  rw [entries]
  simp only [skipTrivia_gap hg hsolid]
  exact gives_ok rfl

/-- **A name starts a declaration or a rule set**, whichever the look ahead tells. -/
theorem entries_of_name {g : List Char} (hg : Gap g) {ch : Char} (hch : isNameChar ch = true)
    (tail : List Char) (n : Nat) (nested : Bool) (p : Position) :
    entries (n + 1) nested ⟨g ++ ch :: tail, p⟩ =
      let c : Cursor := ⟨ch :: tail, p.after g⟩
      let next := fun (entry : Entry) (after : Cursor) => do
        let (more, last) ← entries n nested after
        return (entry :: more, last)
      match entryKind false none (ch :: tail) with
      | some .declaration => do
          let (declaration, after) ← c.declaration
          next (.item (.declaration declaration)) after
      | some .ruleSet =>
          if nested then do
            let (inner, after) ← c.ruleSet fun c => do
              let (inner, c) ← entries n true c
              return (.ofEntries inner, c)
            next (.element (.ruleSet inner)) after
          else c.fail .nestedRuleSet
      | none => c.fail .expectedItem := by
  have hsolid : Solid (ch :: tail) :=
    solid_cons (isBlank_of_isNameChar hch) (ne_of_test hch rfl) tail
  have hbrace : ch ≠ '}' := ne_of_test hch rfl
  have hat : ch ≠ '@' := ne_of_test hch rfl
  obtain ⟨hdefinition, hcall⟩ := no_mixin_ahead_of_isNameChar hch tail
  rw [entries]
  simp only [skipTrivia_gap hg hsolid]
  split
  · rename_i hpeek
    cases hpeek
  · rename_i hpeek
    exact absurd (Option.some.inj hpeek) hbrace
  · rename_i hpeek
    exact absurd (Option.some.inj hpeek) hat
  · rewrite [hdefinition, if_neg Bool.false_ne_true, hcall, if_neg Bool.false_ne_true]
    rfl

/-- A declaration is read as an entry, then the entries behind it. -/
theorem gives_entries_declaration {d : Declaration} (hd : d.IsSimple) {g cs last : List Char}
    (hg : Gap g) (hcs : Written.Declared d cs) {t : Char} (ht : t = ';' ∨ t = '}')
    (rest : List Char) {n : Nat} {nested : Bool} {P : List Entry → Prop}
    (hlater : ∀ p, Gives (entries n nested ⟨if t = ';' then rest else t :: rest, p⟩) last P)
    (p : Position) :
    Gives (entries (n + 1) nested ⟨g ++ (cs ++ t :: rest), p⟩) last
      fun es => ∃ e more, IsDeclaration d e ∧ P more ∧ es = e :: more := by
  obtain ⟨hquiet, hcolon⟩ := quiet_declared hd hcs
  obtain ⟨ch, tail, hcons, hch⟩ :
      ∃ ch tail, cs ++ t :: rest = ch :: tail ∧ isNameChar ch = true := by
    obtain ⟨ch, name, hname, -⟩ := exists_cons_of_isIdentifier hd.property
    have hch := isNameChar_of_mem hd.property ch (by rw [hname]; exact List.mem_cons_self)
    obtain ⟨-, -⟩ := hcs
    rw [hname]
    exact ⟨ch, _, rfl, hch⟩
  have hkind : entryKind false none (cs ++ t :: rest) = some .declaration := by
    rw [entryKind_quiet hquiet, hcolon]
    rcases ht with rfl | rfl
    · rfl
    · rfl
  have hdeclaration : Gives (declaration ⟨cs ++ t :: rest, p.after g⟩)
      (if t = ';' then rest else t :: rest) (SameDeclaration d) :=
    gives_declaration hd hcs ht (p.after g)
  rw [hcons] at hkind hdeclaration ⊢
  rw [entries_of_name hg hch]
  simp only [hkind]
  refine hdeclaration.bind fun d' q hd' => ?_
  exact (hlater q).bind fun more q' hmore =>
    gives_ok ⟨.item (.declaration d'), more, ⟨d', rfl, hd'⟩, hmore, rfl⟩

/-- **Written declarations are read as these declarations.** -/
theorem gives_entries {ds : List Declaration} {cs : List Char} (hcs : Written.Declarations ds cs)
    (hds : ∀ d ∈ ds, d.IsSimple) (nested : Bool) : ∀ (n : Nat) (p : Position),
      Gives (entries (n + ds.length + 1) nested ⟨cs ++ rest, p⟩) rest
        fun es => List.Forall₂ IsDeclaration ds es := by
  -- on the written form; each declaration takes one unit of the bound
  induction hcs with
  | @done g hg =>
      intro n p
      obtain ⟨es, q, hes, rfl⟩ := gives_entries_done hg rest n nested p
      exact ⟨[], q, by rwa [List.append_assoc], .nil⟩
  | @last d g cs hg hd =>
      intro n p
      have hlater := fun p => gives_entries_done gap_nil rest n nested p
      obtain ⟨es, q, hes, e, more, he, rfl, rfl⟩ :=
        gives_entries_declaration (hds d List.mem_cons_self) hg hd (Or.inr rfl) rest hlater p
      exact ⟨[e], q, by rwa [List.append_assoc, List.append_assoc], .cons he .nil⟩
  | @next d ds g cs tail hg hd _ ih =>
      intro n p
      obtain ⟨hsimple, hds⟩ := List.forall_mem_cons.mp hds
      obtain ⟨es, q, hes, e, more, he, hmore, rfl⟩ :=
        gives_entries_declaration hsimple hg hd (Or.inl rfl) (tail ++ rest) (ih hds n) p
      refine ⟨e :: more, q, ?_, .cons he hmore⟩
      rwa [List.append_assoc, List.append_assoc, List.cons_append]

/-- There are fewer declarations than characters. -/
theorem length_lt_of_declarations {ds : List Declaration} {cs : List Char}
    (hcs : Written.Declarations ds cs) : ds.length < cs.length := by
  induction hcs with
  | done hg =>
      rw [List.length_append]
      exact Nat.lt_add_left _ Nat.one_pos
  | last hg hd =>
      cases hd
      simp only [List.length_append, List.length_cons, List.length_nil]
      omega
  | next hg hd hds ih =>
      simp only [List.length_append, List.length_cons]
      omega

/-- A block of declarations holds these declarations, and nothing else. -/
theorem ofEntries_declarations {ds : List Declaration} {es : List Entry}
    (h : List.Forall₂ IsDeclaration ds es) :
    (Block.ofEntries es).items.map Item.withoutPositions =
        ds.map (fun d => .declaration d.withoutPositions) ∧
      (Block.ofEntries es).container = .empty := by
  -- the entries are added to a block that holds some already
  have hall : ∀ b : Block, (es.foldl Block.add b).items.map Item.withoutPositions =
      b.items.map Item.withoutPositions ++ ds.map (fun d => .declaration d.withoutPositions) ∧
      (es.foldl Block.add b).container = b.container := by
    induction h with
    | nil => exact fun b => ⟨(List.append_nil _).symm, rfl⟩
    | @cons d e ds es he _ ih =>
        intro b
        obtain ⟨d', rfl, hd'⟩ := he
        obtain ⟨hitems, hcontainer⟩ := ih (b.add (.item (.declaration d')))
        refine ⟨?_, hcontainer⟩
        rw [List.foldl_cons, hitems, List.map_cons, ← hd']
        show (b.items ++ [Item.declaration d']).map Item.withoutPositions ++ _ = _
        rw [List.map_append, List.append_assoc]
        rfl
  exact hall {}

/-- **A written block is read as its declarations.** -/
theorem gives_block {ds : List Declaration} {cs : List Char} (hcs : Written.Declarations ds cs)
    (hds : ∀ d ∈ ds, d.IsSimple) (rest : List Char) (p : Position) :
    Gives (block ⟨cs ++ rest, p⟩) rest fun b =>
      b.items.map Item.withoutPositions = ds.map (fun d => .declaration d.withoutPositions) ∧
        b.container = .empty := by
  obtain ⟨n, hn⟩ := exists_length_eq (length_lt_of_declarations hcs) rest
  rw [block]
  show Gives (entries ((cs ++ rest).length + 1) true _ >>= _) _ _
  rw [hn]
  exact (gives_entries hcs hds true n p).bind fun es q hes => gives_ok (ofEntries_declarations hes)

/-! ## Texts in front of a block -/

theorem tight_joined {g : List Char} {part : List Char} {parts : List (List Char)}
    (hparts : ∀ q ∈ part :: parts, Tight q) : Tight (joined g (part :: parts)) := by
  -- the parts go behind a tight text, which then is the first part
  have hall : ∀ (parts : List (List Char)) (front : List Char), (∀ q ∈ parts, Tight q) →
      Tight front → Tight (front ++ parts.flatMap fun q => ',' :: (g ++ q)) := by
    intro parts
    induction parts with
    | nil => intro front _ hfront; rwa [List.flatMap_nil, List.append_nil]
    | cons q parts ih =>
        intro front hparts hfront
        obtain ⟨hq, hparts⟩ := List.forall_mem_cons.mp hparts
        have htight := ih (front ++ ((',' :: g) ++ q)) hparts (hfront.append (',' :: g) hq)
        rw [List.flatMap_cons]
        simpa only [List.append_assoc, List.cons_append] using htight
  obtain ⟨hpart, hparts⟩ := List.forall_mem_cons.mp hparts
  exact hall parts part hparts hpart

/-- The text in front of a block is read without the gaps around it. -/
theorem gives_head {g g' g'' : List Char} (hg : Gap g) (hg' : Gap g') (hg'' : Gap g'')
    {parts : List (List Char)} (hne : parts ≠ []) (hparts : ∀ q ∈ parts, Quiet q ∧ Tight q)
    (rest : List Char) (p : Position) :
    Gives (head ⟨g ++ (joined g' parts ++ (g'' ++ '{' :: rest)), p⟩) ('{' :: rest)
      fun taken => taken = joined g' parts := by
  have hquiet := quiet_joined hg' fun q hq => (hparts q hq).1
  have htight : Tight (joined g' parts) := by
    obtain ⟨part, parts, rfl⟩ := List.exists_cons_of_ne_nil hne
    exact tight_joined fun q hq => (hparts q hq).2
  obtain ⟨p', hp'⟩ := headFrom_quiet (hg.quiet.append (hquiet.append hg''.quiet)) rest p
  simp only [List.append_assoc] at hp'
  rw [head]
  show Gives (headFrom 0 none p (g ++ (joined g' parts ++ (g'' ++ '{' :: rest))) >>= _) _ _
  rw [hp']
  exact gives_ok (trim_gaps hg htight hg'')

/-- Parts that are cut at commas and freed of gaps are the parts. -/
theorem cut_joined {g : List Char} (hg : Gap g) {parts : List (List Char)} (hne : parts ≠ [])
    (hparts : ∀ q ∈ parts, Quiet q ∧ ',' ∉ q ∧ q ≠ []) {f : List Char → List Char}
    (hf : ∀ q ∈ parts, f q = q ∧ f (g ++ q) = q) :
    ((splitTop ',' 0 none (joined g parts)).map f).filter (· ≠ []) = parts := by
  obtain ⟨part, parts, rfl⟩ := List.exists_cons_of_ne_nil hne
  have hmap : (parts.map (g ++ ·)).map f = parts := by
    rw [List.map_map]
    conv => rhs; rw [← List.map_id parts]
    exact List.map_congr_left fun q hq => (hf q (List.mem_cons_of_mem _ hq)).2
  rw [splitTop_joined hg fun q hq => ⟨(hparts q hq).1, (hparts q hq).2.1⟩, List.map_cons, hmap,
    (hf part List.mem_cons_self).1]
  exact List.filter_eq_self.mpr fun q hq => decide_eq_true (hparts q hq).2.2

/-! ## Rule sets -/

/-- The characters of a simple selector. -/
theorem selector_spec {s : List Char} (h : isSimpleSelector s = true) :
    Quiet s ∧ ',' ∉ s ∧ (∀ c ∈ s, isBlank c = false) ∧ s ≠ [] := by
  have hname : ∀ c, isNameChar c = true → isQuiet c = true ∧ ',' ≠ c ∧ isBlank c = false :=
    fun c hc => ⟨isQuiet_of_isNameChar hc, (ne_of_test hc rfl).symm,
      isBlank_of_isNameChar hc⟩
  have hall : ∀ c ∈ s, isQuiet c = true ∧ ',' ≠ c ∧ isBlank c = false := by
    cases s with
    | nil => cases h
    | cons c cs =>
        rw [isSimpleSelector] at h
        by_cases hc : c = '.'
        · rw [if_pos hc] at h
          subst hc
          exact List.forall_mem_cons.mpr ⟨⟨rfl, by decide, by decide⟩,
            fun d hd => hname d (isNameChar_of_mem h d hd)⟩
        · rw [if_neg hc] at h
          exact fun d hd => hname d (isNameChar_of_mem h d hd)
  refine ⟨fun c hc => (hall c hc).1, fun hc => (hall _ hc).2.1 rfl, fun c hc => (hall c hc).2.2, ?_⟩
  rintro rfl
  cases h

theorem tight_of_selector {s : List Char} (h : isSimpleSelector s = true) : Tight s :=
  tight_of_no_blanks (selector_spec h).2.2.2 (selector_spec h).2.2.1

/-- **The selectors in front of a block are read as these selectors.** -/
theorem selectorsOf_joined {g : List Char} (hg : Gap g) {selectors : List Selector}
    (hne : selectors ≠ []) (hs : ∀ s ∈ selectors, isSimpleSelector s.text.toList = true) :
    selectorsOf (joined g (selectors.map fun s => s.text.toList)) = selectors := by
  have hparts : ∀ q ∈ selectors.map (fun s => s.text.toList), isSimpleSelector q = true :=
    List.forall_mem_map.mpr hs
  have hcut := cut_joined hg (f := trim) (by simpa using hne)
    (fun q hq => ⟨(selector_spec (hparts q hq)).1, (selector_spec (hparts q hq)).2.1,
      (selector_spec (hparts q hq)).2.2.2⟩)
    (fun q hq => by
      have htight := tight_of_selector (hparts q hq)
      have hgap := trim_gaps hg htight gap_nil
      rw [List.append_nil] at hgap
      exact ⟨trim_of_tight htight, hgap⟩)
  rw [selectorsOf, hcut, List.map_map]
  conv => rhs; rw [← List.map_id selectors]
  refine List.map_congr_left fun s hs' => ?_
  show Selector.ofText (String.ofList s.text.toList) = s
  have htight := tight_of_selector (hs s hs')
  rw [String.ofList_toList, Selector.ofText, collapseText, collapse_of_tight htight,
    squeeze_of_no_blanks (selector_spec (hs s hs')).2.2.1, String.ofList_toList]

/-- The element is a rule set with the same contents up to positions. -/
def SameRuleSet (r r' : RuleSet) : Prop :=
  (Element.ruleSet r').withoutPositions = (Element.ruleSet r).withoutPositions

/-- **A written rule set is read as that rule set.** -/
theorem gives_ruleSet {r : RuleSet} (hr : r.IsSimple) {cs : List Char} (hcs : Written.Rule r cs)
    (rest : List Char) (p : Position) :
    Gives (ruleSet block ⟨cs ++ rest, p⟩) rest (SameRuleSet r) := by
  obtain @⟨g, g', inner, hg, hg', hinner⟩ := hcs
  obtain ⟨hitems, hsimple⟩ := hr.items_eq
  have hparts : ∀ q ∈ r.selectors.map (fun s => s.text.toList), Quiet q ∧ Tight q :=
    List.forall_mem_map.mpr fun s hs =>
      ⟨(selector_spec (hr.selectors s hs)).1, tight_of_selector (hr.selectors s hs)⟩
  have hne : r.selectors.map (fun s => s.text.toList) ≠ [] := by
    simpa using hr.selectors_ne_nil
  have hselectors := selectorsOf_joined hg hr.selectors_ne_nil hr.selectors
  simp only [List.append_assoc, List.cons_append]
  rw [ruleSet]
  refine (gives_head gap_nil hg hg' hne hparts (inner ++ rest) p).bind fun taken q htaken => ?_
  subst htaken
  simp only [hselectors]
  split
  · rename_i hnil
    exact absurd hnil hr.selectors_ne_nil
  · rw [ruleSetBlock, expect_eq]
    refine (gives_block hinner hsimple rest _).bind fun b q' hb => gives_ok ?_
    rw [SameRuleSet, Element.ruleSet_withoutPositions, Element.ruleSet_withoutPositions]
    simp only [hb.1, hb.2, hr.params, hr.container]
    rw [hitems, List.map_map]
    rfl

/-! ## Media -/

/-- A rule set starts with a letter or a period, and starts no mixin. -/
theorem rule_ahead {r : RuleSet} (hr : r.IsSimple) {cs : List Char} (hcs : Written.Rule r cs)
    (rest : List Char) : ∃ ch tail, cs ++ rest = ch :: tail ∧ (ch = '.' ∨ ch.isAlpha = true) ∧
      mixinDefinitionAhead (cs ++ rest) = false ∧ mixinCallAhead (cs ++ rest) = false := by
  obtain @⟨g, g', inner, hg, hg', hinner⟩ := hcs
  obtain ⟨s, ss, hss⟩ := List.exists_cons_of_ne_nil hr.selectors_ne_nil
  have hs : isSimpleSelector s.text.toList = true :=
    hr.selectors s (by rw [hss]; exact List.mem_cons_self)
  -- a comma or the brace follows the first selector
  have hahead : ∃ gap t tail, Gap gap ∧ (t = ',' ∨ t = '{') ∧
      joined g (r.selectors.map fun s => s.text.toList) ++ (g' ++ '{' :: inner) ++ rest =
        s.text.toList ++ (gap ++ t :: tail) := by
    rw [hss, List.map_cons]
    cases ss with
    | nil =>
        refine ⟨g', '{', inner ++ rest, hg', Or.inr rfl, ?_⟩
        rw [joined, List.map_nil, List.flatMap_nil, List.append_nil]
        simp only [List.append_assoc, List.cons_append]
    | cons s' ss =>
        refine ⟨[], ',', g ++ (s'.text.toList ++ ((ss.map fun s => s.text.toList).flatMap
          (fun q => ',' :: (g ++ q)) ++ (g' ++ '{' :: (inner ++ rest)))), gap_nil, Or.inl rfl, ?_⟩
        rw [joined, List.map_cons, List.flatMap_cons]
        simp only [List.append_assoc, List.cons_append, List.nil_append]
  obtain ⟨gap, t, tail, hgap, ht, htext⟩ := hahead
  obtain ⟨hdefinition, hcall⟩ := no_mixin_ahead hs hgap ht tail
  rw [htext]
  cases hchars : s.text.toList with
  | nil => rw [hchars] at hs; cases hs
  | cons ch chars =>
      rw [hchars] at hs hdefinition hcall
      refine ⟨ch, _, rfl, ?_, hdefinition, hcall⟩
      rw [isSimpleSelector] at hs
      by_cases hdot : ch = '.'
      · exact Or.inl hdot
      · rw [if_neg hdot] at hs
        obtain ⟨ch', cs', heq, hch'⟩ := exists_cons_of_isIdentifier hs
        cases heq
        exact Or.inr hch'

/-- A rule set starts with none of the characters that are looked for first. -/
theorem solid_of_rule {ch : Char} (h : ch = '.' ∨ ch.isAlpha = true) (tail : List Char) :
    Solid (ch :: tail) ∧ ch ≠ '}' ∧ ch ≠ '@' := by
  rcases h with rfl | h
  · exact ⟨solid_cons rfl (by decide) tail, by decide, by decide⟩
  · exact ⟨solid_of_isAlpha h tail, ne_of_isAlpha h _ rfl, ne_of_isAlpha h _ rfl⟩

/-- The entry is the rule set up to positions. -/
def IsRuleSet (r : RuleSet) (e : Entry) : Prop :=
  ∃ r', e = .element (.ruleSet r') ∧ SameRuleSet r r'

/-- **Written rule sets are read as these rule sets.** -/
theorem gives_elementEntries {rs : List RuleSet} {cs : List Char} (hcs : Written.Rules rs cs)
    (hrs : ∀ r ∈ rs, r.IsSimple) (rest : List Char) : ∀ (n : Nat) (p : Position),
      Gives (elementEntries (n + rs.length + 1) ⟨cs ++ rest, p⟩) rest
        fun es => List.Forall₂ IsRuleSet rs es := by
  induction hcs with
  | @done g hg =>
      intro n p
      have hsolid : Solid ('}' :: rest) := solid_cons rfl (by decide) rest
      rw [List.append_assoc, elementEntries]
      simp only [List.singleton_append, skipTrivia_gap hg hsolid]
      exact gives_ok .nil
  | @next r rs g cs tail hg hr _ ih =>
      intro n p
      obtain ⟨hsimple, hrs⟩ := List.forall_mem_cons.mp hrs
      obtain ⟨ch, more, hcons, hch, hdefinition, hcall⟩ := rule_ahead hsimple hr (tail ++ rest)
      obtain ⟨hsolid, hbrace, hat⟩ := solid_of_rule hch more
      rw [← hcons] at hsolid
      have hlater := ih hrs n
      rw [List.append_assoc, List.append_assoc, List.length_cons, ← Nat.add_assoc, elementEntries]
      simp only [skipTrivia_gap hg hsolid]
      split
      · rename_i hpeek
        rw [peek?, hcons] at hpeek
        cases hpeek
      · rename_i hpeek
        rw [peek?, hcons] at hpeek
        exact absurd (Option.some.inj hpeek) hbrace
      · rename_i hpeek
        rw [peek?, hcons] at hpeek
        exact absurd (Option.some.inj hpeek) hat
      · rw [hdefinition, if_neg (by decide), hcall, if_neg (by decide)]
        refine (gives_ruleSet hsimple hr (tail ++ rest) _).bind fun r' q hr' => ?_
        exact (hlater q).bind fun es q' hes => gives_ok (.cons ⟨r', rfl, hr'⟩ hes)

/-- There are fewer rule sets than characters. -/
theorem length_lt_of_rules {rs : List RuleSet} {cs : List Char} (hcs : Written.Rules rs cs) :
    rs.length < cs.length := by
  induction hcs with
  | done hg =>
      rw [List.length_append]
      exact Nat.lt_add_left _ Nat.one_pos
  | next hg hr hrs ih =>
      cases hr
      simp only [List.length_append, List.length_cons]
      omega

/-- A block of rule sets holds these rule sets, and no variables. -/
theorem ofEntries_ruleSets {rs : List RuleSet} {es : List Entry}
    (h : List.Forall₂ IsRuleSet rs es) :
    (Block.ofEntries es).container.vars = .empty ∧
      (Block.ofEntries es).container.body.map Element.withoutPositions =
        rs.map fun r => (Element.ruleSet r).withoutPositions := by
  have hall : ∀ b : Block, (es.foldl Block.add b).container.vars = b.container.vars ∧
      (es.foldl Block.add b).container.body.map Element.withoutPositions =
        b.container.body.map Element.withoutPositions ++
          rs.map fun r => (Element.ruleSet r).withoutPositions := by
    induction h with
    | nil => exact fun b => ⟨rfl, (List.append_nil _).symm⟩
    | @cons r e rs es he _ ih =>
        intro b
        obtain ⟨r', rfl, hr'⟩ := he
        obtain ⟨hvars, hbody⟩ := ih (b.add (.element (.ruleSet r')))
        refine ⟨hvars, ?_⟩
        rw [List.foldl_cons, hbody, List.map_cons, ← hr']
        show (b.container.body ++ [Element.ruleSet r']).map Element.withoutPositions ++ _ = _
        rw [List.map_append, List.append_assoc]
        rfl
  exact hall {}

/-- The keyword behind an `@` ends before a blank. -/
theorem atKeyword_eq {w : List Char} (hw : isIdentifier w = true) (cs : List Char) (p : Position) :
    atKeyword ⟨'@' :: (w ++ ([' '] ++ cs)), p⟩ =
      (String.ofList w, ⟨[' '] ++ cs, (p.advance '@').after w⟩) :=
  name_eq hw (nextIs_gap gap_nil rfl cs) _

/-- A keyword before a word defines no variable. -/
theorem variableAhead_keyword {w : List Char} (hw : isIdentifier w = true) {ch : Char}
    (h : ch.isAlpha = true) (cs : List Char) (p : Position) :
    variableAhead ⟨'@' :: (w ++ ([' '] ++ ch :: cs)), p⟩ = false := by
  have hmark : accept? ⟨'@' :: (w ++ ([' '] ++ ch :: cs)), p⟩ '@' =
      some ⟨w ++ ([' '] ++ ch :: cs), p.advance '@'⟩ := rfl
  have hsolid := solid_of_isAlpha h cs
  have hspace : nextIs isNameChar ([' '] ++ ch :: cs) = false := nextIs_gap gap_nil rfl _
  -- the name is followed by a letter, not by a colon
  have hcolon : ∀ q, accept? ⟨ch :: cs, q⟩ ':' = none := by
    intro q
    rw [accept?, if_neg]
    exact fun hpeek => ne_of_isAlpha h _ rfl (Option.some.inj hpeek)
  rw [variableAhead, hmark]
  simp only [name_eq hw hspace, skipTrivia_gap gap_space hsolid, hcolon]
  exact ite_self false

/-- The keyword of a media block. -/
theorem atKeyword_media (cs : List Char) (p : Position) :
    ∃ q, atKeyword ⟨"@media ".toList ++ cs, p⟩ = ("media", ⟨[' '] ++ cs, q⟩) :=
  ⟨_, atKeyword_eq (w := "media".toList) rfl cs p⟩

/-- A media block defines no variable. -/
theorem variableAhead_media {ch : Char} (h : ch.isAlpha = true) (cs : List Char) (p : Position) :
    variableAhead ⟨"@media ".toList ++ ch :: cs, p⟩ = false :=
  variableAhead_keyword (w := "media".toList) rfl h cs p

/-- The element is the same up to positions. -/
def SameElement (e e' : Element) : Prop :=
  e'.withoutPositions = e.withoutPositions

/-- **The mediums in front of a block are read as these mediums.** -/
theorem mediumsOf_joined {g : List Char} (hg : Gap g) {mediums : List String} (hne : mediums ≠ [])
    (hmediums : ∀ s ∈ mediums, isIdentifier s.toList = true) :
    (((splitTop ',' 0 none (joined g (mediums.map String.toList))).map collapse).filter
      (· ≠ [])).map String.ofList = mediums := by
  have hparts : ∀ q ∈ mediums.map String.toList, isIdentifier q = true :=
    List.forall_mem_map.mpr hmediums
  rw [cut_joined hg (by simpa using hne) ?_ ?_, List.map_map]
  · conv => rhs; rw [← List.map_id mediums]
    exact List.map_congr_left fun s _ => String.ofList_toList
  · intro q hq
    exact ⟨quiet_of_isIdentifier (hparts q hq),
      not_mem_of_isIdentifier (hparts q hq) rfl,
      (tight_of_isIdentifier (hparts q hq)).ne_nil⟩
  · intro q hq
    have hblanks := fun c hc => isBlank_of_isNameChar (isNameChar_of_mem (hparts q hq) c hc)
    have htight := tight_of_isIdentifier (hparts q hq)
    exact ⟨collapse_gap gap_nil htight hblanks, collapse_gap hg htight hblanks⟩

/-- **A written block of rule sets is read as these rule sets.** -/
theorem gives_elementBlock {rs : List RuleSet} {cs : List Char} (hcs : Written.Rules rs cs)
    (hrs : ∀ r ∈ rs, r.IsSimple) (rest : List Char) (p : Position) :
    Gives (elementBlock ⟨'{' :: (cs ++ rest), p⟩) rest fun c => c.vars = .empty ∧
      c.body.map Element.withoutPositions =
        rs.map fun r => (Element.ruleSet r).withoutPositions := by
  obtain ⟨n, hn⟩ := exists_length_eq (length_lt_of_rules hcs) rest
  rw [elementBlock, expect_eq]
  show Gives (elementEntries ((cs ++ rest).length + 1) _ >>= _) _ _
  rw [hn]
  exact (gives_elementEntries hcs hrs rest n _).bind fun es q hes =>
    gives_ok (ofEntries_ruleSets hes)

/-- The mediums start with a letter. -/
theorem exists_cons_of_joined {mediums : List String} (hne : mediums ≠ [])
    (hmediums : ∀ s ∈ mediums, isIdentifier s.toList = true) (g rest : List Char) :
    ∃ ch tail, joined g (mediums.map String.toList) ++ rest = ch :: tail ∧
      ch.isAlpha = true := by
  obtain ⟨s, ss, rfl⟩ := List.exists_cons_of_ne_nil hne
  obtain ⟨ch, chars, hchars, hch⟩ :=
    exists_cons_of_isIdentifier (hmediums s List.mem_cons_self)
  rw [List.map_cons, joined, hchars]
  exact ⟨ch, _, rfl, hch⟩

/-- **A written media block is read as that block.** -/
theorem gives_media {m : Media} (hm : m.IsSimple) {g g' cs : List Char} (hg : Gap g) (hg' : Gap g')
    (hcs : Written.Rules m.container.childRuleSets cs) (rest : List Char) (p : Position) :
    Gives (media ⟨"@media ".toList ++ (joined g (m.mediums.map String.toList) ++
      (g' ++ '{' :: (cs ++ rest))), p⟩) rest fun m' => SameElement (.media m) (.media m') := by
  obtain ⟨hbody, hsimple⟩ := hm.body_eq
  have hparts : ∀ q ∈ m.mediums.map String.toList, Quiet q ∧ Tight q :=
    List.forall_mem_map.mpr fun s hs =>
      ⟨quiet_of_isIdentifier (hm.mediums s hs), tight_of_isIdentifier (hm.mediums s hs)⟩
  have hne : m.mediums.map String.toList ≠ [] := by
    simpa using hm.mediums_ne_nil
  have hmediums := mediumsOf_joined hg hm.mediums_ne_nil hm.mediums
  obtain ⟨q, hkeyword⟩ := atKeyword_media
    (joined g (m.mediums.map String.toList) ++ (g' ++ '{' :: (cs ++ rest))) p
  rw [media, hkeyword]
  refine (gives_head gap_space hg hg' hne hparts (cs ++ rest) q).bind fun taken q htaken => ?_
  subst htaken
  refine (gives_elementBlock hcs hsimple rest q).bind fun c q' hc => gives_ok ?_
  rw [SameElement, Element.media_withoutPositions, Element.media_withoutPositions,
    elementsWithoutPositions_eq_map, elementsWithoutPositions_eq_map, hm.vars, hbody, List.map_map]
  simp only [hmediums, hc.1, hc.2]
  rfl

/-! ## Statements -/

/-- The statement is the element up to positions. -/
def IsElement (e : Element) (s : Statement) : Prop :=
  ∃ e', s = .element e' ∧ SameElement e e'

/-- **A written rule set or media block is read as a statement.** -/
theorem gives_statement {e : Element} (he : e.IsSimple) {cs : List Char} (hcs : Written.Block e cs)
    (rest : List Char) : Solid (cs ++ rest) ∧ cs ++ rest ≠ [] ∧
      ∀ p, Gives (statement ⟨cs ++ rest, p⟩) rest (IsElement e) := by
  cases hcs with
  | @ruleSet r cs hcs =>
      obtain ⟨hr⟩ := he
      obtain ⟨ch, tail, hcons, hch, hdefinition, hcall⟩ := rule_ahead hr hcs rest
      obtain ⟨hsolid, -, hat⟩ := solid_of_rule hch tail
      rw [← hcons] at hsolid
      refine ⟨hsolid, by rw [hcons]; exact List.cons_ne_nil ch tail, fun p => ?_⟩
      have hpeek : ¬peek? ⟨cs ++ rest, p⟩ = some '@' := by
        rw [peek?, hcons]
        exact fun h => hat (Option.some.inj h)
      rw [statement, if_neg hpeek, hdefinition, if_neg (by decide), hcall, if_neg (by decide)]
      exact (gives_ruleSet hr hcs rest p).bind fun r' q hr' => gives_ok ⟨_, rfl, hr'⟩
  | @media m g g' cs hg hg' hcs =>
      obtain hm : m.IsSimple := by cases he; assumption
      refine ⟨solid_cons rfl (by decide) _, List.cons_ne_nil _ _, fun p => ?_⟩
      simp only [List.append_assoc, List.cons_append]
      obtain ⟨q, hkeyword⟩ := atKeyword_media
        (joined g (m.mediums.map String.toList) ++ (g' ++ '{' :: (cs ++ rest))) p
      have hvariable : variableAhead ⟨"@media ".toList ++ (joined g (m.mediums.map String.toList) ++
          (g' ++ '{' :: (cs ++ rest))), p⟩ = false := by
        obtain ⟨ch, tail, hcons, hch⟩ :=
          exists_cons_of_joined hm.mediums_ne_nil hm.mediums g (g' ++ '{' :: (cs ++ rest))
        rw [hcons]
        exact variableAhead_media hch tail p
      have hlower : lowerAscii "media" = "media" := rfl
      -- neither a variable nor one of the keywords that are tried before
      rw [statement, if_pos (show peek? _ = some '@' from rfl), atStatement, hkeyword, hvariable]
      simp only [hlower]
      rw [if_neg (by decide), if_neg (by decide), if_neg (by decide), if_pos trivial]
      exact (gives_media hm hg hg' hcs rest p).bind fun m' q hm' => gives_ok ⟨_, rfl, hm'⟩

/-- **Written elements are read as these elements.** -/
theorem statementsFrom_written {es : List Element} {cs : List Char} (hcs : Written.Blocks es cs)
    (hes : ∀ e ∈ es, e.IsSimple) : ∀ (n : Nat) (p : Position),
      ∃ ss, statementsFrom (n + es.length + 1) ⟨cs, p⟩ = (ss, none) ∧
        List.Forall₂ IsElement es ss := by
  induction hcs with
  | @done g hg =>
      intro n p
      have hend : skipTrivia ⟨g ++ [], p⟩ = ⟨[], p.after g⟩ :=
        skipTrivia_gap hg (fun _ h => by cases h) p
      rw [List.append_nil] at hend
      refine ⟨[], ?_, .nil⟩
      rw [statementsFrom, hend]
      exact if_pos rfl
  | @next e es g cs rest hg he _ ih =>
      intro n p
      obtain ⟨hsimple, hes⟩ := List.forall_mem_cons.mp hes
      obtain ⟨hsolid, hne, hstatement⟩ := gives_statement hsimple he rest
      obtain ⟨s, q, hs, hsame⟩ := hstatement (p.after g)
      obtain ⟨ss, hss, hsames⟩ := ih hes n q
      refine ⟨s :: ss, ?_, .cons hsame hsames⟩
      rw [List.length_cons, ← Nat.add_assoc, statementsFrom, skipTrivia_gap hg hsolid]
      simp only [if_neg hne, hs, hss]

/-- There are no more elements than characters. -/
theorem length_le_of_blocks {es : List Element} {cs : List Char} (hcs : Written.Blocks es cs) :
    es.length ≤ cs.length := by
  induction hcs with
  | done hg => exact Nat.zero_le _
  | @next e es g cs rest hg he _ ih =>
      have hlength : 0 < cs.length := by
        cases he with
        | ruleSet hr =>
            cases hr
            simp only [List.length_append, List.length_cons]
            omega
        | media => exact Nat.succ_pos _
      simp only [List.length_append, List.length_cons]
      omega

end Cursor

/-- Elements are performed by adding them. -/
theorem perform_elements {es : List Element} {ss : List Statement}
    (h : List.Forall₂ Cursor.IsElement es ss) :
    (ss.foldl Sheet.perform .empty).withoutPositions =
      { container := ⟨.empty, elementsWithoutPositions es⟩ } := by
  have hall : ∀ sheet : Sheet, (ss.foldl Sheet.perform sheet).withoutPositions =
      { sheet with container := ⟨varsWithoutPositions sheet.container.vars,
          elementsWithoutPositions sheet.container.body ++ elementsWithoutPositions es⟩ } := by
    induction h with
    | nil =>
        intro sheet
        rw [elementsWithoutPositions, List.append_nil]
        rfl
    | @cons e s es ss he _ ih =>
        intro sheet
        obtain ⟨e', rfl, he'⟩ := he
        rw [List.foldl_cons, ih, elementsWithoutPositions, ← he']
        show { sheet with container := ⟨_,
          elementsWithoutPositions (sheet.container.body ++ [e']) ++
            elementsWithoutPositions es⟩ } = _
        simp only [elementsWithoutPositions_eq_map, List.map_append, List.append_assoc]
        rfl
  exact hall .empty

/-- **A written form of a simple sheet is read as that sheet.** -/
theorem parse_written {sheet : Sheet} (h : sheet.IsSimple) {cs : List Char}
    (hcs : Written.Blocks sheet.container.body cs) :
    ∃ sheet', Sheet.parse cs = .ok sheet' ∧
      sheet'.withoutPositions = sheet.withoutPositions := by
  -- the bound of the reader is the length of the text
  obtain ⟨n, hn⟩ : ∃ n, cs.length = n + sheet.container.body.length :=
    ⟨_, (Nat.sub_add_cancel (Cursor.length_le_of_blocks hcs)).symm⟩
  obtain ⟨ss, hss, hsames⟩ := Cursor.statementsFrom_written hcs h.body n Position.start
  have hstatements : statements cs = (ss, none) := by
    rw [statements, hn]
    exact hss
  refine ⟨ss.foldl Sheet.perform .empty, ?_, ?_⟩
  · rw [Sheet.parse, hstatements]
  · rw [perform_elements hsames, Sheet.withoutPositions, h.vars, h.charset, h.imports]
    rfl

end Less.Parse
