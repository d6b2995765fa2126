import Less.Proofs.ReadWritten
import Mathlib.Data.List.Forall2

/-! # Reading a sheet that was written

    Both forms of a simple sheet are written forms of it: the **pretty** form
    has its gaps around the marks (`written_pretty`), the **minified** form has
    none, and no semicolon after the last declaration (`written_minified`).

    So PARSING UNDOES WRITING (`Sheet.parse_toCss`): what is written is read as
    the sheet it was written from, up to positions. -/

namespace Less.Css

open Parse Text

/-! ## Written forms and gaps -/

/-- Declarations may have a gap before them. -/
theorem declarations_gap {ds : List Declaration} {g cs : List Char} (hg : Gap g)
    (h : Written.Declarations ds cs) : Written.Declarations ds (g ++ cs) := by
  cases h with
  | done hg' =>
      rw [← List.append_assoc]
      exact .done (hg.append hg')
  | last hg' hd =>
      rw [← List.append_assoc]
      exact .last (hg.append hg') hd
  | next hg' hd hds =>
      rw [← List.append_assoc]
      exact .next (hg.append hg') hd hds

/-- Rule sets may have a gap before them. -/
theorem rules_gap {rs : List RuleSet} {g cs : List Char} (hg : Gap g) (h : Written.Rules rs cs) :
    Written.Rules rs (g ++ cs) := by
  cases h with
  | done hg' =>
      rw [← List.append_assoc]
      exact .done (hg.append hg')
  | next hg' hr hrs =>
      rw [← List.append_assoc]
      exact .next (hg.append hg') hr hrs

/-- Elements may have a gap before them. -/
theorem blocks_gap {es : List Element} {g cs : List Char} (hg : Gap g)
    (h : Written.Blocks es cs) : Written.Blocks es (g ++ cs) := by
  cases h with
  | done hg' => exact .done (hg.append hg')
  | next hg' he hes =>
      rw [← List.append_assoc]
      exact .next (hg.append hg') he hes

/-- Texts of rule sets with gaps around them, up to the closing brace. -/
theorem rules_of_blocks {g g' last : List Char} (hg : Gap g) (hg' : Gap g') (hlast : Gap last)
    {rs : List RuleSet} {texts : List (List Char)}
    (h : List.Forall₂ Written.Block (rs.map .ruleSet) texts) :
    Written.Rules rs (texts.flatMap (fun cs => g ++ (cs ++ g')) ++ (last ++ ['}'])) := by
  induction rs generalizing texts with
  | nil =>
      cases h
      exact .done hlast
  | cons r rs ih =>
      obtain _ | @⟨_, cs, _, texts, hr, hrs⟩ := h
      obtain ⟨hr⟩ := hr
      have hnext := Written.Rules.next hg hr (rules_gap hg' (ih hrs))
      rw [List.flatMap_cons]
      simpa only [List.append_assoc] using hnext

/-! ## Texts of blocks -/

/-- Declarations end with the closing brace. -/
theorem blankAfter_declarations {ds : List Declaration} {cs : List Char}
    (h : Written.Declarations ds cs) (after : Bool) : blankAfter after cs = false := by
  induction h generalizing after with
  | done => exact blankAfter_concat after _ _
  | last =>
      rw [blankAfter_append]
      exact blankAfter_concat _ _ _
  | next _ _ _ ih =>
      rw [blankAfter_append, blankAfter_append]
      exact ih _

/-- A rule set ends with its closing brace. -/
theorem blankAfter_rule {r : RuleSet} {cs : List Char} (h : Written.Rule r cs) (after : Bool) :
    blankAfter after cs = false := by
  obtain ⟨-, -, hds⟩ := h
  rw [blankAfter_append, blankAfter_append]
  exact blankAfter_declarations hds _

/-- Rule sets end with the closing brace around them. -/
theorem blankAfter_rules {rs : List RuleSet} {cs : List Char} (h : Written.Rules rs cs)
    (after : Bool) : blankAfter after cs = false := by
  induction h generalizing after with
  | done => exact blankAfter_concat after _ _
  | next _ _ _ ih =>
      rw [blankAfter_append, blankAfter_append]
      exact ih _

/-- An element is written from its first mark or letter to its closing
    brace. -/
theorem tight_block {e : Element} (he : e.IsSimple) {cs : List Char} (h : Written.Block e cs) :
    Tight cs := by
  -- it starts as a statement does, with no blank
  obtain ⟨hsolid, hne, -⟩ := Cursor.gives_statement he h []
  rw [List.append_nil] at hsolid hne
  constructor
  · obtain ⟨ch, rest, rfl⟩ := List.exists_cons_of_ne_nil hne
    exact ⟨ch, rest, rfl, (hsolid ch rfl).1⟩
  · cases h with
    | ruleSet hr => exact blankAfter_rule hr true
    | media _ _ hrs =>
        rw [blankAfter_append, blankAfter_append, blankAfter_append]
        exact blankAfter_rules hrs _

/-- **Texts of elements with gaps between them.** -/
theorem blocks_intercalate {g : List Char} (hg : Gap g) {es : List Element}
    {texts : List (List Char)} (h : List.Forall₂ Written.Block es texts)
    (hes : ∀ e ∈ es, e.IsSimple) :
    Written.Blocks es (g.intercalate texts) ∧ (texts ≠ [] → Tight (g.intercalate texts)) := by
  induction h with
  | nil => exact ⟨.done gap_nil, fun hne => absurd rfl hne⟩
  | @cons e cs es texts he hrest ih =>
      obtain ⟨hsimple, hes⟩ := List.forall_mem_cons.mp hes
      obtain ⟨hblocks, htight⟩ := ih hes
      have hcs := tight_block hsimple he
      cases hrest with
      | nil =>
          have hlast := Written.Blocks.next gap_nil he (.done gap_nil)
          rw [List.nil_append, List.append_nil] at hlast
          rw [List.intercalate_singleton]
          exact ⟨hlast, fun _ => hcs⟩
      | cons _ _ =>
          have hnext := Written.Blocks.next gap_nil he (blocks_gap hg hblocks)
          rw [List.nil_append] at hnext
          rw [List.intercalate_cons_cons, List.append_assoc]
          exact ⟨hnext, fun _ => hcs.append g (htight (List.cons_ne_nil _ _))⟩

/-- Elements that are all written, one after the other. -/
theorem exists_blocks {f : Element → Option String} {text : List Char → String}
    {es : List Element} (h : ∀ e ∈ es, ∃ cs, Written.Block e cs ∧ f e = some (text cs)) :
    ∃ texts, List.Forall₂ Written.Block es texts ∧ es.filterMap f = texts.map text := by
  induction es with
  | nil => exact ⟨[], .nil, rfl⟩
  | cons e es ih =>
      obtain ⟨⟨cs, hcs, heq⟩, hes⟩ := List.forall_mem_cons.mp h
      obtain ⟨texts, htexts, hmap⟩ := ih hes
      refine ⟨cs :: texts, .cons hcs htexts, ?_⟩
      rw [List.filterMap_cons_some heq, hmap, List.map_cons]

/-- The rule sets of a media block, one after the other. -/
theorem exists_blocks_of_media {f : Element → Option String} {text : List Char → String}
    (h : ∀ r : RuleSet, r.IsSimple →
      ∃ cs, Written.Block (.ruleSet r) cs ∧ f (.ruleSet r) = some (text cs))
    {m : Media} (hm : m.IsSimple) :
    ∃ texts, List.Forall₂ Written.Block (m.container.childRuleSets.map .ruleSet) texts ∧
      m.container.body.filterMap f = texts.map text ∧ texts.map text ≠ [] := by
  obtain ⟨hbody, hsimple⟩ := hm.body_eq
  have helements : ∀ e ∈ m.container.childRuleSets.map Element.ruleSet, ∃ cs,
      Written.Block e cs ∧ f e = some (text cs) :=
    List.forall_mem_map.mpr fun r hr => h r (hsimple r hr)
  obtain ⟨texts, htexts, hmap⟩ := exists_blocks helements
  refine ⟨texts, htexts, hbody ▸ hmap, fun hnil => ?_⟩
  have hlength := htexts.length_eq
  rw [List.map_eq_nil_iff.mp hnil, List.length_map] at hlength
  exact hm.childRuleSets_ne_nil (List.eq_nil_of_length_eq_zero hlength)

/-- A simple sheet has nothing before its first element. -/
theorem headerLines_of_simple {sheet : Sheet} (h : sheet.IsSimple) : headerLines sheet = [] := by
  rw [headerLines, h.charset, h.imports]
  rfl

/-- Parts with commas between them, as they are joined. -/
theorem toList_intercalate_joined {separator : String} {g : List Char}
    (h : separator.toList = ',' :: g) (parts : List String) :
    (String.intercalate separator parts).toList = joined g (parts.map String.toList) := by
  rw [String.toList_intercalate, h]
  induction parts with
  | nil => rfl
  | cons part parts ih =>
      cases parts with
      | nil => simp [joined]
      | cons q parts =>
          rw [List.map_cons, List.map_cons, List.intercalate_cons_cons, ← List.map_cons, ih]
          simp [joined]

/-! ## Declarations -/

/-- The words of a value have single spaces between them already. -/
theorem squeeze_words {w : String} {words : List String}
    (h : ∀ v ∈ w :: words, isIdentifier v.toList = true) :
    Tight (w.toList ++ spacedWords words) ∧
      squeeze false (w.toList ++ spacedWords words) = w.toList ++ spacedWords words := by
  induction words generalizing w with
  | nil =>
      obtain ⟨hw, -⟩ := List.forall_mem_cons.mp h
      have hblanks := fun c hc => isBlank_of_isNameChar (isNameChar_of_mem hw c hc)
      rw [spacedWords, List.flatMap_nil, List.append_nil]
      exact ⟨tight_of_isIdentifier hw, squeeze_of_no_blanks hblanks false⟩
  | cons v words ih =>
      obtain ⟨hw, hwords⟩ := List.forall_mem_cons.mp h
      obtain ⟨htight, hsqueezed⟩ := ih hwords
      have hblanks := fun c hc => isBlank_of_isNameChar (isNameChar_of_mem hw c hc)
      have hsplit : spacedWords (v :: words) = [' '] ++ (v.toList ++ spacedWords words) := by
        rw [spacedWords, List.flatMap_cons]
        rfl
      have hspace : squeeze false [' '] = [' '] := by decide
      rw [hsplit]
      refine ⟨(tight_of_isIdentifier hw).append [' '] htight, ?_⟩
      -- the first word is kept, then the space, and the other words do not mind it
      rw [squeeze_append, squeeze_of_no_blanks hblanks, (tight_of_isIdentifier hw).blankAfter,
        squeeze_append, hspace, htight.squeeze_eq _ false, hsqueezed]

/-- The parts of a simple declaration are written as they are. -/
theorem texts_of_simple {d : Declaration} (hd : d.IsSimple) :
    trimText d.property = d.property ∧ trimText d.valueText = d.valueText ∧
      collapseText d.valueText = d.valueText := by
  obtain ⟨words, hne, hwords, hvalues⟩ := hd.values
  obtain ⟨w, words, rfl⟩ := List.exists_cons_of_ne_nil hne
  have hvalue := Declaration.valueText_eq hvalues
  obtain ⟨htight, hsqueezed⟩ := squeeze_words hwords
  rw [← hvalue] at htight hsqueezed
  refine ⟨?_, ?_, ?_⟩
  · rw [trimText, trim_of_tight (tight_of_isIdentifier hd.property), String.ofList_toList]
  · rw [trimText, trim_of_tight htight, String.ofList_toList]
  · rw [collapseText, collapse_of_tight htight, hsqueezed, String.ofList_toList]

/-- A pretty declaration has a space before its value, and one before
    `!important`. -/
theorem declared_pretty {d : Declaration} (hd : d.IsSimple) :
    ∃ cs, Written.Declared d cs ∧ (prettyDeclaration d).toList = cs ++ [';'] := by
  obtain ⟨hproperty, hvalue, -⟩ := texts_of_simple hd
  refine ⟨_, .intro gap_space gap_space, ?_⟩
  rw [prettyDeclaration, hproperty, hvalue, Written.importance]
  cases d.important with
  | true => simp [String.toList_append]
  | false => simp [String.toList_append]

/-- A minified declaration has no gaps. -/
theorem declared_minified {d : Declaration} (hd : d.IsSimple) :
    Written.Declared d (minifiedDeclaration d).toList := by
  obtain ⟨hproperty, -, hvalue⟩ := texts_of_simple hd
  have htext : (minifiedDeclaration d).toList = d.property.toList ++ ':' :: ([] ++
      (d.valueText.toList ++ Written.importance d [])) := by
    rw [minifiedDeclaration, hproperty, hvalue, Written.importance]
    cases d.important with
    | true => simp [String.toList_append]
    | false => simp [String.toList_append]
  rw [htext]
  exact .intro gap_nil gap_nil

theorem gap_indent (level : Nat) : Gap (indent level).toList := by
  rw [indent, String.toList_ofList]
  intro c hc
  rw [List.eq_of_mem_replicate hc]
  exact isBlank_space

theorem gap_newline : Gap ['\n'] :=
  List.forall_mem_singleton.mpr (by decide)

/-- **Lines of declarations, up to the closing brace.** -/
theorem declarations_pretty (level : Nat) {ds : List Declaration} (hds : ∀ d ∈ ds, d.IsSimple)
    {last : List Char} (hlast : Gap last) :
    Written.Declarations ds ((prettyLines level ds).flatMap String.toList ++ (last ++ ['}'])) := by
  induction ds with
  | nil => exact .done hlast
  | cons d ds ih =>
      obtain ⟨hd, hds⟩ := List.forall_mem_cons.mp hds
      obtain ⟨cs, hcs, htext⟩ := declared_pretty hd
      have hnext := Written.Declarations.next (gap_indent (level + 1)) hcs
        (declarations_gap gap_newline (ih hds))
      have hline : (prettyLines level (d :: ds)).flatMap String.toList =
          (indent (level + 1)).toList ++ (cs ++ ';' :: (['\n'] ++
            (prettyLines level ds).flatMap String.toList)) := by
        rw [prettyLines, List.map_cons, List.flatMap_cons, String.toList_append,
          String.toList_append, htext, List.append_assoc, List.append_assoc, List.append_assoc]
        rfl
      rw [hline]
      simpa only [List.append_assoc, List.cons_append] using hnext

/-- **Declarations with semicolons between them, up to the closing brace.** -/
theorem declarations_minified {ds : List Declaration} (hne : ds ≠ [])
    (hds : ∀ d ∈ ds, d.IsSimple) :
    Written.Declarations ds
      ((String.intercalate ";" (ds.map minifiedDeclaration)).toList ++ ['}']) := by
  induction ds with
  | nil => exact absurd rfl hne
  | cons d ds ih =>
      obtain ⟨hd, hds⟩ := List.forall_mem_cons.mp hds
      cases ds with
      | nil =>
          have hlast := Written.Declarations.last gap_nil (declared_minified hd)
          simpa using hlast
      | cons d' ds =>
          have hnext := Written.Declarations.next gap_nil (declared_minified hd)
            (ih (List.cons_ne_nil d' ds) hds)
          have hsemicolon : ";".toList = [';'] := rfl
          rw [List.map_cons, List.map_cons, String.intercalate_cons_cons, ← List.map_cons,
            String.toList_append, String.toList_append, hsemicolon]
          simpa only [List.append_assoc, List.cons_append, List.nil_append] using hnext

/-! ## The pretty form -/

theorem prettyBlock_eq (level : Nat) (head : String) {lines : List String} (hne : lines ≠ []) :
    prettyBlock level head lines = some (String.ofList ((indent level).toList ++
      ((head.toList ++ ([' '] ++ '{' :: (['\n'] ++ (lines.flatMap String.toList ++
        ((indent level).toList ++ ['}']))))) ++ ['\n']))) := by
  rw [prettyBlock, if_neg hne, Option.some.injEq, ← String.toList_inj, String.toList_ofList]
  simp [String.toList_append, String.toList_join]

/-- The text of a pretty element. -/
def prettyText (level : Nat) (cs : List Char) : String :=
  String.ofList ((indent level).toList ++ (cs ++ ['\n']))

/-- A pretty rule set is a written form of it. -/
theorem prettyElement_ruleSet {r : RuleSet} (hr : r.IsSimple) (level : Nat) :
    ∃ cs, Written.Block (.ruleSet r) cs ∧
      prettyElement level (.ruleSet r) = some (prettyText level cs) := by
  have hds := declarations_pretty level hr.items_eq.2 (gap_indent level)
  have hne : prettyLines level r.declarations ≠ [] := by
    rw [prettyLines]
    simpa using hr.declarations_ne_nil
  refine ⟨_, .ruleSet (.intro gap_space gap_space (declarations_gap gap_newline hds)), ?_⟩
  rw [prettyElement, hr.isMixin_eq, if_neg (by decide), prettyBlock_eq level _ hne,
    RuleSet.selectorText, toList_intercalate_joined (g := [' ']) rfl, List.map_map]
  rfl

/-- A pretty media block is a written form of it. -/
theorem prettyElement_media {m : Media} (hm : m.IsSimple) (level : Nat) :
    ∃ cs, Written.Block (.media m) cs ∧
      prettyElement level (.media m) = some (prettyText level cs) := by
  obtain ⟨texts, htexts, hlines, hne⟩ :=
    exists_blocks_of_media (fun _ hr => prettyElement_ruleSet hr (level + 1)) hm
  have hrules := rules_of_blocks (gap_indent (level + 1)) gap_newline (gap_indent level) htexts
  have hblock : prettyElement level (.media m) =
      prettyBlock level (mediaHead m ", ") (prettyBody (level + 1) m.container.body) := by
    obtain ⟨mediums, ⟨vars, body⟩, p⟩ := m
    rw [prettyElement]
  refine ⟨_, .media gap_space gap_space (rules_gap gap_newline hrules), ?_⟩
  rw [hblock, prettyBody_eq_filterMap, hlines, prettyBlock_eq level _ hne, mediaHead,
    String.toList_append, toList_intercalate_joined (g := [' ']) rfl, List.flatMap_map]
  simp only [prettyText, String.toList_ofList, List.append_assoc]

/-- The texts of elements with their line feeds and an empty line between
    them. -/
theorem intercalate_append (g g' : List Char) {texts : List (List Char)} (hne : texts ≠ []) :
    g'.intercalate (texts.map (· ++ g)) = (g ++ g').intercalate texts ++ g := by
  induction texts with
  | nil => exact absurd rfl hne
  | cons cs texts ih =>
      cases texts with
      | nil =>
          rw [List.map_cons, List.map_nil, List.intercalate_singleton, List.intercalate_singleton]
      | cons cs' texts =>
          have hlater := ih (List.cons_ne_nil cs' texts)
          rw [List.map_cons] at hlater
          rw [List.map_cons, List.map_cons, List.intercalate_cons_cons, hlater,
            List.intercalate_cons_cons]
          simp only [List.append_assoc]

/-- **The pretty form is a written form.** -/
theorem written_pretty {sheet : Sheet} (h : sheet.IsSimple) :
    Written.Blocks sheet.container.body (pretty sheet).toList := by
  have helements : ∀ e ∈ sheet.container.body, ∃ cs, Written.Block e cs ∧
      prettyElement 0 e = some (prettyText 0 cs) := by
    intro e he
    cases h.body e he with
    | ruleSet hr => exact prettyElement_ruleSet hr 0
    | media hm => exact prettyElement_media hm 0
  obtain ⟨texts, htexts, hbody⟩ := exists_blocks helements
  obtain ⟨hblocks, htight⟩ := blocks_intercalate (gap_newline.append gap_newline) htexts h.body
  have htext : (pretty sheet).toList =
      trim (List.intercalate ['\n'] (texts.map (· ++ ['\n']))) := by
    have hlines : (texts.map (prettyText 0)).map String.toList = texts.map (· ++ ['\n']) := by
      rw [List.map_map]
      exact List.map_congr_left fun cs _ => String.toList_ofList
    rw [pretty]
    simp only [headerLines_of_simple h, prettyBody_eq_filterMap, hbody, true_or, if_true, trimText,
      String.toList_ofList, List.map_nil, String.join_nil, String.toList_append,
      String.toList_intercalate, hlines]
    rfl
  rw [htext]
  cases texts with
  | nil => exact hblocks
  | cons cs texts =>
      -- only the last line feed is cut off
      have hne := List.cons_ne_nil cs texts
      have htrim := trim_gaps gap_nil (htight hne) gap_newline
      rw [List.nil_append] at htrim
      rwa [intercalate_append _ _ hne, htrim]

/-! ## The minified form -/

theorem minifiedBlock_eq (head separator : String) {parts : List String} (hne : parts ≠ []) :
    minifiedBlock head separator parts = some (String.ofList (head.toList ++ ([] ++ '{' ::
      ((String.intercalate separator parts).toList ++ ['}'])))) := by
  rw [minifiedBlock, if_neg hne, Option.some.injEq, ← String.toList_inj, String.toList_ofList]
  simp [String.toList_append]

/-- A minified rule set is a written form of it. -/
theorem minifiedElement_ruleSet {r : RuleSet} (hr : r.IsSimple) :
    ∃ cs, Written.Block (.ruleSet r) cs ∧
      minifiedElement (.ruleSet r) = some (String.ofList cs) := by
  have hds := declarations_minified hr.declarations_ne_nil hr.items_eq.2
  have hne : r.declarations.map minifiedDeclaration ≠ [] := by
    simpa using hr.declarations_ne_nil
  refine ⟨_, .ruleSet (.intro gap_nil gap_nil hds), ?_⟩
  rw [minifiedElement, hr.isMixin_eq, if_neg (by decide), minifiedBlock_eq _ _ hne,
    RuleSet.selectorText, toList_intercalate_joined (g := []) rfl, List.map_map]
  rfl

theorem toList_map_ofList (texts : List (List Char)) :
    (texts.map String.ofList).map String.toList = texts := by
  rw [List.map_map]
  conv => rhs; rw [← List.map_id texts]
  exact List.map_congr_left fun cs _ => String.toList_ofList

theorem intercalate_nil_left (texts : List (List Char)) :
    List.intercalate [] texts = texts.flatten := by
  induction texts with
  | nil => rfl
  | cons cs texts ih =>
      cases texts with
      | nil => rw [List.intercalate_singleton, List.flatten_singleton]
      | cons cs' texts =>
          rw [List.intercalate_cons_cons, ih, List.append_nil]
          rfl

/-- A minified media block is a written form of it. -/
theorem minifiedElement_media {m : Media} (hm : m.IsSimple) :
    ∃ cs, Written.Block (.media m) cs ∧
      minifiedElement (.media m) = some (String.ofList cs) := by
  obtain ⟨texts, htexts, hparts, hne⟩ :=
    exists_blocks_of_media (fun _ hr => minifiedElement_ruleSet hr) hm
  have hrules := rules_of_blocks gap_nil gap_nil gap_nil htexts
  have hblock : minifiedElement (.media m) =
      minifiedBlock (mediaHead m ",") "" (minifiedBody m.container.body) := by
    obtain ⟨mediums, ⟨vars, body⟩, p⟩ := m
    rw [minifiedElement]
  refine ⟨_, .media gap_nil gap_nil hrules, ?_⟩
  have hjoin : ("".intercalate (texts.map String.ofList)).toList =
      texts.flatMap fun cs => [] ++ (cs ++ []) := by
    rw [String.toList_intercalate, toList_map_ofList]
    exact (intercalate_nil_left texts).trans (by simp)
  rw [hblock, minifiedBody_eq_filterMap, hparts, minifiedBlock_eq _ _ hne, hjoin, mediaHead,
    String.toList_append, toList_intercalate_joined (g := []) rfl, List.append_assoc]
  rfl

/-- A tight text does not end with a line feed. -/
theorem dropFinalNewlines_of_tight {s : String} (h : Tight s.toList) :
    dropFinalNewlines s = s := by
  have hlast : s.toList.reverse.dropWhile (· = '\n') = s.toList.reverse := by
    rcases List.eq_nil_or_concat' s.toList with hnil | ⟨front, c, hconcat⟩
    · exact absurd hnil h.ne_nil
    · have hblank := h.last
      rw [hconcat, blankAfter_concat] at hblank
      have hne : c ≠ '\n' := fun heq => by
        rw [heq] at hblank
        revert hblank
        decide
      rw [hconcat, List.reverse_append, List.reverse_singleton, List.singleton_append,
        List.dropWhile_cons_of_neg (by simpa using hne)]
  rw [dropFinalNewlines, hlast, List.reverse_reverse, String.ofList_toList]

/-- **The minified form is a written form.** -/
theorem written_minified {sheet : Sheet} (h : sheet.IsSimple) :
    Written.Blocks sheet.container.body (minified sheet).toList := by
  have helements : ∀ e ∈ sheet.container.body, ∃ cs, Written.Block e cs ∧
      minifiedElement e = some (String.ofList cs) := by
    intro e he
    cases h.body e he with
    | ruleSet hr => exact minifiedElement_ruleSet hr
    | media hm => exact minifiedElement_media hm
  obtain ⟨texts, htexts, hbody⟩ := exists_blocks helements
  obtain ⟨hblocks, htight⟩ := blocks_intercalate gap_nil htexts h.body
  have hminified : minified sheet = dropFinalNewlines (String.ofList ([].intercalate texts)) := by
    rw [minified, headerLines_of_simple h, minifiedBody_eq_filterMap, hbody, intercalate_nil_left]
    congr 1
    rw [← String.toList_inj, String.toList_append, String.toList_join, String.toList_join,
      String.toList_ofList, List.flatMap_def, List.flatMap_def, toList_map_ofList]
    rfl
  rw [hminified]
  cases texts with
  | nil => exact hblocks
  | cons cs texts =>
      have htext : Tight (String.ofList ([].intercalate (cs :: texts))).toList := by
        rw [String.toList_ofList]
        exact htight (List.cons_ne_nil cs texts)
      rwa [dropFinalNewlines_of_tight htext, String.toList_ofList]

end Less.Css

namespace Less

open Parse

/-- **PARSING UNDOES WRITING**: the text of a simple sheet, pretty or minified,
    is read as that sheet, up to positions. -/
theorem Sheet.parse_toCss {sheet : Sheet} (h : sheet.IsSimple) (minify : Bool) :
    ∃ sheet', Sheet.parse (sheet.toCss minify).toList = .ok sheet' ∧
      sheet'.withoutPositions = sheet.withoutPositions := by
  cases minify with
  | true => exact parse_written h (Css.written_minified h)
  | false => exact parse_written h (Css.written_pretty h)

/-- Two media, two selectors, and two declarations, one of them with two words
    and important. -/
def Sheet.printed : Sheet where
  container := ⟨.empty, [.media ⟨["print", "screen"], ⟨.empty, [.ruleSet
    { selectors := [⟨".note"⟩, ⟨"h1"⟩]
      params := none
      items := [
        .declaration ⟨"margin", literalsOf ["inherit", "auto"], true, none⟩,
        .declaration ⟨"border-style", literalsOf ["none"], false, none⟩]
      container := .empty
      position := none }]⟩, none⟩]⟩

theorem Sheet.printed_isSimple : Sheet.printed.IsSimple := by
  have hmargin : Declaration.IsSimple ⟨"margin", literalsOf ["inherit", "auto"], true, none⟩ :=
    ⟨rfl, ["inherit", "auto"], by decide, by decide, rfl⟩
  have hborder : Declaration.IsSimple ⟨"border-style", literalsOf ["none"], false, none⟩ :=
    ⟨rfl, ["none"], by decide, by decide, rfl⟩
  refine ⟨rfl, rfl, rfl, List.forall_mem_singleton.mpr (.media ?_)⟩
  refine ⟨by decide, by decide, rfl, nofun, List.forall_mem_singleton.mpr ⟨_, rfl, ?_⟩⟩
  refine ⟨by decide, by decide, rfl, nofun, ?_, rfl⟩
  exact List.forall_mem_cons.mpr ⟨⟨_, rfl, hmargin⟩,
    List.forall_mem_singleton.mpr ⟨_, rfl, hborder⟩⟩

/-- The theorem at a sheet with a media block, in both forms. -/
theorem Sheet.parse_toCss_of_printed : Sheet.printed.toCss true =
      "@media print,screen\x7b.note,h1\x7bmargin:inherit auto!important;border-style:none\x7d\x7d" ∧
    ∀ minify, ∃ sheet', Sheet.parse (Sheet.printed.toCss minify).toList = .ok sheet' ∧
      sheet'.withoutPositions = Sheet.printed.withoutPositions :=
  ⟨rfl, fun minify => Sheet.parse_toCss Sheet.printed_isSimple minify⟩

end Less
