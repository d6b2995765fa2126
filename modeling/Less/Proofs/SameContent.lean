import Less.Css
import Less.Proofs.Contents
import Less.Proofs.Spacing

/-! # Pretty and minified text carry the same content

    The two forms of a sheet are written by separate functions, which differ in
    their blanks and semicolons.  What else stands in a text is its **ink**.
    Beside the two writers stands a third function, `content`, which lists
    the ink a sheet has to leave: heads with their selectors or mediums,
    declarations, marks of importance and braces, in the order of the sheet.

    Each function of a writer leaves the ink of the corresponding part
    (`ink_prettyElement`, `ink_minifiedElement`, by induction along the nesting
    of elements).  The ink also says whether an element is written at all, so
    that both forms leave out the same elements. -/

namespace Less.Css

open Less.Text

/-! ## Ink -/

/-- A character that is neither a blank nor a semicolon. -/
def isInk (c : Char) : Bool :=
  !isBlank c && c != ';'

/-- What a text holds beside blanks and semicolons. -/
def ink (s : String) : List Char :=
  s.toList.filter isInk

theorem isInk_of_isBlank {c : Char} (h : isBlank c = true) : isInk c = false := by
  rw [isInk, h]
  rfl

@[simp] theorem ink_append (s t : String) : ink (s ++ t) = ink s ++ ink t := by
  rw [ink, String.toList_append, List.filter_append]
  rfl

theorem ink_ofList (cs : List Char) : ink (String.ofList cs) = cs.filter isInk := by
  rw [ink, String.toList_ofList]

@[simp] theorem ink_join (ss : List String) : ink (String.join ss) = ss.flatMap ink := by
  rw [ink, String.toList_join, List.filter_flatMap]
  rfl

theorem ink_intercalate (separator : String) (ss : List String) :
    ink (String.intercalate separator ss) = (ink separator).intercalate (ss.map ink) := by
  induction ss with
  | nil => simp [ink]
  | cons s ss ih =>
      cases ss with
      | nil => simp
      | cons t ss =>
          rw [String.intercalate_cons_cons, ink_append, ink_append, ih, List.map_cons,
            List.map_cons, List.map_cons, List.intercalate_cons_cons]

/-- What is joined by spacing is not told from what is put side by side. -/
theorem ink_intercalate_of_spacing {separator : String} (h : ink separator = [])
    (ss : List String) : ink (String.intercalate separator ss) = ss.flatMap ink := by
  induction ss with
  | nil => simp [ink]
  | cons s ss ih =>
      cases ss with
      | nil => simp
      | cons t ss =>
          rw [String.intercalate_cons_cons, ink_append, ink_append, ih, h, List.append_nil]
          rfl

theorem filter_dropWhile {p q : Char → Bool} (h : ∀ c, q c = true → p c = false)
    (cs : List Char) : (cs.dropWhile q).filter p = cs.filter p := by
  induction cs with
  | nil => rfl
  | cons c cs ih =>
      by_cases hc : q c = true
      · rw [List.dropWhile_cons_of_pos hc, ih, List.filter_cons_of_neg (by simp [h c hc])]
      · rw [List.dropWhile_cons_of_neg hc]

@[simp] theorem ink_trimText (s : String) : ink (trimText s) = ink s := by
  have hblank : ∀ c, isBlank c = true → isInk c = false := fun _ => isInk_of_isBlank
  rw [trimText, ink_ofList, trim, trimEnd, List.filter_reverse, filter_dropWhile hblank,
    List.filter_reverse, List.reverse_reverse, trimStart, filter_dropWhile hblank]
  rfl

theorem filter_squeeze (after : Bool) (cs : List Char) :
    (squeeze after cs).filter isInk = cs.filter isInk := by
  induction cs generalizing after with
  | nil => rfl
  | cons c cs ih =>
      by_cases hc : isBlank c = true
      · have hspace : isInk ' ' = false := isInk_of_isBlank isBlank_space
        have hink : isInk c = false := isInk_of_isBlank hc
        rw [squeeze, if_pos hc]
        split <;> simp [hspace, hink, ih]
      · rw [squeeze, if_neg hc, List.filter_cons, List.filter_cons, ih]

@[simp] theorem ink_collapseText (s : String) : ink (collapseText s) = ink s := by
  have htrim : collapseText s = trimText (String.ofList (squeeze false s.toList)) := by
    rw [trimText, String.toList_ofList]
    rfl
  rw [htrim, ink_trimText, ink_ofList, filter_squeeze]
  rfl

@[simp] theorem ink_dropFinalNewlines (s : String) : ink (dropFinalNewlines s) = ink s := by
  have hnewline : ∀ c : Char, decide (c = '\n') = true → isInk c = false := by
    intro c hc
    rw [of_decide_eq_true hc]
    decide
  rw [dropFinalNewlines, ink_ofList, List.filter_reverse, filter_dropWhile hnewline,
    List.filter_reverse, List.reverse_reverse]
  rfl

@[simp] theorem ink_indent (level : Nat) : ink (indent level) = [] := by
  rw [indent, ink_ofList, List.filter_replicate]
  rfl

/-! ## The content of a sheet -/

/-- The content of a declaration. -/
def declarationInk (d : Declaration) : List Char :=
  ink d.property ++ ':' :: ink d.valueText ++ if d.important then "!important".toList else []

/-- The content of a block: its head and its parts in braces, unless there are no
    parts. -/
def blockInk (head : List Char) (parts : List (List Char)) : Option (List Char) :=
  if parts = [] then none else some (head ++ '{' :: parts.flatten ++ ['}'])

/-- The content of texts in a list. -/
def listInk (texts : List String) : List Char :=
  [','].intercalate (texts.map ink)

mutual

/-- The content of an element, unless nothing of it is written. -/
def elementInk : Element → Option (List Char)
  | .ruleSet r =>
      if r.isMixin then none
      else blockInk (listInk (r.selectors.map Selector.text)) (r.declarations.map declarationInk)
  | .media ⟨mediums, ⟨_, body⟩, _⟩ => blockInk ("@media".toList ++ listInk mediums) (bodyInk body)
  | .page p =>
      blockInk ("@page".toList ++ (p.pseudo.map ink).getD []) (p.declarations.map declarationInk)
  | .keyframes ⟨keyword, name, ⟨_, body⟩, _⟩ => blockInk ('@' :: ink keyword ++ ink name) (bodyInk body)

/-- The contents of the elements that are written. -/
def bodyInk : List Element → List (List Char)
  | [] => []
  | e :: es => (elementInk e).toList ++ bodyInk es

end

/-- The content of a sheet: its header and its elements. -/
def content (sheet : Sheet) : List Char :=
  (sheet.charset.map fun charset => "@charset".toList ++ ink charset).getD []
    ++ sheet.imports.flatMap ink ++ (bodyInk sheet.container.body).flatten

theorem bodyInk_eq_filterMap (es : List Element) : bodyInk es = es.filterMap elementInk := by
  induction es with
  | nil => rw [bodyInk, List.filterMap_nil]
  | cons e es ih =>
      rw [bodyInk, ih, List.filterMap_cons]
      cases elementInk e with
      | none => rfl
      | some cs => rfl

/-! ## Parts -/

theorem ink_prettyDeclaration (d : Declaration) : ink (prettyDeclaration d) = declarationInk d := by
  have hcolon : ink ": " = [':'] := rfl
  have hsemicolon : ink ";" = [] := rfl
  have hmark : ink " !important" = "!important".toList := rfl
  rw [prettyDeclaration, declarationInk]
  split <;> simp [hcolon, hsemicolon, hmark]

theorem ink_minifiedDeclaration (d : Declaration) :
    ink (minifiedDeclaration d) = declarationInk d := by
  have hcolon : ink ":" = [':'] := rfl
  have hmark : ink "!important" = "!important".toList := rfl
  rw [minifiedDeclaration, declarationInk]
  split <;> simp [hcolon, hmark]

/-- A comma with or without a space behind it. -/
theorem ink_list {separator : String} (h : ink separator = [',']) (texts : List String) :
    ink (String.intercalate separator texts) = listInk texts := by
  rw [ink_intercalate, h, listInk]

theorem ink_selectorText {separator : String} (h : ink separator = [',']) (r : RuleSet) :
    ink (r.selectorText separator) = listInk (r.selectors.map Selector.text) :=
  ink_list h _

theorem ink_mediaHead {separator : String} (h : ink separator = [',']) (m : Media) :
    ink (mediaHead m separator) = "@media".toList ++ listInk m.mediums := by
  rw [mediaHead, ink_append, ink_list h]
  rfl

theorem ink_pageHead (p : Page) :
    ink (pageHead p) = "@page".toList ++ (p.pseudo.map ink).getD [] := by
  rw [pageHead]
  split <;> rename_i h
  · rw [h, ink_append]
    rfl
  · rw [h]
    rfl

theorem ink_keyframesHead (k : Keyframes) :
    ink (keyframesHead k) = '@' :: ink k.keyword ++ ink k.name := by
  have hat : ink "@" = ['@'] := rfl
  have hspace : ink " " = [] := rfl
  simp [keyframesHead, hat, hspace]

/-! ## Blocks -/

theorem ink_prettyBlock (level : Nat) (head : String) (lines : List String) :
    (prettyBlock level head lines).map ink = blockInk (ink head) (lines.map ink) := by
  have hopen : ink " \x7b\n" = ['{'] := rfl
  have hclose : ink "\x7d\n" = ['}'] := rfl
  rw [prettyBlock, blockInk]
  by_cases hlines : lines = []
  · simp [hlines]
  · simp [hlines, hopen, hclose, List.flatMap_def]

theorem ink_minifiedBlock {separator : String} (h : ink separator = []) (head : String)
    (parts : List String) :
    (minifiedBlock head separator parts).map ink = blockInk (ink head) (parts.map ink) := by
  have hopen : ink "\x7b" = ['{'] := rfl
  have hclose : ink "\x7d" = ['}'] := rfl
  rw [minifiedBlock, blockInk]
  by_cases hparts : parts = []
  · simp [hparts]
  · simp [hparts, hopen, hclose, ink_intercalate_of_spacing h, List.flatMap_def]

theorem ink_prettyLines (level : Nat) (ds : List Declaration) :
    (prettyLines level ds).map ink = ds.map declarationInk := by
  have hnewline : ink "\n" = [] := rfl
  rw [prettyLines, List.map_map]
  refine List.map_congr_left fun d _ => ?_
  simp [hnewline, ink_prettyDeclaration]

theorem ink_minifiedDeclarations (ds : List Declaration) :
    (ds.map minifiedDeclaration).map ink = ds.map declarationInk := by
  rw [List.map_map]
  refine List.map_congr_left fun d _ => ?_
  rw [Function.comp_apply, ink_minifiedDeclaration]

/-! ## Elements -/

/-- What is written of elements has the ink of the elements, if each one does. -/
theorem ink_filterMap {write : Element → Option String} {es : List Element}
    (h : ∀ e ∈ es, (write e).map ink = elementInk e) :
    (es.filterMap write).map ink = bodyInk es := by
  rw [bodyInk_eq_filterMap, List.map_filterMap]
  exact List.filterMap_congr h

/-- **The ink of an element in the pretty form**, at every level. -/
theorem ink_prettyElement (e : Element) :
    ∀ level, (prettyElement level e).map ink = elementInk e := by
  have hcomma : ink ", " = [','] := rfl
  induction e using Element.induction with
  | step e ih =>
      intro level
      have hbody : (prettyBody (level + 1) e.container.body).map ink = bodyInk e.container.body := by
        rw [prettyBody_eq_filterMap]
        exact ink_filterMap fun o ho => ih o ho (level + 1)
      cases e with
      | ruleSet r =>
          rw [prettyElement, elementInk]
          split
          · rfl
          · rw [ink_prettyBlock, ink_prettyLines, ink_selectorText hcomma]
      | media m =>
          obtain ⟨mediums, ⟨vars, body⟩, p⟩ := m
          rw [prettyElement, elementInk, ink_prettyBlock, ink_mediaHead hcomma]
          exact congrArg _ hbody
      | page p => rw [prettyElement, elementInk, ink_prettyBlock, ink_prettyLines, ink_pageHead]
      | keyframes k =>
          obtain ⟨keyword, name, ⟨vars, body⟩, p⟩ := k
          rw [prettyElement, elementInk, ink_prettyBlock, ink_keyframesHead]
          exact congrArg _ hbody

/-- **The ink of an element in the minified form.** -/
theorem ink_minifiedElement (e : Element) : (minifiedElement e).map ink = elementInk e := by
  have hcomma : ink "," = [','] := rfl
  have hsemicolon : ink ";" = [] := rfl
  have hnone : ink "" = [] := rfl
  induction e using Element.induction with
  | step e ih =>
      have hbody : (minifiedBody e.container.body).map ink = bodyInk e.container.body := by
        rw [minifiedBody_eq_filterMap]
        exact ink_filterMap ih
      cases e with
      | ruleSet r =>
          rw [minifiedElement, elementInk]
          split
          · rfl
          · rw [ink_minifiedBlock hsemicolon, ink_minifiedDeclarations, ink_selectorText hcomma]
      | media m =>
          obtain ⟨mediums, ⟨vars, body⟩, p⟩ := m
          rw [minifiedElement, elementInk, ink_minifiedBlock hnone, ink_mediaHead hcomma]
          exact congrArg _ hbody
      | page p =>
          rw [minifiedElement, elementInk, ink_minifiedBlock hsemicolon, ink_minifiedDeclarations,
            ink_pageHead]
      | keyframes k =>
          obtain ⟨keyword, name, ⟨vars, body⟩, p⟩ := k
          rw [minifiedElement, elementInk, ink_minifiedBlock hnone, ink_keyframesHead]
          exact congrArg _ hbody

/-! ## Sheets -/

theorem ink_headerLines (sheet : Sheet) :
    ink (String.join ((headerLines sheet).map (· ++ "\n"))) =
      (sheet.charset.map fun charset => "@charset".toList ++ ink charset).getD []
        ++ sheet.imports.flatMap ink := by
  have hnewline : ink "\n" = [] := rfl
  have hcharset : ink "@charset " = "@charset".toList := rfl
  have hsemicolon : ink ";" = [] := rfl
  rw [ink_join, List.flatMap_map]
  simp only [ink_append, hnewline, List.append_nil]
  rw [headerLines, List.flatMap_append, List.flatMap_map]
  cases sheet.charset with
  | none => simp
  | some charset => simp [hcharset, hsemicolon]

theorem ink_pretty (sheet : Sheet) : ink (pretty sheet) = content sheet := by
  have hnewline : ink "\n" = [] := rfl
  have hnone : ink "" = [] := rfl
  have hbody : (prettyBody 0 sheet.container.body).flatMap ink =
      (bodyInk sheet.container.body).flatten := by
    rw [List.flatMap_def, prettyBody_eq_filterMap, ink_filterMap fun e _ => ink_prettyElement e 0]
  rw [pretty, content, ← ink_headerLines, ← hbody]
  simp only [ink_trimText, ink_append, ink_intercalate_of_spacing hnewline]
  split <;> simp [hnewline, hnone]

theorem ink_minified (sheet : Sheet) : ink (minified sheet) = content sheet := by
  have hbody : (minifiedBody sheet.container.body).flatMap ink =
      (bodyInk sheet.container.body).flatten := by
    rw [List.flatMap_def, minifiedBody_eq_filterMap, ink_filterMap fun e _ => ink_minifiedElement e]
  rw [minified, ink_dropFinalNewlines, ink_append, ink_headerLines, ink_join, hbody, content]

/-- **PRETTY AND MINIFIED TEXT CARRY THE SAME CONTENT.**  Without blanks and
    semicolons, both forms of a sheet are the content of the sheet.  So are both
    forms of each element, wherever it stands and at whatever level; in particular
    both leave out the same elements. -/
theorem toCss_same_content (sheet : Sheet) :
    ink (sheet.toCss false) = ink (sheet.toCss true)
      ∧ ink (sheet.toCss true) = content sheet
      ∧ ∀ level e, (prettyElement level e).map ink = (minifiedElement e).map ink
        ∧ (prettyElement level e = none ↔ minifiedElement e = none) := by
  have hpretty : ink (sheet.toCss false) = content sheet := ink_pretty sheet
  have hminified : ink (sheet.toCss true) = content sheet := ink_minified sheet
  refine ⟨hpretty.trans hminified.symm, hminified, fun level e => ?_⟩
  have hsame : (prettyElement level e).map ink = (minifiedElement e).map ink := by
    rw [ink_prettyElement, ink_minifiedElement]
  refine ⟨hsame, ?_⟩
  rw [← Option.map_eq_none_iff (f := ink), hsame, Option.map_eq_none_iff]

end Less.Css
