import Less.Css
import Less.Proofs.Spacing
import Less.Text.Quoted

/-! # Strings in written values

    A value may hold quoted strings, and the blanks inside a string belong to what
    it says.  The pretty form of a declaration keeps every string.  The minified
    form collapses the blanks of the whole value, **inside strings as well**: every
    run of blanks in a string becomes one space (`strings_of_written`), so that a
    string survives only if its blanks are single spaces.

    `HasStrings cs ss` says that `ss` are the strings of the text `cs`, in order.
    It passes through what the writers do to a value: turning a text around
    (`HasStrings.reverse`) reduces cutting at its end to cutting at its start
    (`HasStrings.trimStart`), and squeezing a text squeezes its strings
    (`HasStrings.squeeze`). -/

namespace Less.Text

/-- A quote, a content without that quote, backslashes and line feeds, and the
    quote again. -/
structure IsString (s : List Char) (q : Char) (content : List Char) : Prop where
  eq : s = q :: (content ++ [q])
  quote : isQuote q = true
  closed : q ∉ content
  noEscape : '\\' ∉ content
  noBreak : '\n' ∉ content

/-- The text consists of the strings `ss`, in this order, and of other characters
    that are no quotes. -/
inductive HasStrings : List Char → List (List Char) → Prop where
  | nil : HasStrings [] []
  | other {c : Char} {cs : List Char} {ss : List (List Char)} (hc : isQuote c = false)
      (h : HasStrings cs ss) : HasStrings (c :: cs) ss
  | string {q : Char} {s content cs : List Char} {ss : List (List Char)}
      (hs : IsString s q content) (h : HasStrings cs ss) : HasStrings (s ++ cs) (s :: ss)

theorem isBlank_of_isQuote {q : Char} (h : isQuote q = true) : isBlank q = false := by
  rw [isQuote, Bool.or_eq_true, beq_iff_eq, beq_iff_eq] at h
  rcases h with rfl | rfl <;> decide

/-! ## Strings on their own -/

namespace IsString

variable {s content : List Char} {q : Char}

theorem reverse (h : IsString s q content) : IsString s.reverse q content.reverse where
  eq := by rw [h.eq]; simp
  quote := h.quote
  closed := by simpa using h.closed
  noEscape := by simpa using h.noEscape
  noBreak := by simpa using h.noBreak

/-- A string stays one when the blanks inside it are squeezed. -/
theorem squeeze (h : IsString s q content) : IsString (squeeze false s) q (squeeze false content) where
  eq := by
    have hq := isBlank_of_isQuote h.quote
    rw [h.eq, squeeze_of_head hq, squeeze_append, squeeze_of_head hq]
    rfl
  quote := h.quote
  closed := fun hmem => h.closed ((mem_squeeze (isBlank_of_isQuote h.quote) _ _).mp hmem)
  noEscape := fun hmem => h.noEscape ((mem_squeeze (by decide) _ _).mp hmem)
  noBreak := fun hmem => (mem_or_eq_space_of_mem_squeeze hmem).elim h.noBreak (by decide)

/-- A string starts and ends with its quote. -/
theorem tight (h : IsString s q content) : Tight s := by
  have hq := isBlank_of_isQuote h.quote
  rw [h.eq]
  refine ⟨⟨q, content ++ [q], rfl, hq⟩, ?_⟩
  rw [blankAfter, blankAfter_concat, hq]

/-- The content ends at the first quote. -/
theorem takeWhile_eq (h : IsString s q content) (cs : List Char) :
    (content ++ q :: cs).takeWhile (· ≠ q) = content := by
  have hcontent : ∀ c ∈ content, decide (c ≠ q) = true := fun c hc => by
    simpa using fun heq : c = q => h.closed (heq ▸ hc)
  rw [List.takeWhile_append_of_pos hcontent, List.takeWhile_cons_of_neg (by simp), List.append_nil]

/-- A text starts with one string only. -/
theorem append_inj {s' content' cs cs' : List Char} {q' : Char} (hs : IsString s q content)
    (hs' : IsString s' q' content') (h : s ++ cs = s' ++ cs') : s = s' ∧ cs = cs' := by
  have htext : q :: (content ++ q :: cs) = q' :: (content' ++ q' :: cs') := by
    rw [hs.eq, hs'.eq] at h
    simpa using h
  injection htext with hq hrest
  subst hq
  have hcontent : content = content' := by
    rw [← hs.takeWhile_eq cs, hrest, hs'.takeWhile_eq]
  subst hcontent
  injection List.append_cancel_left hrest with _ hcs
  exact ⟨hs.eq.trans hs'.eq.symm, hcs⟩

end IsString

/-! ## Strings in a text -/

namespace HasStrings

variable {cs xs ys s content : List Char} {ss ts : List (List Char)} {q : Char}

theorem append (hx : HasStrings xs ss) (hy : HasStrings ys ts) :
    HasStrings (xs ++ ys) (ss ++ ts) := by
  induction hx with
  | nil => exact hy
  | other hc _ ih => exact .other hc ih
  | string hs _ ih =>
      rw [List.append_assoc]
      exact .string hs ih

/-- The text turned around has the strings turned around. -/
theorem reverse (h : HasStrings cs ss) :
    HasStrings cs.reverse (ss.map List.reverse).reverse := by
  induction h with
  | nil => exact .nil
  | other hc _ ih =>
      rw [List.reverse_cons]
      simpa using ih.append (.other hc .nil)
  | string hs _ ih =>
      rw [List.reverse_append, List.map_cons, List.reverse_cons]
      have hlast := HasStrings.string hs.reverse .nil
      rw [List.append_nil] at hlast
      exact ih.append hlast

/-- Blanks in front belong to no string. -/
theorem trimStart (h : HasStrings cs ss) : HasStrings (trimStart cs) ss := by
  induction h with
  | nil => exact .nil
  | @other c cs ss hc h ih =>
      by_cases hblank : isBlank c = true
      · rw [Text.trimStart, List.dropWhile_cons_of_pos hblank]
        exact ih
      · rw [trimStart_of_head (Bool.not_eq_true _ ▸ hblank)]
        exact .other hc h
  | @string q s content cs ss hs h ih =>
      obtain ⟨c, rest, hrest, hblank⟩ := hs.tight.head
      have hstart : Text.trimStart (s ++ cs) = s ++ cs := by
        rw [hrest, List.cons_append, trimStart_of_head hblank]
      rw [hstart]
      exact .string hs h

/-- Blanks at both ends belong to no string. -/
theorem trim (h : HasStrings cs ss) : HasStrings (trim cs) ss := by
  have hend := h.trimStart.reverse.trimStart.reverse
  rw [List.map_reverse, List.reverse_reverse, List.map_map, List.reverse_involutive.comp_self,
    List.map_id] at hend
  exact hend

/-- **Squeezing a text squeezes its strings.** -/
theorem squeeze (h : HasStrings cs ss) :
    ∀ after, HasStrings (squeeze after cs) (ss.map (squeeze false)) := by
  induction h with
  | nil => exact fun _ => .nil
  | @other c cs ss hc h ih =>
      intro after
      rw [Text.squeeze]
      split
      · split
        · exact ih true
        · exact .other (by decide) (ih true)
      · exact .other hc (ih false)
  | string hs _ ih =>
      intro after
      rw [squeeze_append, hs.tight.squeeze_eq after false]
      exact .string hs.squeeze (ih _)

theorem collapse (h : HasStrings cs ss) : HasStrings (collapse cs) (ss.map (Text.squeeze false)) :=
  (h.squeeze false).trim

/-- **A text has its strings in one way only.** -/
theorem unique (h : HasStrings cs ss) (h' : HasStrings cs ts) : ss = ts := by
  induction h generalizing ts with
  | nil =>
      generalize hnil : ([] : List Char) = cs at h'
      cases h' with
      | nil => rfl
      | other => cases hnil
      | string hs => rw [hs.eq] at hnil; cases hnil
  | @other c cs ss hc h ih =>
      generalize hcs : c :: cs = text at h'
      cases h' with
      | nil => cases hcs
      | other _ h' =>
          injection hcs with _ hcs
          exact ih (hcs ▸ h')
      | string hs =>
          rw [hs.eq] at hcs
          injection hcs with hcs
          rw [hcs, hs.quote] at hc
          cases hc
  | @string q s content cs ss hs h ih =>
      generalize hcs : s ++ cs = text at h'
      cases h' with
      | nil => rw [hs.eq] at hcs; cases hcs
      | other hc =>
          rw [hs.eq] at hcs
          injection hcs with hcs
          rw [← hcs, hs.quote] at hc
          cases hc
      | string hs' h' =>
          obtain ⟨rfl, rfl⟩ := hs.append_inj hs' hcs
          rw [ih h']

end HasStrings

/-! ## Single spaces -/

/-- The blanks of the text are single spaces. -/
structure SinglySpaced (cs : List Char) : Prop where
  spaces : ∀ c ∈ cs, isBlank c = true → c = ' '
  single : ¬ [' ', ' '] <:+: cs

theorem SinglySpaced.tail {c : Char} {cs : List Char} (h : SinglySpaced (c :: cs)) :
    SinglySpaced cs :=
  ⟨fun d hd => h.spaces d (List.mem_cons_of_mem c hd),
    fun hinside => h.single (hinside.trans (List.suffix_cons c cs).isInfix)⟩

theorem squeeze_of_singlySpaced {cs : List Char} (h : SinglySpaced cs) : squeeze false cs = cs := by
  induction cs with
  | nil => rfl
  | cons c cs ih =>
      have hlater := ih h.tail
      by_cases hc : isBlank c = true
      · have hspace : c = ' ' := h.spaces c List.mem_cons_self hc
        -- what follows starts with no blank, so that it is squeezed alike behind one
        have hbehind : squeeze true cs = squeeze false cs := by
          cases cs with
          | nil => rfl
          | cons d ds =>
              have hd : isBlank d = false := by
                by_contra hblank
                have hdspace := h.spaces d (by simp) (Bool.not_eq_false _ ▸ hblank)
                exact h.single ⟨[], ds, by rw [hspace, hdspace]; rfl⟩
              rw [squeeze_of_head hd, squeeze_of_head hd]
        rw [squeeze, if_pos hc, if_neg Bool.false_ne_true, hbehind, hlater, hspace]
      · rw [squeeze, if_neg hc, hlater]

theorem eq_space_of_mem_squeeze {x : Char} (hx : isBlank x = true) {after : Bool} {cs : List Char}
    (h : x ∈ squeeze after cs) : x = ' ' := by
  induction cs generalizing after with
  | nil => exact absurd h List.not_mem_nil
  | cons c cs ih =>
      rw [squeeze] at h
      split at h
      · split at h
        · exact ih h
        · exact (List.mem_cons.mp h).elim id ih
      · rename_i hc
        rcases List.mem_cons.mp h with rfl | h
        · exact absurd hx hc
        · exact ih h

/-- **A text is squeezed exactly if its blanks are single spaces.** -/
theorem squeeze_eq_self_iff {cs : List Char} : squeeze false cs = cs ↔ SinglySpaced cs := by
  constructor
  · intro h
    refine ⟨fun c hc hblank => eq_space_of_mem_squeeze hblank (h ▸ hc), ?_⟩
    rintro ⟨front, behind, rfl⟩
    -- the second space is dropped, which leaves too short a text
    rw [List.append_assoc] at h
    have hright := squeezed_right h
    have hlength := congrArg List.length hright
    have hshort := length_squeeze_le true behind
    simp only [List.cons_append, List.nil_append, squeeze, isBlank_space, if_true] at hlength
    split at hlength
    · simp only [List.length_cons] at hlength
      omega
    · simp only [List.length_cons] at hlength
      omega
  · exact squeeze_of_singlySpaced

end Less.Text

namespace Less.Css

open Less.Text

/-- **MINIFYING SQUEEZES THE STRINGS OF A VALUE.**  For a declaration whose value
    consists of strings and other text without quotes, the strings of the value in
    the minified form are the same ones with every run of blanks turned into one
    space.  So they are unchanged exactly if the blanks in all of them are single
    spaces.  The pretty form keeps every string. -/
theorem strings_of_written {d : Declaration} {ss : List (List Char)}
    (h : HasStrings d.valueText.toList ss) :
    (∃ value, minifiedDeclaration d = trimText d.property ++ ":" ++ String.ofList value
          ++ (if d.important then "!important" else "")
        ∧ HasStrings value (ss.map (squeeze false))
        ∧ (HasStrings value ss ↔ ∀ s ∈ ss, SinglySpaced s))
      ∧ ∃ value, prettyDeclaration d = trimText d.property ++ ": " ++ String.ofList value
          ++ (if d.important then " !important" else "") ++ ";"
        ∧ HasStrings value ss := by
  have hcollapse : HasStrings (collapse d.valueText.toList) (ss.map (squeeze false)) := h.collapse
  refine ⟨⟨collapse d.valueText.toList, rfl, hcollapse, ?_, ?_⟩,
    trim d.valueText.toList, rfl, h.trim⟩
  · intro hsame s hs
    have hmap : ss.map (squeeze false) = ss.map id := by
      rw [List.map_id]
      exact hcollapse.unique hsame
    exact squeeze_eq_self_iff.mp (List.map_inj_left.mp hmap s hs)
  · intro hall
    have hmap : ss.map (squeeze false) = ss.map id :=
      List.map_congr_left fun s hs => squeeze_of_singlySpaced (hall s hs)
    rwa [hmap, List.map_id] at hcollapse

/-- A declaration with two spaces in a string. -/
def spacedString : Declaration :=
  { property := "content", values := [.literal "\"a  b\"" none] }

theorem hasStrings_spacedString : HasStrings spacedString.valueText.toList ["\"a  b\"".toList] := by
  have hstring : IsString "\"a  b\"".toList '"' "a  b".toList :=
    ⟨rfl, rfl, by decide, by decide, by decide⟩
  exact .string hstring .nil

/-- The theorem at that declaration: one of the two spaces is lost. -/
theorem strings_of_written_with_two_spaces :
    HasStrings spacedString.valueText.toList ["\"a  b\"".toList]
      ∧ ∃ value, minifiedDeclaration spacedString = "content" ++ ":" ++ String.ofList value ++ ""
        ∧ HasStrings value ["\"a b\"".toList] := by
  obtain ⟨⟨value, hvalue, hstrings, -⟩, -⟩ := strings_of_written hasStrings_spacedString
  exact ⟨hasStrings_spacedString, value, hvalue, hstrings⟩

/-- **Not every string survives minifying**: of the two spaces in the string
    `"a  b"` one is left, and the pretty form keeps both. -/
theorem string_changed_by_minifying :
    HasStrings spacedString.valueText.toList ["\"a  b\"".toList]
      ∧ minifiedDeclaration spacedString = "content:\"a b\""
      ∧ prettyDeclaration spacedString = "content: \"a  b\";"
      ∧ ¬ HasStrings "\"a b\"".toList ["\"a  b\"".toList] := by
  refine ⟨hasStrings_spacedString, by decide +kernel, by decide +kernel, fun hsame => ?_⟩
  have hstring : IsString "\"a b\"".toList '"' "a b".toList :=
    ⟨rfl, rfl, by decide, by decide, by decide⟩
  have hone : HasStrings "\"a b\"".toList ["\"a b\"".toList] := .string hstring .nil
  have hstrings := hone.unique hsame
  revert hstrings
  decide

end Less.Css
