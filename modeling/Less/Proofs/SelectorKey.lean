import Less.Proofs.Nesting
import Less.Proofs.StringsInValues

/-! # Selectors as keys

    Rule sets are looked up by their selectors, so two texts have to give the same
    selector exactly if they have the same **words**, the maximal runs of characters
    that are no blanks.

    Neither squeezing nor trimming touches the words of a text (`words_collapse`), and
    a text that is collapsed is made of its words and single spaces between them
    (`intercalate_words`).  So the words and the collapsed text determine each other.
    Combining selectors ends with collapsing, wherever the parent is put, so that all
    selectors are in this form (`canonical_lookup_key`). -/

namespace Less.Text

variable {xs ys cs : List Char} {c : Char}

/-! ## The words of a text -/

/-- **The words of a text**: its maximal runs of characters that are no blanks. -/
def words (cs : List Char) : List (List Char) :=
  (cs.splitOnP isBlank).filter (· ≠ [])

theorem words_nil : words [] = [] := by
  simp [words]

/-- A blank parts the words before it from those behind it. -/
theorem words_append_blank (hc : isBlank c = true) (xs ys : List Char) :
    words (xs ++ c :: ys) = words xs ++ words ys := by
  rw [words, List.splitOnP_append_cons xs ys hc, List.filter_append]
  rfl

theorem words_cons_blank (hc : isBlank c = true) (cs : List Char) : words (c :: cs) = words cs := by
  have hfront := words_append_blank hc [] cs
  rwa [words_nil, List.nil_append, List.nil_append] at hfront

theorem words_append_blanks (xs : List Char) (h : ∀ c ∈ ys, isBlank c = true) :
    words (xs ++ ys) = words xs := by
  induction ys generalizing xs with
  | nil => rw [List.append_nil]
  | cons c ys ih =>
      have hlater : words ys = [] := by
        have hys := ih [] fun d hd => h d (List.mem_cons_of_mem c hd)
        rwa [List.nil_append, words_nil] at hys
      rw [words_append_blank (h c List.mem_cons_self), hlater, List.append_nil]

/-! ## Normalising keeps the words -/

theorem words_trimStart (cs : List Char) : words (trimStart cs) = words cs := by
  induction cs with
  | nil => rfl
  | cons c cs ih =>
      by_cases hc : isBlank c = true
      · rw [trimStart, List.dropWhile_cons_of_pos hc, words_cons_blank hc]
        exact ih
      · rw [trimStart_of_head (Bool.eq_false_iff.mpr hc)]

theorem words_trimEnd (cs : List Char) : words (trimEnd cs) = words cs := by
  obtain ⟨blanks, hcs, hblanks⟩ := trimEnd_append_blanks cs
  conv_rhs => rw [hcs]
  rw [words_append_blanks _ hblanks]

/-- Squeezing keeps the words, also those that start in a text `xs` in front: after a
    blank there is none. -/
theorem words_append_squeeze {after : Bool} (hafter : after = true → xs = []) (cs : List Char) :
    words (xs ++ squeeze after cs) = words (xs ++ cs) := by
  induction cs generalizing xs after with
  | nil => rfl
  | cons c cs ih =>
      have hbehind : words (squeeze true cs) = words cs := by
        have hfront : words ([] ++ squeeze true cs) = words ([] ++ cs) := ih fun _ => rfl
        exact hfront
      rw [squeeze]
      by_cases hc : isBlank c = true
      · rw [if_pos hc, words_append_blank hc]
        by_cases ha : after = true
        · rw [if_pos ha, hafter ha, List.nil_append, hbehind, words_nil, List.nil_append]
        · rw [if_neg ha, words_append_blank isBlank_space, hbehind]
      · -- the character joins the text in front
        have hjoined : words ((xs ++ [c]) ++ squeeze false cs) = words ((xs ++ [c]) ++ cs) :=
          ih fun hfalse => absurd hfalse Bool.false_ne_true
        rw [List.append_assoc, List.append_assoc] at hjoined
        rw [if_neg hc]
        exact hjoined

/-- **Collapsing keeps the words.** -/
theorem words_collapse (cs : List Char) : words (collapse cs) = words cs := by
  have hsqueeze : words ([] ++ squeeze false cs) = words ([] ++ cs) :=
    words_append_squeeze (fun _ => rfl) cs
  rw [collapse, trim, words_trimEnd, words_trimStart]
  exact hsqueeze

/-! ## Words and single spaces -/

/-- **Normalised**: no blank at either end, and none but single spaces between the
    words. -/
structure Normalised (cs : List Char) : Prop where
  head : ∀ c ∈ cs.head?, isBlank c = false
  last : ∀ c ∈ cs.getLast?, isBlank c = false
  spaced : SinglySpaced cs

theorem normalised_nil : Normalised [] :=
  ⟨by simp, by simp, by simp, by simp⟩

theorem normalised_collapse (cs : List Char) : Normalised (collapse cs) := by
  obtain ⟨hsqueezed, htight⟩ := tight_collapse cs
  by_cases hnil : collapse cs = []
  · rw [hnil]
    exact normalised_nil
  · refine ⟨?_, ?_, squeeze_eq_self_iff.mp hsqueezed⟩
    · obtain ⟨c, rest, hcs, hc⟩ := (htight hnil).head
      rw [hcs]
      rintro d ⟨⟩
      exact hc
    · have hlast := (htight hnil).last
      obtain ⟨front, c, hcs⟩ := (List.eq_nil_or_concat' (collapse cs)).resolve_left hnil
      rw [hcs, blankAfter_concat] at hlast
      rw [hcs, List.getLast?_concat]
      rintro d ⟨⟩
      exact hlast

/-- A separator stands between the parts before a place and those behind it. -/
theorem intercalate_append_cons (sep : List Char) {front : List (List Char)} (hfront : front ≠ [])
    (part : List Char) (back : List (List Char)) :
    sep.intercalate (front ++ part :: back) =
      sep.intercalate front ++ (sep ++ sep.intercalate (part :: back)) := by
  induction front with
  | nil => exact absurd rfl hfront
  | cons first front ih =>
      cases front with
      | nil => simp
      | cons second front =>
          have hlater := ih (List.cons_ne_nil second front)
          rw [List.cons_append] at hlater
          rw [List.cons_append, List.cons_append, List.intercalate_cons_cons, hlater,
            List.intercalate_cons_cons]
          simp only [List.append_assoc]

/-- An empty part has a space on each side, or an end of the text. -/
theorem nil_notMem_splitOn (h : Normalised cs) (hne : cs ≠ []) : [] ∉ cs.splitOn ' ' := by
  intro hmem
  obtain ⟨front, back, hparts⟩ := List.append_of_mem hmem
  have hcs : [' '].intercalate (cs.splitOn ' ') = cs := List.intercalate_splitOn ' '
  rw [hparts] at hcs
  rcases List.eq_nil_or_concat' front with rfl | ⟨front, part, rfl⟩
  · cases back with
    | nil => exact hne hcs.symm
    | cons next back =>
        have hhead := h.head ' ' (by rw [← hcs]; simp)
        exact absurd hhead (by decide)
  · rw [intercalate_append_cons [' '] (by simp)] at hcs
    cases back with
    | nil =>
        have hlast := h.last ' ' (by rw [← hcs]; simp)
        exact absurd hlast (by decide)
    | cons next back =>
        refine h.spaced.single
          ⟨[' '].intercalate (front ++ [part]), [' '].intercalate (next :: back), ?_⟩
        rw [← hcs, List.append_assoc]
        simp

theorem splitOnP_congr {p q : Char → Bool} (h : ∀ c ∈ cs, p c = q c) :
    cs.splitOnP p = cs.splitOnP q := by
  induction cs with
  | nil => rfl
  | cons c cs ih =>
      have hlater := ih fun d hd => h d (List.mem_cons_of_mem c hd)
      rw [List.splitOnP_cons_eq_if_modifyHead, List.splitOnP_cons_eq_if_modifyHead, hlater,
        h c List.mem_cons_self]

/-- **A normalised text is made of its words**, with a space between any two. -/
theorem intercalate_words (h : Normalised cs) : [' '].intercalate (words cs) = cs := by
  by_cases hne : cs = []
  · rw [hne, words_nil]
    rfl
  · have hblank : ∀ c ∈ cs, isBlank c = (c == ' ') := by
      intro c hc
      rw [Bool.eq_iff_iff, beq_iff_eq]
      constructor
      · exact h.spaced.spaces c hc
      · rintro rfl
        exact isBlank_space
    have hparts : words cs = cs.splitOn ' ' := by
      rw [words, splitOnP_congr hblank, ← List.splitOn_eq_splitOnP, List.filter_eq_self]
      intro w hw
      have hword : w ≠ [] := fun hnil => nil_notMem_splitOn h hne (hnil ▸ hw)
      simpa using hword
    rw [hparts, List.intercalate_splitOn]

theorem collapse_eq_intercalate (cs : List Char) :
    collapse cs = [' '].intercalate (words cs) := by
  rw [← words_collapse, intercalate_words (normalised_collapse cs)]

/-- **Texts collapse alike exactly if they have the same words.** -/
theorem collapse_eq_collapse_iff : collapse xs = collapse ys ↔ words xs = words ys := by
  constructor
  · intro h
    rw [← words_collapse xs, h, words_collapse]
  · intro h
    rw [collapse_eq_intercalate, collapse_eq_intercalate, h]

end Less.Text

namespace Less.Selector

open Less.Text

/-- A selector as it comes about: from a text, or by putting one inside another. -/
inductive Combination where
  | text (s : String)
  | inside (parent child : Combination)

/-- The selector that comes about. -/
def Combination.selector : Combination → Selector
  | .text s => ofText s
  | .inside parent child => parent.selector.combine child.selector

theorem chars_ofText_eq (s : String) : (ofText s).chars = collapse s.toList :=
  String.toList_ofList

theorem ofText_eq_iff {a b : String} : ofText a = ofText b ↔ words a.toList = words b.toList := by
  rw [← collapse_eq_collapse_iff, ← chars_ofText_eq, ← chars_ofText_eq]
  exact ⟨congrArg chars, ext_chars⟩

theorem normalised_ofText (s : String) : Normalised (ofText s).chars := by
  rw [chars_ofText_eq]
  exact normalised_collapse s.toList

/-- Every step ends with a text that is made a selector. -/
theorem Combination.exists_text (t : Combination) : ∃ s, t.selector = ofText s := by
  cases t with
  | text s => exact ⟨s, rfl⟩
  | inside parent child => exact ⟨_, combine_eq_substitute parent.selector child.selector⟩

/-- **SELECTORS ARE CANONICAL KEYS.**  Two texts give the same selector exactly if
    they have the same words.  And every selector that comes about by combining others,
    with any references to the parent, is normalised, so that reading it again gives the
    same one. -/
theorem canonical_lookup_key :
    (∀ a b : String, ofText a = ofText b ↔ words a.toList = words b.toList)
      ∧ ∀ t : Combination, Normalised t.selector.chars ∧ ofText t.selector.text = t.selector := by
  refine ⟨fun a b => ofText_eq_iff, ?_⟩
  intro t
  obtain ⟨s, hs⟩ := t.exists_text
  rw [hs]
  refine ⟨normalised_ofText s, ofText_eq_iff.mpr ?_⟩
  show words (ofText s).chars = words s.toList
  rw [chars_ofText_eq, words_collapse]

end Less.Selector
