import Less.Text.Blank
import Mathlib.Data.List.Basic
import Mathlib.Data.List.TakeWhile

/-! # Blanks and their normal form

    `squeeze` writes one space for every run of blanks, `collapse` also drops
    the blanks at the ends.

    * `squeeze` reads a text from left to right and remembers only whether the
      character before was a blank (`blankAfter`), so it goes through
      concatenations (`squeeze_append`).
    * A text is **tight** if it neither starts nor ends with a blank and is not
      empty.  A tight text is collapsed by squeezing it (`collapse_of_tight`),
      and whatever is collapsed is squeezed, and tight unless nothing is left of
      it (`tight_collapse`). -/

namespace Less.Text

/-! ## Reading from left to right -/

/-- Whether a blank was read last; `after` says so of what stood before. -/
def blankAfter (after : Bool) : List Char → Bool
  | [] => after
  | c :: cs => blankAfter (isBlank c) cs

@[simp] theorem blankAfter_append (after : Bool) (xs ys : List Char) :
    blankAfter after (xs ++ ys) = blankAfter (blankAfter after xs) ys := by
  induction xs generalizing after with
  | nil => rfl
  | cons c xs ih => exact ih (isBlank c)

/-- What stood before does not matter once something was read. -/
theorem blankAfter_of_ne_nil {cs : List Char} (h : cs ≠ []) (after after' : Bool) :
    blankAfter after cs = blankAfter after' cs := by
  cases cs with
  | nil => exact absurd rfl h
  | cons c cs => rfl

theorem squeeze_append (after : Bool) (xs ys : List Char) :
    squeeze after (xs ++ ys) = squeeze after xs ++ squeeze (blankAfter after xs) ys := by
  induction xs generalizing after with
  | nil => rfl
  | cons c xs ih =>
      rw [List.cons_append, squeeze, squeeze, blankAfter]
      by_cases hc : isBlank c = true
      · rw [if_pos hc, if_pos hc, hc]
        by_cases ha : after = true
        · rw [if_pos ha, if_pos ha, ih]
        · rw [if_neg ha, if_neg ha, ih, List.cons_append]
      · rw [if_neg hc, if_neg hc, ih, List.cons_append, Bool.eq_false_iff.mpr hc]

theorem isBlank_space : isBlank ' ' = true := by decide

/-- Squeezing keeps apart whether a blank was read last. -/
theorem blankAfter_squeeze (after : Bool) (cs : List Char) :
    blankAfter after (squeeze after cs) = blankAfter after cs := by
  induction cs generalizing after with
  | nil => rfl
  | cons c cs ih =>
      rw [squeeze]
      by_cases hc : isBlank c = true
      · rw [if_pos hc]
        by_cases ha : after = true
        · rw [if_pos ha, ha, ih, blankAfter, hc]
        · rw [if_neg ha, blankAfter, blankAfter, isBlank_space, hc, ih]
      · rw [if_neg hc, blankAfter, blankAfter, Bool.eq_false_iff.mpr hc, ih]

/-- **There is nothing left to squeeze.** -/
theorem squeeze_squeeze (after : Bool) (cs : List Char) :
    squeeze after (squeeze after cs) = squeeze after cs := by
  induction cs generalizing after with
  | nil => rfl
  | cons c cs ih =>
      rw [squeeze]
      by_cases hc : isBlank c = true
      · rw [if_pos hc]
        by_cases ha : after = true
        · rw [if_pos ha, ha, ih]
        · rw [if_neg ha, squeeze, if_pos isBlank_space, if_neg ha, ih]
      · rw [if_neg hc, squeeze, if_neg hc, ih]

/-- Other characters are not touched. -/
theorem mem_squeeze {x : Char} (hx : isBlank x = false) (after : Bool) (cs : List Char) :
    x ∈ squeeze after cs ↔ x ∈ cs := by
  induction cs generalizing after with
  | nil => rfl
  | cons c cs ih =>
      rw [squeeze]
      by_cases hc : isBlank c = true
      · have hne : x ≠ c := fun h => by rw [h, hc] at hx; cases hx
        have hspace : x ≠ ' ' := fun h => by rw [h, isBlank_space] at hx; cases hx
        rw [if_pos hc]
        by_cases ha : after = true
        · rw [if_pos ha, ih, List.mem_cons]
          simp [hne]
        · rw [if_neg ha, List.mem_cons, ih, List.mem_cons]
          simp [hne, hspace]
      · rw [if_neg hc, List.mem_cons, List.mem_cons, ih]

/-- The only new character is the space. -/
theorem mem_or_eq_space_of_mem_squeeze {x : Char} {after : Bool} {cs : List Char}
    (h : x ∈ squeeze after cs) : x ∈ cs ∨ x = ' ' := by
  induction cs generalizing after with
  | nil => exact absurd h List.not_mem_nil
  | cons c cs ih =>
      have hlater : ∀ {after : Bool}, x ∈ squeeze after cs → x ∈ c :: cs ∨ x = ' ' :=
        fun hx => (ih hx).imp_left (List.mem_cons_of_mem c)
      rw [squeeze] at h
      split at h
      · split at h
        · exact hlater h
        · rcases List.mem_cons.mp h with hspace | h
          · exact Or.inr hspace
          · exact hlater h
      · rcases List.mem_cons.mp h with rfl | h
        · exact Or.inl List.mem_cons_self
        · exact hlater h

/-- A text that starts with no blank is squeezed alike after everything. -/
theorem squeeze_of_head {c : Char} (hc : isBlank c = false) (after : Bool) (cs : List Char) :
    squeeze after (c :: cs) = c :: squeeze false cs := by
  rw [squeeze, hc]
  rfl

/-- A text without blanks is squeezed already. -/
theorem squeeze_of_no_blanks {cs : List Char} (h : ∀ c ∈ cs, isBlank c = false) (after : Bool) :
    squeeze after cs = cs := by
  induction cs generalizing after with
  | nil => rfl
  | cons c cs ih =>
      rw [squeeze_of_head (h c List.mem_cons_self),
        ih fun c' hc' => h c' (List.mem_cons_of_mem c hc')]

theorem length_squeeze_le (after : Bool) (cs : List Char) :
    (squeeze after cs).length ≤ cs.length := by
  induction cs generalizing after with
  | nil => exact Nat.le_refl 0
  | cons c cs ih =>
      have htrue := ih true
      have hfalse := ih false
      rw [squeeze]
      split
      · split
        · exact Nat.le_succ_of_le htrue
        · exact Nat.succ_le_succ htrue
      · exact Nat.succ_le_succ hfalse

/-- A part in front of a squeezed text is squeezed. -/
theorem squeezed_left {after : Bool} {xs ys : List Char}
    (h : squeeze after (xs ++ ys) = xs ++ ys) : squeeze after xs = xs := by
  induction xs generalizing after with
  | nil => rfl
  | cons c xs ih =>
      rw [List.cons_append, squeeze] at h
      rw [squeeze]
      by_cases hc : isBlank c = true
      · rw [if_pos hc] at h ⊢
        by_cases ha : after = true
        · -- a squeezed text has no blank after a blank, for it would be too short
          rw [if_pos ha] at h
          have hlen := length_squeeze_le true (xs ++ ys)
          rw [h, List.length_cons] at hlen
          omega
        · rw [if_neg ha] at h ⊢
          injection h with hhead htail
          rw [hhead, ih htail]
      · rw [if_neg hc] at h ⊢
        injection h with _ htail
        rw [ih htail]

/-- A part behind a squeezed text is squeezed. -/
theorem squeezed_right {after : Bool} {xs ys : List Char}
    (h : squeeze after (xs ++ ys) = xs ++ ys) : squeeze (blankAfter after xs) ys = ys := by
  have hleft := squeezed_left h
  rw [squeeze_append, hleft] at h
  exact List.append_cancel_left h

/-! ## Tight texts -/

/-- The text starts and ends with characters that are no blanks. -/
structure Tight (cs : List Char) : Prop where
  head : ∃ c rest, cs = c :: rest ∧ isBlank c = false
  last : blankAfter true cs = false

theorem Tight.ne_nil {cs : List Char} (h : Tight cs) : cs ≠ [] := by
  obtain ⟨c, rest, rfl, -⟩ := h.head
  exact List.cons_ne_nil c rest

theorem Tight.blankAfter {cs : List Char} (h : Tight cs) (after : Bool) :
    blankAfter after cs = false := by
  rw [blankAfter_of_ne_nil h.ne_nil after true, h.last]

/-- A tight text is squeezed alike after everything. -/
theorem Tight.squeeze_eq {cs : List Char} (h : Tight cs) (after after' : Bool) :
    squeeze after cs = squeeze after' cs := by
  obtain ⟨c, rest, rfl, hc⟩ := h.head
  rw [squeeze_of_head hc, squeeze_of_head hc]

/-- Two tight texts one after the other, whatever stands between them. -/
theorem Tight.append {xs zs : List Char} (hx : Tight xs) (ys : List Char) (hz : Tight zs) :
    Tight (xs ++ (ys ++ zs)) := by
  obtain ⟨c, rest, rfl, hc⟩ := hx.head
  refine ⟨⟨c, rest ++ (ys ++ zs), rfl, hc⟩, ?_⟩
  rw [blankAfter_append, blankAfter_append, hz.blankAfter]

theorem tight_of_no_blanks {cs : List Char} (hne : cs ≠ []) (h : ∀ c ∈ cs, isBlank c = false) :
    Tight cs := by
  have hlast : ∀ (cs : List Char) (after : Bool), (∀ c ∈ cs, isBlank c = false) → cs ≠ [] →
      blankAfter after cs = false := by
    intro cs
    induction cs with
    | nil => intro _ _ hne; exact absurd rfl hne
    | cons c cs ih =>
        intro after hcs _
        rw [Text.blankAfter, hcs c List.mem_cons_self]
        cases cs with
        | nil => rfl
        | cons d ds => exact ih false (fun x hx => hcs x (List.mem_cons_of_mem c hx)) (by simp)
  cases cs with
  | nil => exact absurd rfl hne
  | cons c cs => exact ⟨⟨c, cs, rfl, h c List.mem_cons_self⟩, hlast _ _ h hne⟩

theorem tight_squeeze {cs : List Char} (h : Tight cs) : Tight (squeeze false cs) := by
  obtain ⟨c, rest, rfl, hc⟩ := h.head
  refine ⟨⟨c, squeeze false rest, squeeze_of_head hc false rest, hc⟩, ?_⟩
  rw [h.squeeze_eq false true, blankAfter_squeeze, h.last]

/-- Whether a text ends with a blank shows at its end. -/
theorem blankAfter_concat (after : Bool) (cs : List Char) (c : Char) :
    blankAfter after (cs ++ [c]) = isBlank c := by
  rw [blankAfter_append]
  rfl

theorem trimEnd_of_last {cs : List Char} (h : blankAfter true cs = false) : trimEnd cs = cs := by
  rcases List.eq_nil_or_concat' cs with rfl | ⟨rest, c, rfl⟩
  · rfl
  · rw [blankAfter_concat] at h
    rw [trimEnd, List.reverse_append, List.reverse_singleton, List.singleton_append,
      List.dropWhile_cons_of_neg (by rw [h]; simp), List.reverse_cons, List.reverse_reverse]

theorem trimStart_of_head {c : Char} (hc : isBlank c = false) (cs : List Char) :
    trimStart (c :: cs) = c :: cs := by
  rw [trimStart, List.dropWhile_cons_of_neg (by rw [hc]; simp)]

theorem trim_of_tight {cs : List Char} (h : Tight cs) : trim cs = cs := by
  obtain ⟨c, rest, rfl, hc⟩ := h.head
  rw [trim, trimStart_of_head hc, trimEnd_of_last h.last]

/-- **A tight text is collapsed by squeezing it.** -/
theorem collapse_of_tight {cs : List Char} (h : Tight cs) : collapse cs = squeeze false cs := by
  rw [collapse, trim_of_tight (tight_squeeze h)]

/-- A text cut at the end is a part in front of it, tight if it starts with no
    blank. -/
theorem trimEnd_spec (cs : List Char) : ∃ blanks, cs = trimEnd cs ++ blanks ∧
    (trimEnd cs ≠ [] → blankAfter true (trimEnd cs) = false) := by
  refine ⟨(cs.reverse.takeWhile isBlank).reverse, ?_, fun hne => ?_⟩
  · rw [trimEnd, ← List.reverse_append, List.takeWhile_append_dropWhile, List.reverse_reverse]
  · rw [trimEnd] at hne ⊢
    cases hrest : cs.reverse.dropWhile isBlank with
    | nil => rw [hrest] at hne; exact absurd rfl hne
    | cons c rest =>
        have hc := List.head?_dropWhile_not isBlank cs.reverse
        rw [hrest] at hc
        rw [List.reverse_cons, blankAfter_concat]
        simpa using hc

/-- Only blanks are cut off at the end. -/
theorem trimEnd_append_blanks (cs : List Char) :
    ∃ blanks, cs = trimEnd cs ++ blanks ∧ ∀ c ∈ blanks, isBlank c = true := by
  refine ⟨(cs.reverse.takeWhile isBlank).reverse, ?_, ?_⟩
  · rw [trimEnd, ← List.reverse_append, List.takeWhile_append_dropWhile, List.reverse_reverse]
  · intro c hc
    exact List.mem_takeWhile_imp (List.mem_reverse.mp hc)

/-- **What is trimmed is tight unless nothing is left.** -/
theorem tight_trim {cs : List Char} (hne : trim cs ≠ []) : Tight (trim cs) := by
  obtain ⟨blanks, hend, hlast⟩ := trimEnd_spec (trimStart cs)
  refine ⟨?_, hlast hne⟩
  obtain ⟨c, rest, hcs⟩ := List.exists_cons_of_ne_nil hne
  have hhead : (trimStart cs).head? = some c := by
    rw [hend]
    show (trim cs ++ blanks).head? = some c
    rw [hcs]
    rfl
  have hc := List.head?_dropWhile_not isBlank cs
  rw [← trimStart, hhead] at hc
  exact ⟨c, rest, hcs, by simpa using hc⟩

theorem trim_trim (cs : List Char) : trim (trim cs) = trim cs := by
  by_cases h : trim cs = []
  · rw [h]
    rfl
  · exact trim_of_tight (tight_trim h)

/-- **What is collapsed is squeezed, and tight unless nothing is left.** -/
theorem tight_collapse (cs : List Char) : squeeze false (collapse cs) = collapse cs ∧
    (collapse cs ≠ [] → Tight (collapse cs)) := by
  -- first the blanks in front are dropped, then those behind
  have hsplit : squeeze false cs =
      (squeeze false cs).takeWhile isBlank ++ trimStart (squeeze false cs) :=
    List.takeWhile_append_dropWhile.symm
  obtain ⟨blanks, hend, -⟩ := trimEnd_spec (trimStart (squeeze false cs))
  have hsqueezed : ∃ after, squeeze after (trimStart (squeeze false cs)) =
      trimStart (squeeze false cs) := by
    have hwhole := squeeze_squeeze false cs
    rw [hsplit] at hwhole
    exact ⟨_, squeezed_right hwhole⟩
  obtain ⟨after, hsqueezed⟩ := hsqueezed
  rw [hend] at hsqueezed
  have hcollapse : squeeze after (collapse cs) = collapse cs := squeezed_left hsqueezed
  have htight : collapse cs ≠ [] → Tight (collapse cs) := tight_trim
  refine ⟨?_, htight⟩
  by_cases h : collapse cs = []
  · rw [h]
    rfl
  · rw [(htight h).squeeze_eq false after, hcollapse]

end Less.Text
