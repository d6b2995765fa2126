import Less.Parse.Value
import Less.Proofs.Location
import Mathlib.Data.List.TakeWhile

/-! # Where the unit of a number starts

    A number is cut twice.  The tokens of a value take a mantissa, an exponent and a
    unit one after the other (`Cursor.numberText`); the number that a token denotes
    starts its unit behind the last digit or point of the text (`Number.parse?`), and
    what stands before it has to be a decimal.

    The two agree, since a numeral ends with a digit or a point (`exists_last_numeral`)
    and a unit has neither (`isNumberChar_of_mem_unit`).  A mantissa may have any number
    of points, a decimal at most one (`isSome_read?_iff`).  So a token is a number exactly
    if its mantissa has at most one point (`numberAt_of_numeral`). -/

namespace Less

/-! ## Decimals -/

namespace Decimal

/-- Digits and points, each point before a digit. -/
structure IsMantissa (m : List Char) : Prop where
  ne_nil : m ≠ []
  chars : ∀ c ∈ m, Number.isNumberChar c = true
  points : ∀ front back, m = front ++ '.' :: back → Parse.nextIs Char.isDigit back = true

/-- Nothing, or `e`, an optional sign and digits. -/
inductive IsExponent : List Char → Prop where
  | none : IsExponent []
  | some {e : Char} {sign digits : List Char} (he : e = 'e' ∨ e = 'E')
      (hsign : sign = [] ∨ sign = ['+'] ∨ sign = ['-']) (hne : digits ≠ [])
      (hdigits : ∀ c ∈ digits, c.isDigit = true) : IsExponent (e :: (sign ++ digits))

variable {w f m e rest : List Char}

theorem count_point_digits (hw : ∀ c ∈ w, c.isDigit = true) : w.count '.' = 0 :=
  List.count_eq_zero_of_not_mem fun hmem => absurd (hw _ hmem) (by decide)

/-- The digits in front of a mantissa, and the point behind them if there is one. -/
theorem exists_digits (h : ∀ c ∈ m, Number.isNumberChar c = true) :
    ∃ w rest, m = w ++ rest ∧ (∀ c ∈ w, c.isDigit = true) ∧
      (rest = [] ∨ ∃ r, rest = '.' :: r) := by
  refine ⟨_, _, List.takeWhile_append_dropWhile.symm, fun c hc => List.mem_takeWhile_imp hc, ?_⟩
  cases hrest : m.dropWhile Char.isDigit with
  | nil => exact Or.inl rfl
  | cons c r =>
      have hmem : c ∈ m := (List.dropWhile_suffix _).subset (hrest ▸ List.mem_cons_self)
      have hc : c.isDigit = false := by
        have hhead := List.head?_dropWhile_not Char.isDigit m
        rw [hrest] at hhead
        exact hhead
      rcases Bool.or_eq_true_iff.mp (h c hmem) with hdigit | hpoint
      · rw [hc] at hdigit
        cases hdigit
      · exact Or.inr ⟨r, by rw [beq_iff_eq.mp hpoint]⟩

/-! ## What is read as a decimal -/

theorem toLower_of_isNumberChar {c : Char} (h : Number.isNumberChar c = true) : c.toLower = c := by
  refine dif_neg fun hupper => ?_
  rcases Bool.or_eq_true_iff.mp h with hdigit | hpoint
  · have hrange := Parse.toNat_of_isDigit hdigit
    have hlow : 65 ≤ c.toNat := hupper.1
    omega
  · rw [beq_iff_eq.mp hpoint] at hupper
    exact absurd hupper.1 (by decide)

/-- A text that starts with a digit or a point is none of the words. -/
theorem map_toLower_ne {cs word : List Char} (hcs : Parse.nextIs Number.isNumberChar cs = true)
    (hword : Parse.nextIs Number.isNumberChar word = false) : cs.map Char.toLower ≠ word := by
  cases cs with
  | nil => cases hcs
  | cons c cs =>
      rintro rfl
      have hc : Number.isNumberChar c = true := hcs
      have hlower : Number.isNumberChar c.toLower = false := hword
      rw [toLower_of_isNumberChar hc, hc] at hlower
      cases hlower

theorem nextIs_isNumberChar_append (hw : ∀ c ∈ w, c.isDigit = true)
    (hrest : w = [] → Parse.nextIs Number.isNumberChar rest = true) :
    Parse.nextIs Number.isNumberChar (w ++ rest) = true := by
  cases w with
  | nil => exact hrest rfl
  | cons c w => exact Bool.or_eq_true_iff.mpr (Or.inl (hw c List.mem_cons_self))

/-- Digits without a point. -/
theorem readUnsigned?_digits (hw : ∀ c ∈ w, c.isDigit = true) (hne : w ≠ [])
    (he : Parse.nextIs Number.isNumberChar e = false) :
    ∃ g, readUnsigned? (w ++ e) = (readExponent? e).map g := by
  have hstart : Parse.nextIs Number.isNumberChar (w ++ e) = true :=
    nextIs_isNumberChar_append hw fun h => absurd h hne
  have hdigit : Parse.nextIs Char.isDigit e = false := by
    cases e with
    | nil => rfl
    | cons d e => exact (Bool.or_eq_false_iff.mp he).1
  rw [readUnsigned?]
  simp only [Parse.takeWhile_run hw hdigit, Parse.dropWhile_run hw hdigit]
  rw [if_neg (not_or.mpr ⟨map_toLower_ne hstart (by decide), map_toLower_ne hstart (by decide)⟩),
    if_neg (map_toLower_ne hstart (by decide)), if_neg fun h => hne h.1]
  split
  · cases he
  · exact ⟨_, rfl⟩

/-- Digits with a point and at least one digit behind it. -/
theorem readUnsigned?_point (hw : ∀ c ∈ w, c.isDigit = true) (hf : ∀ c ∈ f, c.isDigit = true)
    (hne : f ≠ []) (hrest : Parse.nextIs Char.isDigit rest = false) :
    ∃ g, readUnsigned? (w ++ '.' :: (f ++ rest)) = (readExponent? rest).map g := by
  have hpoint : Parse.nextIs Char.isDigit ('.' :: (f ++ rest)) = false := rfl
  have hstart : Parse.nextIs Number.isNumberChar (w ++ '.' :: (f ++ rest)) = true :=
    nextIs_isNumberChar_append hw fun _ => rfl
  rw [readUnsigned?]
  simp only [Parse.takeWhile_run hw hpoint, Parse.dropWhile_run hw hpoint,
    Parse.takeWhile_run hf hrest, Parse.dropWhile_run hf hrest]
  rw [if_neg (not_or.mpr ⟨map_toLower_ne hstart (by decide), map_toLower_ne hstart (by decide)⟩),
    if_neg (map_toLower_ne hstart (by decide)), if_neg fun h => hne h.2]
  exact ⟨_, rfl⟩

theorem isSome_readExponent? (he : IsExponent e) : (readExponent? e).isSome = true := by
  cases he with
  | none => rfl
  | @some e sign digits he hsign hne hdigits =>
      have he : (e == 'e' || e == 'E') = true := by
        rcases he with rfl | rfl <;> rfl
      have hall : (decide (digits ≠ []) && digits.all Char.isDigit) = true :=
        Bool.and_eq_true_iff.mpr ⟨decide_eq_true hne, List.all_eq_true.mpr hdigits⟩
      have hsigned : ∀ ds, digits ≠ '+' :: ds ∧ digits ≠ '-' :: ds := by
        refine fun ds => ⟨?_, ?_⟩ <;> rintro rfl <;>
          exact absurd (hdigits _ List.mem_cons_self) (by decide)
      rw [readExponent?.eq_def]
      simp only [he, if_true]
      rcases hsign with rfl | rfl | rfl
      · rw [List.nil_append]
        split
        · exact absurd rfl (hsigned _).1
        · exact absurd rfl (hsigned _).2
        · rw [if_pos hall]
          rfl
      · simp only [List.singleton_append, hall, if_true, Option.isSome_some]
      · simp only [List.singleton_append, hall, if_true, Option.isSome_some]

theorem IsExponent.nextIs (he : IsExponent e) : Parse.nextIs Number.isNumberChar e = false := by
  cases he with
  | none => rfl
  | some he => rcases he with rfl | rfl <;> rfl

/-- **A mantissa with an exponent is a decimal exactly if it has at most one point.** -/
theorem isSome_readUnsigned?_iff (hm : IsMantissa m) (he : IsExponent e) :
    (readUnsigned? (m ++ e)).isSome = true ↔ m.count '.' < 2 := by
  obtain ⟨w, rest, rfl, hw, hrest⟩ := exists_digits hm.chars
  rw [List.count_append, count_point_digits hw, Nat.zero_add]
  rcases hrest with rfl | ⟨r, rfl⟩
  · -- no point
    have hne : w ≠ [] := by
      rintro rfl
      exact hm.ne_nil rfl
    obtain ⟨g, hg⟩ := readUnsigned?_digits hw hne he.nextIs
    rw [List.append_nil, hg, Option.isSome_map, isSome_readExponent? he]
    decide
  · obtain ⟨f, r, rfl, hf, hr⟩ := exists_digits fun c hc =>
      hm.chars c (List.mem_append_right w (List.mem_cons_of_mem _ hc))
    have hne : f ≠ [] := by
      rintro rfl
      have hnext := hm.points w r rfl
      rcases hr with rfl | ⟨r, rfl⟩ <;> cases hnext
    rw [List.count_cons_self, List.count_append, count_point_digits hf, Nat.zero_add,
      List.append_assoc, List.cons_append, List.append_assoc]
    rcases hr with rfl | ⟨r, rfl⟩
    · -- one point
      have hdigit : Parse.nextIs Char.isDigit e = false := by
        cases he with
        | none => rfl
        | some he => rcases he with rfl | rfl <;> rfl
      obtain ⟨g, hg⟩ := readUnsigned?_point hw hf hne hdigit
      rw [List.nil_append, hg, Option.isSome_map, isSome_readExponent? he]
      decide
    · -- a second point starts no exponent
      have hdigit : Parse.nextIs Char.isDigit ('.' :: r ++ e) = false := rfl
      obtain ⟨g, hg⟩ := readUnsigned?_point hw hf hne hdigit
      rw [hg, List.count_cons_self]
      constructor
      · intro h
        cases h
      · intro h
        omega

/-- A sign in front changes nothing about that. -/
theorem isSome_read?_iff {sign : List Char} (hsign : sign = [] ∨ sign = ['-']) (hm : IsMantissa m)
    (he : IsExponent e) : (read? (sign ++ (m ++ e))).isSome = true ↔ m.count '.' < 2 := by
  rw [← isSome_readUnsigned?_iff hm he]
  rcases hsign with rfl | rfl
  · obtain ⟨c, m, rfl⟩ := List.exists_cons_of_ne_nil hm.ne_nil
    have hc := hm.chars c List.mem_cons_self
    rw [List.nil_append, List.cons_append, read?.eq_def]
    split
    · rename_i heq
      rw [(List.cons.inj heq).1] at hc
      cases hc
    · rename_i heq
      rw [(List.cons.inj heq).1] at hc
      cases hc
    · rfl
  · rw [List.singleton_append, read?, Option.isSome_map]

theorem IsMantissa.exists_last (hm : IsMantissa m) :
    ∃ front d, m = front ++ [d] ∧ Number.isNumberChar d = true := by
  obtain ⟨front, d, rfl⟩ := List.eq_nil_or_concat' m |>.resolve_left hm.ne_nil
  exact ⟨front, d, rfl, hm.chars d (List.mem_append_right _ List.mem_cons_self)⟩

theorem IsExponent.exists_last (he : IsExponent e) :
    e = [] ∨ ∃ front d, e = front ++ [d] ∧ Number.isNumberChar d = true := by
  cases he with
  | none => exact Or.inl rfl
  | @some e sign digits he hsign hne hdigits =>
      obtain ⟨front, d, rfl⟩ := List.eq_nil_or_concat' digits |>.resolve_left hne
      have hd := hdigits d (List.mem_append_right _ List.mem_cons_self)
      refine Or.inr ⟨e :: (sign ++ front), d, ?_, ?_⟩
      · rw [List.cons_append, List.append_assoc]
      · rw [Number.isNumberChar, hd, Bool.true_or]

end Decimal

/-! ## Units -/

/-- **The unit is what follows the last digit or point.** -/
theorem Number.parse?_append {front unit : List Char} {d : Char}
    (hd : Number.isNumberChar d = true) (hunit : ∀ c ∈ unit, Number.isNumberChar c = false) :
    Number.parse? (front ++ [d] ++ unit) =
      (Decimal.read? (front ++ [d])).map fun value =>
        Number.ofUnit value (some (String.ofList unit)) := by
  have hrev : ∀ c ∈ unit.reverse, (!Number.isNumberChar c) = true := fun c hc => by
    rw [hunit c (List.mem_reverse.mp hc)]
    rfl
  have hstop : ¬(!Number.isNumberChar d) = true := by
    rw [hd]
    decide
  rw [Number.parse?]
  simp only [List.reverse_append, List.reverse_singleton, List.singleton_append]
  rw [List.takeWhile_append_of_pos hrev, List.dropWhile_append_of_pos hrev,
    List.takeWhile_cons_of_neg (p := (!Number.isNumberChar ·)) hstop,
    List.dropWhile_cons_of_neg (p := (!Number.isNumberChar ·)) hstop, List.append_nil,
    List.reverse_cons, List.reverse_reverse, List.reverse_reverse]
  exact if_neg (List.append_ne_nil_of_right_ne_nil front (List.cons_ne_nil d []))

/-- An empty unit is none. -/
theorem Number.ofUnit_ofList (value : Float) (unit : List Char) :
    Number.ofUnit value (some (String.ofList unit)) =
      ⟨value, if unit = [] then none else some (String.ofList unit)⟩ := by
  rw [Number.ofUnit, Option.filter_some]
  by_cases h : unit = []
  · rw [h, if_pos rfl]
    rfl
  · have hne : String.ofList unit ≠ "" := fun heq => h (String.ofList_eq_empty_iff.mp heq)
    rw [if_neg h, decide_eq_true hne]
    rfl

namespace Parse

open Decimal

namespace Cursor

/-! ## Tokens -/

/-- A digit comes next, or a point and a digit. -/
def startsNumber (cs : List Char) : Bool :=
  match cs with
  | [] => false
  | c :: cs => c.isDigit || (c == '.' && nextIs Char.isDigit cs)

theorem mantissa_cons {c : Char} {cs : List Char} (h : startsNumber (c :: cs) = true) :
    (mantissa (c :: cs)).1 = c :: (mantissa cs).1 := by
  have hc : (c.isDigit || (c == '.' && nextIs Char.isDigit cs)) = true := h
  rw [mantissa, if_pos hc]
  rfl

theorem mantissa_eq_nil {cs : List Char} (h : startsNumber cs = false) : (mantissa cs).1 = [] := by
  cases cs with
  | nil => rfl
  | cons c cs =>
      have hc : (c.isDigit || (c == '.' && nextIs Char.isDigit cs)) = false := h
      rw [mantissa, if_neg (Bool.eq_false_iff.mp hc)]

/-- A digit stays in front. -/
theorem nextIs_isDigit_mantissa {cs : List Char} (h : nextIs Char.isDigit cs = true) :
    nextIs Char.isDigit (mantissa cs).1 = true := by
  cases cs with
  | nil => cases h
  | cons c cs =>
      have hc : c.isDigit = true := h
      rw [mantissa_cons (Bool.or_eq_true_iff.mpr (Or.inl hc))]
      exact hc

/-- The mantissa is digits and points, each point before a digit. -/
theorem isMantissa_mantissa {cs : List Char} (h : startsNumber cs = true) :
    IsMantissa (mantissa cs).1 := by
  induction cs with
  | nil => cases h
  | cons c cs ih =>
      have hchars : ∀ d ∈ (mantissa cs).1, Number.isNumberChar d = true := by
        cases hcs : startsNumber cs with
        | true => exact (ih hcs).chars
        | false =>
            rw [mantissa_eq_nil hcs]
            exact nofun
      have hpoints : ∀ front back, (mantissa cs).1 = front ++ '.' :: back →
          nextIs Char.isDigit back = true := by
        cases hcs : startsNumber cs with
        | true => exact (ih hcs).points
        | false =>
            rw [mantissa_eq_nil hcs]
            exact fun front back heq => absurd heq.symm (by simp)
      rw [mantissa_cons h]
      refine ⟨List.cons_ne_nil _ _, List.forall_mem_cons.mpr ⟨?_, hchars⟩, fun front back heq => ?_⟩
      · rcases Bool.or_eq_true_iff.mp h with hdigit | hpoint
        · exact Bool.or_eq_true_iff.mpr (Or.inl hdigit)
        · exact Bool.or_eq_true_iff.mpr (Or.inr (Bool.and_eq_true_iff.mp hpoint).1)
      · cases front with
        | nil =>
            obtain ⟨rfl, rfl⟩ := List.cons.inj heq
            exact nextIs_isDigit_mantissa h
        | cons d front => exact hpoints front back (List.cons.inj heq).2

theorem isExponent_exponent (cs : List Char) : IsExponent (exponent cs).1 := by
  have hdigits : ∀ ds : List Char, nextIs Char.isDigit ds = true →
      ds.takeWhile Char.isDigit ≠ [] ∧ ∀ c ∈ ds.takeWhile Char.isDigit, c.isDigit = true := by
    intro ds h
    refine ⟨?_, fun c hc => List.mem_takeWhile_imp hc⟩
    cases ds with
    | nil => cases h
    | cons d ds =>
        have hd : d.isDigit = true := h
        rw [List.takeWhile_cons_of_pos hd]
        exact List.cons_ne_nil _ _
  rw [exponent.eq_def]
  split
  · rename_i e rest
    split
    · rename_i he
      split
      · rename_i sign digits
        split
        · rename_i hsign
          obtain ⟨hne, hall⟩ := hdigits (sign :: digits) hsign
          have h : IsExponent (e :: ([] ++ (sign :: digits).takeWhile Char.isDigit)) :=
            .some he (Or.inl rfl) hne hall
          exact h
        · split
          · rename_i hsign
            obtain ⟨hne, hall⟩ := hdigits digits hsign.2
            have h : IsExponent (e :: ([sign] ++ digits.takeWhile Char.isDigit)) := by
              refine .some he (Or.inr ?_) hne hall
              rcases hsign.1 with rfl | rfl
              · exact Or.inl rfl
              · exact Or.inr rfl
            exact h
          · exact .none
      · exact .none
    · exact .none
  · exact .none

/-- A unit has neither digits nor points. -/
theorem isNumberChar_of_mem_unit (cs : List Char) :
    ∀ c ∈ (unit cs).1, Number.isNumberChar c = false := by
  rw [unit.eq_def]
  split
  · exact List.forall_mem_singleton.mpr rfl
  · intro c hc
    have halpha : c.isAlpha = true := List.mem_takeWhile_imp hc
    rw [Number.isNumberChar, isDigit_of_isAlpha halpha,
      beq_eq_false_iff_ne.mpr (ne_of_isAlpha halpha '.' rfl)]
    rfl

/-- The mantissa of the number a text starts with, and its exponent. -/
def numeral (cs : List Char) : List Char :=
  (mantissa cs).1 ++ (exponent (mantissa cs).2).1

/-- The unit of the number a text starts with. -/
def unitText (cs : List Char) : List Char :=
  (unit (exponent (mantissa cs).2).2).1

theorem numberText_eq (cs : List Char) : (numberText cs).1 = numeral cs ++ unitText cs :=
  rfl

/-- A numeral ends with a digit or a point, with and without an exponent. -/
theorem exists_last_numeral {cs : List Char} (h : startsNumber cs = true) :
    ∃ front d, numeral cs = front ++ [d] ∧ Number.isNumberChar d = true := by
  rcases (isExponent_exponent (mantissa cs).2).exists_last with he | ⟨front, d, he, hd⟩
  · rw [numeral, he, List.append_nil]
    exact (isMantissa_mantissa h).exists_last
  · rw [numeral, he, ← List.append_assoc]
    exact ⟨_, d, rfl, hd⟩

/-- The number of a token has the numeral as its value and the unit as its unit. -/
theorem parse?_numberText {cs : List Char} (h : startsNumber cs = true) (sign : List Char) :
    Number.parse? (sign ++ (numeral cs ++ unitText cs)) =
      (read? (sign ++ numeral cs)).map fun value =>
        Number.ofUnit value (some (String.ofList (unitText cs))) := by
  obtain ⟨front, d, hlast, hd⟩ := exists_last_numeral h
  rw [hlast, ← List.append_assoc, ← List.append_assoc sign front]
  exact Number.parse?_append hd (isNumberChar_of_mem_unit _)

theorem numberAt_of_some {text : String} {n : Number} (h : Number.parse? text.toList = some n)
    (p : Position) : numberAt text p = .ok (.constant (.number n) (some p)) := by
  rw [numberAt, h]

theorem numberAt_of_none {text : String} (h : Number.parse? text.toList = none) (p : Position) :
    numberAt text p = .error ⟨.invalidNumber text, p⟩ := by
  rw [numberAt, h]

/-- **The tokens and the numbers start a unit at the same place.**  Where a number starts, a
    token is taken that is a numeral and a unit.  Alone or behind a minus it is refused as a
    number exactly if its mantissa has two points or more; otherwise it is the number that
    the numeral denotes, with that unit, or without one if that is empty. -/
theorem numberAt_of_numeral {c : Cursor} {ch : Char} {next : List Char}
    (hrest : c.rest = ch :: next) (hstart : startsNumber c.rest = true) :
    (∃ after, c.tokenAt ch next =
        .ok (.number (String.ofList (numeral c.rest ++ unitText c.rest)), after) ∧
      c.rest = numeral c.rest ++ unitText c.rest ++ after.rest) ∧
    ∀ sign, sign = "" ∨ sign = "-" → ∀ p,
      let text := sign ++ String.ofList (numeral c.rest ++ unitText c.rest)
      (numberAt text p = .error ⟨.invalidNumber text, p⟩ ↔ 2 ≤ (mantissa c.rest).1.count '.') ∧
      ((mantissa c.rest).1.count '.' < 2 →
        ∃ value, read? (sign.toList ++ numeral c.rest) = some value ∧
          numberAt text p = .ok (.constant (.number ⟨value,
            if unitText c.rest = [] then none else some (String.ofList (unitText c.rest))⟩)
              (some p))) := by
  constructor
  · refine ⟨c.move (numberText c.rest), ?_, ?_⟩
    · rw [hrest] at hstart
      exact if_pos hstart
    · rw [← numberText_eq]
      exact (numberText_append c.rest).symm
  · intro sign hsign p text
    have hsign' : sign.toList = [] ∨ sign.toList = ['-'] := by
      rcases hsign with rfl | rfl
      · exact Or.inl rfl
      · exact Or.inr rfl
    have hsome : (read? (sign.toList ++ numeral c.rest)).isSome = true ↔
        (mantissa c.rest).1.count '.' < 2 :=
      isSome_read?_iff hsign' (isMantissa_mantissa hstart) (isExponent_exponent _)
    have htext : text.toList = sign.toList ++ (numeral c.rest ++ unitText c.rest) := by
      rw [String.toList_append, String.toList_ofList]
    have hparse := parse?_numberText hstart sign.toList
    rw [← htext] at hparse
    cases hread : read? (sign.toList ++ numeral c.rest) with
    | none =>
        rw [hread] at hparse hsome
        have hcount : ¬(mantissa c.rest).1.count '.' < 2 :=
          fun h => Bool.false_ne_true (hsome.mpr h)
        rw [numberAt_of_none hparse]
        exact ⟨iff_of_true rfl (Nat.le_of_not_lt hcount), fun h => absurd h hcount⟩
    | some value =>
        rw [hread, Option.map_some, Number.ofUnit_ofList] at hparse
        rw [hread] at hsome
        have hcount := hsome.mp rfl
        rw [numberAt_of_some hparse]
        refine ⟨iff_of_false (fun h => ?_) (Nat.not_le_of_lt hcount), fun _ => ⟨value, rfl, rfl⟩⟩
        cases h

/-- `-1.5e-2px` has one point, a sign in its exponent and a unit. -/
theorem numberAt_of_numeral_scientific :
    (ofText "1.5e-2px;".toList).rest = '1' :: ".5e-2px;".toList ∧
    startsNumber (ofText "1.5e-2px;".toList).rest = true ∧
    ∃ value, read? "-1.5e-2".toList = some value ∧
      numberAt "-1.5e-2px" Position.start =
        .ok (.constant (.number ⟨value, some "px"⟩) (some Position.start)) :=
  ⟨rfl, rfl, ((numberAt_of_numeral (c := ofText "1.5e-2px;".toList) rfl rfl).2 "-" (Or.inr rfl)
    Position.start).2 (by decide)⟩

end Cursor

end Parse

end Less
