import Mathlib.Data.List.TakeWhile
import Less.Proofs.Location
import Less.Proofs.Word

/-! # Parentheses of tokens

    The look ahead for a mixin counts every parenthesis it meets
    (`afterBalanced?`).  The reader of values counts those of its tokens: it knows
    strings, and calls whose arguments it does not look at.

    `walk` counts parentheses outside strings, and `quotedText` is what it leaves out.
    A walk through the text of a token changes the depth as the token does
    (`takes_tokenAt`).  So the two counts differ by the parentheses in strings only
    (`afterBalanced?_of_walk`). -/

namespace Less.Parse

open Less.Text

/-! ## Counting -/

/-- The number of open parentheses behind a character, unless it closes one that is not
    open. -/
def count (depth : Nat) (c : Char) : Option Nat :=
  if c = '(' then some (depth + 1)
  else if c = ')' then if depth = 0 then none else some (depth - 1)
  else some depth

/-- The number of open parentheses behind a text. -/
def countAll : Nat → List Char → Option Nat
  | depth, [] => some depth
  | depth, c :: cs => (count depth c).bind (countAll · cs)

/-- **The parentheses of the text come in pairs.** -/
def Matched (cs : List Char) : Prop :=
  countAll 0 cs = some 0

instance (cs : List Char) : Decidable (Matched cs) :=
  inferInstanceAs (Decidable (countAll 0 cs = some 0))

theorem countAll_append (depth : Nat) (xs ys : List Char) :
    countAll depth (xs ++ ys) = (countAll depth xs).bind (countAll · ys) := by
  induction xs generalizing depth with
  | nil => rfl
  | cons c xs ih =>
      rw [List.cons_append, countAll, countAll, Option.bind_assoc]
      exact Option.bind_congr fun d _ => ih d

theorem count_add {depth after : Nat} {c : Char} (h : count depth c = some after) (more : Nat) :
    count (more + depth) c = some (more + after) := by
  rw [count] at h ⊢
  split at h
  · rename_i hopen
    cases h
    rw [if_pos hopen]
    rfl
  · rename_i hopen
    rw [if_neg hopen]
    split at h
    · rename_i hclose
      split at h
      · cases h
      · cases h
        rw [if_pos hclose, if_neg (by omega)]
        congr 1
        omega
    · rename_i hclose
      cases h
      rw [if_neg hclose]

/-- Looking for the end of parentheses goes on behind what is counted. -/
theorem afterBalanced?_of_count {depth after : Nat} {c : Char} (h : count depth c = some after)
    (cs : List Char) : afterBalanced? depth (c :: cs) = afterBalanced? after cs := by
  rw [count] at h
  rw [afterBalanced?.eq_def]
  dsimp only
  split at h
  · rename_i hopen
    cases h
    rw [if_pos hopen]
  · rename_i hopen
    rw [if_neg hopen]
    split at h
    · rename_i hclose
      rw [if_pos hclose]
      cases depth with
      | zero => cases h
      | succ depth =>
          cases h
          rfl
    · rename_i hclose
      cases h
      rw [if_neg hclose]

theorem afterBalanced?_of_countAll {depth after : Nat} {text : List Char}
    (h : countAll depth text = some after) (more : Nat) (rest : List Char) :
    afterBalanced? (more + depth) (text ++ rest) = afterBalanced? (more + after) rest := by
  induction text generalizing depth with
  | nil =>
      cases h
      rfl
  | cons c text ih =>
      obtain ⟨d, hc, htext⟩ := Option.bind_eq_some_iff.mp h
      rw [List.cons_append, afterBalanced?_of_count (count_add hc more), ih htext]

/-! ## Strings -/

/-- The number of open parentheses behind a text, those in strings left out.  A text that
    ends in a string has none. -/
def walk : Option Char → Nat → List Char → Option Nat
  | none, depth, [] => some depth
  | some _, _, [] => none
  | some q, depth, '\\' :: _ :: cs => walk (some q) depth cs
  | some q, depth, c :: cs => walk (if c = q then none else some q) depth cs
  | none, depth, c :: cs =>
      if isQuote c then walk (some c) depth cs else (count depth c).bind (walk none · cs)

/-- What stands in strings, with the quotes that close them. -/
def quotedText : Option Char → List Char → List Char
  | _, [] => []
  | some q, '\\' :: c :: cs => '\\' :: c :: quotedText (some q) cs
  | some q, c :: cs => c :: quotedText (if c = q then none else some q) cs
  | none, c :: cs => if isQuote c then quotedText (some c) cs else quotedText none cs

/-- **The two counts differ by the parentheses in strings.** -/
theorem afterBalanced?_of_walk {quote : Option Char} {depth inner k k' : Nat} {text : List Char}
    (hwalk : walk quote depth text = some inner)
    (hquoted : countAll k (quotedText quote text) = some k') (rest : List Char) :
    afterBalanced? (depth + k) (text ++ rest) = afterBalanced? (inner + k') rest := by
  fun_induction walk quote depth text generalizing k with
  | case1 depth =>
      cases hwalk
      cases hquoted
      rfl
  | case2 => cases hwalk
  | case3 q depth c cs ih =>
      obtain ⟨i, hslash, hlater⟩ := Option.bind_eq_some_iff.mp hquoted
      obtain ⟨j, hc, hlater⟩ := Option.bind_eq_some_iff.mp hlater
      rw [List.cons_append, List.cons_append, afterBalanced?_of_count (count_add hslash depth),
        afterBalanced?_of_count (count_add hc depth), ih hwalk hlater]
  | case4 q depth c cs hpair ih =>
      rw [quotedText.eq_3 _ _ _ hpair] at hquoted
      obtain ⟨i, hc, hlater⟩ := Option.bind_eq_some_iff.mp hquoted
      rw [List.cons_append, afterBalanced?_of_count (count_add hc depth), ih hwalk hlater]
  | case5 depth c cs hc ih =>
      rw [quotedText, if_pos hc] at hquoted
      have hplain : count k c = some k := by
        have hopen : c ≠ '(' := ne_of_test hc rfl
        have hclose : c ≠ ')' := ne_of_test hc rfl
        rw [count, if_neg hopen, if_neg hclose]
      rw [List.cons_append, afterBalanced?_of_count (count_add hplain depth), ih hwalk hquoted]
  | case6 depth c cs hc ih =>
      rw [quotedText, if_neg hc] at hquoted
      obtain ⟨d, hcount, hwalk⟩ := Option.bind_eq_some_iff.mp hwalk
      have hsum : count (depth + k) c = some (d + k) := by
        rw [Nat.add_comm depth, Nat.add_comm d]
        exact count_add hcount k
      rw [List.cons_append, afterBalanced?_of_count hsum, ih d hwalk hquoted]

/-- A walk that comes to the end of a text goes on behind it. -/
theorem walk_append {quote : Option Char} {depth inner : Nat} {text : List Char}
    (hquote : OpenedByQuote quote) (h : walk quote depth text = some inner)
    (more : List Char) : walk quote depth (text ++ more) = walk none inner more := by
  fun_induction walk quote depth text with
  | case1 depth =>
      cases h
      rfl
  | case2 => cases h
  | case3 q depth c cs ih =>
      rw [List.cons_append, List.cons_append, walk]
      exact ih hquote h
  | case4 q depth c cs hpair ih =>
      have hpair' : ∀ d ds, c = '\\' → cs ++ more = d :: ds → False := by
        rintro d ds rfl heq
        cases cs with
        | cons e cs => exact hpair e cs rfl rfl
        | nil =>
            have hne : '\\' ≠ q := (ne_of_test (hquote q rfl) rfl).symm
            rw [if_neg hne] at h
            cases h
      rw [List.cons_append, walk.eq_4 _ _ _ _ hpair']
      exact ih (hquote.next c) h
  | case5 depth c cs hc ih =>
      rw [List.cons_append, walk, if_pos hc]
      exact ih (openedByQuote_some hc) h
  | case6 depth c cs hc ih =>
      obtain ⟨d, hcount, h⟩ := Option.bind_eq_some_iff.mp h
      rw [List.cons_append, walk, if_neg hc, hcount]
      exact ih d openedByQuote_none h

/-! ## Level texts -/

/-- A walk through the text comes back to the depth it started at. -/
def Level (text : List Char) : Prop :=
  ∀ depth, walk none depth text = some depth

theorem level_nil : Level [] :=
  fun _ => rfl

theorem Level.append {xs ys : List Char} (hx : Level xs) (hy : Level ys) : Level (xs ++ ys) :=
  fun depth => (walk_append openedByQuote_none (hx depth) ys).trans (hy depth)

/-- Neither a quote nor a parenthesis. -/
def isPlain (c : Char) : Bool :=
  !(isQuote c || c == '(' || c == ')')

theorem level_of_plain {text : List Char} (h : ∀ c ∈ text, isPlain c = true) : Level text := by
  intro depth
  induction text with
  | nil => rfl
  | cons c text ih =>
      obtain ⟨hc, htext⟩ := List.forall_mem_cons.mp h
      have hquote : ¬isQuote c = true := by
        intro hq
        rw [isPlain, hq] at hc
        cases hc
      have hopen : c ≠ '(' := ne_of_test hc rfl
      have hclose : c ≠ ')' := ne_of_test hc rfl
      rw [walk, if_neg hquote, count, if_neg hopen, if_neg hclose]
      exact ih htext

theorem level_singleton {c : Char} (h : isPlain c = true) : Level [c] :=
  level_of_plain (List.forall_mem_singleton.mpr h)

/-- Characters of a kind without quotes and parentheses are plain. -/
theorem isPlain_of_test {p : Char → Bool} (hp : ['"', '\'', '(', ')'].any p = false) {c : Char}
    (hc : p c = true) : isPlain c = true := by
  have hne : ∀ d ∈ ['"', '\'', '(', ')'], (c == d) = false := fun d hd =>
    beq_eq_false_iff_ne.mpr (ne_of_test hc (by simpa using List.any_eq_false.mp hp d hd))
  rw [isPlain, isQuote, hne '"' (by decide), hne '\'' (by decide), hne '(' (by decide),
    hne ')' (by decide)]
  rfl

theorem level_of_test {p : Char → Bool} (hp : ['"', '\'', '(', ')'].any p = false)
    {text : List Char} (h : ∀ c ∈ text, p c = true) : Level text :=
  level_of_plain fun c hc => isPlain_of_test hp (h c hc)

theorem level_takeWhile {p : Char → Bool} (hp : ['"', '\'', '(', ')'].any p = false)
    (cs : List Char) : Level (cs.takeWhile p) :=
  level_of_test hp fun _ hc => List.mem_takeWhile_imp hc

theorem level_name (cs : List Char) : Level (name cs).1 :=
  level_of_test (p := isNameChar) rfl isNameChar_of_mem_name

/-- A string is level: its parentheses are left out. -/
theorem walk_stringRest {quote : Char} {cs : List Char} {s : Split}
    (h : Cursor.stringRest? quote cs = some s) (depth : Nat) :
    walk (some quote) depth s.1 = some depth := by
  fun_induction Cursor.stringRest? quote cs generalizing s with
  | case1 => cases h
  | case2 c cs ih =>
      obtain ⟨s', hs', rfl⟩ := Option.map_eq_some_iff.mp h
      show walk (some quote) depth ('\\' :: c :: s'.1) = _
      rw [walk]
      exact ih hs'
  | case3 cs hpair =>
      cases h
      show walk (some quote) depth [quote] = _
      rw [walk.eq_4 _ _ _ _ (fun _ _ _ h => by cases h), if_pos rfl]
      rfl
  | case4 c cs hpair hc ih =>
      obtain ⟨s', hs', rfl⟩ := Option.map_eq_some_iff.mp h
      have hslash : c ≠ '\\' := by
        rintro rfl
        cases cs with
        | nil => cases hs'
        | cons d cs => exact hpair d cs rfl rfl
      show walk (some quote) depth (c :: s'.1) = _
      rw [walk.eq_4 _ _ _ _ fun _ _ h _ => hslash h, if_neg hc]
      exact ih hs'

theorem level_string {quote : Char} (hq : isQuote quote = true) {cs : List Char} {s : Split}
    (h : Cursor.stringRest? quote cs = some s) : Level (quote :: s.1) := by
  intro depth
  rw [walk, if_pos hq]
  exact walk_stringRest h depth

/-! ## What a reader takes -/

namespace Cursor

variable {α β : Type} {cs t : List Char} {c after : Cursor}

/-- What the reader takes from the text has `P`, if it gives a result. -/
def Takes (cs : List Char) (P : α → List Char → Prop) (x : Except Fault (Parsed α)) : Prop :=
  ∀ a after, x = .ok (a, after) → ∃ t, cs = t ++ after.rest ∧ P a t

theorem Takes.result {P : α → List Char → Prop} {a : α} (hcs : cs = t ++ after.rest) (h : P a t) :
    Takes cs P (.ok (a, after)) := by
  rintro b after ⟨⟩
  exact ⟨t, hcs, h⟩

theorem takes_fail {P : α → List Char → Prop} (cause : Cause) : Takes cs P (c.fail cause) :=
  nofun

theorem Takes.bind {P : α → List Char → Prop} {Q : β → List Char → Prop}
    {x : Except Fault (Parsed α)} {f : Parsed α → Except Fault (Parsed β)} (hx : Takes cs P x)
    (hf : ∀ a after t, P a t → Takes after.rest (fun b u => Q b (t ++ u)) (f (a, after))) :
    Takes cs Q (x >>= f) := by
  intro b last h
  obtain ⟨⟨a, after⟩, ha, h⟩ := exists_of_bind_eq_ok h
  obtain ⟨t, rfl, hP⟩ := hx a after ha
  obtain ⟨u, hu, hQ⟩ := hf a after t hP b last h
  exact ⟨t ++ u, by rw [hu, List.append_assoc], hQ⟩

/-- A reader whose result is changed takes the same text. -/
theorem Takes.map {P : α → List Char → Prop} {Q : β → List Char → Prop}
    {x : Except Fault (Parsed α)} {f : Parsed α → Except Fault (Parsed β)} {g : α → β}
    (hx : Takes cs P x) (hf : ∀ a after, f (a, after) = .ok (g a, after))
    (h : ∀ a t, P a t → Q (g a) t) : Takes cs Q (x >>= f) := by
  refine hx.bind fun a after t ht => ?_
  rw [hf]
  refine .result (List.nil_append _).symm ?_
  rw [List.append_nil]
  exact h a t ht

theorem Takes.imp {P Q : α → List Char → Prop} {x : Except Fault (Parsed α)} (hx : Takes cs P x)
    (h : ∀ a t, P a t → Q a t) : Takes cs Q x := by
  intro a after ha
  obtain ⟨t, ht, hP⟩ := hx a after ha
  exact ⟨t, ht, h a t hP⟩

/-- A reader behind a text takes that text too. -/
theorem Takes.behind {P : α → List Char → Prop} {x : Except Fault (Parsed α)}
    {all front : List Char} (hall : all = front ++ cs)
    (hx : Takes cs (fun a t => P a (front ++ t)) x) : Takes all P x := by
  intro a after h
  obtain ⟨t, rfl, hP⟩ := hx a after h
  exact ⟨front ++ t, by rw [hall, List.append_assoc], hP⟩

theorem Takes.ite {P : α → List Char → Prop} {p : Prop} [Decidable p]
    {x y : Except Fault (Parsed α)} (hx : p → Takes cs P x) (hy : ¬p → Takes cs P y) :
    Takes cs P (if p then x else y) := by
  split
  · exact hx ‹_›
  · exact hy ‹_›

theorem rest_name (c : Cursor) : c.rest = (Parse.name c.rest).1 ++ c.name.2.rest :=
  (name_append c.rest).symm

theorem rest_takeWhile (c : Cursor) (p : Char → Bool) :
    c.rest = c.rest.takeWhile p ++ (c.takeWhile p).2.rest :=
  List.takeWhile_append_dropWhile.symm

theorem rest_skipBlanks (c : Cursor) : c.rest = c.rest.takeWhile isBlank ++ c.skipBlanks.rest :=
  rest_takeWhile c isBlank

theorem rest_advance {ch : Char} {next : List Char} (h : c.rest = ch :: next) :
    c.advance.rest = next := by
  rw [advance, h]

theorem expect_eq_ok {ch : Char} (h : c.expect ch = .ok after) :
    ∃ next, c.rest = ch :: next ∧ after = c.advance := by
  rw [expect] at h
  split at h
  · cases h
  · rename_i found next hrest
    split at h
    · rename_i hfound
      cases h
      exact ⟨next, hfound ▸ hrest, rfl⟩
    · cases h

theorem rest_expect {ch : Char} (h : c.expect ch = .ok after) : c.rest = ch :: after.rest := by
  obtain ⟨next, hrest, rfl⟩ := expect_eq_ok h
  rw [rest_advance hrest, hrest]

theorem nextIs_of_peek? {p : Char → Bool} {ch : Char} (h : c.peek? = some ch) (hch : p ch = true) :
    nextIs p c.rest = true := by
  obtain ⟨next, hrest⟩ := List.head?_eq_some_iff.mp h
  rwa [hrest]

theorem takes_quoted (hq : nextIs isQuote c.rest = true) :
    Takes c.rest (fun _ t => t ≠ [] ∧ Level t) c.quoted := by
  rw [quoted]
  split
  · exact takes_fail _
  · rename_i quote cs hrest
    rw [hrest] at hq ⊢
    split
    · rename_i s hs
      refine .result ?_ ⟨List.cons_ne_nil _ _, level_string hq hs⟩
      show quote :: cs = quote :: (s.1 ++ s.2)
      rw [stringRest?_append hs]
    · exact takes_fail _

theorem takes_quotedContent (hq : nextIs isQuote c.rest = true) :
    Takes c.rest (fun _ t => t ≠ [] ∧ Level t) c.quotedContent :=
  (takes_quoted hq).map (fun _ _ => rfl) fun _ _ ht => ht

/-! ## Calls whose arguments are not looked at -/

/-- Characters are taken before arguments. -/
theorem Takes.characters {P : List Char → Prop} {x : Except Fault (Parsed (List Char))}
    (front : List Char) (hx : Takes cs (fun _ t => P (front ++ t)) x) :
    Takes (front ++ cs) (fun _ t => P t) (do
      let (taken, cursor) ← x
      return (front ++ taken, cursor)) :=
  .behind rfl (hx.map (fun _ _ => rfl) fun _ _ ht => ht)

theorem count_of_depth {depth : Nat} {ch : Char} (h : ¬(ch = ')' ∧ depth ≤ 1)) (outer : Nat) :
    count (outer + depth) ch =
      some (outer + if ch = '(' then depth + 1 else if ch = ')' then depth - 1 else depth) := by
  rw [count]
  split
  · rfl
  · split
    · rename_i hclose
      have hdepth : ¬depth ≤ 1 := fun hle => h ⟨hclose, hle⟩
      rw [if_neg (by omega)]
      congr 1
      omega
    · rfl

/-- The arguments end where the parentheses around them do. -/
theorem takes_rawArguments {start : Position} {depth : Nat} {quote : Option (Char × Position)}
    {p : Position} {cs : List Char} (hdepth : 0 < depth) :
    Takes cs (fun _ t => ∀ outer, walk (quote.map Prod.fst) (outer + depth) t = some outer)
      (rawArguments start depth quote p cs) := by
  fun_induction rawArguments start depth quote p cs with
  | case1 => exact nofun
  | case2 => exact nofun
  | case3 depth quote opened p c cs ih => exact .characters ['\\', c] (ih hdepth)
  | case4 depth quote opened p c cs hpair ih =>
      refine .characters [c] ?_
      by_cases hslash : c = '\\'
      · -- nothing follows the backslash
        cases cs with
        | nil => split <;> exact nofun
        | cons d cs => exact absurd rfl (hpair d cs hslash)
      · intro taken after h
        obtain ⟨t, ht, hwalk⟩ := ih hdepth taken after h
        refine ⟨t, ht, fun outer => ?_⟩
        have hquote : (if c = quote then none else some (quote, opened)).map Prod.fst =
            if c = quote then none else some quote := by
          split <;> rfl
        rw [← hwalk outer, hquote]
        exact walk.eq_4 _ _ _ _ fun _ _ h _ => hslash h
  | case5 depth p c cs hend =>
      obtain ⟨rfl, hle⟩ := hend
      obtain rfl : depth = 1 := by omega
      exact .result (t := [')']) rfl fun outer => rfl
  | case6 depth p c cs hend depth' quote' ih =>
      refine .characters [c] ?_
      have hdepth' : 0 < depth' := by
        show 0 < if c = '(' then depth + 1 else if c = ')' then depth - 1 else depth
        split
        · omega
        · split
          · rename_i hclose
            have hle : ¬depth ≤ 1 := fun hle => hend ⟨hclose, hle⟩
            omega
          · exact hdepth
      intro taken after h
      obtain ⟨t, ht, hwalk⟩ := ih hdepth' taken after h
      refine ⟨t, ht, fun outer => ?_⟩
      have hcount := count_of_depth hend outer
      rw [List.singleton_append, ← hwalk outer]
      show walk none (outer + depth) (c :: t) = _
      by_cases hc : isQuote c = true
      · have hopen : c ≠ '(' := ne_of_test hc rfl
        have hclose : c ≠ ')' := ne_of_test hc rfl
        rw [walk, if_pos hc]
        simp only [depth', quote', if_neg hopen, if_neg hclose, if_pos hc]
        rfl
      · rw [walk, if_neg hc, hcount]
        simp only [quote', if_neg hc]
        rfl

/-! ## Accessors -/

theorem takes_member (c : Cursor) : Takes c.rest (fun _ t => Level t) c.member := by
  rw [member]
  split
  · rename_i hat
    obtain ⟨next, hrest⟩ : ∃ next, c.rest = '@' :: next := List.head?_eq_some_iff.mp hat
    refine .result (t := '@' :: (Parse.name next).1) ?_ ?_
    · rw [hrest, List.cons_append, ← rest_advance hrest]
      exact congrArg ('@' :: ·) (rest_name c.advance)
    · exact (level_singleton rfl).append (level_name next)
  · rename_i hquote
    exact (takes_quotedContent (nextIs_of_peek? hquote rfl)).map (fun _ _ => rfl) fun _ _ ht => ht.2
  · rename_i hquote
    exact (takes_quotedContent (nextIs_of_peek? hquote rfl)).map (fun _ _ => rfl) fun _ _ ht => ht.2
  · exact .result (rest_name c) (level_name c.rest)

/-- The token leaves the nesting as it is. -/
def IsFlat (kind : TokenKind) : Prop :=
  ∀ depth, nesting? depth kind = some depth

theorem level_blanks (cs : List Char) : Level (cs.takeWhile isBlank) :=
  level_takeWhile (by decide) cs

theorem takes_accessor (c : Cursor) (target : String) :
    Takes c.rest (fun kind t => IsFlat kind ∧ Level t) (c.accessor target) := by
  intro kind last h
  rw [accessor] at h
  obtain ⟨inside, hinside, h⟩ := exists_of_bind_eq_ok h
  obtain ⟨⟨m, after⟩, hm, h⟩ := exists_of_bind_eq_ok h
  obtain ⟨closed, hclosed, h⟩ := exists_of_bind_eq_ok h
  obtain ⟨t, ht, hlevel⟩ := takes_member inside.skipBlanks m after hm
  split at h
  · cases h
  · cases h
    refine ⟨['['] ++ (inside.rest.takeWhile isBlank ++
      (t ++ (after.rest.takeWhile isBlank ++ [']']))), ?_, fun _ => rfl, ?_⟩
    · calc c.rest
        _ = '[' :: inside.rest := rest_expect hinside
        _ = '[' :: (inside.rest.takeWhile isBlank ++ inside.skipBlanks.rest) := by
              rw [← rest_skipBlanks]
        _ = '[' :: (inside.rest.takeWhile isBlank ++ (t ++ (after.rest.takeWhile isBlank ++
              after.skipBlanks.rest))) := by rw [ht, ← rest_skipBlanks]
        _ = _ := by
              rw [rest_expect hclosed]
              simp only [List.append_assoc, List.cons_append, List.nil_append]
    · exact (level_singleton rfl).append ((level_blanks _).append (hlevel.append
        ((level_blanks _).append (level_singleton rfl))))

theorem takes_accessorOr (c : Cursor) (target : String) {kind : TokenKind} (hkind : IsFlat kind) :
    Takes c.rest (fun kind t => IsFlat kind ∧ Level t) (c.accessorOr target kind) := by
  rw [accessorOr]
  exact .ite (fun _ => takes_accessor c target) fun _ =>
    .result (List.nil_append _).symm ⟨hkind, level_nil⟩

/-! ## Tokens -/

/-- The text of a token: it is not empty, and a walk through it changes the depth as the
    token does. -/
structure IsTokenText (kind : TokenKind) (t : List Char) : Prop where
  ne_nil : t ≠ []
  walk : ∀ {depth inner}, nesting? depth kind = some inner → walk none depth t = some inner

theorem isTokenText_of_level {kind : TokenKind} (hkind : IsFlat kind) (hne : t ≠ [])
    (ht : Level t) : IsTokenText kind t where
  ne_nil := hne
  walk := by
    intro depth inner h
    rw [hkind depth] at h
    cases h
    exact ht depth

theorem isTokenText_plain {kind : TokenKind} (hkind : IsFlat kind) {ch : Char}
    (hch : isPlain ch = true) : IsTokenText kind [ch] :=
  isTokenText_of_level hkind (List.cons_ne_nil _ _) (level_singleton hch)

/-- Digits, letters and signs: the characters of numbers. -/
def isNumberChar (c : Char) : Bool :=
  c.isDigit || c.isAlpha || c == '.' || c == '+' || c == '-' || c == '%'

theorem isNumberChar_of_isDigit {c : Char} (h : c.isDigit = true) : isNumberChar c = true := by
  simp [isNumberChar, h]

theorem isNumberChar_of_isAlpha {c : Char} (h : c.isAlpha = true) : isNumberChar c = true := by
  simp [isNumberChar, h]

theorem isNumberChar_mantissa (cs : List Char) : ∀ c ∈ (mantissa cs).1, isNumberChar c = true := by
  induction cs with
  | nil => exact List.forall_mem_nil _
  | cons c cs ih =>
      rw [mantissa]
      split
      · rename_i h
        refine List.forall_mem_cons.mpr ⟨?_, ih⟩
        rcases Bool.or_eq_true_iff.mp h with hdigit | hpoint
        · exact isNumberChar_of_isDigit hdigit
        · rw [beq_iff_eq.mp (Bool.and_eq_true_iff.mp hpoint).1]
          rfl
      · exact List.forall_mem_nil _

theorem isNumberChar_exponent (cs : List Char) : ∀ c ∈ (exponent cs).1, isNumberChar c = true := by
  have hdigits : ∀ ds : List Char, ∀ c ∈ ds.takeWhile Char.isDigit, isNumberChar c = true :=
    fun ds c hc => isNumberChar_of_isDigit (List.mem_takeWhile_imp hc)
  rw [exponent.eq_def]
  split
  · rename_i e rest
    split
    · rename_i he
      have hletter : isNumberChar e = true := by
        rcases he with rfl | rfl
        · rfl
        · rfl
      split
      · rename_i sign digits
        split
        · exact List.forall_mem_cons.mpr ⟨hletter, hdigits _⟩
        · split
          · rename_i hsign
            refine List.forall_mem_cons.mpr ⟨hletter, List.forall_mem_cons.mpr ⟨?_, hdigits _⟩⟩
            rcases hsign.1 with rfl | rfl
            · rfl
            · rfl
          · exact List.forall_mem_nil _
      · exact List.forall_mem_nil _
    · exact List.forall_mem_nil _
  · exact List.forall_mem_nil _

theorem isNumberChar_unit (cs : List Char) : ∀ c ∈ (unit cs).1, isNumberChar c = true := by
  rw [unit.eq_def]
  split
  · exact List.forall_mem_singleton.mpr rfl
  · exact fun c hc => isNumberChar_of_isAlpha (List.mem_takeWhile_imp hc)

theorem level_numberText (cs : List Char) : Level (numberText cs).1 := by
  refine level_of_test (p := isNumberChar) rfl ?_
  simp only [numberText, List.forall_mem_append]
  exact ⟨⟨isNumberChar_mantissa _, isNumberChar_exponent _⟩, isNumberChar_unit _⟩

theorem level_call {t : List Char} (h : ∀ outer, walk none (outer + 1) t = some outer) :
    Level ('(' :: t) :=
  fun depth => h depth

theorem takes_word (hname : (Parse.name c.rest).1 ≠ []) : Takes c.rest IsTokenText c.word := by
  have hlevel := level_name c.rest
  show Takes c.rest IsTokenText (if c.name.2.peek? ≠ some '(' then .ok (.word c.name.1, c.name.2)
    else if isRawCall c.name.1 then (do
      let (arguments, after) ← rawArguments c.position 0 none c.name.2.position c.name.2.rest
      return (.word (c.name.1 ++ String.ofList arguments), after))
    else .ok (.call c.name.1, c.name.2.advance))
  refine .ite (fun _ => .result (rest_name c) (isTokenText_of_level (fun _ => rfl) hname hlevel))
    fun hpeek => ?_
  obtain ⟨inner, hparen⟩ : ∃ inner, c.name.2.rest = '(' :: inner :=
    List.head?_eq_some_iff.mp (not_not.mp hpeek)
  refine .behind (rest_name c) (.ite (fun _ => ?_) fun _ => ?_)
  · have hraw : Takes c.name.2.rest (fun _ t => Level t)
        (rawArguments c.position 0 none c.name.2.position c.name.2.rest) := by
      rw [hparen]
      exact .characters ['('] ((takes_rawArguments Nat.one_pos).imp fun _ _ h => level_call h)
    refine hraw.map (fun _ _ => rfl) fun _ t ht => ?_
    refine isTokenText_of_level (fun _ => rfl) ?_ (hlevel.append ht)
    exact List.append_ne_nil_of_left_ne_nil hname t
  · refine .result (t := ['(']) (by rw [rest_advance hparen, hparen]; rfl) ?_
    refine ⟨List.append_ne_nil_of_left_ne_nil hname _, ?_⟩
    rintro depth inner ⟨⟩
    exact walk_append openedByQuote_none (hlevel depth) ['(']

/-- A mark before a name, with an accessor behind it or not. -/
theorem takes_marked {ch : Char} {next text : List Char} (hrest : c.rest = ch :: next)
    (hch : isPlain ch = true) (htext : next = text ++ after.rest) (hlevel : Level text)
    {target : String} {kind : TokenKind} (hkind : IsFlat kind) :
    Takes c.rest IsTokenText (after.accessorOr target kind) := by
  have hfront : Level (ch :: text) := (level_singleton hch).append hlevel
  have hsplit : c.rest = (ch :: text) ++ after.rest := by rw [hrest, htext]; rfl
  refine .behind hsplit ?_
  refine (takes_accessorOr after target hkind).imp fun kind t ht => ?_
  exact isTokenText_of_level ht.1 (List.cons_ne_nil _ _) (hfront.append ht.2)

/-- **The text of a token** has the parentheses that the token stands for, and those in
    strings. -/
theorem takes_tokenAt {ch : Char} {next : List Char} (hrest : c.rest = ch :: next) :
    Takes c.rest IsTokenText (c.tokenAt ch next) := by
  have hnext := rest_advance hrest
  have hsplit : c.rest = [ch] ++ c.advance.rest := by rw [hnext, hrest]; rfl
  have hsingle : ∀ kind : TokenKind, IsTokenText kind [ch] →
      Takes c.rest IsTokenText (.ok (kind, c.advance)) := fun kind h => .result hsplit h
  have hflat : ∀ kind : TokenKind, IsFlat kind → isPlain ch = true →
      Takes c.rest IsTokenText (.ok (kind, c.advance)) :=
    fun kind hkind hch => hsingle kind (isTokenText_plain hkind hch)
  have hmark : ∀ {d : Char}, (ch == d) = true → ch = d := beq_iff_eq.mp
  rw [tokenAt]
  refine .ite (fun h => ?number) fun _ => .ite (fun h => ?point) fun _ => .ite (fun h => ?hash)
    fun _ => .ite (fun h => ?arobase) fun _ => .ite (fun h => ?quote) fun hquote =>
    .ite (fun h => ?tilde) fun _ => .ite (fun h => ?percent) fun _ => .ite (fun h => ?lparen)
    fun hopen => .ite (fun h => ?rparen) fun hclose => .ite (fun h => ?comma) fun _ =>
    .ite (fun h => ?plus) fun _ => .ite (fun h => ?star) fun _ => .ite (fun h => ?slash) fun _ =>
    .ite (fun h => ?hyphen) fun _ => .ite (fun h => ?minus) fun _ => .ite (fun h => ?start)
    fun _ => ?other
  case number =>
    refine .result (numberText_append c.rest).symm (isTokenText_of_level (fun _ => rfl) ?_
      (level_numberText _))
    rw [hrest]
    exact numberText_ne_nil h
  case point =>
    obtain ⟨hpoint, -⟩ := Bool.and_eq_true_iff.mp h
    exact takes_marked hrest (by rw [hmark hpoint]; rfl) (hnext ▸ rest_name c.advance)
      (level_name _) fun _ => rfl
  case hash =>
    refine takes_marked hrest (by rw [hmark h]; rfl) (hnext ▸ rest_takeWhile c.advance isNameChar)
      (level_takeWhile rfl _) ?_
    split
    · exact fun _ => rfl
    · exact fun _ => rfl
  case arobase =>
    refine .ite (fun _ => takes_fail _) fun _ => ?_
    refine .behind hsplit (.result (rest_name c.advance) ?_)
    refine isTokenText_of_level (fun _ => rfl) (List.cons_ne_nil _ _) ?_
    have hch : isPlain ch = true := by rw [hmark h]; rfl
    exact (level_singleton hch).append (level_name _)
  case quote =>
    have hq : nextIs isQuote c.rest = true := by rwa [hrest]
    refine (takes_quoted hq).map (fun _ _ => rfl) fun _ t ht => ?_
    exact isTokenText_of_level (fun _ => rfl) ht.1 ht.2
  case tilde =>
    obtain ⟨htilde, hq⟩ := Bool.and_eq_true_iff.mp h
    rw [← hnext] at hq
    have hch : isPlain ch = true := by rw [hmark htilde]; rfl
    refine .behind hsplit ((takes_quotedContent hq).map (fun _ _ => rfl) fun _ _ ht => ?_)
    exact isTokenText_of_level (fun _ => rfl) (List.cons_ne_nil _ _)
      ((level_singleton hch).append ht.2)
  case percent =>
    obtain ⟨hpercent, hparen⟩ := Bool.and_eq_true_iff.mp h
    cases next with
    | nil => cases hparen
    | cons d next =>
        refine .result (t := [ch, d]) ?_ ⟨List.cons_ne_nil _ _, ?_⟩
        · rw [rest_advance hnext, hrest]
          rfl
        · rintro depth inner ⟨⟩
          rw [hmark hpercent, show d = '(' from beq_iff_eq.mp hparen]
          rfl
  case lparen =>
    refine hsingle _ ⟨List.cons_ne_nil _ _, ?_⟩
    rintro depth inner ⟨⟩
    rw [hmark h]
    rfl
  case rparen =>
    refine hsingle _ ⟨List.cons_ne_nil _ _, fun {depth inner} hinner => ?_⟩
    rw [hmark h]
    cases depth with
    | zero => cases hinner
    | succ depth =>
        cases hinner
        rfl
  case comma => exact hflat _ (fun _ => rfl) (by rw [hmark h]; rfl)
  case plus => exact hflat _ (fun _ => rfl) (by rw [hmark h]; rfl)
  case star => exact hflat _ (fun _ => rfl) (by rw [hmark h]; rfl)
  case slash => exact hflat _ (fun _ => rfl) (by rw [hmark h]; rfl)
  case hyphen =>
    refine takes_word ?_
    rw [hrest]
    exact name_ne_nil_of_startsWord (Bool.or_eq_true_iff.mpr (Or.inr h))
  case minus => exact hflat _ (fun _ => rfl) (by rw [hmark h]; rfl)
  case start =>
    refine takes_word ?_
    rw [hrest]
    exact name_ne_nil_of_startsWord (Bool.or_eq_true_iff.mpr (Or.inl h))
  case other =>
    refine hflat _ (fun _ => rfl) ?_
    rw [isPlain, Bool.eq_false_iff.mpr hquote, Bool.eq_false_iff.mpr hopen,
      Bool.eq_false_iff.mpr hclose]
    rfl

end Cursor

end Less.Parse
