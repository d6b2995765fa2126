import Less.Proofs.Parsed
import Less.Proofs.ReadWords
import Less.Proofs.Word
import Mathlib.Data.Prod.Lex

/-! # Positions in the order of reading

    Positions are ordered by line and column, and a reader only moves forward: since
    it stays on every text it is on, it cannot go back (`Cursor.le_of_on`).  So what
    is read one after the other has different positions.

    * Groups of positions are **spread** over a stretch of the text if they lie in it
      and have no position in common (`Spread`).  Stretches that follow each other
      are put together (`Spread.append`).
    * The tokens of a value are spread over it (`spread_tokensFrom`): each takes at least
      one character.
    * Every expression takes its positions from the tokens it is read from, and the
      items of a list are read from tokens of their own (`consumes_lists`).  So the items
      of a value are spread over it (`spread_value`). -/

namespace Less

/-! ## The order of positions -/

namespace Position

/-- Positions are ordered by line, and in a line by column. -/
instance : Preorder Position :=
  Preorder.lift fun p => toLex (p.line, p.column)

theorem lt_iff {p q : Position} :
    p < q ↔ p.line < q.line ∨ p.line = q.line ∧ p.column < q.column :=
  Prod.Lex.toLex_lt_toLex

theorem lt_advance (p : Position) (ch : Char) : p < p.advance ch := by
  rw [lt_iff, advance]
  split
  · exact Or.inl (Nat.lt_succ_self _)
  · exact Or.inr ⟨rfl, Nat.lt_succ_self _⟩

theorem le_after (p : Position) (cs : List Char) : p ≤ p.after cs := by
  induction cs generalizing p with
  | nil => exact le_refl p
  | cons ch cs ih => exact (lt_advance p ch).le.trans (ih (p.advance ch))

theorem lt_after (p : Position) {cs : List Char} (h : cs ≠ []) : p < p.after cs := by
  obtain ⟨ch, cs, rfl⟩ := List.exists_cons_of_ne_nil h
  exact (lt_advance p ch).trans_le (le_after _ cs)

/-- A position is behind that of a shorter text in front. -/
theorem after_lt_after {front more : List Char} (h : front <+: more)
    (hlength : front.length < more.length) (p : Position) : p.after front < p.after more := by
  obtain ⟨rest, rfl⟩ := h
  rw [after_append]
  refine lt_after _ fun hnil => ?_
  rw [hnil, List.append_nil] at hlength
  exact Nat.lt_irrefl _ hlength

end Position

/-- The position of a node is one of its positions. -/
theorem Expr.mem_positions_of_position {e : Expr} {p : Position} (h : e.position = some p) :
    p ∈ e.positions := by
  have hp : p ∈ e.position.toList := Option.mem_toList.mpr h
  cases e with
  | constant | literal | var | access => exact hp
  | list | call | binary => exact List.mem_append_left _ hp

/-- Items put together have their own positions and that of the whole. -/
theorem Expr.forall_positions_ofItems {S : Position → Prop} {es : List Expr} {p : Position}
    (hp : S p) (hes : ∀ e ∈ es, ∀ q ∈ e.positions, S q) :
    ∀ q ∈ (Expr.ofItems es p).positions, S q := by
  have hown : ∀ q ∈ (some p).toList, S q := List.forall_mem_singleton.mpr hp
  rcases es with _ | ⟨e, _ | ⟨f, es⟩⟩
  · exact hown
  · exact hes e List.mem_cons_self
  · exact List.forall_mem_append.mpr ⟨hown, forall_positionsOfAll hes⟩

namespace Parse

/-! ## Readers move forward -/

namespace Cursor

/-- Two texts that end alike from some place on are alike at the same distance from
    their ends. -/
theorem eq_of_append_eq {a b xs ys zs ws : List Char} {ch ch' : Char}
    (h : xs ++ ch :: a = zs ++ b) (h' : ys ++ ch' :: a = ws ++ b)
    (hlength : zs.length ≤ xs.length) : ch = ch' := by
  obtain ⟨front, rfl⟩ : zs <+: xs :=
    List.prefix_of_prefix_length_le ⟨b, h.symm⟩ ⟨ch :: a, rfl⟩ hlength
  have hb : b = front ++ ch :: a := by
    rw [List.append_assoc] at h
    exact (List.append_cancel_left h).symm
  rw [hb, ← List.append_assoc] at h'
  exact (List.cons.inj (List.append_inj_right' h' rfl)).1.symm

/-- A place that is on every text that leads to the position of `passed`, with the same
    rest behind it, has passed all of it: what was passed could be another text. -/
theorem length_le_of_on {passed rest front : List Char} {c : Cursor}
    (hon : ∀ other, Position.start.after other = Position.start.after passed →
      ∃ front, other ++ rest = front ++ c.rest ∧ c.position = Position.start.after front)
    (hfront : passed ++ rest = front ++ c.rest)
    (hposition : c.position = Position.start.after front) : passed.length ≤ front.length := by
  by_contra hlt
  rcases List.eq_nil_or_concat' passed with rfl | ⟨init, ch, rfl⟩
  · exact hlt (Nat.zero_le _)
  have hle : front.length ≤ init.length := by
    rw [List.length_append, List.length_singleton] at hlt
    omega
  by_cases hch : ch = '\n'
  · -- a longer line leaves more characters between the start and the place
    subst hch
    obtain ⟨front', hfront', hposition'⟩ := hon (init ++ ['x'] ++ ['\n']) (by
      rw [Position.after_append, Position.after_append, Position.after_append]
      rfl)
    have hlength : front'.length = front.length + 1 := by
      have hall := congrArg List.length hfront
      have hall' := congrArg List.length hfront'
      simp only [List.length_append, List.length_singleton] at hall hall'
      omega
    have hpre : front <+: init ++ ['x'] :=
      (List.prefix_of_prefix_length_le ⟨_, hfront.symm⟩ ⟨['\n'] ++ rest, by simp⟩ hle).trans
        (List.prefix_append _ _)
    have hpre' : front' <+: init ++ ['x'] :=
      List.prefix_of_prefix_length_le ⟨_, hfront'.symm⟩ ⟨['\n'] ++ rest, by simp⟩
        (by rw [List.length_append, List.length_singleton]; omega)
    have hprefix := List.prefix_of_prefix_length_le hpre hpre' (by omega)
    have hbehind := Position.after_lt_after hprefix (by omega) Position.start
    rw [← hposition, ← hposition'] at hbehind
    exact lt_irrefl _ hbehind
  · -- another character may stand there instead
    obtain ⟨ch', hne, hch'⟩ : ∃ ch' : Char, ch ≠ ch' ∧ ch' ≠ '\n' := by
      by_cases hx : ch = 'x'
      · exact ⟨'y', by rw [hx]; decide, by decide⟩
      · exact ⟨'x', hx, by decide⟩
    obtain ⟨front', hfront', -⟩ := hon (init ++ [ch']) (by
      rw [Position.after_append, Position.after_append]
      show Position.advance _ ch' = Position.advance _ ch
      rw [Position.advance, Position.advance, if_neg hch, if_neg hch'])
    rw [List.append_assoc, List.singleton_append] at hfront hfront'
    exact hne (eq_of_append_eq hfront hfront' hle)

/-- **A place that is on every text that another one is on is not before it.** -/
theorem le_of_on {a c : Cursor} {source : List Char} (ha : a.On source)
    (h : ∀ source, a.On source → c.On source) : a.position ≤ c.position := by
  obtain ⟨rest, p⟩ := a
  obtain ⟨passed, -, rfl⟩ :
    ∃ passed, source = passed ++ rest ∧ p = Position.start.after passed := ha
  have hon : ∀ other, Position.start.after other = Position.start.after passed →
      ∃ front, other ++ rest = front ++ c.rest ∧ c.position = Position.start.after front :=
    fun other hother => h (other ++ rest) ⟨other, rfl, hother.symm⟩
  obtain ⟨front, hfront, hposition⟩ := hon passed rfl
  obtain ⟨more, rfl⟩ : passed <+: front :=
    List.prefix_of_prefix_length_le ⟨rest, hfront⟩ ⟨c.rest, rfl⟩
      (length_le_of_on hon hfront hposition)
  rw [hposition, Position.after_append]
  exact Position.le_after _ more

variable {α : Type} {source : List Char} {a c : Cursor}

/-- A sound reader leaves a place on the text, not before the one it started at. -/
theorem forward {P : List Char → α → Prop} {x : Except Fault (Parsed α)} {r : α}
    (ha : a.On source) (hx : ∀ source, a.On source → Reads source (P source) x)
    (h : x = .ok (r, c)) : c.On source ∧ a.position ≤ c.position := by
  have hon : ∀ source, a.On source → c.On source := by
    intro source ha
    have hreads := hx source ha
    rw [h] at hreads
    cases hreads with
    | result hr => exact hr.2
  exact ⟨hon source ha, le_of_on ha hon⟩

/-- A place that is always reached is on the text, not before the one at the start. -/
theorem forward_to (ha : a.On source) (h : ∀ source, a.On source → c.On source) :
    c.On source ∧ a.position ≤ c.position :=
  ⟨h source ha, le_of_on ha h⟩

theorem forward_expect (ha : a.On source) {ch : Char} (h : a.expect ch = .ok c) :
    c.On source ∧ a.position < c.position := by
  rw [expect] at h
  split at h
  · cases h
  · rename_i found cs hrest
    split at h
    · cases h
      refine ⟨ha.advance, ?_⟩
      rw [advance, hrest]
      exact Position.lt_advance _ _
    · cases h

end Cursor

/-! ## Groups of positions -/

/-- The groups of positions lie between two places, and none of them has a position
    of another one. -/
structure Spread (a b : Position) (groups : List (List Position)) : Prop where
  le : a ≤ b
  inside : ∀ g ∈ groups, ∀ p ∈ g, a ≤ p ∧ p < b
  apart : groups.Pairwise List.Disjoint

namespace Spread

variable {a b c : Position} {gs hs : List (List Position)}

theorem nil (h : a ≤ b) : Spread a b [] :=
  ⟨h, fun _ hg => absurd hg List.not_mem_nil, .nil⟩

theorem single {g : List Position} (hle : a ≤ b) (h : ∀ p ∈ g, a ≤ p ∧ p < b) : Spread a b [g] :=
  ⟨hle, List.forall_mem_singleton.mpr h, List.pairwise_singleton _ _⟩

theorem widen (h : Spread b c gs) {d : Position} (ha : a ≤ b) (hd : c ≤ d) : Spread a d gs :=
  ⟨ha.trans (h.le.trans hd), fun g hg p hp =>
    ⟨ha.trans (h.inside g hg p hp).1, (h.inside g hg p hp).2.trans_le hd⟩, h.apart⟩

/-- **Stretches that follow each other are put together.** -/
theorem append (hg : Spread a b gs) (hh : Spread b c hs) : Spread a c (gs ++ hs) := by
  refine ⟨hg.le.trans hh.le, List.forall_mem_append.mpr ⟨?_, ?_⟩,
    List.pairwise_append.mpr ⟨hg.apart, hh.apart, fun g hmem k hk p hp hp' => ?_⟩⟩
  · exact (hg.widen (le_refl a) hh.le).inside
  · exact (hh.widen hg.le (le_refl c)).inside
  · exact lt_irrefl p ((hg.inside g hmem p hp).2.trans_le (hh.inside k hk p hp').1)

/-- Fewer groups, in any order, are spread over the same stretch. -/
theorem of_subperm (h : Spread a b gs) (hsub : hs.Subperm gs) : Spread a b hs := by
  obtain ⟨ks, hperm, hks⟩ := hsub
  have hapart : hs.Pairwise List.Disjoint :=
    (hperm.pairwise_iff fun hd => List.disjoint_comm.mp hd).mp (h.apart.sublist hks)
  exact ⟨h.le, fun g hg => h.inside g (hks.subset (hperm.mem_iff.mpr hg)), hapart⟩

end Spread

/-! ## Tokens -/

namespace Cursor

variable {source : List Char}

theorem lt_advance {c : Cursor} {ch : Char} {cs : List Char} (h : c.rest = ch :: cs) :
    c.position < c.advance.position := by
  rw [advance, h]
  exact Position.lt_advance _ _

/-- A cursor that moves past something moves on. -/
theorem lt_move (c : Cursor) {s : Split} (h : s.1 ≠ []) : c.position < (c.move s).position :=
  Position.lt_after _ h

theorem le_of_rawArguments {start : Position} {depth : Nat} {quote : Option (Char × Position)}
    {p : Position} {cs : List Char} :
    ∀ r, rawArguments start depth quote p cs = .ok r → p ≤ r.2.position := by
  induction depth, quote, p, cs using rawArguments.induct with
  | case1 depth quote opened p =>
      intro _ h
      rw [rawArguments] at h
      cases h
  | case2 depth p =>
      intro _ h
      rw [rawArguments] at h
      cases h
  | case3 depth quote opened p ch cs ih =>
      intro _ h
      rw [rawArguments] at h
      obtain ⟨r, hr, h⟩ := exists_of_bind_eq_ok h
      cases h
      exact ((Position.lt_advance _ _).trans (Position.lt_advance _ _)).le.trans (ih r hr)
  | case4 depth quote opened p ch cs hescape ih =>
      intro _ h
      rw [rawArguments] at h
      · obtain ⟨r, hr, h⟩ := exists_of_bind_eq_ok h
        cases h
        exact (Position.lt_advance _ _).le.trans (ih r hr)
      · assumption
  | case5 depth p ch cs hclose =>
      intro _ h
      rw [rawArguments, if_pos hclose] at h
      cases h
      exact (Position.lt_advance _ _).le
  | case6 depth p ch cs hclose depth' quote ih =>
      intro _ h
      rw [rawArguments, if_neg hclose] at h
      obtain ⟨r, hr, h⟩ := exists_of_bind_eq_ok h
      cases h
      exact (Position.lt_advance _ _).le.trans (ih r hr)

/-- A result of the reader lies behind the place. -/
def Passes {α : Type} (c : Cursor) (x : Except Fault (Parsed α)) : Prop :=
  ∀ r after, x = .ok (r, after) → c.position < after.position

variable {c : Cursor} {α β : Type}

theorem Passes.ite {p : Prop} [Decidable p] {x y : Except Fault (Parsed α)} (hx : p → c.Passes x)
    (hy : c.Passes y) : c.Passes (if p then x else y) := by
  split
  · exact hx ‹p›
  · exact hy

/-- What is made of a result lies behind the same places. -/
theorem Passes.map {x : Except Fault (Parsed α)} (hx : c.Passes x) (f : α → β) :
    c.Passes (do let (r, after) ← x; return (f r, after)) := by
  intro b after h
  obtain ⟨⟨r, after'⟩, hr, h⟩ := exists_of_bind_eq_ok h
  cases h
  exact hx r after hr

theorem passes_fail (cause : Cause) : c.Passes (c.fail cause : Except Fault (Parsed α)) :=
  nofun

theorem passes_ok {r : α} {after : Cursor} (h : c.position < after.position) :
    c.Passes (.ok (r, after)) := by
  rintro _ _ ⟨⟩
  exact h

/-- What is read from a place behind lies behind, too. -/
theorem passes_later {b : Cursor} (hb : b.On source) (hlt : c.position < b.position)
    {x : Except Fault (Parsed α)} (hx : ∀ source, b.On source → Reads source Any x) : c.Passes x :=
  fun _ _ h => hlt.trans_le (forward hb hx h).2

theorem passes_quoted : c.Passes c.quoted := by
  rw [quoted]
  split
  · exact passes_fail _
  · split
    · exact passes_ok (c.lt_move (List.cons_ne_nil _ _))
    · exact passes_fail _

/-- A word takes at least its first character. -/
theorem passes_word (hc : c.On source) (hstart : startsWord c.rest = true) : c.Passes c.word := by
  have hname : c.position < c.name.2.position := c.lt_move (name_ne_nil_of_startsWord hstart)
  rw [word]
  refine .ite (fun _ => passes_ok hname) (.ite (fun _ => ?_) ?_)
  · refine Passes.map (fun r after hr => ?_) fun arguments =>
      TokenKind.word (c.name.1 ++ String.ofList arguments)
    exact hname.trans_le (le_of_rawArguments _ hr)
  · exact passes_ok (hname.trans_le (forward_to hc.name fun _ hon => hon.advance).2)

/-- **A token takes at least one character.** -/
theorem passes_tokenAt {ch : Char} {next : List Char} (hc : c.On source)
    (hrest : c.rest = ch :: next) : c.Passes (c.tokenAt ch next) := by
  have hadvance := lt_advance hrest
  have hsingle : ∀ k : TokenKind, c.Passes (.ok (k, c.advance) : Except Fault (Parsed TokenKind)) :=
    fun k => passes_ok hadvance
  have hname := forward_to hc.advance fun _ hon => hon.name
  have hlater := forward_to hc.advance fun _ hon => hon.takeWhile isNameChar
  have hword : startsWord (ch :: next) = true → c.Passes c.word := by
    rw [← hrest]
    exact passes_word hc
  rw [tokenAt]
  refine .ite (fun hnumber => passes_ok (c.lt_move ?_)) ?_
  · rw [hrest]
    exact numberText_ne_nil hnumber
  refine .ite (fun _ => passes_later hname.1 (hadvance.trans_le hname.2)
    fun _ hon => reads_accessorOr hon _ _) ?_
  refine .ite (fun _ => passes_later hlater.1 (hadvance.trans_le hlater.2)
    fun _ hon => reads_accessorOr hon _ _) ?_
  refine .ite (fun _ => .ite (fun _ => passes_fail _) (passes_ok (hadvance.trans_le hname.2))) ?_
  refine .ite (fun _ => passes_quoted.map fun text => TokenKind.word (String.ofList text)) ?_
  refine .ite (fun _ => Passes.map (passes_later hc.advance hadvance
    fun _ hon => reads_quotedContent hon) TokenKind.word) ?_
  refine .ite (fun _ => passes_ok (hadvance.trans_le
    (forward_to hc.advance fun _ hon => hon.advance).2)) ?_
  refine .ite (fun _ => hsingle _) (.ite (fun _ => hsingle _) (.ite (fun _ => hsingle _)
    (.ite (fun _ => hsingle _) (.ite (fun _ => hsingle _) (.ite (fun _ => hsingle _) ?_)))))
  refine .ite (fun hhyphen => hword ?_) (.ite (fun _ => hsingle _) (.ite (fun hstart => hword ?_)
    (hsingle _)))
  · rw [startsWord, hhyphen, Bool.or_true]
  · rw [startsWord, hstart, Bool.true_or]

/-- The positions of tokens, each by itself. -/
def places (ts : List Token) : List (List Position) :=
  ts.map fun t => [t.position]

/-- A token in front of others that are spread behind it. -/
theorem spread_cons {a b before : Position} {t : Token} {ts : List Token} (ha : before ≤ t.position)
    (hlt : t.position < a) (h : Spread a b (places ts)) : Spread before b (places (t :: ts)) :=
  (Spread.single (ha.trans hlt.le) (List.forall_mem_singleton.mpr ⟨ha, hlt⟩)).append h

/-- **The tokens of a value are spread over it.** -/
theorem spread_tokensFrom (stops : List Char) : ∀ {n depth : Nat} {before last : Cursor}
    {ts : Tokens}, before.On source → tokensFrom stops n depth before = .ok (ts, last) →
      last.On source ∧ Spread before.position last.position (places ts.list) := by
  intro n
  induction n with
  | zero => intro depth before last ts _ h; cases h
  | succ n ih =>
      intro depth before last ts hbefore h
      obtain ⟨hc, hle⟩ := forward_to hbefore fun _ hon => hon.skipTrivia
      have hdone : ∀ {b : Bool}, (.ok (⟨[], b⟩, before.skipTrivia) : Except Fault (Parsed Tokens)) =
          .ok (ts, last) →
          last.On source ∧ Spread before.position last.position (places ts.list) := by
        rintro b ⟨⟩
        exact ⟨hc, .nil hle⟩
      rw [tokensFrom] at h
      simp only at h
      split at h
      · split at h
        · cases h
        · exact hdone h
      · rename_i ch next hrest
        have hlt := lt_advance hrest
        split at h
        · exact hdone h
        · split at h
          · cases h
          · split at h
            · obtain ⟨hafter, hblanks⟩ := forward_to hc.advance fun _ hon => hon.skipBlanks
              split at h
              · obtain ⟨⟨more, last'⟩, hmore, h⟩ := exists_of_bind_eq_ok h
                cases h
                obtain ⟨hword, hdrop⟩ := forward_to hafter fun _ hon => hon.drop "important".length
                obtain ⟨hlast, hspread⟩ := ih hword hmore
                exact ⟨hlast, hspread.widen
                  (hle.trans (hlt.le.trans (hblanks.trans hdrop))) (le_refl _)⟩
              · obtain ⟨⟨more, last'⟩, hmore, h⟩ := exists_of_bind_eq_ok h
                cases h
                obtain ⟨hlast, hspread⟩ := ih hafter hmore
                exact ⟨hlast, spread_cons hle (hlt.trans_le hblanks) hspread⟩
            · obtain ⟨⟨kind, after⟩, htoken, h⟩ := exists_of_bind_eq_ok h
              have hpasses := passes_tokenAt hc hrest kind after htoken
              obtain ⟨hafter, -⟩ := forward hc (fun _ hon => reads_tokenAt hon ch next) htoken
              simp only at h
              split at h
              · cases h
              · obtain ⟨⟨more, last'⟩, hmore, h⟩ := exists_of_bind_eq_ok h
                cases h
                obtain ⟨hlast, hspread⟩ := ih hafter hmore
                exact ⟨hlast, spread_cons hle hpasses hspread⟩

end Cursor

/-! ## What expressions are read from -/

/-- The expression has its positions from these tokens. -/
def Covers (used : List Token) (e : Expr) : Prop :=
  ∀ p ∈ e.positions, ∃ t ∈ used, t.position = p

theorem Covers.mono {used more : List Token} {e : Expr} (h : Covers used e) (hsub : used ⊆ more) :
    Covers more e := by
  intro p hp
  obtain ⟨t, ht, rfl⟩ := h p hp
  exact ⟨t, hsub ht, rfl⟩

theorem covers_of_no_positions {e : Expr} (h : e.positions = []) (used : List Token) :
    Covers used e := by
  rw [Covers, h]
  exact nofun

/-- An expression with one position, that of a token. -/
theorem covers_of_one {e : Expr} {t : Token} {used : List Token}
    (h : e.positions = [t.position]) (ht : t ∈ used) : Covers used e := by
  rw [Covers, h]
  exact List.forall_mem_singleton.mpr ⟨t, ht, rfl⟩

theorem Covers.position {used : List Token} {e : Expr} (h : Covers used e) :
    ∀ p ∈ e.position.toList, ∃ t ∈ used, t.position = p :=
  fun p hp => h p (Expr.mem_positions_of_position (Option.mem_toList.mp hp))

theorem Covers.operation {used : List Token} {left right : Expr} (hleft : Covers used left)
    (hright : Covers used right) (op : Operator) : Covers used (Expr.operation op left right) :=
  List.forall_mem_append.mpr ⟨hleft.position, List.forall_mem_append.mpr ⟨hleft, hright⟩⟩

theorem Covers.negate {used : List Token} {e : Expr} (h : Covers used e) {t : Token}
    (ht : t ∈ used) : Covers used (e.negate.withPosition (some t.position)) :=
  List.forall_mem_append.mpr ⟨List.forall_mem_singleton.mpr ⟨t, ht, rfl⟩,
    List.forall_mem_append.mpr ⟨h.position, h⟩⟩

theorem covers_list {used : List Token} {es : List Expr} (h : ∀ e ∈ es, Covers used e) {t : Token}
    (ht : t ∈ used) : Covers used (.list es (some t.position)) :=
  List.forall_mem_append.mpr ⟨List.forall_mem_singleton.mpr ⟨t, ht, rfl⟩, forall_positionsOfAll h⟩

theorem covers_ofItems {used : List Token} {es : List Expr} (h : ∀ e ∈ es, Covers used e)
    {t : Token} (ht : t ∈ used) : Covers used (Expr.ofItems es t.position) :=
  Expr.forall_positions_ofItems ⟨t, ht, rfl⟩ h

/-- Each expression has its positions from tokens of its own. -/
inductive Shares : List Token → List Expr → Prop where
  | nil (ts : List Token) : Shares ts []
  | cons {front back : List Token} {e : Expr} {es : List Expr} (he : Covers front e)
      (hes : Shares back es) : Shares (front ++ back) (e :: es)

namespace Shares

variable {front back : List Token} {es fs : List Expr}

theorem covers (h : Shares back es) : ∀ e ∈ es, Covers back e := by
  induction h with
  | nil ts => exact nofun
  | cons he _ ih =>
      exact List.forall_mem_cons.mpr ⟨he.mono (List.subset_append_left _ _),
        fun e he => (ih e he).mono (List.subset_append_right _ _)⟩

/-- Tokens in front may be left over. -/
theorem behind (h : Shares back es) (front : List Token) : Shares (front ++ back) es := by
  cases h with
  | nil ts => exact .nil _
  | cons he hes =>
      rw [← List.append_assoc]
      exact .cons (he.mono (List.subset_append_right _ _)) hes

/-- Expressions without positions need no tokens. -/
theorem separators (h : Shares back es) (hfs : ∀ f ∈ fs, f.positions = []) :
    Shares back (fs ++ es) := by
  induction fs with
  | nil => exact h
  | cons f fs ih =>
      obtain ⟨hf, hfs⟩ := List.forall_mem_cons.mp hfs
      exact Shares.cons (covers_of_no_positions hf []) (ih hfs)

/-- **Expressions with tokens of their own are spread as these tokens are.** -/
theorem spread {a b : Position} {ts : List Token} (h : Shares ts es)
    (hts : Spread a b (Cursor.places ts)) : Spread a b (es.map Expr.positions) := by
  induction h with
  | nil ts => exact .nil hts.le
  | @cons front back e es he hes ih =>
      rw [Cursor.places, List.map_append] at hts
      obtain ⟨-, -, hapart⟩ := List.pairwise_append.mp hts.apart
      have hback : Spread a b (Cursor.places back) :=
        hts.of_subperm (List.sublist_append_right _ _).subperm
      refine ⟨hts.le, List.forall_mem_cons.mpr ⟨fun p hp => ?_, (ih hback).inside⟩,
        List.pairwise_cons.mpr ⟨fun g hg p hp hp' => ?_, (ih hback).apart⟩⟩
      · obtain ⟨t, ht, rfl⟩ := he p hp
        exact hts.inside _ (List.mem_append_left _ (List.mem_map_of_mem ht)) _ List.mem_cons_self
      · obtain ⟨f, hf, rfl⟩ := List.mem_map.mp hg
        obtain ⟨t, ht, rfl⟩ := he p hp
        obtain ⟨t', ht', heq⟩ := hes.covers f hf _ hp'
        exact hapart _ (List.mem_map_of_mem ht) _ (List.mem_map_of_mem ht') List.mem_cons_self
          (List.mem_singleton.mpr heq.symm)

end Shares

/-- A result is read from a part in front of the tokens, which `P` relates to it. -/
def Consumes {α : Type} (P : List Token → α → Prop) (ts : List Token) (x : Except Fault (Rest α)) :
    Prop :=
  ∀ a rest, x = .ok (a, rest) → ∃ used, ts = used ++ rest ∧ P used a

section Readers

variable {α β : Type} {P : List Token → α → Prop} {Q : List Token → β → Prop} {ts : List Token}

theorem consumes_none {a : α} (h : P [] a) : Consumes P ts (.ok (a, ts)) := by
  rintro _ _ ⟨⟩
  exact ⟨[], rfl, h⟩

theorem Consumes.bind {x : Except Fault (Rest α)} {f : Rest α → Except Fault (Rest β)}
    (hx : Consumes P ts x)
    (hf : ∀ a used rest, P used a →
      Consumes (fun more b => Q (used ++ more) b) rest (f (a, rest))) :
    Consumes Q ts (x >>= f) := by
  intro b rest h
  obtain ⟨⟨a, middle⟩, ha, h⟩ := exists_of_bind_eq_ok h
  obtain ⟨used, rfl, hused⟩ := hx a middle ha
  obtain ⟨more, rfl, hmore⟩ := hf a used middle hused b rest h
  exact ⟨used ++ more, (List.append_assoc _ _ _).symm, hmore⟩

theorem consumes_fault (f : Fault) : Consumes P ts (.error f) := by
  intro a rest h
  cases h

/-- A token in front of those that are taken. -/
theorem Consumes.cons {x : Except Fault (Rest α)} {t : Token}
    (hx : Consumes (fun used a => P (t :: used) a) ts x) : Consumes P (t :: ts) x := by
  intro a rest h
  obtain ⟨used, rfl, hused⟩ := hx a rest h
  exact ⟨t :: used, rfl, hused⟩

end Readers

theorem covers_numberAt {text : String} {t : Token} {used : List Token} (ht : t ∈ used) {e : Expr}
    (h : numberAt text t.position = .ok e) : Covers used e := by
  rw [numberAt] at h
  split at h
  · cases h
    exact covers_of_one rfl ht
  · cases h

section Operations

variable {last : Position}

/-- Operands are read from tokens behind those that were read already. -/
theorem consumes_chain {operator? : Token → List Token → Option Operator}
    {next : List Token → Except Fault (Rest Expr)} (hnext : ∀ ts, Consumes Covers ts (next ts)) :
    ∀ {n : Nat} {left : Expr} {front ts : List Token}, Covers front left →
      Consumes (fun used e => Covers (front ++ used) e) ts
        (chain last operator? next n left ts) := by
  intro n
  induction n with
  | zero => intro left front ts _; exact consumes_fault _
  | succ n ih =>
      intro left front ts hleft
      have hdone : Consumes (fun used e => Covers (front ++ used) e) ts (.ok (left, ts)) :=
        consumes_none (hleft.mono (List.subset_append_left _ _))
      cases ts with
      | nil => exact hdone
      | cons t rest =>
          rw [chain]
          split
          · exact hdone
          · rename_i op hop
            refine Consumes.cons ((hnext rest).bind fun right used tokens hright => ?_)
            have hboth : Covers (front ++ t :: used) (Expr.operation op left right) :=
              (hleft.mono (List.subset_append_left _ _)).operation
                (hright.mono fun u hu => List.mem_append_right _ (List.mem_cons_of_mem t hu)) op
            have hrest : Consumes (fun more e => Covers (front ++ t :: used ++ more) e) tokens
                (chain last operator? next n (Expr.operation op left right) tokens) := ih hboth
            simp only [List.append_assoc, List.cons_append] at hrest
            exact hrest

variable {operand : List Token → Except Fault (Rest Expr)}
  (hoperand : ∀ ts, Consumes Covers ts (operand ts))
include hoperand

theorem consumes_signed : ∀ {ts : List Token}, Consumes Covers ts (signed operand ts) := by
  intro ts
  induction ts with
  | nil => exact hoperand []
  | cons t rest ih =>
      rw [signed.eq_def]
      simp only
      split
      · split
        · rename_i text q tokens
          intro e tokens' h
          obtain ⟨e', he, h⟩ := exists_of_bind_eq_ok h
          cases h
          exact ⟨[t, ⟨.number text, q, false⟩], rfl, covers_numberAt List.mem_cons_self he⟩
        · refine Consumes.cons (ih.bind fun e used tokens he => consumes_none ?_)
          rw [List.append_nil]
          exact (he.mono (List.subset_cons_self _ _)).negate List.mem_cons_self
      · exact hoperand _

theorem consumes_product (depth : Nat) {ts : List Token} :
    Consumes Covers ts (product last operand depth ts) :=
  (consumes_signed hoperand).bind fun _ _ _ he =>
    consumes_chain (fun _ => consumes_signed hoperand) he

theorem consumes_sum (depth : Nat) {ts : List Token} :
    Consumes Covers ts (sum last operand depth ts) :=
  (consumes_product hoperand depth).bind fun _ _ _ he =>
    consumes_chain (fun _ => consumes_product hoperand depth) he

end Operations

section Lists

variable {last : Position}

/-- All expressions have their positions from these tokens. -/
abbrev CoversAll (used : List Token) (es : List Expr) : Prop :=
  ∀ e ∈ es, Covers used e

theorem covers_separator (used : List Token) (text : String) : Covers used (separator text) :=
  covers_of_no_positions rfl used

theorem positions_blankIf (b : Bool) : ∀ e ∈ blankIf b, e.positions = [] := by
  cases b with
  | false => exact nofun
  | true => exact List.forall_mem_singleton.mpr rfl

/-- What stands between parentheses is read from the tokens from the first one on. -/
theorem consumes_closeParentheses {t : Token} {front : List Token} (ht : t ∈ front)
    {inner : List Expr} (hinner : CoversAll front inner) {ts : List Token} :
    Consumes (fun used e => Covers (front ++ used) e) ts
      (closeParentheses last t.position inner ts) := by
  cases ts with
  | nil => exact consumes_fault _
  | cons close rest =>
      rw [closeParentheses.eq_def]
      simp only
      split
      · refine Consumes.cons ?_
        have hall : CoversAll (front ++ [close]) inner :=
          fun e he => (hinner e he).mono (List.subset_append_left _ _)
        split
        · exact consumes_none (hall _ List.mem_cons_self)
        · refine consumes_none (covers_list (fun e he => ?_) (List.mem_append_left _ ht))
          rcases List.mem_cons.mp he with rfl | he
          · exact covers_separator _ _
          · rcases List.mem_append.mp he with he | he
            · exact hall e he
            · rw [List.mem_singleton.mp he]
              exact covers_separator _ _
      · exact consumes_fault _

theorem consumes_operand {inner arguments : List Token → Except Fault (Rest (List Expr))}
    (hinner : ∀ ts, Consumes CoversAll ts (inner ts))
    (harguments : ∀ ts, Consumes CoversAll ts (arguments ts)) (ts : List Token) :
    Consumes Covers ts (operand last inner arguments ts) := by
  cases ts with
  | nil => exact consumes_fault _
  | cons t rest =>
      have hone : ∀ {e : Expr}, e.positions = [t.position] →
          Consumes Covers (t :: rest) (.ok (e, rest)) := fun he =>
        Consumes.cons (consumes_none (covers_of_one he List.mem_cons_self))
      have hmem : ∀ used : List Token, t ∈ t :: used := fun _ => List.mem_cons_self
      have hlater : ∀ {used : List Token} {es : List Expr}, CoversAll used es →
          CoversAll (t :: used) es :=
        fun hes e he => (hes e he).mono (List.subset_cons_self _ _)
      obtain ⟨kind, p, spaced⟩ := t
      rw [operand.eq_def]
      cases kind with
      | number text =>
          intro e tokens h
          obtain ⟨e', he, h⟩ := exists_of_bind_eq_ok h
          cases h
          exact ⟨_, (List.singleton_append).symm, covers_numberAt List.mem_cons_self he⟩
      | color text =>
          simp only
          split
          · exact hone rfl
          · exact hone rfl
      | var name => exact hone rfl
      | access target member => exact hone rfl
      | call name =>
          refine Consumes.cons ((harguments rest).bind fun es used tokens hes => consumes_none ?_)
          rw [List.append_nil]
          exact List.forall_mem_append.mpr ⟨List.forall_mem_singleton.mpr ⟨_, hmem used, rfl⟩,
            forall_positionsOfAll (hlater hes)⟩
      | lparen =>
          exact Consumes.cons ((hinner rest).bind fun es used tokens hes =>
            consumes_closeParentheses (hmem used) (hlater hes))
      | word text => exact hone rfl
      | rparen | comma | plus | minus | star | slash => exact hone rfl

/-- Arguments have their positions from the tokens up to a closing parenthesis. -/
def Closes (used : List Token) (es : List Expr) : Prop :=
  used ≠ [] ∧ CoversAll used es

theorem mem_of_cons_eq_append {t : Token} {rest used tokens : List Token}
    (h : t :: rest = used ++ tokens) (hne : used ≠ []) : t ∈ used := by
  cases used with
  | nil => exact absurd rfl hne
  | cons u used =>
      rw [(List.cons.inj h).1]
      exact List.mem_cons_self

/-- **The items of a list are read from tokens of their own**, and arguments from the
    tokens of their list. -/
theorem consumes_lists : ∀ n : Nat,
    (∀ depth stops separated ts, Consumes Shares ts (items last n depth stops separated ts)) ∧
      ∀ depth ts, Consumes Closes ts (arguments last n depth ts)
  | 0 => ⟨fun _ _ _ _ => consumes_fault _, fun _ _ => consumes_fault _⟩
  | n + 1 => by
      obtain ⟨hitems, harguments⟩ := consumes_lists n
      have hinner : ∀ depth stops separated ts,
          Consumes CoversAll ts (items last n depth stops separated ts) := by
        intro depth stops separated ts es rest h
        obtain ⟨used, hused, hes⟩ := hitems depth stops separated ts es rest h
        exact ⟨used, hused, hes.covers⟩
      have hall : ∀ depth ts, Consumes CoversAll ts (arguments last n depth ts) := by
        intro depth ts es rest h
        obtain ⟨used, hused, hes⟩ := harguments depth ts es rest h
        exact ⟨used, hused, hes.2⟩
      constructor
      · intro depth stops separated ts
        cases ts with
        | nil => exact consumes_none (.nil _)
        | cons t rest =>
            rw [items]
            split
            · exact consumes_none (.nil _)
            · split
              · refine Consumes.cons ((hitems depth stops true rest).bind
                  fun more used tokens hmore => consumes_none ?_)
                rw [List.append_nil, List.append_assoc, List.cons_append]
                have hblank := hmore.separators (positions_blankIf (nextSpaced rest))
                exact ((hblank.separators (List.forall_mem_singleton.mpr rfl)).separators
                  (positions_blankIf _)).behind [t]
              · refine (consumes_sum (fun ts => consumes_operand (hinner _ _ _) (hall _) ts)
                  depth).bind fun item used tokens hitem => ?_
                refine (hitems depth stops false tokens).bind fun more used' tokens' hmore =>
                  consumes_none ?_
                rw [List.append_nil]
                exact (Shares.cons hitem hmore).separators (positions_blankIf _)
      · intro depth ts
        cases ts with
        | nil => exact consumes_fault _
        | cons t rest =>
            rw [arguments]
            split
            · exact Consumes.cons (consumes_none
                ⟨List.cons_ne_nil _ _, fun e he => absurd he List.not_mem_nil⟩)
            · split
              · refine Consumes.cons fun es tokens h => ?_
                obtain ⟨used, hused, hes⟩ := hall depth rest es tokens h
                exact ⟨used, hused, List.cons_ne_nil _ _,
                  fun e he => (hes e he).mono (List.subset_cons_self _ _)⟩
              · intro es tokens h
                obtain ⟨⟨inner, middle⟩, hread, h⟩ := exists_of_bind_eq_ok h
                obtain ⟨⟨more, tokens'⟩, hmore, h⟩ := exists_of_bind_eq_ok h
                cases h
                obtain ⟨used, hused, hcovers⟩ := hinner _ _ _ _ inner middle hread
                obtain ⟨used', rfl, hne, hcovers'⟩ := harguments _ _ more tokens hmore
                rw [← List.append_assoc] at hused
                have hall : used ++ used' ≠ [] := fun hnil => hne (List.append_eq_nil_iff.mp hnil).2
                refine ⟨_, hused, hall, List.forall_mem_cons.mpr ⟨covers_ofItems (fun e he => ?_)
                  (mem_of_cons_eq_append hused hall), fun e he => ?_⟩⟩
                · exact (hcovers e he).mono (List.subset_append_left _ _)
                · exact (hcovers' e he).mono (List.subset_append_right _ _)

end Lists

/-- **The items of a value are spread over it.** -/
theorem Cursor.spread_value {source : List Char} {c last : Cursor} {stops : List Char}
    {v : ValueText} (hc : c.On source) (h : c.value stops = .ok (v, last)) :
    last.On source ∧ Spread c.position last.position (v.items.map Expr.positions) := by
  rw [value] at h
  obtain ⟨⟨ts, last'⟩, hts, h⟩ := exists_of_bind_eq_ok h
  obtain ⟨⟨es, rest⟩, hes, h⟩ := exists_of_bind_eq_ok h
  cases h
  obtain ⟨hlast, hspread⟩ := spread_tokensFrom stops hc hts
  obtain ⟨used, hused, hshares⟩ := (consumes_lists _).1 _ _ _ _ es rest hes
  refine ⟨hlast, hshares.spread (hspread.of_subperm ?_)⟩
  show (places used).Subperm (places ts.list)
  rw [hused, places, places, List.map_append]
  exact (List.sublist_append_left _ _).subperm

end Parse

end Less
