import Less.Proofs.Identifier
import Mathlib.Data.List.Induction

/-! # Places of a source text

    A position **is in** a source text if it is that of a prefix: its line is one
    more than the line feeds of the prefix, its column the number of characters
    behind the last of them (`Position.IsIn`).  A cursor is **on** a source text
    if what it has passed and what is left make up the text, and its position is
    the one behind what it has passed (`Cursor.On`).

    Scanners lose nothing: the part taken and the rest make up the text
    (`…_append`), so a cursor that moves stays on its text.  A reader is **sound**
    if it leaves a cursor on the text and its faults are in the text (`Reads`);
    the rest of this module says so of the readers up to the tokens of a value. -/

namespace Less

namespace Position

/-- The position is that of a prefix of the text. -/
def IsIn (source : List Char) (p : Position) : Prop :=
  ∃ front, front <+: source ∧ p.line = 1 + front.count '\n' ∧
    p.column = (front.reverse.takeWhile (· ≠ '\n')).length

theorem after_append (p : Position) (xs ys : List Char) :
    p.after (xs ++ ys) = (p.after xs).after ys :=
  List.foldl_append

/-- **The position behind a text** counts its line feeds, and the characters
    behind the last of them. -/
theorem after_eq (front : List Char) : start.after front =
    ⟨1 + front.count '\n', (front.reverse.takeWhile (· ≠ '\n')).length⟩ := by
  induction front using List.reverseRecOn with
  | nil => rfl
  | append_singleton front c ih =>
      rw [after_append, ih, List.reverse_append, List.count_append]
      show advance _ c = _
      rw [advance]
      by_cases hc : c = '\n'
      · subst hc
        rw [if_pos rfl]
        simp
        rfl
      · rw [if_neg hc]
        simp [hc]

theorem isIn_after {source front : List Char} (h : front <+: source) :
    (start.after front).IsIn source := by
  rw [after_eq]
  exact ⟨front, h, rfl, rfl⟩

end Position

namespace Parse

open Less.Text

/-! ## Scanners lose nothing -/

theorem keep_append (c : Char) (s : Split) : (keep c s).1 ++ (keep c s).2 = c :: (s.1 ++ s.2) :=
  rfl

theorem trivia_append (cs : List Char) : (trivia cs).1 ++ (trivia cs).2 = cs := by
  refine (trivia.mutual_induct
    (fun cs => (trivia cs).1 ++ (trivia cs).2 = cs)
    (fun cs => (blockComment cs).1 ++ (blockComment cs).2 = cs)
    (fun cs => (lineComment cs).1 ++ (lineComment cs).2 = cs)
    rfl ?_ ?_ ?_ ?_ rfl ?_ ?_ rfl ?_ ?_).1 cs
  -- blanks and comments
  · intro cs ih
    rw [trivia_lineComment, keep_append, keep_append, ih]
  · intro cs ih
    rw [trivia_blockComment, keep_append, keep_append, ih]
  · intro c cs hline hblock hc ih
    rw [trivia_cons hline hblock, if_pos hc, keep_append, ih]
  · intro c cs hline hblock hc
    rw [trivia_cons hline hblock, if_neg hc, List.nil_append]
  -- comments up to a mark
  · intro cs ih
    rw [blockComment, keep_append, keep_append, ih]
  · intro c cs hend ih
    rw [blockComment, keep_append, ih]
    assumption
  -- comments up to the end of the line
  · intro cs ih
    rw [lineComment, if_pos rfl, keep_append, ih]
  · intro c cs hc ih
    rw [lineComment, if_neg hc, keep_append, ih]

theorem name_append (cs : List Char) : (name cs).1 ++ (name cs).2 = cs := by
  induction cs with
  | nil => rfl
  | cons c cs ih =>
      rw [name]
      split
      · rw [keep_append, ih]
      · rfl

theorem mixinName?_append {cs : List Char} {s : Split} (h : mixinName? cs = some s) :
    s.1 ++ s.2 = cs := by
  cases cs with
  | nil => cases h
  | cons c cs =>
      rw [mixinName?] at h
      split at h
      · simp only at h
        split at h
        · cases h
        · cases h
          exact congrArg (c :: ·) (name_append cs)
      · cases h

theorem guard_append (depth : Nat) (cs : List Char) :
    (guard depth cs).1 ++ (guard depth cs).2 = cs := by
  induction cs generalizing depth with
  | nil => rfl
  | cons c cs ih =>
      rw [guard]
      split
      · rfl
      · split
        · rw [keep_append, ih]
        · split
          · rw [keep_append, ih]
          · rw [keep_append, ih]

namespace Cursor

theorem mantissa_append (cs : List Char) : (mantissa cs).1 ++ (mantissa cs).2 = cs := by
  induction cs with
  | nil => rfl
  | cons c cs ih =>
      rw [mantissa]
      split
      · rw [keep_append, ih]
      · rfl

theorem exponent_append (cs : List Char) : (exponent cs).1 ++ (exponent cs).2 = cs := by
  rw [exponent.eq_def]
  split
  · rename_i e rest
    split
    · split
      · rename_i sign digits
        split
        · exact congrArg (e :: ·) List.takeWhile_append_dropWhile
        · split
          · exact congrArg (e :: sign :: ·) List.takeWhile_append_dropWhile
          · rfl
      · rfl
    · rfl
  · rfl

theorem unit_append (cs : List Char) : (unit cs).1 ++ (unit cs).2 = cs := by
  rw [unit.eq_def]
  split
  · rfl
  · exact List.takeWhile_append_dropWhile

theorem numberText_append (cs : List Char) : (numberText cs).1 ++ (numberText cs).2 = cs := by
  simp only [numberText, List.append_assoc, unit_append, exponent_append, mantissa_append]

theorem stringRest?_append {quote : Char} {cs : List Char} {s : Split}
    (h : stringRest? quote cs = some s) : s.1 ++ s.2 = cs := by
  induction cs using stringRest?.induct quote generalizing s with
  | case1 => cases h
  | case2 c cs ih =>
      rw [stringRest?] at h
      obtain ⟨t, ht, rfl⟩ := Option.map_eq_some_iff.mp h
      rw [keep_append, keep_append, ih ht]
  | case3 cs hne =>
      rw [stringRest?, if_pos rfl] at h
      · cases h
        rfl
      · assumption
  | case4 c cs hescape hc ih =>
      rw [stringRest?, if_neg hc] at h
      · obtain ⟨t, ht, rfl⟩ := Option.map_eq_some_iff.mp h
        rw [keep_append, ih ht]
      · assumption

end Cursor

/-! ## Cursors -/

/-- What the cursor has passed and what is left make up the text, and its
    position is the one behind what it has passed. -/
def Cursor.On (source : List Char) (c : Cursor) : Prop :=
  ∃ passed, source = passed ++ c.rest ∧ c.position = Position.start.after passed

variable {source : List Char} {c : Cursor}

namespace Cursor.On

theorem ofText (source : List Char) : (Cursor.ofText source).On source :=
  ⟨[], rfl, rfl⟩

theorem isIn (h : c.On source) : c.position.IsIn source := by
  obtain ⟨passed, hsource, hposition⟩ := h
  rw [hposition]
  exact Position.isIn_after ⟨c.rest, hsource.symm⟩

/-- A cursor that moves behind the part of a split stays on its text. -/
theorem move (h : c.On source) {s : Split} (hs : s.1 ++ s.2 = c.rest) : (c.move s).On source := by
  obtain ⟨passed, hsource, hposition⟩ := h
  refine ⟨passed ++ s.1, ?_, ?_⟩
  · rw [hsource, ← hs, List.append_assoc]
    rfl
  · rw [Position.after_append, ← hposition]
    rfl

theorem advance (h : c.On source) : c.advance.On source := by
  obtain ⟨rest, p⟩ := c
  cases rest with
  | nil => exact h
  | cons ch cs => exact h.move (s := ([ch], cs)) rfl

theorem drop (h : c.On source) (n : Nat) : (c.drop n).On source :=
  h.move (List.take_append_drop n c.rest)

theorem accept? (h : c.On source) {ch : Char} {after : Cursor} (ha : c.accept? ch = some after) :
    after.On source := by
  rw [Cursor.accept?] at ha
  split at ha
  · cases ha
    exact h.advance
  · cases ha

theorem skip (h : c.On source) (ch : Char) : (c.skip ch).On source := by
  rw [Cursor.skip]
  cases ha : c.accept? ch with
  | none => exact h
  | some after => exact h.accept? ha

theorem takeWhile (h : c.On source) (p : Char → Bool) : (c.takeWhile p).2.On source :=
  h.move List.takeWhile_append_dropWhile

theorem skipBlanks (h : c.On source) : c.skipBlanks.On source :=
  h.takeWhile isBlank

theorem skipTrivia (h : c.On source) : c.skipTrivia.On source :=
  h.move (trivia_append c.rest)

theorem name (h : c.On source) : c.name.2.On source :=
  h.move (name_append c.rest)

theorem atKeyword (h : c.On source) : c.atKeyword.2.On source :=
  (h.skip '@').name

end Cursor.On

/-! ## Sound readers -/

variable {α β : Type}

/-- A fault is in the text, and a result satisfies `P`. -/
inductive Sound (source : List Char) (P : α → Prop) : Except Fault α → Prop where
  | fault {f : Fault} (h : f.position.IsIn source) : Sound source P (.error f)
  | result {a : α} (h : P a) : Sound source P (.ok a)

/-- A fault is in the text, a result satisfies `P`, and the cursor behind it is
    on the text. -/
abbrev Reads (source : List Char) (P : α → Prop) (x : Except Fault (Parsed α)) : Prop :=
  Sound source (fun r => P r.1 ∧ r.2.On source) x

theorem Sound.bind {P : α → Prop} {Q : β → Prop} {x : Except Fault α} {f : α → Except Fault β}
    (hx : Sound source P x) (hf : ∀ a, P a → Sound source Q (f a)) : Sound source Q (x >>= f) := by
  cases hx with
  | fault h => exact .fault h
  | result h => exact hf _ h

theorem Sound.imp {P Q : α → Prop} {x : Except Fault α} (hx : Sound source P x)
    (h : ∀ a, P a → Q a) : Sound source Q x := by
  cases hx with
  | fault hf => exact .fault hf
  | result ha => exact .result (h _ ha)

theorem Sound.ite {P : α → Prop} {p : Prop} [Decidable p] {x y : Except Fault α}
    (hx : Sound source P x) (hy : Sound source P y) : Sound source P (if p then x else y) := by
  split
  · exact hx
  · exact hy

theorem sound_fail {P : α → Prop} (h : c.On source) (cause : Cause) :
    Sound source P (c.fail cause) :=
  .fault h.isIn

namespace Cursor

theorem sound_expect (h : c.On source) (ch : Char) :
    Sound source (fun c => c.On source) (c.expect ch) := by
  rw [expect]
  split
  · exact sound_fail h _
  · split
    · exact .result h.advance
    · exact sound_fail h _

/-- What is read does not matter. -/
abbrev Any : α → Prop := fun _ => True

theorem reads_mixinName (h : c.On source) : Reads source Any c.mixinName := by
  rw [mixinName]
  split
  · rename_i s hs
    exact .result ⟨trivial, h.move (mixinName?_append hs)⟩
  · split
    · exact sound_fail h _
    · exact sound_fail h _

theorem reads_quoted (h : c.On source) : Reads source Any c.quoted := by
  rw [quoted]
  split
  · exact sound_fail h _
  · rename_i quote cs hrest
    split
    · rename_i s hs
      refine .result ⟨trivial, h.move ?_⟩
      rw [keep_append, stringRest?_append hs, hrest]
    · exact sound_fail h _

theorem reads_quotedContent (h : c.On source) : Reads source Any c.quotedContent :=
  (reads_quoted h).bind fun _ hr => .result ⟨trivial, hr.2⟩

theorem reads_upTo (h : c.On source) (stop : Char) : Reads source Any (c.upTo stop) := by
  rw [upTo]
  simp only
  split
  · exact sound_fail (h.takeWhile _) _
  · exact .result ⟨trivial, h.takeWhile _⟩

/-! ## Long parts

    These readers carry a bare position with the rest, and the position of an
    open quote. -/

/-- A place as a bare position with the rest. -/
theorem On.step {ch : Char} {cs : List Char} {p : Position} (h : On source ⟨ch :: cs, p⟩) :
    On source ⟨cs, p.advance ch⟩ :=
  h.advance

/-- The position of a quote that is open is in the text. -/
def QuoteIn (source : List Char) (quote : Option (Char × Position)) : Prop :=
  ∀ q, quote = some q → q.2.IsIn source

theorem quoteIn_none : QuoteIn source none := by
  rintro q ⟨⟩

theorem quoteIn_of_isQuote {ch : Char} {cs : List Char} {p : Position}
    (h : On source ⟨ch :: cs, p⟩) :
    QuoteIn source (if isQuote ch = true then some (ch, p) else none) := by
  intro q hq
  split at hq
  · cases hq
    exact h.isIn
  · cases hq

theorem quoteIn_of_open {ch quote : Char} {start : Position}
    (h : QuoteIn source (some (quote, start))) :
    QuoteIn source (if ch = quote then none else some (quote, start)) := by
  split
  · exact quoteIn_none
  · exact h

theorem reads_headFrom {depth : Nat} {quote : Option (Char × Position)} {p : Position}
    {cs : List Char} (h : On source ⟨cs, p⟩) (hquote : QuoteIn source quote) :
    Reads source Any (headFrom depth quote p cs) := by
  induction depth, quote, p, cs using headFrom.induct with
  | case1 depth quote start p => exact .fault (hquote _ rfl)
  | case2 depth p => exact .fault h.isIn
  | case3 depth quote start p ch cs ih =>
      rw [headFrom]
      exact (ih h.step.step hquote).bind fun _ hr => .result ⟨trivial, hr.2⟩
  | case4 depth quote start p ch cs hescape ih =>
      rw [headFrom]
      · exact (ih h.step (quoteIn_of_open hquote)).bind fun _ hr => .result ⟨trivial, hr.2⟩
      · assumption
  | case5 depth p ch cs hbrace =>
      rw [headFrom, if_pos hbrace]
      exact .result ⟨trivial, h⟩
  | case6 depth p ch cs hbrace hend =>
      rw [headFrom, if_neg hbrace, if_pos hend]
      exact .fault h.isIn
  | case7 depth p ch cs hbrace hend depth' quote ih =>
      rw [headFrom, if_neg hbrace, if_neg hend]
      exact (ih h.step (quoteIn_of_isQuote h)).bind fun _ hr => .result ⟨trivial, hr.2⟩

theorem reads_head (h : c.On source) : Reads source Any c.head :=
  (reads_headFrom h quoteIn_none).bind fun _ hr => .result ⟨trivial, hr.2⟩

theorem reads_rawArguments {start : Position} (hstart : start.IsIn source) {depth : Nat}
    {quote : Option (Char × Position)} {p : Position} {cs : List Char}
    (h : On source ⟨cs, p⟩) (hquote : QuoteIn source quote) :
    Reads source Any (rawArguments start depth quote p cs) := by
  induction depth, quote, p, cs using rawArguments.induct with
  | case1 depth quote opened p => exact .fault (hquote _ rfl)
  | case2 depth p => exact .fault hstart
  | case3 depth quote opened p ch cs ih =>
      rw [rawArguments]
      exact (ih h.step.step hquote).bind fun _ hr => .result ⟨trivial, hr.2⟩
  | case4 depth quote opened p ch cs hescape ih =>
      rw [rawArguments]
      · exact (ih h.step (quoteIn_of_open hquote)).bind fun _ hr => .result ⟨trivial, hr.2⟩
      · assumption
  | case5 depth p ch cs hclose =>
      rw [rawArguments, if_pos hclose]
      exact .result ⟨trivial, h.step⟩
  | case6 depth p ch cs hclose depth' quote ih =>
      rw [rawArguments, if_neg hclose]
      exact (ih h.step (quoteIn_of_isQuote h)).bind fun _ hr => .result ⟨trivial, hr.2⟩

/-! ## Tokens -/

theorem reads_word (h : c.On source) : Reads source Any c.word := by
  rw [word]
  simp only
  split
  · exact .result ⟨trivial, h.name⟩
  · split
    · exact (reads_rawArguments h.isIn h.name quoteIn_none).bind fun _ hr => .result ⟨trivial, hr.2⟩
    · exact .result ⟨trivial, h.name.advance⟩

theorem reads_member (h : c.On source) : Reads source Any c.member := by
  rw [member.eq_def]
  split
  · exact .result ⟨trivial, h.advance.name⟩
  · exact (reads_quotedContent h).bind fun _ hr => .result ⟨trivial, hr.2⟩
  · exact (reads_quotedContent h).bind fun _ hr => .result ⟨trivial, hr.2⟩
  · exact .result ⟨trivial, h.name⟩

theorem reads_accessor (h : c.On source) (target : String) :
    Reads source Any (c.accessor target) := by
  rw [accessor]
  refine (sound_expect h '[').bind fun inside hinside => ?_
  refine (reads_member hinside.skipBlanks).bind fun r hr => ?_
  refine (sound_expect hr.2.skipBlanks ']').bind fun after hafter => ?_
  split
  · exact sound_fail h _
  · exact .result ⟨trivial, hafter⟩

theorem reads_accessorOr (h : c.On source) (target : String) (kind : TokenKind) :
    Reads source Any (c.accessorOr target kind) := by
  rw [accessorOr]
  split
  · exact reads_accessor h target
  · exact .result ⟨trivial, h⟩

theorem reads_tokenAt (h : c.On source) (ch : Char) (next : List Char) :
    Reads source Any (c.tokenAt ch next) := by
  have hsingle : ∀ kind : TokenKind,
      Reads source Any (.ok (kind, c.advance) : Except Fault (Parsed TokenKind)) :=
    fun _ => .result ⟨trivial, h.advance⟩
  rw [tokenAt]
  refine .ite (.result ⟨trivial, h.move (numberText_append c.rest)⟩) ?_
  refine .ite (reads_accessorOr h.advance.name _ _) ?_
  refine .ite (reads_accessorOr (h.advance.takeWhile _) _ _) ?_
  refine .ite (.ite (sound_fail h _) (.result ⟨trivial, h.advance.name⟩)) ?_
  refine .ite ((reads_quoted h).bind fun _ hr => .result ⟨trivial, hr.2⟩) ?_
  refine .ite ((reads_quotedContent h.advance).bind fun _ hr => .result ⟨trivial, hr.2⟩) ?_
  refine .ite (.result ⟨trivial, h.advance.advance⟩) ?_
  refine .ite (hsingle _) (.ite (hsingle _) (.ite (hsingle _) (.ite (hsingle _) ?_)))
  refine .ite (hsingle _) (.ite (hsingle _) (.ite (reads_word h) (.ite (hsingle _) ?_)))
  exact .ite (reads_word h) (hsingle _)

/-- The positions of tokens are in the text. -/
def TokensIn (source : List Char) (ts : List Token) : Prop :=
  ∀ t ∈ ts, t.position.IsIn source

theorem reads_tokensFrom (stops : List Char) : ∀ {n depth : Nat} {c : Cursor}, c.On source →
    Reads source (fun ts => TokensIn source ts.list) (tokensFrom stops n depth c) := by
  intro n
  induction n with
  | zero => intro depth c h; exact sound_fail h _
  | succ n ih =>
      intro depth before hbefore
      have hc : (before.move (trivia before.rest)).On source := hbefore.skipTrivia
      rw [tokensFrom]
      simp only
      split
      · split
        · exact sound_fail hc _
        · exact .result ⟨nofun, hc⟩
      · rename_i ch next hrest
        split
        · exact .result ⟨nofun, hc⟩
        · split
          · exact sound_fail hc _
          · split
            · have hafter := hc.advance.skipBlanks
              split
              · exact (ih (hafter.drop _)).bind fun _ hr => .result hr
              · exact (ih hafter).bind fun _ hr =>
                  .result ⟨List.forall_mem_cons.mpr ⟨hc.isIn, hr.1⟩, hr.2⟩
            · refine (reads_tokenAt hc ch next).bind fun r hr => ?_
              split
              · exact sound_fail hc _
              · exact (ih hr.2).bind fun _ hr =>
                  .result ⟨List.forall_mem_cons.mpr ⟨hc.isIn, hr.1⟩, hr.2⟩

end Cursor

end Parse

end Less
