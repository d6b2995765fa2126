import Less.Proofs.Levels
import Less.Proofs.ReadWords

/-! # Formulas

    A **formula** is a tree of variables, calls and operations.  It is written with a
    space on both sides of each operator, and with parentheses where the precedence
    of the operators would group it in another way: around a left operand of lower
    precedence, and around a right operand of lower or equal precedence.

    What is written is read as the tree that was written, up to positions.  The text
    is cut into stretches, each of which is read as some tokens whatever is read
    behind it (`ReadsAs`), and stretches are put together one behind the other.  The
    tokens of a formula spell it at the level of its precedence (`Spells`), by
    induction on the tree. -/

namespace Less

open Text

/-! ## Formulas and how they are written -/

/-- Letters and digits of ASCII, the first of them a letter. -/
def IsVariableName (name : String) : Prop :=
  ∃ c cs, name.toList = c :: cs ∧ c.isAlpha = true ∧ ∀ d ∈ cs, d.isAlphanum = true

/-- Letters of ASCII that do not name one of the functions whose arguments are not
    looked at. -/
structure IsFunctionName (name : String) : Prop where
  ne_nil : name.toList ≠ []
  letters : ∀ c ∈ name.toList, c.isAlpha = true
  not_raw : lowerAscii name ∉ ["url", "var", "expression"]
  not_calc : ¬ "calc".toList <:+ (lowerAscii name).toList

/-- **A tree of variables, calls and operations.** -/
inductive Expr.IsFormula : Expr → Prop where
  | var {name : String} {p : Option Position} (hname : IsVariableName name) :
      IsFormula (.var name p)
  | call {f : String} {arguments : List Expr} {p : Option Position} (hf : IsFunctionName f)
      (harguments : ∀ a ∈ arguments, IsFormula a) : IsFormula (.call f arguments p)
  | binary {op : Operator} {left right : Expr} {p : Option Position} (hleft : IsFormula left)
      (hright : IsFormula right) : IsFormula (.binary op left right p)

/-- A text in parentheses, if it needs them. -/
def wrapped (needed : Bool) (cs : List Char) : List Char :=
  if needed then '(' :: (cs ++ [')']) else cs

mutual

/-- **A formula as it is written.** -/
def Expr.formula : Expr → List Char
  | .var name _ => '@' :: name.toList
  | .call f arguments _ =>
      f.toList ++ '(' :: (Parse.joined [' '] (formulas arguments) ++ [')'])
  | .binary op left right _ =>
      wrapped (left.precedence < op.precedence) left.formula ++ ' ' :: op.symbol :: ' ' ::
        wrapped (right.precedence ≤ op.precedence) right.formula
  | e => e.text.toList

/-- The formulas of the arguments of a call. -/
def formulas : List Expr → List (List Char)
  | [] => []
  | e :: es => e.formula :: formulas es

end

theorem formulas_eq_map (es : List Expr) : formulas es = es.map Expr.formula := by
  induction es with
  | nil => rfl
  | cons e es ih => rw [formulas, ih, List.map_cons]

theorem precedence_bounds (e : Expr) : 1 ≤ e.precedence ∧ e.precedence ≤ 3 := by
  cases e with
  | binary op l r p => cases op <;> simp [Expr.precedence, Operator.precedence]
  | constant | literal | var | list | call | access => simp [Expr.precedence]

namespace Parse

open Cursor

/-! ## Names -/

theorem isWordChar_of_isAlphanum {c : Char} (h : c.isAlphanum = true) : isWordChar c = true := by
  rcases Bool.or_eq_true_iff.mp h with halpha | hdigit
  · exact isWordChar_of_isAlpha halpha
  · have hrange := toNat_of_isDigit hdigit
    rw [isWordChar, isNumeral, if_pos (by omega), hdigit, Bool.or_true]

theorem isIdentifierTail_of_isAlphanum {cs : List Char}
    (h : ∀ c ∈ cs, c.isAlphanum = true) : isIdentifierTail cs = true := by
  induction cs with
  | nil => rfl
  | cons c cs ih =>
      obtain ⟨hc, hcs⟩ := List.forall_mem_cons.mp h
      have hhyphen : c ≠ '-' := ne_of_test (p := Char.isAlphanum) hc rfl
      rw [isIdentifierTail, if_neg hhyphen, isWordChar_of_isAlphanum hc, ih hcs]
      rfl

theorem isIdentifier_of_isVariableName {name : String} (h : IsVariableName name) :
    isIdentifier name.toList = true := by
  obtain ⟨c, cs, heq, hc, hcs⟩ := h
  rw [heq, isIdentifier, hc, isIdentifierTail_of_isAlphanum hcs]
  rfl

theorem isIdentifier_of_isFunctionName {f : String} (h : IsFunctionName f) :
    isIdentifier f.toList = true := by
  obtain ⟨c, cs, heq⟩ := List.exists_cons_of_ne_nil h.ne_nil
  have hletters := h.letters
  rw [heq, List.forall_mem_cons] at hletters
  refine isIdentifier_of_isVariableName ⟨c, cs, heq, hletters.1, fun d hd => ?_⟩
  exact Bool.or_eq_true_iff.mpr (Or.inl (hletters.2 d hd))

theorem isRawCall_of_isFunctionName {f : String} (h : IsFunctionName f) : isRawCall f = false := by
  have hraw := h.not_raw
  have hcalc := h.not_calc
  simp only [List.mem_cons, List.not_mem_nil, or_false, not_or] at hraw
  rw [← List.isSuffixOf_iff_suffix] at hcalc
  rw [isRawCall]
  simp only [hraw.1, hraw.2.1, hraw.2.2, Bool.not_eq_true _ ▸ hcalc, decide_false, Bool.or_self]

/-! ## Stretches of text -/

/-- The text is read as tokens with `S`, whatever is read behind it; the nesting goes
    from `depth` to `inner`. -/
def ReadsAs (stops : List Char) (depth inner : Nat) (text rest : List Char)
    (S : List Token → Prop) : Prop :=
  ∀ (m : Nat) (last : List Char) (P : Tokens → Prop),
    (∀ n, m ≤ n → ∀ p, Gives (tokensFrom stops n inner ⟨rest, p⟩) last P) →
    ∀ n, m + text.length ≤ n → ∀ p,
      Gives (tokensFrom stops n depth ⟨text ++ rest, p⟩) last
        fun ts => ∃ front more, S front ∧ P more ∧ ts = { more with list := front ++ more.list }

/-- A space, if there is one. -/
def gapText (gap : Bool) : List Char :=
  if gap then [' '] else []

theorem gap_gapText (gap : Bool) : Gap (gapText gap) := by
  cases gap with
  | true => exact gap_space
  | false => exact gap_nil

variable {stops rest : List Char} {depth inner : Nat} {gap : Bool} {S T : List Token → Prop}

theorem ReadsAs.imp {text : List Char} (h : ReadsAs stops depth inner text rest S)
    (hST : ∀ ts, S ts → T ts) : ReadsAs stops depth inner text rest T := by
  intro m last P hlater n hn p
  obtain ⟨ts, q, hts, front, more, hfront, hmore, heq⟩ := h m last P hlater n hn p
  exact ⟨ts, q, hts, front, more, hST front hfront, hmore, heq⟩

theorem readsAs_nil : ReadsAs stops depth depth [] rest (· = []) := by
  intro m last P hlater n hn p
  obtain ⟨ts, q, hts, hP⟩ := hlater n hn p
  exact ⟨ts, q, hts, [], ts, rfl, hP, rfl⟩

/-- **Two stretches, one behind the other.** -/
theorem ReadsAs.append {middle : Nat} {text more : List Char}
    (h : ReadsAs stops depth middle text (more ++ rest) S)
    (hmore : ReadsAs stops middle inner more rest T) :
    ReadsAs stops depth inner (text ++ more) rest fun ts => ∃ a b, S a ∧ T b ∧ ts = a ++ b := by
  intro m last P hlater n hn p
  rw [List.length_append] at hn
  rw [List.append_assoc]
  obtain ⟨ts, q, hts, front, found, hfront, ⟨back, others, hback, hothers, rfl⟩, rfl⟩ :=
    h _ last _ (hmore m last P hlater) n (by omega) p
  refine ⟨_, q, hts, front ++ back, others, ⟨front, back, hfront, hback, rfl⟩, hothers, ?_⟩
  rw [List.append_assoc]

/-- A token behind a gap is a stretch. -/
theorem readsAs_token (gap : Bool) (ch : Char) (cs : List Char) {kind : TokenKind}
    (htrivia : trivia (gapText gap ++ ch :: (cs ++ rest)) = (gapText gap, ch :: (cs ++ rest)))
    (hstop : depth = 0 → ch ∉ stops) (hmark : ch ∉ ['{', '}', '!'])
    (htoken : ∀ p, ∃ q, tokenAt ⟨ch :: (cs ++ rest), p⟩ ch (cs ++ rest) = .ok (kind, ⟨rest, q⟩))
    (hnesting : nesting? depth kind = some inner) :
    ReadsAs stops depth inner (gapText gap ++ ch :: cs) rest
      fun ts => ∃ q, ts = [⟨kind, q, gap⟩] := by
  intro m last P hlater n hn p
  rw [List.length_append, List.length_cons] at hn
  obtain ⟨n, rfl⟩ : ∃ k, n = k + 1 := ⟨n - 1, by omega⟩
  have hgives := gives_tokensFrom_token htrivia hstop hmark htoken hnesting
    (hlater n (by omega)) p
  obtain ⟨ts, q, hts, place, more, hmore, rfl⟩ := hgives
  rw [List.append_assoc, List.cons_append]
  refine ⟨_, q, hts, [⟨kind, place, gap⟩], more, ⟨place, rfl⟩, hmore, ?_⟩
  cases gap with
  | true => rfl
  | false => rfl

/-! ## The tokens of formulas -/

/-- The stops of the statements and of the arguments of mixins. -/
def IsStops (stops : List Char) : Prop :=
  ∀ c ∈ stops, c ∈ statementStops ++ argumentStops

theorem IsStops.not_mem (hstops : IsStops stops) {ch : Char}
    (h : ch ∉ statementStops ++ argumentStops) : ch ∉ stops :=
  fun hmem => h (hstops ch hmem)

theorem readsAs_lparen (hstops : IsStops stops) (gap : Bool) (depth : Nat) (rest : List Char) :
    ReadsAs stops depth (depth + 1) (gapText gap ++ ['(']) rest
      fun ts => ∃ q, ts = [⟨.lparen, q, gap⟩] :=
  readsAs_token gap '(' [] (trivia_gap (gap_gapText gap) (solid_cons rfl (by decide) rest))
    (fun _ => hstops.not_mem (by decide)) (by decide) (fun _ => ⟨_, rfl⟩) rfl

theorem readsAs_rparen (stops : List Char) (depth : Nat) (rest : List Char) :
    ReadsAs stops (depth + 1) depth [')'] rest fun ts => ∃ q, ts = [⟨.rparen, q, false⟩] :=
  readsAs_token false ')' [] (trivia_gap gap_nil (solid_cons rfl (by decide) rest)) nofun
    (by decide) (fun _ => ⟨_, rfl⟩) rfl

theorem readsAs_comma (stops : List Char) (depth : Nat) (rest : List Char) :
    ReadsAs stops (depth + 1) (depth + 1) [','] rest fun ts => ∃ q, ts = [⟨.comma, q, false⟩] :=
  readsAs_token false ',' [] (trivia_gap gap_nil (solid_cons rfl (by decide) rest)) nofun
    (by decide) (fun _ => ⟨_, rfl⟩) rfl

/-- An operator between spaces; the space behind a slash keeps it from starting a
    comment, and the one behind a minus from starting a name. -/
theorem readsAs_operator (hstops : IsStops stops) (op : Operator) (depth : Nat)
    (rest : List Char) :
    ReadsAs stops depth depth [' ', op.symbol] (' ' :: rest)
      fun ts => ∃ q, ts = [⟨operatorToken op, q, true⟩] := by
  refine readsAs_token true op.symbol [] ?_ (fun _ => hstops.not_mem ?_) ?_ (fun p => ?_) ?_
  · cases op <;> rfl
  · cases op <;> decide
  · cases op <;> decide
  · cases op <;> exact ⟨_, rfl⟩
  · cases op <;> rfl

/-- **An operation** is read with its operands at the two sides of its operator, the
    right one a level higher. -/
theorem readsAs_operation (hstops : IsStops stops) {op : Operator} {left right : Expr}
    {ltext rtext : List Char}
    (hleft : ReadsAs stops depth depth ltext (' ' :: op.symbol :: ' ' :: (rtext ++ rest))
      (Spells op.precedence gap left))
    (hright : ReadsAs stops depth depth (' ' :: rtext) rest
      (Spells (op.precedence + 1) true right)) (p : Option Position) :
    ReadsAs stops depth depth (ltext ++ ' ' :: op.symbol :: ' ' :: rtext) rest
      (Spells op.precedence gap (.binary op left right p)) := by
  have hoperator := readsAs_operator hstops op depth (rtext ++ rest)
  refine (hleft.append (hoperator.append hright)).imp ?_
  rintro ts ⟨lts, _, hlts, ⟨_, rts, ⟨q, rfl⟩, hrts, rfl⟩, rfl⟩
  exact hlts.operation hrts rfl rfl p

theorem tokenAt_variable (c : Cursor) (next : List Char) :
    tokenAt c '@' next = if c.advance.name.1 = "" then c.fail .expectedVariableName
      else .ok (.var c.advance.name.1, c.advance.name.2) :=
  rfl

theorem readsAs_var (hstops : IsStops stops) {name : String} (hname : IsVariableName name)
    (hrest : nextIs isNameChar rest = false) (gap : Bool) (depth : Nat) :
    ReadsAs stops depth depth (gapText gap ++ '@' :: name.toList) rest
      fun ts => ∃ q, ts = [⟨.var name, q, gap⟩] := by
  have hw := isIdentifier_of_isVariableName hname
  refine readsAs_token gap '@' name.toList
    (trivia_gap (gap_gapText gap) (solid_cons rfl (by decide) _))
    (fun _ => hstops.not_mem (by decide)) (by decide) (fun p => ?_) rfl
  have hne : name ≠ "" := by
    rintro rfl
    cases hw
  refine ⟨(p.advance '@').after name.toList, ?_⟩
  have hread : (advance ⟨'@' :: (name.toList ++ rest), p⟩).name =
      (name, ⟨rest, (p.advance '@').after name.toList⟩) := by
    show Cursor.name ⟨name.toList ++ rest, p.advance '@'⟩ = _
    rw [name_eq hw hrest, String.ofList_toList]
  rw [tokenAt_variable, hread]
  exact if_neg hne

theorem readsAs_call (hstops : IsStops stops) {f : String} (hf : IsFunctionName f) (gap : Bool)
    (depth : Nat) (rest : List Char) :
    ReadsAs stops depth (depth + 1) (gapText gap ++ (f.toList ++ ['('])) rest
      fun ts => ∃ q, ts = [⟨.call f, q, gap⟩] := by
  have hw := isIdentifier_of_isFunctionName hf
  obtain ⟨ch, cs, heq, hch⟩ := exists_cons_of_isIdentifier hw
  rw [heq, List.cons_append]
  refine readsAs_token gap ch (cs ++ ['('])
    (trivia_gap (gap_gapText gap) (solid_of_isAlpha hch _))
    (fun _ => hstops.not_mem (not_mem_of_isAlpha hch rfl)) (not_mem_of_isAlpha hch rfl)
    (fun p => ?_) rfl
  rw [tokenAt_of_isAlpha hch]
  have hread : Cursor.name ⟨ch :: (cs ++ ['('] ++ rest), p⟩ =
      (f, ⟨'(' :: rest, p.after f.toList⟩) := by
    have hname : Cursor.name ⟨f.toList ++ '(' :: rest, p⟩ =
        (f, ⟨'(' :: rest, p.after f.toList⟩) := by
      rw [name_eq hw rfl, String.ofList_toList]
    rw [heq] at hname ⊢
    rw [List.append_assoc]
    exact hname
  refine ⟨(p.after f.toList).advance '(', ?_⟩
  rw [word, hread]
  show (if _ then _ else if isRawCall f = true then _ else _) = _
  rw [if_neg (by simp [peek?]), isRawCall_of_isFunctionName hf]
  rfl

/-! ## Formulas are read as they are written -/

/-- The formula of an expression is read as tokens that spell it. -/
def Readable (stops : List Char) (e : Expr) : Prop :=
  ∀ (gap : Bool) (depth : Nat) (rest : List Char), nextIs isNameChar rest = false →
    ReadsAs stops depth depth (gapText gap ++ e.formula) rest (Spells e.precedence gap e)

/-- An operand is read at a level, in parentheses if its own level is lower. -/
theorem Readable.operand (hstops : IsStops stops) {e : Expr} (he : Readable stops e) {level : Nat}
    (hlevel : level ≤ 3) {needed : Bool} (hneeded : needed = false → level ≤ e.precedence)
    (gap : Bool) (depth : Nat) (hrest : nextIs isNameChar rest = false) :
    ReadsAs stops depth depth (gapText gap ++ wrapped needed e.formula) rest
      (Spells level gap e) := by
  cases needed with
  | false => exact (he gap depth rest hrest).imp fun ts hts => hts.of_le (hneeded rfl)
  | true =>
      have hinside : ReadsAs stops (depth + 1) (depth + 1) e.formula (')' :: rest)
          (Spells e.precedence false e) := he false (depth + 1) (')' :: rest) rfl
      have hall := ((readsAs_lparen hstops gap depth _).append hinside).append
        (readsAs_rparen stops depth rest)
      rw [List.append_assoc, List.append_assoc] at hall
      refine hall.imp ?_
      rintro ts ⟨_, _, ⟨_, inside, ⟨q, rfl⟩, hspells, rfl⟩, ⟨q', rfl⟩, rfl⟩
      have hlow : Spells 1 false e inside := hspells.of_le (precedence_bounds e).1
      have hwhole : Spells 3 gap e (⟨.lparen, q, gap⟩ :: (inside ++ [⟨.rparen, q', false⟩])) :=
        hlow.parenthesized rfl rfl rfl
      exact hwhole.of_le hlevel

/-- Arguments behind the first one, each with a comma before it. -/
def laterArguments (es : List Expr) : List Char :=
  (es.map Expr.formula).flatMap fun text => ',' :: ([' '] ++ text)

/-- No name goes on behind an argument. -/
theorem nextIs_laterArguments (es : List Expr) (rest : List Char) :
    nextIs isNameChar (laterArguments es ++ ')' :: rest) = false := by
  cases es with
  | nil => rfl
  | cons e es => rfl

theorem readsAs_laterArguments {es : List Expr} (hes : ∀ e ∈ es, Readable stops e) (depth : Nat)
    (rest : List Char) :
    ReadsAs stops (depth + 1) (depth + 1) (laterArguments es) (')' :: rest)
      fun ts => SpellsArguments es ts ∧ ∀ t later, ts = t :: later → t.kind = .comma := by
  induction es with
  | nil =>
      refine readsAs_nil.imp ?_
      rintro ts rfl
      exact ⟨spellsArguments_nil, nofun⟩
  | cons e es ih =>
      obtain ⟨he, hes⟩ := List.forall_mem_cons.mp hes
      have hfirst := he true (depth + 1) _ (nextIs_laterArguments es rest)
      refine (((readsAs_comma stops depth _).append hfirst).append (ih hes)).imp ?_
      rintro ts ⟨_, later, ⟨_, first, ⟨q, rfl⟩, hfirst, rfl⟩, ⟨hlater, hcomma⟩, rfl⟩
      refine ⟨?_, by rintro t later ⟨⟩; rfl⟩
      exact ((hfirst.of_le (precedence_bounds e).1).argument hlater hcomma).comma rfl

theorem readsAs_arguments {es : List Expr} (hes : ∀ e ∈ es, Readable stops e) (depth : Nat)
    (rest : List Char) :
    ReadsAs stops (depth + 1) (depth + 1) (joined [' '] (es.map Expr.formula)) (')' :: rest)
      (SpellsArguments es) := by
  cases es with
  | nil =>
      refine readsAs_nil.imp ?_
      rintro ts rfl
      exact spellsArguments_nil
  | cons e es =>
      obtain ⟨he, hes⟩ := List.forall_mem_cons.mp hes
      have hfirst : ReadsAs stops (depth + 1) (depth + 1) e.formula _ (Spells _ false e) :=
        he false (depth + 1) _ (nextIs_laterArguments es rest)
      refine (hfirst.append (readsAs_laterArguments hes depth rest)).imp ?_
      rintro ts ⟨first, later, hfirst, ⟨hlater, hcomma⟩, rfl⟩
      exact (hfirst.of_le (precedence_bounds e).1).argument hlater hcomma

/-- **The tokens of a formula spell it**, by induction on the tree. -/
theorem readable_of_isFormula (hstops : IsStops stops) {e : Expr} (he : e.IsFormula) :
    Readable stops e := by
  induction he with
  | @var name p hname =>
      intro gap depth rest hrest
      rw [Expr.formula]
      refine (readsAs_var hstops hname hrest gap depth).imp ?_
      rintro ts ⟨q, rfl⟩
      exact spells_var name p q
  | @call f arguments p hf _ ih =>
      intro gap depth rest hrest
      rw [Expr.formula, formulas_eq_map]
      have hall := ((readsAs_call hstops hf gap depth _).append
        (readsAs_arguments ih depth rest)).append (readsAs_rparen stops depth rest)
      simp only [List.append_assoc, List.singleton_append] at hall
      refine hall.imp ?_
      rintro ts ⟨_, _, ⟨_, inside, ⟨q, rfl⟩, hinside, rfl⟩, ⟨q', rfl⟩, rfl⟩
      exact hinside.call f p q rfl
  | @binary op left right p _ _ ihleft ihright =>
      intro gap depth rest hrest
      rw [Expr.formula, ← List.append_assoc]
      have hlevel : op.precedence + 1 ≤ 3 := by cases op <;> decide
      have hl : ReadsAs stops depth depth
          (gapText gap ++ wrapped (left.precedence < op.precedence) left.formula)
          (' ' :: op.symbol :: ' ' ::
            (wrapped (right.precedence ≤ op.precedence) right.formula ++ rest))
          (Spells op.precedence gap left) :=
        ihleft.operand hstops (Nat.le_of_succ_le hlevel)
          (fun h => Nat.not_lt.mp (of_decide_eq_false h)) gap depth rfl
      have hr : ReadsAs stops depth depth
          (gapText true ++ wrapped (right.precedence ≤ op.precedence) right.formula) rest
          (Spells (op.precedence + 1) true right) :=
        ihright.operand hstops hlevel (fun h => Nat.not_le.mp (of_decide_eq_false h)) true depth
          hrest
      exact readsAs_operation hstops hl hr p

/-- The text holds no more tokens. -/
def EndsValue (stops tail last : List Char) : Prop :=
  ∀ n, 0 < n → ∀ p, Gives (tokensFrom stops n 0 ⟨tail, p⟩) last
    fun ts => ts.list = [] ∧ ts.important = false

theorem endsValue_semicolon (hend : ';' ∈ stops) (rest : List Char) :
    EndsValue stops (';' :: rest) (';' :: rest) := by
  intro n hn p
  obtain ⟨n, rfl⟩ := Nat.exists_eq_succ_of_ne_zero (Nat.ne_zero_of_lt hn)
  exact gives_tokensFrom_stop (Or.inl rfl) hend rest n p

/-- **What spells an expression up to the end of a value is read as one item.** -/
theorem value_of_readsAs {e : Expr} {text tail last : List Char}
    (h : ReadsAs stops 0 0 text tail (Spells 1 gap e)) (hend : EndsValue stops tail last)
    (p : Position) :
    Gives (Cursor.value ⟨text ++ tail, p⟩ stops) last
      fun value => value.important = false
        ∧ ∃ item : Expr, value.items = [item] ∧ item.withoutPositions = e.withoutPositions := by
  have hlength : 1 + text.length ≤ (text ++ tail).length + 1 := by
    rw [List.length_append]
    omega
  refine (h 1 last _ hend _ hlength p).bind fun ts q hts => ?_
  obtain ⟨front, more, hspells, ⟨hnil, himportant⟩, rfl⟩ := hts
  have hlist : front ++ more.list = front := by rw [hnil, List.append_nil]
  have hsum : IsSum q (2 * front.length + 1) 0 front e := hspells.reads q _ 0 (by omega)
  have hstops : ∀ kind ∈ ([] : List TokenKind), IsCloser kind := nofun
  have hrest : ∀ t later, ([] : List Token) = t :: later → t.kind ∈ ([] : List TokenKind) := nofun
  obtain ⟨item, hitem, hread⟩ := items_of_isSum hspells.opens hsum hstops hrest
  rw [List.append_nil] at hread
  show Gives (items q (2 * ((front ++ more.list).length + 1)) 0 [] true (front ++ more.list) >>= _)
    _ _
  rw [hlist, Nat.mul_add, Nat.mul_one, hread]
  exact gives_ok ⟨himportant, item, rfl, hitem⟩

/-- **A FORMULA IS READ AS IT IS WRITTEN.**  Up to a semicolon it is one item, which
    is the tree that was written up to positions, and the semicolon is left. -/
theorem value_of_formula (hstops : IsStops stops) (hend : ';' ∈ stops) {e : Expr}
    (he : e.IsFormula) (rest : List Char) (p : Position) :
    Gives (Cursor.value ⟨e.formula ++ ';' :: rest, p⟩ stops) (';' :: rest)
      fun value => value.important = false
        ∧ ∃ item : Expr, value.items = [item] ∧ item.withoutPositions = e.withoutPositions := by
  have hspells : ReadsAs stops 0 0 e.formula (';' :: rest) (Spells e.precedence false e) :=
    readable_of_isFormula hstops he false 0 (';' :: rest) rfl
  exact value_of_readsAs (hspells.imp fun _ h => h.of_le (precedence_bounds e).1)
    (endsValue_semicolon hend rest) p

/-- A difference of a difference with a quotient in it: the divisor and the right side
    need parentheses, the rest does not. -/
theorem value_of_formula_of_differences :
    let var (name : String) : Expr := .var name none
    let call (f : String) (arguments : List Expr) : Expr := .call f arguments none
    let operation (op : Operator) (left right : Expr) : Expr := .binary op left right none
    let quotient := operation .divide (call "mix" [var "b1", call "calcium" []])
      (operation .add (var "c") (var "d"))
    let e := operation .subtract (operation .subtract (var "a") quotient)
      (operation .subtract (var "e") (var "f"))
    IsStops statementStops ∧ ';' ∈ statementStops ∧ e.IsFormula
      ∧ e.formula = "@a - mix(@b1, calcium()) / (@c + @d) - (@e - @f)".toList
      ∧ Gives (Cursor.value ⟨e.formula ++ [';'], .start⟩ statementStops) [';']
        fun value => value.important = false
          ∧ ∃ item : Expr, value.items = [item] ∧ item.withoutPositions = e := by
  intro var call operation quotient e
  have hname : ∀ c : Char, c.isAlpha = true → ∀ cs : List Char, (∀ d ∈ cs, d.isAlphanum = true) →
      (var (String.ofList (c :: cs))).IsFormula := fun c hc cs hcs =>
    .var ⟨c, cs, String.toList_ofList, hc, hcs⟩
  have hcalcium : (call "calcium" []).IsFormula :=
    .call ⟨by decide, List.all_eq_true.mp rfl, by decide, by decide⟩ nofun
  have hmix : (call "mix" [var "b1", call "calcium" []]).IsFormula := by
    refine .call ⟨by decide, List.all_eq_true.mp rfl, by decide, by decide⟩ fun a ha => ?_
    rcases List.mem_cons.mp ha with rfl | ha
    · exact hname 'b' rfl ['1'] (List.forall_mem_singleton.mpr rfl)
    · rw [List.mem_singleton.mp ha]
      exact hcalcium
  have he : e.IsFormula :=
    .binary (.binary (hname 'a' rfl [] nofun) (.binary hmix
      (.binary (hname 'c' rfl [] nofun) (hname 'd' rfl [] nofun))))
      (.binary (hname 'e' rfl [] nofun) (hname 'f' rfl [] nofun))
  have hstops : IsStops statementStops := fun c hc => List.mem_append_left _ hc
  exact ⟨hstops, by decide, he, by rfl, value_of_formula hstops (by decide) he [] .start⟩

end Parse

end Less
