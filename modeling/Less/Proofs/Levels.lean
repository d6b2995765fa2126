import Less.Parse.Value
import Less.Proofs.Written

/-! # Sums, products and operands

    The tokens of an expression are read by one of three readers: as an operand, as a
    product of operands or as a sum of products.  A product or a sum goes on as long
    as operators follow, so what can be said of its tokens is where the reading
    stands behind them: with the expression on the left of a chain that goes on
    (`IsProduct`, `IsSum`).  An operand ends by itself (`IsFactor`).

    The level of an operation is the precedence of its operator.  What is read at one
    level is read at every lower one, and an operation is read at its level if its
    left operand is read there and its right operand one level higher: operators of
    one level group from the left.  In parentheses everything is an operand.

    Nothing here depends on positions, so trees are compared without them. -/

namespace Less

/-- How tightly an operator binds its operands. -/
def Operator.precedence : Operator → Nat
  | add | subtract => 1
  | multiply | divide => 2

/-- The precedence of an operation; all else holds together more tightly. -/
def Expr.precedence : Expr → Nat
  | .binary op _ _ _ => op.precedence
  | _ => 3

theorem exprsWithoutPositions_eq_map (es : List Expr) :
    exprsWithoutPositions es = es.map Expr.withoutPositions := by
  induction es with
  | nil => rfl
  | cons e es ih => rw [exprsWithoutPositions, ih, List.map_cons]

namespace Parse

/-- The token of an operator. -/
def operatorToken : Operator → TokenKind
  | .add => .plus
  | .subtract => .minus
  | .multiply => .star
  | .divide => .slash

/-- The reader of operands inside `depth` parentheses, as lists use it. -/
def operandWithin (last : Position) (n depth : Nat) : List Token → Except Fault (Rest Expr) :=
  operand last (items last n (depth + 1) [.rparen] true) (arguments last n (depth + 1))

variable {last : Position} {n depth : Nat} {gap : Bool} {ts rest : List Token} {e : Expr}

/-! ## Chains -/

/-- No operator comes next. -/
def Halts (operator? : Token → List Token → Option Operator) (rest : List Token) : Prop :=
  ∀ t later, rest = t :: later → operator? t later = none

section Chain

variable {operator? : Token → List Token → Option Operator}
  {next : List Token → Except Fault (Rest Expr)}

/-- A chain ends where no operator comes next. -/
theorem chain_of_halts (h : Halts operator? rest) {k : Nat} (hk : rest.length < k) (left : Expr) :
    chain last operator? next k left rest = .ok (left, rest) := by
  obtain ⟨k, rfl⟩ := Nat.exists_eq_succ_of_ne_zero (Nat.ne_zero_of_lt hk)
  cases rest with
  | nil => rfl
  | cons t later => rw [chain, h t later rfl]

/-- A chain takes an operator with the operand behind it. -/
theorem chain_of_operator {t : Token} {tokens : List Token} {op : Operator} {right : Expr}
    (hop : operator? t tokens = some op) (hnext : next tokens = .ok (right, rest)) (k : Nat)
    (left : Expr) :
    chain last operator? next (k + 1) left (t :: tokens) =
      chain last operator? next k (.operation op left right) rest := by
  rw [chain, hop]
  show (next tokens >>= _) = _
  rw [hnext]
  rfl

end Chain

/-! ## The levels -/

/-- The tokens are read as an operand. -/
def IsFactor (last : Position) (n depth : Nat) (ts : List Token) (e : Expr) : Prop :=
  ∀ rest, ∃ found : Expr, found.withoutPositions = e.withoutPositions
    ∧ signed (operandWithin last n depth) (ts ++ rest) = .ok (found, rest)

/-- The tokens are read as the first part of a product. -/
def IsProduct (last : Position) (n depth : Nat) (ts : List Token) (e : Expr) : Prop :=
  ∀ rest, ∃ (found : Expr) (k : Nat), found.withoutPositions = e.withoutPositions
    ∧ rest.length < k
    ∧ product last (operandWithin last n depth) depth (ts ++ rest) =
      chain last (productOperator? depth) (signed (operandWithin last n depth)) k found rest

/-- The tokens are read as the first part of a sum, unless a product goes on behind
    them. -/
def IsSum (last : Position) (n depth : Nat) (ts : List Token) (e : Expr) : Prop :=
  ∀ rest, Halts (productOperator? depth) rest →
    ∃ (found : Expr) (k : Nat), found.withoutPositions = e.withoutPositions
      ∧ rest.length < k
      ∧ sum last (operandWithin last n depth) depth (ts ++ rest) =
        chain last sumOperator? (product last (operandWithin last n depth) depth) k found rest

/-- The tokens are read at the level of a precedence. -/
def ReadAt (level : Nat) (last : Position) (n depth : Nat) (ts : List Token) (e : Expr) : Prop :=
  match level with
  | 0 | 1 => IsSum last n depth ts e
  | 2 => IsProduct last n depth ts e
  | _ + 3 => IsFactor last n depth ts e

theorem IsFactor.product (h : IsFactor last n depth ts e) : IsProduct last n depth ts e := by
  intro rest
  obtain ⟨found, hfound, hread⟩ := h rest
  refine ⟨found, rest.length + 1, hfound, Nat.lt_succ_self _, ?_⟩
  rw [Parse.product, hread]
  rfl

/-- A product ends where no operator of a product comes next. -/
theorem IsProduct.ends (h : IsProduct last n depth ts e)
    (hrest : Halts (productOperator? depth) rest) :
    ∃ found : Expr, found.withoutPositions = e.withoutPositions
      ∧ product last (operandWithin last n depth) depth (ts ++ rest) = .ok (found, rest) := by
  obtain ⟨found, k, hfound, hk, hread⟩ := h rest
  exact ⟨found, hfound, hread.trans (chain_of_halts hrest hk found)⟩

theorem IsProduct.sum (h : IsProduct last n depth ts e) : IsSum last n depth ts e := by
  intro rest hrest
  obtain ⟨found, hfound, hread⟩ := h.ends hrest
  refine ⟨found, rest.length + 1, hfound, Nat.lt_succ_self _, ?_⟩
  rw [Parse.sum, hread]
  rfl

/-- A sum ends where no operator comes next. -/
theorem IsSum.ends (h : IsSum last n depth ts e) (hproduct : Halts (productOperator? depth) rest)
    (hsum : Halts sumOperator? rest) :
    ∃ found : Expr, found.withoutPositions = e.withoutPositions
      ∧ Parse.sum last (operandWithin last n depth) depth (ts ++ rest) = .ok (found, rest) := by
  obtain ⟨found, k, hfound, hk, hread⟩ := h rest hproduct
  exact ⟨found, hfound, hread.trans (chain_of_halts hsum hk found)⟩

/-- **What is read at one level is read at every lower one.** -/
theorem ReadAt.of_le {level lower : Nat} (hle : lower ≤ level)
    (h : ReadAt level last n depth ts e) : ReadAt lower last n depth ts e := by
  match level, lower with
  | 0, 0 | 1, 0 | 1, 1 | 2, 2 => exact h
  | _ + 3, _ + 3 => exact h
  | 2, 0 | 2, 1 => exact IsProduct.sum h
  | _ + 3, 2 => exact IsFactor.product h
  | _ + 3, 0 | _ + 3, 1 => exact (IsFactor.product h).sum

/-! ## Operations -/

/-- The tokens start an operand, with or without a blank before it. -/
def Opens (gap : Bool) (ts : List Token) : Prop :=
  ∃ t later, ts = t :: later ∧ t.spaced = gap ∧ t.kind ≠ .rparen ∧ separatorText? t.kind = none

theorem Opens.append (h : Opens gap ts) (more : List Token) : Opens gap (ts ++ more) := by
  obtain ⟨t, later, rfl, ht⟩ := h
  exact ⟨t, later ++ more, rfl, ht⟩

theorem Opens.spaceAfter (h : Opens gap ts) : spaceAfter (ts ++ rest) = gap := by
  obtain ⟨t, later, rfl, ht, -⟩ := h
  exact ht

theorem withoutPositions_operation {op : Operator} {l r left right : Expr} {p : Option Position}
    (hl : left.withoutPositions = l.withoutPositions)
    (hr : right.withoutPositions = r.withoutPositions) :
    (Expr.operation op left right).withoutPositions =
      (Expr.binary op l r p).withoutPositions := by
  rw [Expr.operation, Expr.withoutPositions, Expr.withoutPositions, hl, hr]

section Operation

variable {lts rts : List Token} {l r : Expr} {op : Operator} {t : Token} {p : Option Position}

theorem IsProduct.operation (hl : IsProduct last n depth lts l) (hr : IsFactor last n depth rts r)
    (hop : ∀ rest, productOperator? depth t (rts ++ rest) = some op) :
    IsProduct last n depth (lts ++ t :: rts) (.binary op l r p) := by
  intro rest
  obtain ⟨left, k, hleft, hk, hread⟩ := hl (t :: (rts ++ rest))
  obtain ⟨right, hright, hnext⟩ := hr rest
  rw [List.length_cons, List.length_append] at hk
  obtain ⟨k, rfl⟩ := Nat.exists_eq_succ_of_ne_zero (Nat.ne_zero_of_lt hk)
  refine ⟨.operation op left right, k, withoutPositions_operation hleft hright, by omega, ?_⟩
  rw [List.append_assoc, List.cons_append, hread, chain_of_operator (hop rest) hnext]

theorem IsSum.operation (hl : IsSum last n depth lts l) (hr : IsProduct last n depth rts r)
    (hsign : ∀ rest, productOperator? depth t rest = none)
    (hop : ∀ rest, sumOperator? t (rts ++ rest) = some op) :
    IsSum last n depth (lts ++ t :: rts) (.binary op l r p) := by
  intro rest hrest
  have hhalts : Halts (productOperator? depth) (t :: (rts ++ rest)) := by
    rintro t' later ⟨⟩
    exact hsign _
  obtain ⟨left, k, hleft, hk, hread⟩ := hl (t :: (rts ++ rest)) hhalts
  obtain ⟨right, hright, hnext⟩ := hr.ends hrest
  rw [List.length_cons, List.length_append] at hk
  obtain ⟨k, rfl⟩ := Nat.exists_eq_succ_of_ne_zero (Nat.ne_zero_of_lt hk)
  refine ⟨.operation op left right, k, withoutPositions_operation hleft hright, by omega, ?_⟩
  rw [List.append_assoc, List.cons_append, hread, chain_of_operator (hop rest) hnext]

/-- **An operation is read at the level of its operator**, its right operand one
    level higher than its left one. -/
theorem ReadAt.operation (hl : ReadAt op.precedence last n depth lts l)
    (hr : ReadAt (op.precedence + 1) last n depth rts r) (hopens : Opens true rts)
    (hkind : t.kind = operatorToken op) (hspaced : t.spaced = true) :
    ReadAt op.precedence last n depth (lts ++ t :: rts) (.binary op l r p) := by
  cases op with
  | add =>
      refine IsSum.operation hl hr (fun rest => ?_) fun rest => ?_
      · rw [productOperator?, hkind]
        rfl
      · rw [sumOperator?, hkind]
        rfl
  | subtract =>
      refine IsSum.operation hl hr (fun rest => ?_) fun rest => ?_
      · rw [productOperator?, hkind]
        rfl
      · -- blanks stand on both sides of the minus
        rw [sumOperator?, hkind, hspaced, hopens.spaceAfter]
        rfl
  | multiply =>
      refine IsProduct.operation hl hr fun rest => ?_
      rw [productOperator?, hkind]
      rfl
  | divide =>
      refine IsProduct.operation hl hr fun rest => ?_
      -- blanks stand on both sides of the slash
      rw [productOperator?, hkind, hspaced, hopens.spaceAfter]
      exact if_pos (Or.inr ⟨rfl, rfl⟩)

end Operation

/-! ## Items -/

/-- A comma or a parenthesis that closes. -/
def IsCloser (kind : TokenKind) : Prop :=
  kind = .comma ∨ kind = .rparen

/-- No sum and no product goes on where items end. -/
theorem halts_of_closers (depth : Nat) (h : ∀ t later, rest = t :: later → IsCloser t.kind) :
    Halts (productOperator? depth) rest ∧ Halts sumOperator? rest := by
  constructor
  · intro t later heq
    rcases h t later heq with hkind | hkind
    · rw [productOperator?, hkind]
    · rw [productOperator?, hkind]
  · intro t later heq
    rcases h t later heq with hkind | hkind
    · rw [sumOperator?, hkind]
    · rw [sumOperator?, hkind]

/-- **A sum up to a stop is one item.** -/
theorem items_of_isSum (hopens : Opens gap ts) (h : IsSum last (n + 1) depth ts e)
    {stops : List TokenKind} (hstops : ∀ kind ∈ stops, IsCloser kind)
    (hrest : ∀ t later, rest = t :: later → t.kind ∈ stops) :
    ∃ found : Expr, found.withoutPositions = e.withoutPositions
      ∧ items last (n + 2) depth stops true (ts ++ rest) = .ok ([found], rest) := by
  obtain ⟨hproduct, hsum⟩ :=
    halts_of_closers depth fun t later heq => hstops _ (hrest t later heq)
  obtain ⟨found, hfound, hread⟩ := h.ends hproduct hsum
  refine ⟨found, hfound, ?_⟩
  obtain ⟨t, later, rfl, -, hparen, hseparator⟩ := hopens
  have hgoes : stops.contains t.kind = false := by
    rw [Bool.eq_false_iff]
    intro hmem
    rcases hstops _ (List.contains_iff_mem.mp hmem) with hkind | hkind
    · rw [hkind] at hseparator
      cases hseparator
    · exact hparen hkind
  have hlater : items last (n + 1) depth stops false rest = .ok ([], rest) := by
    cases rest with
    | nil => rfl
    | cons t later => rw [items, if_pos (List.contains_iff_mem.mpr (hrest t later rfl))]
  rw [List.cons_append, items, hgoes, if_neg Bool.false_ne_true, hseparator]
  show (Parse.sum last (operandWithin last (n + 1) depth) depth (t :: later ++ rest) >>= _) = _
  rw [hread]
  show (items last (n + 1) depth stops false rest >>= _) = _
  rw [hlater, Bool.not_true, Bool.and_false]
  rfl

/-! ## Operands -/

/-- The tokens are read as the expression at a level, within a bound that every
    reader has. -/
structure Spells (level : Nat) (gap : Bool) (e : Expr) (ts : List Token) : Prop where
  opens : Opens gap ts
  reads : ∀ last n depth, 2 * ts.length ≤ n → ReadAt level last n depth ts e

theorem Spells.of_le {level lower : Nat} (hle : lower ≤ level) (h : Spells level gap e ts) :
    Spells lower gap e ts :=
  ⟨h.opens, fun last n depth hn => (h.reads last n depth hn).of_le hle⟩

theorem spells_var (name : String) (p : Option Position) (q : Position) :
    Spells 3 gap (.var name p) [⟨.var name, q, gap⟩] where
  opens := ⟨_, _, rfl, rfl, by simp, rfl⟩
  reads := by
    intro last n depth _ rest
    refine ⟨.var name (some q), rfl, ?_⟩
    rw [List.singleton_append, signed.eq_def]
    rfl

theorem Spells.operation {l r : Expr} {lts rts : List Token} {op : Operator} {t : Token}
    (hl : Spells op.precedence gap l lts) (hr : Spells (op.precedence + 1) true r rts)
    (hkind : t.kind = operatorToken op) (hspaced : t.spaced = true) (p : Option Position) :
    Spells op.precedence gap (.binary op l r p) (lts ++ t :: rts) where
  opens := hl.opens.append _
  reads := by
    intro last n depth hn
    rw [List.length_append, List.length_cons] at hn
    exact (hl.reads last n depth (by omega)).operation (hr.reads last n depth (by omega)) hr.opens
      hkind hspaced

/-- **Parentheses make an operand of every expression.** -/
theorem Spells.parenthesized (h : Spells 1 false e ts) {left right : Token}
    (hleft : left.kind = .lparen) (hspaced : left.spaced = gap) (hright : right.kind = .rparen) :
    Spells 3 gap e (left :: (ts ++ [right])) where
  opens := ⟨left, _, rfl, hspaced, by rw [hleft]; decide, by rw [hleft]; rfl⟩
  reads := by
    intro last n depth hn rest
    rw [List.length_cons, List.length_append, List.length_singleton] at hn
    obtain ⟨n, rfl⟩ : ∃ k, n = k + 2 := ⟨n - 2, by omega⟩
    have hstops : ∀ kind ∈ [TokenKind.rparen], IsCloser kind :=
      fun kind hkind => Or.inr (List.mem_singleton.mp hkind)
    have hends : ∀ t later, right :: rest = t :: later → t.kind ∈ [TokenKind.rparen] := by
      rintro t later ⟨⟩
      exact List.mem_singleton.mpr hright
    have hsum : IsSum last (n + 1) (depth + 1) ts e := h.reads last (n + 1) (depth + 1) (by omega)
    obtain ⟨found, hfound, hread⟩ := items_of_isSum h.opens hsum hstops hends
    refine ⟨found, hfound, ?_⟩
    obtain ⟨kind, q, spaced⟩ := left
    cases hleft
    rw [signed.eq_def]
    show (items last (n + 2) (depth + 1) [.rparen] true (ts ++ [right] ++ rest) >>= _) = _
    rw [List.append_assoc, List.singleton_append, hread]
    show closeParentheses last q [found] (right :: rest) = _
    rw [closeParentheses, if_pos hright]

/-! ## Calls -/

/-- The tokens up to the parenthesis that closes them are read as the arguments of a
    call. -/
structure SpellsArguments (es : List Expr) (ts : List Token) : Prop where
  reads : ∀ last n depth t rest, t.kind = .rparen → 2 * ts.length + 2 ≤ n →
    ∃ found : List Expr, found.map Expr.withoutPositions = es.map Expr.withoutPositions
      ∧ arguments last n depth (ts ++ t :: rest) = .ok (found, rest)

theorem spellsArguments_nil : SpellsArguments [] [] where
  reads := by
    intro last n depth t rest ht hn
    obtain ⟨n, rfl⟩ : ∃ k, n = k + 1 := ⟨n - 1, by omega⟩
    refine ⟨[], rfl, ?_⟩
    rw [List.nil_append, arguments, if_pos ht]

/-- A comma before arguments is dropped. -/
theorem SpellsArguments.comma {es : List Expr} (h : SpellsArguments es ts) {t : Token}
    (ht : t.kind = .comma) : SpellsArguments es (t :: ts) where
  reads := by
    intro last n depth right rest hright hn
    rw [List.length_cons] at hn
    obtain ⟨n, rfl⟩ : ∃ k, n = k + 1 := ⟨n - 1, by omega⟩
    obtain ⟨found, hfound, hread⟩ := h.reads last n depth right rest hright (by omega)
    refine ⟨found, hfound, ?_⟩
    rw [List.cons_append, arguments, if_neg (by rw [ht]; decide), if_pos ht, hread]

/-- An argument ends at a comma or at the end of the arguments. -/
theorem Spells.argument (h : Spells 1 gap e ts) {es : List Expr} {more : List Token}
    (hmore : SpellsArguments es more) (hcomma : ∀ t later, more = t :: later → t.kind = .comma) :
    SpellsArguments (e :: es) (ts ++ more) where
  reads := by
    intro last n depth right rest hright hn
    have hpos : 0 < ts.length := by
      obtain ⟨t, later, rfl, -⟩ := h.opens
      exact Nat.succ_pos _
    rw [List.length_append] at hn
    obtain ⟨n, rfl⟩ : ∃ k, n = k + 3 := ⟨n - 3, by omega⟩
    have hends : ∀ t later, more ++ right :: rest = t :: later →
        t.kind ∈ [TokenKind.comma, .rparen] := by
      intro t later heq
      cases more with
      | nil =>
          cases heq
          simp [hright]
      | cons t' more =>
          cases heq
          simp [hcomma _ _ rfl]
    have hstops : ∀ kind ∈ [TokenKind.comma, .rparen], IsCloser kind := by simp [IsCloser]
    have hsum : IsSum last (n + 1) depth ts e := h.reads last (n + 1) depth (by omega)
    obtain ⟨found, hfound, hread⟩ := items_of_isSum h.opens hsum hstops hends
    obtain ⟨later, hlater, hreadLater⟩ :=
      hmore.reads last (n + 2) depth right rest hright (by omega)
    refine ⟨found :: later, by rw [List.map_cons, List.map_cons, hfound, hlater], ?_⟩
    obtain ⟨t, tail, rfl, -, hparen, hseparator⟩ := h.opens
    have hnotComma : t.kind ≠ .comma := by
      intro hkind
      rw [hkind] at hseparator
      cases hseparator
    rw [List.append_assoc, List.cons_append, arguments, if_neg hparen, if_neg hnotComma]
    rw [List.cons_append] at hread
    show (items last (n + 2) depth [.comma, .rparen] true (t :: (tail ++ _)) >>= _) = _
    rw [hread]
    show (arguments last (n + 2) depth _ >>= _) = _
    rw [hreadLater]
    rfl

/-- **A call is an operand.** -/
theorem SpellsArguments.call {es : List Expr} (h : SpellsArguments es ts) (f : String)
    (p : Option Position) (q : Position) {right : Token} (hright : right.kind = .rparen) :
    Spells 3 gap (.call f es p) (⟨.call f, q, gap⟩ :: (ts ++ [right])) where
  opens := ⟨_, _, rfl, rfl, by simp, rfl⟩
  reads := by
    intro last n depth hn rest
    rw [List.length_cons, List.length_append, List.length_singleton] at hn
    obtain ⟨found, hfound, hread⟩ := h.reads last n (depth + 1) right rest hright (by omega)
    refine ⟨.call f found (some q), ?_, ?_⟩
    · rw [Expr.withoutPositions, Expr.withoutPositions, exprsWithoutPositions_eq_map,
        exprsWithoutPositions_eq_map, hfound]
    · rw [signed.eq_def]
      show (arguments last n (depth + 1) (ts ++ [right] ++ rest) >>= _) = _
      rw [List.append_assoc, List.singleton_append, hread]
      rfl

end Parse

end Less
