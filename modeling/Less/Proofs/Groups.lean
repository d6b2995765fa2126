import Less.Proofs.InOrder
import Mathlib.Data.List.Nodup

/-! # The parentheses of a value

    The tokens of a value open as many parentheses as they close.  The grammar of values
    is more generous: behind an operator it takes any token as an operand, a closing
    parenthesis too.

    `ReadAs k ts part` says how tokens are read, with `k` closing parentheses among them
    taken as operands; all the others close a group or a call.  Each of the `k` is one
    closing parenthesis too many (`ReadAs.closers`), and whatever is read is read in this
    way (`reads_lists`).  So a value that is read to its end has none of them
    (`parentheses_closed`). -/

namespace Less.Parse

/-! ## How tokens are read -/

/-- What tokens are read as: an expression, the items of a list or the arguments of a
    call. -/
inductive Part where
  | expr (e : Expr)
  | items (es : List Expr)
  | arguments (es : List Expr)

/-- The operand that a token is by itself; parentheses and calls are none. -/
def leaf? (t : Token) : Option Expr :=
  match t.kind with
  | .number text => (numberAt text t.position).toOption
  | .color text =>
      match Color.parse? text with
      | some color => some (.constant (.color color) (some t.position))
      | none => some (.literal text (some t.position))
  | .var name => some (.var name (some t.position))
  | .access target member => some (.access (.ofText target) member (some t.position))
  | .lparen | .rparen | .call _ => none
  | kind => some (.literal (tokenText kind) (some t.position))

/-- The operator that a token may denote. -/
def operatorOf? : TokenKind → Option Operator
  | .plus => some .add
  | .minus => some .subtract
  | .star => some .multiply
  | .slash => some .divide
  | _ => none

/-- What a group denotes: its item, or its items with the parentheses around them. -/
def grouped (p : Position) : List Expr → Expr
  | [item] => item
  | es => .list (separator "(" :: es ++ [separator ")"]) (some p)

/-- **How tokens are read**, with `k` closing parentheses taken as operands. -/
inductive ReadAs : Nat → List Token → Part → Prop where
  | leaf {t : Token} {e : Expr} (he : leaf? t = some e) : ReadAs 0 [t] (.expr e)
  /-- A closing parenthesis that closes nothing. -/
  | closer {t : Token} (ht : t.kind = .rparen) :
      ReadAs 1 [t] (.expr (.literal ")" (some t.position)))
  | signed {t u : Token} {text : String} {e : Expr} (ht : t.kind = .minus)
      (hu : u.kind = .number text) (he : numberAt ("-" ++ text) t.position = .ok e) :
      ReadAs 0 [t, u] (.expr e)
  | negated {k : Nat} {t : Token} {ts : List Token} {e : Expr} (ht : t.kind = .minus)
      (he : ReadAs k ts (.expr e)) :
      ReadAs k (t :: ts) (.expr (e.negate.withPosition (some t.position)))
  | operation {k l : Nat} {ts us : List Token} {t : Token} {op : Operator} {left right : Expr}
      (hleft : ReadAs k ts (.expr left)) (ht : operatorOf? t.kind = some op)
      (hright : ReadAs l us (.expr right)) :
      ReadAs (k + l) (ts ++ t :: us) (.expr (.operation op left right))
  | group {k : Nat} {t u : Token} {ts : List Token} {es : List Expr} (ht : t.kind = .lparen)
      (hes : ReadAs k ts (.items es)) (hu : u.kind = .rparen) :
      ReadAs k (t :: (ts ++ [u])) (.expr (grouped t.position es))
  | call {k : Nat} {t u : Token} {ts : List Token} {name : String} {es : List Expr}
      (ht : t.kind = .call name) (hes : ReadAs k ts (.arguments es)) (hu : u.kind = .rparen) :
      ReadAs k (t :: (ts ++ [u])) (.expr (.call name es (some t.position)))
  | noItems : ReadAs 0 [] (.items [])
  | separator {k : Nat} {t : Token} {ts : List Token} {symbol : String} {es : List Expr}
      (ht : separatorText? t.kind = some symbol) (hes : ReadAs k ts (.items es))
      (before after : Bool) :
      ReadAs k (t :: ts) (.items (blankIf before ++ separator symbol :: blankIf after ++ es))
  | item {k l : Nat} {ts us : List Token} {e : Expr} {es : List Expr}
      (he : ReadAs k ts (.expr e)) (hes : ReadAs l us (.items es)) (before : Bool) :
      ReadAs (k + l) (ts ++ us) (.items (blankIf before ++ e :: es))
  | noArguments : ReadAs 0 [] (.arguments [])
  | comma {k : Nat} {t : Token} {ts : List Token} {es : List Expr} (ht : t.kind = .comma)
      (hes : ReadAs k ts (.arguments es)) : ReadAs k (t :: ts) (.arguments es)
  | argument {k l : Nat} {t : Token} {ts us : List Token} {es fs : List Expr}
      (ht : t.kind ≠ .rparen) (hes : ReadAs k (t :: ts) (.items es))
      (hfs : ReadAs l us (.arguments fs)) :
      ReadAs (k + l) (t :: ts ++ us) (.arguments (Expr.ofItems es t.position :: fs))

/-! ## Counting -/

/-- By how much a token changes the number of open parentheses. -/
def TokenKind.change : TokenKind → Int
  | .lparen | .call _ => 1
  | .rparen => -1
  | _ => 0

/-- By how much tokens change the number of open parentheses. -/
def balance : List Token → Int
  | [] => 0
  | t :: ts => t.kind.change + balance ts

@[simp] theorem balance_nil : balance [] = 0 :=
  rfl

@[simp] theorem balance_cons (t : Token) (ts : List Token) :
    balance (t :: ts) = t.kind.change + balance ts :=
  rfl

@[simp] theorem balance_append (ts us : List Token) :
    balance (ts ++ us) = balance ts + balance us := by
  induction ts with
  | nil => simp
  | cons t ts ih => rw [List.cons_append, balance_cons, balance_cons, ih, Int.add_assoc]

/-- The number of open parentheses is counted without loss. -/
theorem nesting?_eq_some {depth inner : Nat} {kind : TokenKind}
    (h : Cursor.nesting? depth kind = some inner) : (inner : Int) = depth + kind.change := by
  cases kind with
  | lparen | call =>
      cases h
      rfl
  | rparen =>
      rw [Cursor.nesting?] at h
      split at h
      · cases h
      · cases h
        simp only [TokenKind.change]
        omega
  | number | color | var | word | access | comma | plus | minus | star | slash =>
      cases h
      exact (Int.add_zero _).symm

theorem change_of_leaf? {t : Token} {e : Expr} (h : leaf? t = some e) : t.kind.change = 0 := by
  obtain ⟨kind, p, spaced⟩ := t
  cases kind with
  | lparen | rparen | call => cases h
  | number | color | var | word | access | comma | plus | minus | star | slash => rfl

theorem change_of_operatorOf? {kind : TokenKind} {op : Operator} (h : operatorOf? kind = some op) :
    kind.change = 0 := by
  cases kind with
  | plus | minus | star | slash => rfl
  | number | color | var | word | access | comma | lparen | rparen | call => cases h

theorem change_of_separatorText? {kind : TokenKind} {symbol : String}
    (h : separatorText? kind = some symbol) : kind.change = 0 := by
  cases kind with
  | comma | slash => rfl
  | number | color | var | word | access | plus | minus | star | lparen | rparen | call => cases h

variable {k : Nat} {ts : List Token} {part : Part}

/-- **Each closing parenthesis that is an operand is one too many.** -/
theorem ReadAs.closers (h : ReadAs k ts part) : balance ts = -k := by
  induction h with
  | leaf he => rw [balance_cons, balance_nil, change_of_leaf? he]; rfl
  | closer ht => rw [balance_cons, balance_nil, ht]; rfl
  | signed ht hu he => rw [balance_cons, balance_cons, balance_nil, ht, hu]; rfl
  | negated ht _ ih => rw [balance_cons, ht, ih]; exact Int.zero_add _
  | operation _ ht _ ihl ihr =>
      rw [balance_append, balance_cons, change_of_operatorOf? ht, ihl, ihr]
      omega
  | group ht _ hu ih | call ht _ hu ih =>
      rw [balance_cons, balance_append, balance_cons, balance_nil, ht, hu, ih]
      simp only [TokenKind.change]
      omega
  | noItems | noArguments => rfl
  | separator ht _ _ _ ih =>
      rw [balance_cons, change_of_separatorText? ht, ih]
      exact Int.zero_add _
  | item _ _ _ ih ih' | argument ht _ _ ih ih' =>
      rw [balance_append, ih, ih']
      omega
  | comma ht _ ih => rw [balance_cons, ht, ih]; exact Int.zero_add _

/-- The number of open parentheses behind tokens, unless one of them closes a parenthesis
    that is not open. -/
def nestingAll : Nat → List Token → Option Nat
  | depth, [] => some depth
  | depth, t :: ts => (Cursor.nesting? depth t.kind).bind (nestingAll · ts)

/-- **The parentheses of the tokens come in pairs.** -/
def Paired (ts : List Token) : Prop :=
  ∀ depth, nestingAll depth ts = some depth

theorem nestingAll_append (depth : Nat) (ts us : List Token) :
    nestingAll depth (ts ++ us) = (nestingAll depth ts).bind (nestingAll · us) := by
  induction ts generalizing depth with
  | nil => rfl
  | cons t ts ih =>
      rw [List.cons_append, nestingAll, nestingAll, Option.bind_assoc]
      exact Option.bind_congr fun d _ => ih d

theorem Paired.append {ts us : List Token} (hts : Paired ts) (hus : Paired us) :
    Paired (ts ++ us) := by
  intro depth
  rw [nestingAll_append, hts depth]
  exact hus depth

/-- A token that opens and closes nothing changes nothing. -/
theorem Paired.cons {t : Token} (ht : t.kind.change = 0) (hts : Paired ts) : Paired (t :: ts) := by
  intro depth
  have hnesting : Cursor.nesting? depth t.kind = some depth := by
    obtain ⟨kind, p, spaced⟩ := t
    cases kind with
    | lparen | rparen | call => cases ht
    | number | color | var | word | access | comma | plus | minus | star | slash => rfl
  rw [nestingAll, hnesting]
  exact hts depth

/-- A parenthesis is closed behind tokens that come in pairs. -/
theorem Paired.group {t u : Token} (ht : t.kind.change = 1) (hts : Paired ts)
    (hu : u.kind = .rparen) : Paired (t :: (ts ++ [u])) := by
  intro depth
  have hnesting : Cursor.nesting? depth t.kind = some (depth + 1) := by
    obtain ⟨kind, p, spaced⟩ := t
    cases kind with
    | lparen | call => rfl
    | number | color | var | word | access | comma | plus | minus | star | slash | rparen => cases ht
  rw [nestingAll, hnesting, Option.bind_some, nestingAll_append, hts (depth + 1), Option.bind_some,
    nestingAll, hu]
  rfl

/-- **What is read without a closing parenthesis as an operand comes in pairs.** -/
theorem ReadAs.paired (h : ReadAs k ts part) (hk : k = 0) : Paired ts := by
  induction h with
  | leaf he => exact .cons (change_of_leaf? he) fun _ => rfl
  | closer ht => cases hk
  | signed ht hu he => exact .cons (by rw [ht]; rfl) (.cons (by rw [hu]; rfl) fun _ => rfl)
  | negated ht _ ih => exact .cons (by rw [ht]; rfl) (ih hk)
  | operation _ ht _ ihl ihr =>
      exact (ihl (by omega)).append (.cons (change_of_operatorOf? ht) (ihr (by omega)))
  | group ht _ hu ih | call ht _ hu ih => exact .group (by rw [ht]; rfl) (ih hk) hu
  | noItems | noArguments => exact fun _ => rfl
  | separator ht _ _ _ ih => exact .cons (change_of_separatorText? ht) (ih hk)
  | item _ _ _ ih ih' | argument ht _ _ ih ih' => exact (ih (by omega)).append (ih' (by omega))
  | comma ht _ ih => exact .cons (by rw [ht]; rfl) (ih hk)

/-! ## Where positions come from -/

/-- The tokens that close no parenthesis. -/
def others (ts : List Token) : List Token :=
  ts.filter fun t => t.kind != .rparen

theorem mem_others {t : Token} : t ∈ others ts ↔ t ∈ ts ∧ t.kind ≠ .rparen := by
  rw [others, List.mem_filter, bne_iff_ne]

theorem mem_others_cons {t : Token} (ht : t.kind ≠ .rparen) (ts : List Token) : t ∈ others (t :: ts) :=
  mem_others.mpr ⟨List.mem_cons_self, ht⟩

theorem others_subset {us : List Token} (h : ts ⊆ us) : others ts ⊆ others us := by
  intro t ht
  rw [mem_others] at ht ⊢
  exact ⟨h ht.1, ht.2⟩

/-- The positions of the part are those of these tokens. -/
def Part.CoveredBy (used : List Token) : Part → Prop
  | .expr e => Covers used e
  | .items es => CoversAll used es
  | .arguments es => CoversAll used es

theorem Part.CoveredBy.mono {used more : List Token} (h : part.CoveredBy used)
    (hsub : used ⊆ more) : part.CoveredBy more := by
  cases part with
  | expr e => exact Covers.mono h hsub
  | items es | arguments es => exact fun e he => (h e he).mono hsub

theorem covers_leaf? {t : Token} {e : Expr} (h : leaf? t = some e) {used : List Token}
    (ht : t ∈ used) : Covers used e := by
  have hone : e.positions = [t.position] → Covers used e := fun he => covers_of_one he ht
  obtain ⟨kind, p, spaced⟩ := t
  cases kind with
  | lparen | rparen | call => cases h
  | number text => exact covers_numberAt ht (eq_ok_of_toOption h)
  | color text =>
      rw [leaf?.eq_def] at h
      simp only at h
      split at h
      · cases h
        exact hone rfl
      · cases h
        exact hone rfl
  | var | word | access | comma | plus | minus | star | slash =>
      cases h
      exact hone rfl

theorem covers_grouped {used : List Token} {es : List Expr} (h : CoversAll used es) {t : Token}
    (ht : t ∈ used) : Covers used (grouped t.position es) := by
  have hlist : Covers used (.list (separator "(" :: es ++ [separator ")"]) (some t.position)) := by
    refine covers_list (fun e he => ?_) ht
    rcases List.mem_append.mp he with he | he
    · rcases List.mem_cons.mp he with rfl | he
      · exact covers_separator _ _
      · exact h e he
    · rw [List.mem_singleton.mp he]
      exact covers_separator _ _
  match es with
  | [item] => exact h item List.mem_cons_self
  | [] | _ :: _ :: _ => exact hlist

/-- **The positions of what is read are none of a closing parenthesis**, unless one of
    these was taken as an operand. -/
theorem ReadAs.covered (h : ReadAs k ts part) (hk : k = 0) : part.CoveredBy (others ts) := by
  induction h with
  | leaf he =>
      refine covers_leaf? he (mem_others_cons (fun ht => ?_) _)
      rw [leaf?, ht] at he
      cases he
  | closer ht => cases hk
  | signed ht hu he =>
      exact covers_numberAt (mem_others_cons (by rw [ht]; decide) _) he
  | negated ht _ ih =>
      refine Covers.negate ?_ (mem_others_cons (by rw [ht]; decide) _)
      exact (ih hk).mono (others_subset (List.subset_cons_self _ _))
  | operation _ ht _ ihl ihr =>
      refine Covers.operation ?_ ?_ _
      · exact (ihl (by omega)).mono (others_subset (List.subset_append_left _ _))
      · exact (ihr (by omega)).mono
          (others_subset fun u hu => List.mem_append_right _ (List.mem_cons_of_mem _ hu))
  | group ht _ hu ih =>
      refine covers_grouped ?_ (mem_others_cons (by rw [ht]; decide) _)
      exact (ih hk).mono
        (others_subset fun u hu => List.mem_cons_of_mem _ (List.mem_append_left _ hu))
  | call ht _ hu ih =>
      refine List.forall_mem_append.mpr ⟨List.forall_mem_singleton.mpr ⟨_, ?_, rfl⟩,
        forall_positionsOfAll ?_⟩
      · exact mem_others_cons (by rw [ht]; nofun) _
      · exact (ih hk).mono
          (others_subset fun u hu => List.mem_cons_of_mem _ (List.mem_append_left _ hu))
  | noItems | noArguments => exact fun e he => absurd he List.not_mem_nil
  | separator ht _ before after ih =>
      intro e he
      simp only [List.mem_append, List.mem_cons] at he
      rcases he with (he | rfl | he) | he
      · exact covers_of_no_positions (positions_blankIf _ e he) _
      · exact covers_separator _ _
      · exact covers_of_no_positions (positions_blankIf _ e he) _
      · exact Covers.mono (ih hk e he) (others_subset (List.subset_cons_self _ _))
  | item _ _ before ih ih' =>
      intro x hx
      simp only [List.mem_append, List.mem_cons] at hx
      rcases hx with hx | rfl | hx
      · exact covers_of_no_positions (positions_blankIf _ x hx) _
      · exact Covers.mono (ih (by omega)) (others_subset (List.subset_append_left _ _))
      · exact Covers.mono (ih' (by omega) x hx) (others_subset (List.subset_append_right _ _))
  | comma ht _ ih => exact (ih hk).mono (others_subset (List.subset_cons_self _ _))
  | argument ht _ _ ih ih' =>
      refine List.forall_mem_cons.mpr ⟨covers_ofItems ?_ (mem_others_cons ht _), ?_⟩
      · exact (ih (by omega)).mono (others_subset (List.subset_append_left _ _))
      · exact (ih' (by omega)).mono (others_subset (List.subset_append_right _ _))

/-! ## Whatever is read is read in this way -/

/-- The tokens are read as the expression. -/
def ReadsExpr (used : List Token) (e : Expr) : Prop :=
  ∃ k, ReadAs k used (.expr e)

/-- The tokens are read as the items. -/
def ReadsItems (used : List Token) (es : List Expr) : Prop :=
  ∃ k, ReadAs k used (.items es)

/-- The tokens are read as the arguments and the parenthesis that closes them. -/
def ReadsArguments (used : List Token) (es : List Expr) : Prop :=
  ∃ k ts u, used = ts ++ [u] ∧ u.kind = .rparen ∧ ReadAs k ts (.arguments es)

section Operations

variable {last : Position}

theorem reads_chain {operator? : Token → List Token → Option Operator}
    {next : List Token → Except Fault (Rest Expr)}
    (hoperator : ∀ t rest op, operator? t rest = some op → operatorOf? t.kind = some op)
    (hnext : ∀ ts, Consumes ReadsExpr ts (next ts)) :
    ∀ {n : Nat} {left : Expr} {front ts : List Token}, ReadsExpr front left →
      Consumes (fun used e => ReadsExpr (front ++ used) e) ts
        (chain last operator? next n left ts) := by
  intro n
  induction n with
  | zero => intro left front ts _; exact consumes_fault _
  | succ n ih =>
      intro left front ts hleft
      have hdone : Consumes (fun used e => ReadsExpr (front ++ used) e) ts (.ok (left, ts)) := by
        refine consumes_none ?_
        rw [List.append_nil]
        exact hleft
      cases ts with
      | nil => exact hdone
      | cons t rest =>
          rw [chain]
          split
          · exact hdone
          · rename_i op hop
            refine Consumes.cons ((hnext rest).bind fun right used tokens hright => ?_)
            obtain ⟨k, hk⟩ := hleft
            obtain ⟨l, hl⟩ := hright
            have hboth : ReadsExpr (front ++ t :: used) (Expr.operation op left right) :=
              ⟨k + l, hk.operation (hoperator t rest op hop) hl⟩
            have hrest : Consumes (fun more e => ReadsExpr (front ++ t :: used ++ more) e) tokens
                (chain last operator? next n (Expr.operation op left right) tokens) := ih hboth
            simp only [List.append_assoc, List.cons_append] at hrest
            exact hrest

theorem operatorOf?_of_productOperator? {depth : Nat} {t : Token} {rest : List Token} {op : Operator}
    (h : productOperator? depth t rest = some op) : operatorOf? t.kind = some op := by
  rw [productOperator?.eq_def] at h
  split at h
  · rename_i hkind
    rw [hkind]
    exact h
  · rename_i hkind
    split at h
    · rw [hkind]
      exact h
    · cases h
  · cases h

theorem operatorOf?_of_sumOperator? {t : Token} {rest : List Token} {op : Operator}
    (h : sumOperator? t rest = some op) : operatorOf? t.kind = some op := by
  rw [sumOperator?.eq_def] at h
  split at h
  · rename_i hkind
    rw [hkind]
    exact h
  · rename_i hkind
    split at h
    · rw [hkind]
      exact h
    · cases h
  · cases h

variable {operand : List Token → Except Fault (Rest Expr)}
  (hoperand : ∀ ts, Consumes ReadsExpr ts (operand ts))
include hoperand

theorem reads_signed {ts : List Token} : Consumes ReadsExpr ts (signed operand ts) := by
  induction ts with
  | nil => exact hoperand []
  | cons t rest ih =>
      rw [signed.eq_def]
      simp only
      split
      · rename_i ht
        split
        · rename_i text q tokens
          intro e tokens' h
          obtain ⟨e', he, h⟩ := exists_of_bind_eq_ok h
          cases h
          exact ⟨[t, ⟨.number text, q, false⟩], rfl, 0, .signed ht rfl he⟩
        · refine Consumes.cons (ih.bind fun e used tokens he => consumes_none ?_)
          obtain ⟨k, hk⟩ := he
          rw [List.append_nil]
          exact ⟨k, .negated ht hk⟩
      · exact hoperand _

theorem reads_product (depth : Nat) {ts : List Token} :
    Consumes ReadsExpr ts (product last operand depth ts) :=
  (reads_signed hoperand).bind fun _ _ _ he =>
    reads_chain (fun _ _ _ => operatorOf?_of_productOperator?) (fun _ => reads_signed hoperand) he

theorem reads_sum (depth : Nat) {ts : List Token} :
    Consumes ReadsExpr ts (sum last operand depth ts) :=
  (reads_product hoperand depth).bind fun _ _ _ he =>
    reads_chain (fun _ _ _ => operatorOf?_of_sumOperator?) (fun _ => reads_product hoperand depth) he

end Operations

section Lists

variable {last : Position}

theorem closeParentheses_cons (p : Position) (es : List Expr) (t : Token) (ts : List Token) :
    closeParentheses last p es (t :: ts) =
      if t.kind = .rparen then .ok (grouped p es, ts) else .error ⟨.expected ')', t.position⟩ := by
  match es with
  | [] | [_] | _ :: _ :: _ => rfl

theorem reads_closeParentheses {t : Token} (ht : t.kind = .lparen) {front : List Token}
    {inner : List Expr} (hinner : ReadsItems front inner) {ts : List Token} :
    Consumes (fun used e => ReadsExpr (t :: (front ++ used)) e) ts
      (closeParentheses last t.position inner ts) := by
  obtain ⟨k, hk⟩ := hinner
  cases ts with
  | nil => exact consumes_fault _
  | cons close rest =>
      rw [closeParentheses_cons]
      split
      · rename_i hclose
        exact Consumes.cons (consumes_none ⟨k, hk.group ht hclose⟩)
      · exact consumes_fault _

theorem reads_operand {inner arguments : List Token → Except Fault (Rest (List Expr))}
    (hinner : ∀ ts, Consumes ReadsItems ts (inner ts))
    (harguments : ∀ ts, Consumes ReadsArguments ts (arguments ts)) (ts : List Token) :
    Consumes ReadsExpr ts (operand last inner arguments ts) := by
  cases ts with
  | nil => exact consumes_fault _
  | cons t rest =>
      have hleaf : ∀ {e : Expr}, leaf? t = some e → Consumes ReadsExpr (t :: rest) (.ok (e, rest)) :=
        fun he => Consumes.cons (consumes_none ⟨0, .leaf he⟩)
      obtain ⟨kind, p, spaced⟩ := t
      rw [operand.eq_def]
      cases kind with
      | number text =>
          intro e tokens h
          obtain ⟨e', he, h⟩ := exists_of_bind_eq_ok h
          cases h
          exact hleaf (congrArg Except.toOption he) e rest rfl
      | color text =>
          have hcolor : leaf? ⟨.color text, p, spaced⟩ = match Color.parse? text with
              | some color => some (.constant (.color color) (some p))
              | none => some (.literal text (some p)) := rfl
          simp only
          split
          · rename_i color hparse
            exact hleaf (by rw [hcolor, hparse])
          · rename_i hparse
            exact hleaf (by rw [hcolor, hparse])
      | call name =>
          refine Consumes.cons ((harguments rest).bind fun es used tokens hes => consumes_none ?_)
          obtain ⟨k, ts, u, rfl, hu, hk⟩ := hes
          rw [List.append_nil]
          exact ⟨k, hk.call rfl hu⟩
      | lparen =>
          exact Consumes.cons ((hinner rest).bind fun es used tokens hes =>
            reads_closeParentheses rfl hes)
      | rparen => exact Consumes.cons (consumes_none ⟨1, .closer rfl⟩)
      | var | word | access | comma | plus | minus | star | slash => exact hleaf rfl

/-- Only nothing is read from no tokens. -/
theorem ReadAs.of_nil (h : ReadAs k ts part) (hts : ts = []) :
    part = .items [] ∨ part = .arguments [] := by
  induction h with
  | leaf | closer | signed | negated | group | call | separator | comma | argument => cases hts
  | noItems => exact Or.inl rfl
  | noArguments => exact Or.inr rfl
  | operation => cases (List.append_eq_nil_iff.mp hts).2
  | item _ _ _ ih => rcases ih (List.append_eq_nil_iff.mp hts).1 with h | h <;> cases h

/-- A token at which a list does not stop gives it an item. -/
theorem items_ne_nil {n depth : Nat} {stops : List TokenKind} {separated : Bool} {t : Token}
    {rest tokens : List Token} {es : List Expr} (ht : stops.contains t.kind = false)
    (h : items last n depth stops separated (t :: rest) = .ok (es, tokens)) : es ≠ [] := by
  cases n with
  | zero => cases h
  | succ n =>
      rw [items, if_neg (Bool.eq_false_iff.mp ht)] at h
      split at h
      · obtain ⟨⟨more, tokens'⟩, -, h⟩ := exists_of_bind_eq_ok h
        cases h
        simp
      · obtain ⟨⟨item, middle⟩, -, h⟩ := exists_of_bind_eq_ok h
        obtain ⟨⟨more, tokens'⟩, -, h⟩ := exists_of_bind_eq_ok h
        cases h
        simp

/-- **Whatever is read is read in this way**, as items and as arguments. -/
theorem reads_lists : ∀ n : Nat,
    (∀ depth stops separated ts, Consumes ReadsItems ts (items last n depth stops separated ts)) ∧
      ∀ depth ts, Consumes ReadsArguments ts (arguments last n depth ts)
  | 0 => ⟨fun _ _ _ _ => consumes_fault _, fun _ _ => consumes_fault _⟩
  | n + 1 => by
      obtain ⟨hitems, harguments⟩ := reads_lists n
      constructor
      · intro depth stops separated ts
        cases ts with
        | nil => exact consumes_none ⟨0, .noItems⟩
        | cons t rest =>
            rw [items]
            split
            · exact consumes_none ⟨0, .noItems⟩
            · split
              · rename_i symbol hsymbol
                refine Consumes.cons ((hitems depth stops true rest).bind
                  fun more used tokens hmore => consumes_none ?_)
                obtain ⟨k, hk⟩ := hmore
                rw [List.append_nil]
                exact ⟨k, hk.separator hsymbol _ _⟩
              · refine (reads_sum (fun ts => reads_operand (hitems _ _ _) (harguments _) ts)
                  depth).bind fun item used tokens hitem => ?_
                refine (hitems depth stops false tokens).bind fun more used' tokens' hmore =>
                  consumes_none ?_
                obtain ⟨k, hk⟩ := hitem
                obtain ⟨l, hl⟩ := hmore
                rw [List.append_nil]
                exact ⟨k + l, hk.item hl _⟩
      · intro depth ts
        cases ts with
        | nil => exact consumes_fault _
        | cons t rest =>
            rw [arguments]
            split
            · rename_i hclose
              exact Consumes.cons (consumes_none ⟨0, [], t, rfl, hclose, .noArguments⟩)
            · rename_i hopen
              split
              · rename_i hcomma
                refine Consumes.cons fun es tokens h => ?_
                obtain ⟨used, hused, k, ts, u, rfl, hu, hk⟩ := harguments depth rest es tokens h
                exact ⟨ts ++ [u], hused, k, t :: ts, u, rfl, hu, hk.comma hcomma⟩
              · rename_i hcomma
                intro es tokens h
                obtain ⟨⟨inner, middle⟩, hread, h⟩ := exists_of_bind_eq_ok h
                obtain ⟨⟨more, tokens'⟩, hmore, h⟩ := exists_of_bind_eq_ok h
                cases h
                obtain ⟨used, hused, k, hk⟩ := hitems _ _ _ _ inner middle hread
                obtain ⟨used', rfl, l, ts, u, rfl, hu, hl⟩ := harguments _ _ more tokens hmore
                have hstop : [TokenKind.comma, .rparen].contains t.kind = false := by
                  simp [hcomma, hopen]
                cases used with
                | nil =>
                    rcases hk.of_nil rfl with heq | heq
                    · cases heq
                      exact absurd rfl (items_ne_nil hstop hread)
                    · cases heq
                | cons t' used =>
                    obtain ⟨rfl, -⟩ := List.cons.inj hused
                    exact ⟨_, hused.trans (List.append_assoc _ _ _).symm, k + l, t :: used ++ ts, u,
                      (List.append_assoc _ _ _).symm, hu, hk.argument hopen hl⟩

/-- A list without stops is read to its end. -/
theorem rest_of_items {n depth : Nat} {separated : Bool} {ts rest : List Token} {es : List Expr}
    (h : items last n depth [] separated ts = .ok (es, rest)) : rest = [] := by
  induction n generalizing separated ts es with
  | zero => cases h
  | succ n ih =>
      cases ts with
      | nil =>
          cases h
          rfl
      | cons t ts =>
          rw [items, if_neg (by simp)] at h
          split at h
          · obtain ⟨⟨more, tokens'⟩, hmore, h⟩ := exists_of_bind_eq_ok h
            cases h
            exact ih hmore
          · obtain ⟨⟨item, middle⟩, -, h⟩ := exists_of_bind_eq_ok h
            obtain ⟨⟨more, tokens'⟩, hmore, h⟩ := exists_of_bind_eq_ok h
            cases h
            exact ih hmore

end Lists

/-! ## Values -/

namespace Cursor

/-- **The tokens of a value close as many parentheses as they open**, those that are open
    before them included. -/
theorem balance_tokensFrom (stops : List Char) {n depth : Nat} {c last : Cursor} {ts : Tokens}
    (h : tokensFrom stops n depth c = .ok (ts, last)) : depth + balance ts.list = 0 := by
  induction n generalizing depth c ts with
  | zero => cases h
  | succ n ih =>
      rw [tokensFrom] at h
      simp only at h
      split at h
      · split at h
        · cases h
        · cases h
          simp only [balance_nil]
          omega
      · split at h
        · rename_i hstop
          cases h
          rw [hstop.1]
          rfl
        · split at h
          · cases h
          · split at h
            · split at h
              · obtain ⟨⟨more, last'⟩, hmore, h⟩ := exists_of_bind_eq_ok h
                cases h
                have hlater := ih hmore
                exact hlater
              · obtain ⟨⟨more, last'⟩, hmore, h⟩ := exists_of_bind_eq_ok h
                cases h
                rw [balance_cons]
                show _ + ((0 : Int) + _) = 0
                rw [Int.zero_add]
                exact ih hmore
            · obtain ⟨⟨kind, after⟩, -, h⟩ := exists_of_bind_eq_ok h
              simp only at h
              split at h
              · cases h
              · rename_i inner hinner
                obtain ⟨⟨more, last'⟩, hmore, h⟩ := exists_of_bind_eq_ok h
                cases h
                have hlater := ih hmore
                rw [nesting?_eq_some hinner] at hlater
                rw [balance_cons, ← Int.add_assoc]
                exact hlater

end Cursor

/-- Tokens that are spread have different positions. -/
theorem eq_of_position_eq {a b : Position} {ts : List Token} (h : Spread a b (Cursor.places ts))
    {t u : Token} (ht : t ∈ ts) (hu : u ∈ ts) (heq : t.position = u.position) : t = u := by
  have hnodup : (ts.map Token.position).Nodup := by
    refine List.pairwise_map.mpr ((List.pairwise_map.mp h.apart).imp fun hdisjoint heq => ?_)
    exact hdisjoint List.mem_cons_self (heq ▸ List.mem_cons_self)
  exact List.inj_on_of_nodup_map hnodup ht hu heq

/-- A closing parenthesis is taken as an operand in `(1 + )`, which is then refused for the
    group that is not closed. -/
theorem closer_as_operand : ∃ (opening one plus close : Token) (left : Expr) (stop : Cursor),
    (Cursor.ofText "(1 + )".toList).tokens [] = .ok (⟨[opening, one, plus, close], false⟩, stop) ∧
      close.kind = .rparen ∧
      items stop.position 3 1 [.rparen] true [one, plus, close] =
        .ok ([.operation .add left (.literal ")" (some close.position))], []) ∧
      (Cursor.ofText "(1 + )".toList).value [] = .error ⟨.missingParenthesis, stop.position⟩ :=
  ⟨_, _, _, _, _, _, rfl, rfl, rfl, rfl⟩

/-- **The parentheses of a value are closed.**  A value that is read is read to the end of its
    tokens, and each closing parenthesis among them closes a group or a call: none is taken as
    an operand, so that no part of the value stands at the position of one.  What stands
    between the parentheses of a group or a call comes in pairs, so that they match.  A closing
    parenthesis can be taken as an operand all the same: that happens in `(1 + )`, which is
    then refused. -/
theorem parentheses_closed {source : List Char} {c last : Cursor} {stops : List Char}
    {v : ValueText} (hc : c.On source) (h : c.value stops = .ok (v, last)) :
    (∃ ts n, c.tokens stops = .ok (ts, last) ∧
      items last.position n 0 [] true ts.list = .ok (v.items, []) ∧
      ReadAs 0 ts.list (.items v.items) ∧
      ∀ t ∈ ts.list, t.kind = .rparen → ∀ e ∈ v.items, t.position ∉ e.positions) ∧
    (∀ ts part, ReadAs 0 ts part → Paired ts) ∧
    ∃ (opening one plus close : Token) (left : Expr) (stop : Cursor),
      (Cursor.ofText "(1 + )".toList).tokens [] = .ok (⟨[opening, one, plus, close], false⟩, stop) ∧
        close.kind = .rparen ∧
        items stop.position 3 1 [.rparen] true [one, plus, close] =
          .ok ([.operation .add left (.literal ")" (some close.position))], []) ∧
        (Cursor.ofText "(1 + )".toList).value [] = .error ⟨.missingParenthesis, stop.position⟩ := by
  refine ⟨?_, fun ts part hread => hread.paired rfl, closer_as_operand⟩
  rw [Cursor.value] at h
  obtain ⟨⟨ts, last'⟩, hts, h⟩ := exists_of_bind_eq_ok h
  obtain ⟨⟨es, rest⟩, hes, h⟩ := exists_of_bind_eq_ok h
  cases h
  obtain rfl := rest_of_items hes
  obtain ⟨used, hused, k, hread⟩ := (reads_lists _).1 _ _ _ _ es [] hes
  rw [List.append_nil] at hused
  subst hused
  -- as many are closed as are opened, so none is left over as an operand
  have hbalance := Cursor.balance_tokensFrom stops hts
  rw [hread.closers] at hbalance
  obtain rfl : k = 0 := by omega
  refine ⟨ts, _, hts, hes, hread, fun t ht hclose e he hmem => ?_⟩
  obtain ⟨u, hu, hposition⟩ := hread.covered rfl e he t.position hmem
  obtain ⟨hu, hother⟩ := mem_others.mp hu
  obtain ⟨-, hspread⟩ := Cursor.spread_tokensFrom stops hc hts
  obtain rfl := eq_of_position_eq hspread hu ht hposition
  exact hother hclose

/-- A call with a group in it. -/
theorem parentheses_closed_in_call : ∃ v last t u ts,
    (Cursor.ofText "f((a))".toList).value [] = .ok (v, last) ∧
      ReadAs 0 (t :: u :: ts) (.items v.items) ∧ t.kind = .call "f" ∧ u.kind = .lparen := by
  obtain ⟨v, last, t, u, ts, h, htokens, ht, hu⟩ : ∃ v last t u ts,
      (Cursor.ofText "f((a))".toList).value [] = .ok (v, last) ∧
        (Cursor.ofText "f((a))".toList).tokens [] = .ok (⟨t :: u :: ts, false⟩, last) ∧
        t.kind = .call "f" ∧ u.kind = .lparen :=
    ⟨_, _, _, _, _, rfl, rfl, rfl, rfl⟩
  obtain ⟨⟨ts', n, htokens', -, hread, -⟩, -⟩ := parentheses_closed (Cursor.On.ofText _) h
  cases htokens.symm.trans htokens'
  exact ⟨v, last, t, u, ts, h, hread, ht, hu⟩

end Less.Parse
