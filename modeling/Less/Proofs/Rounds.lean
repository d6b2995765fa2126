import Less.Proofs.ReadWords

/-! # Loops and their rounds

    Every loop of the reader recurses on a bound.  A bound is no part of what is read: a
    loop is a sequence of **rounds**, and each of them gives the result of the loop or
    goes on in a state that has less of the text in front of it.

    * `Round` is what one round comes to, and `Progresses` says that a function is the
      loop of given rounds, without a bound, and that each of them advances.
    * `Settles` is what has to be known of a loop with a bound, which may call itself on
      smaller states within a round, too.  Then every bound above the size of the state
      gives the same result, what its rounds keep holds of it (`Settles.settledAt`), and
      the loop progresses (`Settles.progresses`).
    * A reader **ends** if no fault of it comes from a bound (`Ends`).

    The loops of the lists of a value are treated here. -/

namespace Less.Parse

/-! ## Rounds -/

/-- What a round of a loop comes to: the result, or a state to go on with and what is made
    of the result from there. -/
inductive Round (σ ρ : Type) where
  | done (result : ρ)
  | next (state : σ) (finish : ρ → ρ)

namespace Round

variable {α β σ τ ρ : Type}

/-- The result of a loop with this round. -/
def run (loop : σ → ρ) : Round σ ρ → ρ
  | done result => result
  | next state finish => finish (loop state)

/-- The round with its state seen as another one. -/
def map (g : σ → τ) : Round σ ρ → Round τ ρ
  | done result => .done result
  | next state finish => .next (g state) finish

/-- The round that starts with a reader. A fault ends the loop. -/
def read (x : Except Fault β) (k : β → Round σ (Except Fault α)) : Round σ (Except Fault α) :=
  match x with
  | .error f => .done (.error f)
  | .ok b => k b

@[simp] theorem run_map (loop : τ → ρ) (g : σ → τ) (r : Round σ ρ) :
    (r.map g).run loop = r.run fun s => loop (g s) := by
  cases r with
  | done | next => rfl

@[simp] theorem run_read (loop : σ → Except Fault α) (x : Except Fault β)
    (k : β → Round σ (Except Fault α)) : (read x k).run loop = x >>= fun b => (k b).run loop := by
  cases x with
  | error | ok => rfl

/-- The round goes on with less, or ends with a good result; a good result stays good. -/
inductive Fits (size : σ → Nat) (good : σ → ρ → Prop) (s : σ) : Round σ ρ → Prop where
  | done {result : ρ} (h : good s result) : Fits size good s (.done result)
  | next {state : σ} {finish : ρ → ρ} (hlt : size state < size s)
    (h : ∀ r, good state r → good s (finish r)) : Fits size good s (.next state finish)

theorem fits_ite {size : σ → Nat} {good : σ → ρ → Prop} {s : σ} {p : Prop} [Decidable p]
    {x y : Round σ ρ} (hx : x.Fits size good s) (hy : y.Fits size good s) :
    (if p then x else y).Fits size good s := by
  split
  · exact hx
  · exact hy

end Round

section Loops

variable {σ τ ρ : Type}

/-- **A loop makes progress**: it is its rounds one after the other, and a round that goes
    on does so in a smaller state. -/
structure Progresses (size : σ → Nat) (round : σ → Round σ ρ) (loop : σ → ρ) : Prop where
  unfolds : ∀ s, loop s = (round s).run loop
  advances : ∀ s s' finish, round s = .next s' finish → size s' < size s

/-- A loop that is part of another one. -/
theorem Progresses.comap {size : τ → Nat} {round : τ → Round τ ρ} {loop : τ → ρ}
    (h : Progresses size round loop) {g : σ → τ} {size' : σ → Nat} {round' : σ → Round σ ρ}
    (hround : ∀ s, round (g s) = (round' s).map g)
    (hsize : ∀ s s', size (g s') < size (g s) → size' s' < size' s) :
    Progresses size' round' fun s => loop (g s) where
  unfolds s := by rw [h.unfolds (g s), hround, Round.run_map]
  advances s s' finish hnext := by
    refine hsize s s' (h.advances (g s) (g s') finish ?_)
    rw [hround, hnext]
    rfl

/-- Every bound above the size of the state gives the same result, and a good one. -/
structure SettledAt (size : σ → Nat) (loop : Nat → σ → ρ) (good : σ → ρ → Prop) (s : σ) :
    Prop where
  eq : ∀ n m, size s < n → size s < m → loop n s = loop m s
  good : ∀ n, size s < n → good s (loop n s)

/-- What a loop with a bound has to satisfy. Within a round it may call itself on smaller
    states, where it is settled already. -/
structure Settles (size : σ → Nat) (round : σ → Round σ ρ) (loop : Nat → σ → ρ)
    (good : σ → ρ → Prop) : Prop where
  unfolds : ∀ n s, size s ≤ n → (∀ s', size s' < size s → SettledAt size loop good s') →
    loop (n + 1) s = (round s).run (loop n)
  fits : ∀ s, (∀ s', size s' < size s → SettledAt size loop good s') →
    (round s).Fits size good s

namespace Settles

variable {size : σ → Nat} {round : σ → Round σ ρ} {loop : Nat → σ → ρ} {good : σ → ρ → Prop}

/-- Two bounds that are large enough give the same round. -/
theorem eq_of_below (h : Settles size round loop good) {s : σ}
    (hbelow : ∀ s', size s' < size s → SettledAt size loop good s') {n m : Nat} (hn : size s ≤ n)
    (hm : size s ≤ m) : loop (n + 1) s = loop (m + 1) s := by
  have hfits := h.fits s hbelow
  rw [h.unfolds n s hn hbelow, h.unfolds m s hm hbelow]
  cases hround : round s with
  | done result => rfl
  | next s' finish =>
      rw [hround] at hfits
      cases hfits with
      | next hlt _ => exact congrArg finish ((hbelow s' hlt).eq n m (by omega) (by omega))

/-- **A loop is settled at every state**, by induction on the size. -/
theorem settledAt (h : Settles size round loop good) (s : σ) : SettledAt size loop good s := by
  induction hk : size s using Nat.strongRecOn generalizing s with
  | ind k ih =>
      subst hk
      have hbelow : ∀ s', size s' < size s → SettledAt size loop good s' :=
        fun s' hs' => ih (size s') hs' s' rfl
      refine ⟨fun n m hn hm => ?_, fun n hn => ?_⟩
      · obtain ⟨n, rfl⟩ := Nat.exists_eq_add_one_of_ne_zero (Nat.ne_zero_of_lt hn)
        obtain ⟨m, rfl⟩ := Nat.exists_eq_add_one_of_ne_zero (Nat.ne_zero_of_lt hm)
        exact h.eq_of_below hbelow (Nat.le_of_lt_succ hn) (Nat.le_of_lt_succ hm)
      · obtain ⟨n, rfl⟩ := Nat.exists_eq_add_one_of_ne_zero (Nat.ne_zero_of_lt hn)
        have hfits := h.fits s hbelow
        rw [h.unfolds n s (Nat.le_of_lt_succ hn) hbelow]
        generalize round s = r at hfits ⊢
        cases hfits with
        | done hgood => exact hgood
        | next hlt hgood => exact hgood _ ((hbelow _ hlt).good n (by omega))

/-- **The loop progresses**, with every bound above the size of the state. -/
theorem progresses (h : Settles size round loop good) {bound : σ → Nat}
    (hbound : ∀ s, size s < bound s) : Progresses size round fun s => loop (bound s) s := by
  have hadvances : ∀ s s' finish, round s = .next s' finish → size s' < size s := by
    intro s s' finish hnext
    have hfits := h.fits s fun s' _ => h.settledAt s'
    rw [hnext] at hfits
    cases hfits with
    | next hlt _ => exact hlt
  refine ⟨fun s => ?_, hadvances⟩
  rw [(h.settledAt s).eq (bound s) (size s + 1) (hbound s) (Nat.lt_succ_self _),
    h.unfolds (size s) s (Nat.le_refl _) fun s' _ => h.settledAt s']
  cases hround : round s with
  | done result => rfl
  | next s' finish =>
      exact congrArg finish
        ((h.settledAt s').eq _ _ (hadvances s s' finish hround) (hbound s'))

end Settles

end Loops

/-! ## Readers that end -/

section Ends

variable {α β γ σ : Type}

/-- The cause is one of the text, and not of a bound. -/
def Cause.isOfText : Cause → Bool
  | exhausted => false
  | _ => true

theorem Cause.isOfText_iff {cause : Cause} : cause.isOfText = true ↔ cause ≠ .exhausted := by
  cases cause <;> simp [isOfText]

/-- A fault comes from the text and not from a bound, and a result satisfies `P`. -/
inductive Ends (P : α → Prop) : Except Fault α → Prop where
  | fault {f : Fault} (h : f.cause.isOfText = true) : Ends P (.error f)
  | result {a : α} (h : P a) : Ends P (.ok a)

namespace Ends

variable {P : α → Prop} {Q : β → Prop} {x : Except Fault α}

theorem imp {P' : α → Prop} (hx : Ends P x) (h : ∀ a, P a → P' a) : Ends P' x := by
  cases hx with
  | fault hf => exact .fault hf
  | result ha => exact .result (h _ ha)

theorem bind {f : α → Except Fault β} (hx : Ends P x) (hf : ∀ a, P a → Ends Q (f a)) :
    Ends Q (x >>= f) := by
  cases hx with
  | fault h => exact .fault h
  | result h => exact hf _ h

theorem ite {p : Prop} [Decidable p] {y : Except Fault α} (hx : p → Ends P x) (hy : Ends P y) :
    Ends P (if p then x else y) := by
  split
  · exact hx ‹p›
  · exact hy

/-- Two ways to go on with a reader agree if they do so on its results. -/
theorem bind_congr {f g : α → Except Fault β} (hx : Ends P x) (h : ∀ a, P a → f a = g a) :
    x >>= f = x >>= g := by
  cases hx with
  | fault => rfl
  | result ha => exact h _ ha

/-- A round that starts with a reader that ends. -/
theorem fits_read {size : σ → Nat} {good : σ → Except Fault β → Prop} {s : σ}
    {k : α → Round σ (Except Fault β)} (hx : Ends P x)
    (hfault : ∀ f : Fault, f.cause.isOfText = true → good s (.error f))
    (hk : ∀ a, P a → (k a).Fits size good s) : (Round.read x k).Fits size good s := by
  cases hx with
  | fault h => exact .done (hfault _ h)
  | result h => exact hk _ h

end Ends

/-- The result of a loop with something made of it, in front of the same rest. -/
def withResult (g : α → β) (x : Except Fault (α × γ)) : Except Fault (β × γ) := do
  let (a, rest) ← x
  return (g a, rest)

theorem Ends.withResult {P : α × γ → Prop} {Q : β × γ → Prop} {x : Except Fault (α × γ)}
    (hx : Ends P x) {g : α → β} (h : ∀ a rest, P (a, rest) → Q (g a, rest)) :
    Ends Q (withResult g x) :=
  hx.bind fun _ hr => .result (h _ _ hr)

end Ends

/-! ## Tokens of an operand -/

/-- The reader ends and leaves fewer than `n` tokens. -/
abbrev LeavesTokens {α : Type} (n : Nat) (x : Except Fault (Rest α)) : Prop :=
  Ends (fun r => r.2.length < n) x

/-- The reader takes at least one of fewer than `n` tokens. -/
def TakesToken (n : Nat) (reader : List Token → Except Fault (Rest Expr)) : Prop :=
  ∀ ts, ts.length < n → LeavesTokens ts.length (reader ts)

theorem LeavesTokens.mono {α : Type} {n m : Nat} {x : Except Fault (Rest α)}
    (hx : LeavesTokens n x) (h : n ≤ m) : LeavesTokens m x :=
  hx.imp fun _ hr => Nat.lt_of_lt_of_le hr h

section Operands

variable {last : Position} {n : Nat}

theorem ends_numberAt (text : String) (p : Position) : Ends (fun _ => True) (numberAt text p) := by
  rw [numberAt]
  split
  · exact .result trivial
  · exact .fault rfl

theorem takesToken_signed {operand : List Token → Except Fault (Rest Expr)}
    (hoperand : TakesToken n operand) : TakesToken n (signed operand) := by
  intro ts
  induction ts with
  | nil => exact hoperand []
  | cons t rest ih =>
      intro hlt
      rw [List.length_cons] at hlt ⊢
      rw [signed.eq_def]
      simp only
      split
      · split
        · rename_i text q tokens
          refine (ends_numberAt _ _).bind fun e _ => .result ?_
          rw [List.length_cons]
          exact Nat.lt_succ_of_lt (Nat.lt_succ_self _)
        · refine (ih (by omega)).bind fun r hr => .result ?_
          exact Nat.lt_succ_of_lt hr
      · exact hoperand (t :: rest) hlt

theorem signed_congr {operand operand' : List Token → Except Fault (Rest Expr)}
    (h : ∀ ts, ts.length < n → operand ts = operand' ts) :
    ∀ ts, ts.length < n → signed operand ts = signed operand' ts := by
  intro ts
  induction ts with
  | nil => exact h []
  | cons t rest ih =>
      intro hlt
      have hrest := ih (Nat.lt_of_succ_lt hlt)
      rw [signed.eq_def, signed.eq_def]
      simp only
      split
      · split
        · rfl
        · rw [hrest]
      · exact h (t :: rest) hlt

section Chain

variable {operator? : Token → List Token → Option Operator}
  {next next' : List Token → Except Fault (Rest Expr)}

theorem leavesTokens_chain (hnext : TakesToken n next) :
    ∀ {k : Nat} {left : Expr} {ts : List Token}, ts.length < n → ts.length < k →
      LeavesTokens (ts.length + 1) (chain last operator? next k left ts) := by
  intro k
  induction k with
  | zero => intro left ts _ hk; exact absurd hk (Nat.not_lt_zero _)
  | succ k ih =>
      intro left ts hn hk
      cases ts with
      | nil => exact .result (Nat.lt_succ_self _)
      | cons t rest =>
          rw [List.length_cons] at hn hk
          rw [chain]
          split
          · exact .result (Nat.lt_succ_self _)
          · refine (hnext rest (by omega)).bind fun r hr => ?_
            refine LeavesTokens.mono (ih (by omega) (by omega)) ?_
            rw [List.length_cons]
            omega

theorem chain_congr (hnext : TakesToken n next)
    (h : ∀ ts, ts.length < n → next ts = next' ts) :
    ∀ {k : Nat} {left : Expr} {ts : List Token}, ts.length < n →
      chain last operator? next k left ts = chain last operator? next' k left ts := by
  intro k
  induction k with
  | zero => intro left ts _; rfl
  | succ k ih =>
      intro left ts hn
      cases ts with
      | nil => rfl
      | cons t rest =>
          rw [List.length_cons] at hn
          rw [chain, chain]
          split
          · rfl
          · rw [← h rest (by omega)]
            exact (hnext rest (by omega)).bind_congr fun r hr => ih (by omega)

end Chain

section Sum

variable {operand operand' : List Token → Except Fault (Rest Expr)}

theorem takesToken_product (hoperand : TakesToken n operand) (depth : Nat) :
    TakesToken n (product last operand depth) := by
  intro ts hlt
  refine (takesToken_signed hoperand ts hlt).bind fun r hr => ?_
  exact LeavesTokens.mono
    (leavesTokens_chain (takesToken_signed hoperand) (by omega) (Nat.lt_succ_self _)) hr

theorem product_congr (hoperand : TakesToken n operand)
    (h : ∀ ts, ts.length < n → operand ts = operand' ts) (depth : Nat) :
    ∀ ts, ts.length < n → product last operand depth ts = product last operand' depth ts := by
  intro ts hlt
  rw [product, product, ← signed_congr h ts hlt]
  exact (takesToken_signed hoperand ts hlt).bind_congr fun r hr =>
    chain_congr (takesToken_signed hoperand) (signed_congr h) (by omega)

theorem takesToken_sum (hoperand : TakesToken n operand) (depth : Nat) :
    TakesToken n (sum last operand depth) := by
  intro ts hlt
  refine (takesToken_product hoperand depth ts hlt).bind fun r hr => ?_
  exact LeavesTokens.mono
    (leavesTokens_chain (takesToken_product hoperand depth) (by omega) (Nat.lt_succ_self _)) hr

theorem sum_congr (hoperand : TakesToken n operand)
    (h : ∀ ts, ts.length < n → operand ts = operand' ts) (depth : Nat) :
    ∀ ts, ts.length < n → sum last operand depth ts = sum last operand' depth ts := by
  intro ts hlt
  rw [sum, sum, ← product_congr hoperand h depth ts hlt]
  exact (takesToken_product hoperand depth ts hlt).bind_congr fun r hr =>
    chain_congr (takesToken_product hoperand depth) (product_congr hoperand h depth) (by omega)

end Sum

variable {inner arguments inner' arguments' : List Token → Except Fault (Rest (List Expr))}

theorem leavesTokens_closeParentheses (p : Position) (es : List Expr) (ts : List Token) :
    LeavesTokens (ts.length + 1) (closeParentheses last p es ts) := by
  cases ts with
  | nil => exact .fault rfl
  | cons t rest =>
      have hrest : rest.length < (t :: rest).length + 1 := Nat.lt_succ_of_lt (Nat.lt_succ_self _)
      rw [closeParentheses.eq_def]
      simp only
      split
      · split
        · exact .result hrest
        · exact .result hrest
      · exact .fault rfl

/-- An operand takes its first token, and leaves to the lists in it what is behind. -/
theorem takesToken_operand
    (hinner : ∀ ts, ts.length < n → LeavesTokens (ts.length + 1) (inner ts))
    (harguments : ∀ ts, ts.length < n → LeavesTokens (ts.length + 1) (arguments ts)) :
    TakesToken (n + 1) (operand last inner arguments) := by
  intro ts hlt
  cases ts with
  | nil => exact .fault rfl
  | cons t rest =>
      have hrest : rest.length < n := Nat.lt_of_succ_lt_succ hlt
      have hone : ∀ e : Expr, LeavesTokens (rest.length + 1) (.ok (e, rest)) :=
        fun _ => .result (Nat.lt_succ_self _)
      obtain ⟨kind, p, spaced⟩ := t
      rw [operand.eq_def]
      cases kind with
      | number text => exact (ends_numberAt _ _).bind fun e _ => hone e
      | color text =>
          simp only
          split
          · exact hone _
          · exact hone _
      | call name => exact (harguments rest hrest).bind fun r hr => .result hr
      | lparen =>
          refine (hinner rest hrest).bind fun r hr => ?_
          exact LeavesTokens.mono (leavesTokens_closeParentheses p r.1 r.2) hr
      | var | word | access | rparen | comma | plus | minus | star | slash => exact hone _

theorem operand_congr (hinner : ∀ ts, ts.length < n → inner ts = inner' ts)
    (harguments : ∀ ts, ts.length < n → arguments ts = arguments' ts) :
    ∀ ts, ts.length < n + 1 →
      operand last inner arguments ts = operand last inner' arguments' ts := by
  intro ts hlt
  cases ts with
  | nil => rfl
  | cons t rest =>
      have hrest : rest.length < n := Nat.lt_of_succ_lt_succ hlt
      rw [operand.eq_def, operand.eq_def]
      simp only
      rw [hinner rest hrest, harguments rest hrest]

end Operands

/-! ## Lists and arguments -/

section Lists

variable (last : Position)

/-- A round of the items of a list. Lists in parentheses and the arguments of calls are left
    to other readers. -/
def itemRound (inner arguments : List Token → Except Fault (Rest (List Expr))) (depth : Nat)
    (stops : List TokenKind) :
    Bool × List Token → Round (Bool × List Token) (Except Fault (Rest (List Expr)))
  | (_, []) => .done (.ok ([], []))
  | (separated, t :: rest) =>
    if stops.contains t.kind then .done (.ok ([], t :: rest))
    else
      match separatorText? t.kind with
      | some symbol =>
        let before := blankIf (symbol = "/" && t.spaced && !separated)
        .next (true, rest) (withResult fun more =>
          before ++ separator symbol :: blankIf (nextSpaced rest) ++ more)
      | none =>
        .read (sum last (operand last inner arguments) depth (t :: rest)) fun (item, tokens) =>
          .next (false, tokens) (withResult fun more =>
            blankIf (t.spaced && !separated) ++ item :: more)

/-- A round of the arguments of a call. The items of an argument are left to another
    reader. -/
def argumentRound (list : List Token → Except Fault (Rest (List Expr))) :
    List Token → Round (List Token) (Except Fault (Rest (List Expr)))
  | [] => .done (.error ⟨.missingParenthesis, last⟩)
  | t :: rest =>
    if t.kind = .rparen then .done (.ok ([], rest))
    else if t.kind = .comma then .next rest id
    else
      .read (list (t :: rest)) fun (inner, tokens) =>
        .next tokens (withResult fun more => Expr.ofItems inner t.position :: more)

variable {last}

theorem items_succ (n depth : Nat) (stops : List TokenKind) (separated : Bool) (ts : List Token) :
    items last (n + 1) depth stops separated ts =
      (itemRound last (items last n (depth + 1) [.rparen] true) (arguments last n (depth + 1)) depth
        stops (separated, ts)).run fun s => items last n depth stops s.1 s.2 := by
  cases ts with
  | nil => rfl
  | cons t rest =>
      rw [items, itemRound]
      split
      · rfl
      · cases separatorText? t.kind with
        | some symbol => rfl
        | none =>
            rw [Round.run_read]
            rfl

theorem arguments_succ (n depth : Nat) (ts : List Token) :
    arguments last (n + 1) depth ts =
      (argumentRound last (items last n depth [.comma, .rparen] true) ts).run
        (arguments last n depth) := by
  cases ts with
  | nil => rfl
  | cons t rest =>
      rw [arguments, argumentRound]
      split
      · rfl
      · split
        · rfl
        · rw [Round.run_read]
          rfl

/-- What is being read: the items of a list, or the arguments of a call. -/
inductive ListState where
  | items (depth : Nat) (stops : List TokenKind) (separated : Bool) (tokens : List Token)
  | arguments (depth : Nat) (tokens : List Token)

namespace ListState

/-- The tokens in front. -/
def tokens : ListState → List Token
  | items _ _ _ tokens => tokens
  | arguments _ tokens => tokens

/-- Arguments count more than the items that are read as the first of them. -/
def size : ListState → Nat
  | items _ _ _ tokens => 2 * tokens.length
  | arguments _ tokens => 2 * tokens.length + 1

theorem size_lt (s : ListState) : s.size < 2 * (s.tokens.length + 1) := by
  cases s with
  | items | arguments =>
      simp only [size, tokens]
      omega

/-- Both loops with their bound. -/
def loop (last : Position) (n : Nat) : ListState → Except Fault (Rest (List Expr))
  | items depth stops separated tokens => Parse.items last n depth stops separated tokens
  | arguments depth tokens => Parse.arguments last n depth tokens

/-- A list leaves no more tokens than there are, and fewer if it does not stop at the first
    one; arguments leave fewer. -/
def Good : ListState → Except Fault (Rest (List Expr)) → Prop
  | items _ stops _ tokens => Ends fun r => r.2.length ≤ tokens.length ∧
      ∀ t rest, tokens = t :: rest → stops.contains t.kind = false → r.2.length < tokens.length
  | arguments _ tokens => LeavesTokens tokens.length

end ListState

/-- The items of a list inside parentheses, with the bound that is enough for them. -/
def readItems (last : Position) (depth : Nat) (stops : List TokenKind) (separated : Bool)
    (ts : List Token) : Except Fault (Rest (List Expr)) :=
  items last (2 * (ts.length + 1)) depth stops separated ts

/-- The arguments of a call, with the bound that is enough for them. -/
def readArguments (last : Position) (depth : Nat) (ts : List Token) :
    Except Fault (Rest (List Expr)) :=
  arguments last (2 * (ts.length + 1)) depth ts

/-- The rounds of both loops. -/
def ListState.round (last : Position) :
    ListState → Round ListState (Except Fault (Rest (List Expr)))
  | .items depth stops separated ts =>
    (itemRound last (readItems last (depth + 1) [.rparen] true) (readArguments last (depth + 1))
      depth stops (separated, ts)).map fun s => .items depth stops s.1 s.2
  | .arguments depth ts =>
    (argumentRound last (readItems last depth [.comma, .rparen] true) ts).map (.arguments depth)

section ItemRound

variable {depth : Nat} {stops : List TokenKind} {separated : Bool} {ts : List Token}
  {inner arguments inner' arguments' : List Token → Except Fault (Rest (List Expr))}
  (hinner : ∀ us, us.length < ts.length → LeavesTokens (us.length + 1) (inner us))
  (harguments : ∀ us, us.length < ts.length → LeavesTokens (us.length + 1) (arguments us))
include hinner harguments

theorem takesToken_item : TakesToken (ts.length + 1) (sum last (operand last inner arguments) depth) :=
  takesToken_sum (takesToken_operand hinner harguments) depth

/-- A round depends on the readers of shorter lists only. -/
theorem itemRound_congr (hinner' : ∀ us, us.length < ts.length → inner us = inner' us)
    (harguments' : ∀ us, us.length < ts.length → arguments us = arguments' us) :
    itemRound last inner arguments depth stops (separated, ts) =
      itemRound last inner' arguments' depth stops (separated, ts) := by
  cases ts with
  | nil => rfl
  | cons t rest =>
      have hsum : sum last (operand last inner arguments) depth (t :: rest) =
          sum last (operand last inner' arguments') depth (t :: rest) :=
        sum_congr (takesToken_operand hinner harguments) (operand_congr hinner' harguments') depth
          (t :: rest) (Nat.lt_succ_self _)
      rw [itemRound, itemRound, hsum]

/-- A round of a list takes at least one token. -/
theorem fits_itemRound :
    (itemRound last inner arguments depth stops (separated, ts)).Fits (fun s => 2 * s.2.length)
      (fun s => (ListState.items depth stops s.1 s.2).Good) (separated, ts) := by
  cases ts with
  | nil => exact .done (.result ⟨Nat.le_refl _, nofun⟩)
  | cons t rest =>
      have hlater : ∀ {us : List Token}, us.length < (t :: rest).length → ∀ b g r,
          (ListState.items depth stops b us).Good r →
          (ListState.items depth stops separated (t :: rest)).Good (withResult g r) := by
        intro us hus b g r hr
        refine Ends.withResult hr fun es tokens hle => ?_
        have hlt : tokens.length < (t :: rest).length := Nat.lt_of_le_of_lt hle.1 hus
        exact ⟨Nat.le_of_lt hlt, fun _ _ _ _ => hlt⟩
      have hsize : ∀ {us : List Token}, us.length < (t :: rest).length →
          2 * us.length < 2 * (t :: rest).length := fun hus => by omega
      rw [itemRound]
      split
      · rename_i hstop
        refine .done (.result ⟨Nat.le_refl _, fun t' rest' heq hgo => ?_⟩)
        cases heq
        rw [hgo] at hstop
        cases hstop
      · split
        · exact .next (hsize (Nat.lt_succ_self _)) (hlater (Nat.lt_succ_self _) _ _)
        · refine (takesToken_item hinner harguments (t :: rest) (Nat.lt_succ_self _)).fits_read
            (fun _ hf => .fault hf) fun r hr => ?_
          exact .next (hsize hr) (hlater hr _ _)

end ItemRound

theorem argumentRound_congr {list list' : List Token → Except Fault (Rest (List Expr))}
    {ts : List Token} (h : list ts = list' ts) :
    argumentRound last list ts = argumentRound last list' ts := by
  cases ts with
  | nil => rfl
  | cons t rest => rw [argumentRound, argumentRound, h]

/-- A round of arguments takes at least one token: the items of an argument are not empty. -/
theorem fits_argumentRound {list : List Token → Except Fault (Rest (List Expr))} {ts : List Token}
    (hlist : ∀ t rest, ts = t :: rest → [TokenKind.comma, .rparen].contains t.kind = false →
      LeavesTokens ts.length (list ts)) :
    (argumentRound last list ts).Fits (fun us => 2 * us.length + 1)
      (fun us => LeavesTokens us.length) ts := by
  cases ts with
  | nil => exact .done (.fault rfl)
  | cons t rest =>
      have hsize : ∀ {us : List Token}, us.length < (t :: rest).length →
          2 * us.length + 1 < 2 * (t :: rest).length + 1 := fun hus => by omega
      rw [argumentRound]
      split
      · exact .done (.result (Nat.lt_succ_self _))
      · rename_i hopen
        split
        · exact .next (hsize (Nat.lt_succ_self _)) fun r hr => hr.mono (Nat.le_succ _)
        · rename_i hcomma
          have hgo : [TokenKind.comma, .rparen].contains t.kind = false := by simp [hcomma, hopen]
          refine (hlist t rest rfl hgo).fits_read (fun _ hf => .fault hf) fun r hr => ?_
          exact .next (hsize hr) fun x hx => Ends.withResult hx fun _ _ hlt => Nat.lt_trans hlt hr

theorem Round.Fits.map {σ τ ρ : Type} {size : τ → Nat} {good : τ → ρ → Prop} {g : σ → τ} {s : σ}
    {r : Round σ ρ} (h : r.Fits (fun s => size (g s)) (fun s => good (g s)) s) :
    (r.map g).Fits size good (g s) := by
  cases h with
  | done hgood => exact .done hgood
  | next hlt hgood => exact .next hlt hgood

/-- What is known of the lists and arguments in a state. -/
abbrev ListState.SettledAt (last : Position) (s : ListState) : Prop :=
  Parse.SettledAt ListState.size (ListState.loop last) ListState.Good s

theorem readItems_of_settledAt {n depth : Nat} {stops : List TokenKind} {separated : Bool}
    {ts : List Token} (h : (ListState.items depth stops separated ts).SettledAt last)
    (hn : 2 * ts.length < n) :
    readItems last depth stops separated ts = items last n depth stops separated ts ∧
      LeavesTokens (ts.length + 1) (readItems last depth stops separated ts) :=
  ⟨h.eq _ n (by simp only [ListState.size]; omega) hn,
    (h.good _ (by simp only [ListState.size]; omega)).imp fun _ hr => Nat.lt_succ_of_le hr.1⟩

theorem readArguments_of_settledAt {n depth : Nat} {ts : List Token}
    (h : (ListState.arguments depth ts).SettledAt last) (hn : 2 * ts.length + 1 < n) :
    readArguments last depth ts = arguments last n depth ts ∧
      LeavesTokens (ts.length + 1) (readArguments last depth ts) :=
  ⟨h.eq _ n (by simp only [ListState.size]; omega) hn,
    LeavesTokens.mono (h.good _ (by simp only [ListState.size]; omega)) (Nat.le_succ _)⟩

/-- **The loops of lists and arguments settle.** -/
theorem settles_lists :
    Settles ListState.size (ListState.round last) (ListState.loop last) ListState.Good where
  unfolds n s hn hbelow := by
    cases s with
    | items depth stops separated ts =>
        replace hn : 2 * ts.length ≤ n := hn
        have hinner := fun (us : List Token) (hus : us.length < ts.length) =>
          readItems_of_settledAt (hbelow (.items (depth + 1) [.rparen] true us)
            (by simp only [ListState.size]; omega)) (show 2 * us.length < n by omega)
        have harguments := fun (us : List Token) (hus : us.length < ts.length) =>
          readArguments_of_settledAt (hbelow (.arguments (depth + 1) us)
            (by simp only [ListState.size]; omega)) (show 2 * us.length + 1 < n by omega)
        rw [ListState.loop, items_succ, ListState.round, Round.run_map,
          itemRound_congr (fun us hus => (hinner us hus).2) (fun us hus => (harguments us hus).2)
            (fun us hus => (hinner us hus).1) (fun us hus => (harguments us hus).1)]
        rfl
    | arguments depth ts =>
        replace hn : 2 * ts.length + 1 ≤ n := hn
        have hlist := readItems_of_settledAt
          (hbelow (.items depth [.comma, .rparen] true ts) (Nat.lt_succ_self _)) hn
        rw [ListState.loop, arguments_succ, ListState.round, Round.run_map,
          argumentRound_congr hlist.1]
        rfl
  fits s hbelow := by
    cases s with
    | items depth stops separated ts =>
        rw [ListState.round]
        refine Round.Fits.map (g := fun s => ListState.items depth stops s.1 s.2)
          (s := (separated, ts)) ?_
        refine fits_itemRound (fun us hus => ?_) fun us hus => ?_
        · exact (readItems_of_settledAt (hbelow (.items (depth + 1) [.rparen] true us)
            (by simp only [ListState.size]; omega)) (Nat.lt_succ_self _)).2
        · exact (readArguments_of_settledAt (hbelow (.arguments (depth + 1) us)
            (by simp only [ListState.size]; omega)) (Nat.lt_succ_self _)).2
    | arguments depth ts =>
        rw [ListState.round]
        refine Round.Fits.map (s := ts) ?_
        refine fits_argumentRound fun t rest hts hgo => ?_
        have hgood := (hbelow (.items depth [.comma, .rparen] true ts) (Nat.lt_succ_self _)).good
          (2 * (ts.length + 1)) (by simp only [ListState.size]; omega)
        exact hgood.imp fun _ hr => hr.2 t rest hts hgo

theorem progresses_lists : Progresses ListState.size (ListState.round last)
    fun s => s.loop last (2 * (s.tokens.length + 1)) :=
  settles_lists.progresses ListState.size_lt

/-- **The loop of a list progresses.** -/
theorem progresses_items (depth : Nat) (stops : List TokenKind) :
    Progresses (fun s => s.2.length)
      (itemRound last (readItems last (depth + 1) [.rparen] true) (readArguments last (depth + 1))
        depth stops)
      fun s => readItems last depth stops s.1 s.2 :=
  progresses_lists.comap (g := fun s : Bool × List Token => .items depth stops s.1 s.2)
    (fun _ => rfl) fun _ _ h => Nat.lt_of_mul_lt_mul_left h

/-- **The loop of the arguments of a call progresses.** -/
theorem progresses_arguments (depth : Nat) :
    Progresses List.length (argumentRound last (readItems last depth [.comma, .rparen] true))
      (readArguments last depth) :=
  progresses_lists.comap (g := .arguments depth) (fun _ => rfl)
    fun _ _ h => Nat.lt_of_mul_lt_mul_left (Nat.lt_of_succ_lt_succ h)

/-- A list ends, whatever is in it. -/
theorem leavesTokens_readItems (depth : Nat) (stops : List TokenKind) (separated : Bool)
    (ts : List Token) : LeavesTokens (ts.length + 1) (readItems last depth stops separated ts) :=
  (readItems_of_settledAt (settles_lists.settledAt _) (Nat.lt_succ_self _)).2

end Lists

end Less.Parse
