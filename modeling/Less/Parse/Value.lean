import Less.Color.Parse
import Less.Parse.Token

/-!
# Values

The grammar of values over tokens: a list of sums, a sum of products, a product of signed operands, and operands that
are constants, names, calls or parentheses.

* A minus is a difference if it has blanks on both sides or on neither; otherwise it starts the next item.
* A slash is a quotient inside parentheses or between blanks; otherwise it is a separator, as in `12px/1.5`.
* Separators become literals of the list: a blank, a comma, a slash.
* Parentheses around one item vanish; around several they are kept as literals.

Lists and arguments recurse on a bound, for which twice the number of tokens is enough.
-/

namespace Less.Parse

/-- The number a token denotes. -/
def numberAt (text : String) (p : Position) : Except Fault Expr :=
  match Number.parse? text.toList with
  | some n => .ok (.constant (.number n) (some p))
  | none => .error ⟨.invalidNumber text, p⟩

/-- A literal that separates items. -/
def separator (text : String) : Expr :=
  .literal text none

/-- A blank, where there is one. -/
def blankIf (b : Bool) : List Expr :=
  if b then [separator " "] else []

/-- The symbol of a token that separates the items of a list. -/
def separatorText? : TokenKind → Option String
  | .comma => some ","
  | .slash => some "/"
  | _ => none

/-- The next token exists and has blanks before it. -/
def nextSpaced : List Token → Bool
  | [] => false
  | t :: _ => t.spaced

/-- Blanks follow, for which the end of the value counts too. -/
def spaceAfter : List Token → Bool
  | [] => true
  | t :: _ => t.spaced

/-- The operator of a sum that a token denotes before `rest`. -/
def sumOperator? (t : Token) (rest : List Token) : Option Operator :=
  match t.kind with
  | .plus => some .add
  | .minus => if t.spaced = spaceAfter rest then some .subtract else none
  | _ => none

/-- The operator of a product that a token denotes before `rest`, inside `depth` parentheses. -/
def productOperator? (depth : Nat) (t : Token) (rest : List Token) : Option Operator :=
  match t.kind with
  | .star => some .multiply
  | .slash => if 0 < depth ∨ (t.spaced ∧ spaceAfter rest) then some .divide else none
  | _ => none

/-- The literal of a token that is written as it is. -/
def tokenText : TokenKind → String
  | .number text | .color text | .word text => text
  | .var name | .call name => name
  | .access target _ => target
  | .lparen => "("
  | .rparen => ")"
  | .comma => ","
  | .plus => "+"
  | .minus => "-"
  | .star => "*"
  | .slash => "/"

/-- An expression with the tokens behind it. -/
abbrev Rest (α : Type) := α × List Token

/-! ## Operations -/

/-- Operands joined by operators, grouped from the left; `left` stands for those read already. -/
def chain (last : Position) (operator? : Token → List Token → Option Operator)
    (next : List Token → Except Fault (Rest Expr)) : Nat → Expr → List Token → Except Fault (Rest Expr)
  | 0, _, _ => .error ⟨.exhausted, last⟩
  | _ + 1, left, [] => .ok (left, [])
  | n + 1, left, t :: rest =>
    match operator? t rest with
    | none => .ok (left, t :: rest)
    | some op => do
      let (right, tokens) ← next rest
      chain last operator? next n (.operation op left right) tokens

/-- An operand with any number of minus signs; the sign of a number belongs to it. -/
def signed (operand : List Token → Except Fault (Rest Expr)) : List Token → Except Fault (Rest Expr)
  | [] => operand []
  | t :: rest =>
    if t.kind = .minus then
      match rest with
      | ⟨.number text, _, false⟩ :: tokens => do
        let e ← numberAt ("-" ++ text) t.position
        return (e, tokens)
      | rest => do
        let (e, tokens) ← signed operand rest
        return (e.negate.withPosition (some t.position), tokens)
    else operand (t :: rest)

/-- Signed operands joined by `*` and `/`. -/
def product (last : Position) (operand : List Token → Except Fault (Rest Expr)) (depth : Nat)
    (tokens : List Token) : Except Fault (Rest Expr) := do
  let (left, tokens) ← signed operand tokens
  chain last (productOperator? depth) (signed operand) (tokens.length + 1) left tokens

/-- Products joined by `+` and `-`. -/
def sum (last : Position) (operand : List Token → Except Fault (Rest Expr)) (depth : Nat)
    (tokens : List Token) : Except Fault (Rest Expr) := do
  let (left, tokens) ← product last operand depth tokens
  chain last sumOperator? (product last operand depth) (tokens.length + 1) left tokens

/-! ## Operands and lists -/

/-- The item between parentheses that open at `p`, or the items with the parentheses around them. -/
def closeParentheses (last p : Position) (inner : List Expr) : List Token → Except Fault (Rest Expr)
  | [] => .error ⟨.missingParenthesis, last⟩
  | t :: tokens =>
    if t.kind = .rparen then
      match inner with
      | [item] => .ok (item, tokens)
      | inner => .ok (.list (separator "(" :: inner ++ [separator ")"]) (some p), tokens)
    else .error ⟨.expected ')', t.position⟩

/-- A constant, a name, a call or parentheses. `inner` reads the list in parentheses, `arguments` those of a call. -/
def operand (last : Position) (inner arguments : List Token → Except Fault (Rest (List Expr))) :
    List Token → Except Fault (Rest Expr)
  | [] => .error ⟨.unexpectedEndOfValue, last⟩
  | ⟨kind, p, _⟩ :: rest =>
    match kind with
    | .number text => do
      let e ← numberAt text p
      return (e, rest)
    | .color text =>
      match Color.parse? text with
      | some color => .ok (.constant (.color color) (some p), rest)
      | none => .ok (.literal text (some p), rest)
    | .var name => .ok (.var name (some p), rest)
    | .access target member => .ok (.access (.ofText target) member (some p), rest)
    | .call name => do
      let (arguments, tokens) ← arguments rest
      return (.call name arguments (some p), tokens)
    | .lparen => do
      let (inner, tokens) ← inner rest
      closeParentheses last p inner tokens
    | kind => .ok (.literal (tokenText kind) (some p), rest)

mutual

/-- The items of a list inside `depth` parentheses, up to a stop. A blank between two items becomes an item, unless a
separator precedes it. -/
def items (last : Position) : Nat → Nat → List TokenKind → Bool → List Token → Except Fault (Rest (List Expr))
  | 0, _, _, _, _ => .error ⟨.exhausted, last⟩
  | _ + 1, _, _, _, [] => .ok ([], [])
  | n + 1, depth, stops, separated, t :: rest =>
    if stops.contains t.kind then .ok ([], t :: rest)
    else
      match separatorText? t.kind with
      | some symbol => do
        let before := blankIf (symbol = "/" && t.spaced && !separated)
        let (more, tokens) ← items last n depth stops true rest
        return (before ++ separator symbol :: blankIf (nextSpaced rest) ++ more, tokens)
      | none => do
        let operand := operand last (items last n (depth + 1) [.rparen] true) (arguments last n (depth + 1))
        let (item, tokens) ← sum last operand depth (t :: rest)
        let (more, tokens) ← items last n depth stops false tokens
        return (blankIf (t.spaced && !separated) ++ item :: more, tokens)
termination_by structural n => n

/-- The arguments of a call up to its closing parenthesis; commas between them are dropped. -/
def arguments (last : Position) : Nat → Nat → List Token → Except Fault (Rest (List Expr))
  | 0, _, _ => .error ⟨.exhausted, last⟩
  | _ + 1, _, [] => .error ⟨.missingParenthesis, last⟩
  | n + 1, depth, t :: rest =>
    if t.kind = .rparen then .ok ([], rest)
    else if t.kind = .comma then arguments last n depth rest
    else do
      let (inner, tokens) ← items last n depth [.comma, .rparen] true (t :: rest)
      let (more, tokens) ← arguments last n depth tokens
      return (Expr.ofItems inner t.position :: more, tokens)
termination_by structural n => n

end

/-- A value: its items and whether it is important. -/
structure ValueText where
  items : List Expr
  important : Bool

/-- Reads a value up to one of the stops, which is left to the caller. -/
def Cursor.value (c : Cursor) (stops : List Char) : Except Fault (Parsed ValueText) := do
  let (tokens, c) ← c.tokens stops
  let (items, _) ← Parse.items c.position (2 * (tokens.list.length + 1)) 0 [] true tokens.list
  return (⟨items, tokens.important⟩, c)

end Less.Parse
