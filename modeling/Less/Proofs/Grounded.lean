import Less.Parse.Value
import Less.Proofs.Anchored
import Less.Proofs.Location

/-! # Positions of values that were read

    All positions that reading puts into an expression are in the source text.
    Only separators have none, and what starts with a separator; both are inert.
    So every expression that is read is **grounded**: anchored, and inert if it
    has no position.  Lists and arguments call each other, which `rests_lists`
    takes in one induction. -/

namespace Less

/-! ## Expressions as they are read -/

/-- The expression is anchored, and inert if it has no position. -/
structure Expr.Grounded (S : Position → Prop) (e : Expr) : Prop where
  anchored : e.Anchored S
  inert : e.position = none → e.Inert

namespace Expr

variable {S : Position → Prop}

/-- An anchored expression with a position is grounded. -/
theorem Anchored.grounded {e : Expr} (h : e.Anchored S) {p : Position}
    (hp : e.position = some p) : e.Grounded S :=
  ⟨h, fun hnone => by rw [hp] at hnone; cases hnone⟩

theorem grounded_literal {s : String} {p : Position} (hp : S p) : (literal s (some p)).Grounded S :=
  (Anchored.literal (Located.forall ⟨p, rfl, hp⟩)).grounded rfl

theorem grounded_constant {v : Value} {p : Position} (hp : S p) :
    (constant v (some p)).Grounded S :=
  (Anchored.constant (Located.forall ⟨p, rfl, hp⟩)).grounded rfl

/-- An operation has the position of its left operand, or starts with an inert
    one. -/
theorem Grounded.operation {op : Operator} {left right : Expr} (hleft : left.Grounded S)
    (hright : right.Grounded S) : (operation op left right).Grounded S :=
  ⟨.binary hleft.anchored.position hleft.inert hleft.anchored hright.anchored,
    fun hnone => .binary (hleft.inert hnone)⟩

theorem Grounded.negate {e : Expr} (h : e.Grounded S) {p : Position} (hp : S p) :
    (e.negate.withPosition (some p)).Grounded S :=
  (Anchored.binary (Located.forall ⟨p, rfl, hp⟩) nofun (.constant h.anchored.position)
    h.anchored).grounded rfl

theorem Grounded.ofItems {items : List Expr} (h : ∀ e ∈ items, e.Grounded S) {p : Position}
    (hp : S p) : (ofItems items p).Grounded S := by
  match items with
  | [] => exact grounded_literal hp
  | [item] => exact h item List.mem_cons_self
  | _ :: _ :: _ => exact (Anchored.list ⟨p, rfl, hp⟩ fun e he => (h e he).anchored).grounded rfl

end Expr

namespace Parse

variable {source : List Char} {c : Cursor}

/-! ## Values -/

/-- The texts of separators. -/
def separatorTexts : List String :=
  [" ", ",", "/", "(", ")"]

/-- Separators are no colors. -/
theorem grounded_separator {S : Position → Prop} {text : String} (h : text ∈ separatorTexts) :
    (separator text).Grounded S := by
  have hall : ∀ t ∈ separatorTexts, Color.keyword? (trimText t) = none := by decide +kernel
  exact ⟨.literal nofun, fun _ => .literal (hall text h)⟩

theorem grounded_blankIf {S : Position → Prop} (b : Bool) : ∀ e ∈ blankIf b, e.Grounded S := by
  cases b with
  | false => exact nofun
  | true => exact List.forall_mem_singleton.mpr (grounded_separator (by decide))

/-- The result satisfies `P`, and the positions of the tokens behind it and of a
    fault are in the text. -/
abbrev Rests {α : Type} (source : List Char) (P : α → Prop) (x : Except Fault (Rest α)) : Prop :=
  Sound source (fun r => P r.1 ∧ Cursor.TokensIn source r.2) x

/-- The expression is grounded in the text. -/
abbrev InText (source : List Char) (e : Expr) : Prop :=
  e.Grounded (Position.IsIn source)

/-- All expressions are grounded in the text. -/
abbrev AllInText (source : List Char) (es : List Expr) : Prop :=
  ∀ e ∈ es, InText source e

theorem sound_numberAt (text : String) {p : Position} (hp : p.IsIn source) :
    Sound source (InText source) (numberAt text p) := by
  rw [numberAt]
  split
  · exact .result (Expr.grounded_constant hp)
  · exact .fault hp

section Operations

variable {last : Position} (hlast : last.IsIn source)
include hlast

theorem rests_chain {operator? : Token → List Token → Option Operator}
    {next : List Token → Except Fault (Rest Expr)}
    (hnext : ∀ ts, Cursor.TokensIn source ts → Rests source (InText source) (next ts)) :
    ∀ {n : Nat} {left : Expr} {ts : List Token}, InText source left → Cursor.TokensIn source ts →
      Rests source (InText source) (chain last operator? next n left ts) := by
  intro n
  induction n with
  | zero => intro left ts _ _; exact .fault hlast
  | succ n ih =>
      intro left ts hleft hts
      cases ts with
      | nil => exact .result ⟨hleft, hts⟩
      | cons t rest =>
          rw [chain]
          split
          · exact .result ⟨hleft, hts⟩
          · refine (hnext rest (List.forall_mem_cons.mp hts).2).bind fun r hr => ?_
            exact ih (hleft.operation hr.1) hr.2

variable {operand : List Token → Except Fault (Rest Expr)}
  (hoperand : ∀ ts, Cursor.TokensIn source ts → Rests source (InText source) (operand ts))
include hoperand

omit hlast in
theorem rests_signed : ∀ {ts : List Token}, Cursor.TokensIn source ts →
    Rests source (InText source) (signed operand ts) := by
  intro ts
  induction ts with
  | nil => intro hts; exact hoperand [] hts
  | cons t rest ih =>
      intro hts
      obtain ⟨ht, hrest⟩ := List.forall_mem_cons.mp hts
      rw [signed.eq_def]
      simp only
      split
      · split
        · refine (sound_numberAt _ ht).bind fun e he => ?_
          exact .result ⟨he, (List.forall_mem_cons.mp hrest).2⟩
        · exact (ih hrest).bind fun r hr => .result ⟨hr.1.negate ht, hr.2⟩
      · exact hoperand _ hts

theorem rests_product (depth : Nat) {ts : List Token} (hts : Cursor.TokensIn source ts) :
    Rests source (InText source) (product last operand depth ts) :=
  (rests_signed hoperand hts).bind fun _ hr =>
    rests_chain hlast (fun _ => rests_signed hoperand) hr.1 hr.2

theorem rests_sum (depth : Nat) {ts : List Token} (hts : Cursor.TokensIn source ts) :
    Rests source (InText source) (sum last operand depth ts) :=
  (rests_product hlast hoperand depth hts).bind fun _ hr =>
    rests_chain hlast (fun _ => rests_product hlast hoperand depth) hr.1 hr.2

end Operations

section Lists

variable {last : Position} (hlast : last.IsIn source)
include hlast

theorem rests_closeParentheses {p : Position} (hp : p.IsIn source) {inner : List Expr}
    (hinner : AllInText source inner) {ts : List Token} (hts : Cursor.TokensIn source ts) :
    Rests source (InText source) (closeParentheses last p inner ts) := by
  cases ts with
  | nil => exact .fault hlast
  | cons t rest =>
      obtain ⟨ht, hrest⟩ := List.forall_mem_cons.mp hts
      rw [closeParentheses.eq_def]
      simp only
      split
      · split
        · exact .result ⟨hinner _ List.mem_cons_self, hrest⟩
        · refine .result ⟨(Expr.Anchored.list ⟨p, rfl, hp⟩ fun e he => ?_).grounded rfl, hrest⟩
          rcases List.mem_cons.mp he with rfl | he
          · exact (grounded_separator (by decide)).anchored
          · rcases List.mem_append.mp he with he | he
            · exact (hinner e he).anchored
            · rw [List.mem_singleton.mp he]
              exact (grounded_separator (by decide)).anchored
      · exact .fault ht

theorem rests_operand {inner arguments : List Token → Except Fault (Rest (List Expr))}
    (hinner : ∀ ts, Cursor.TokensIn source ts → Rests source (AllInText source) (inner ts))
    (harguments : ∀ ts, Cursor.TokensIn source ts → Rests source (AllInText source) (arguments ts))
    {ts : List Token} (hts : Cursor.TokensIn source ts) :
    Rests source (InText source) (operand last inner arguments ts) := by
  cases ts with
  | nil => exact .fault hlast
  | cons t rest =>
      obtain ⟨kind, p, spaced⟩ := t
      obtain ⟨hp, hrest⟩ : p.IsIn source ∧ Cursor.TokensIn source rest :=
        List.forall_mem_cons.mp hts
      have hlocated : Located (Position.IsIn source) (some p) := ⟨p, rfl, hp⟩
      rw [operand.eq_def]
      cases kind with
      | number text => exact (sound_numberAt text hp).bind fun e he => .result ⟨he, hrest⟩
      | color text =>
          simp only
          split
          · exact .result ⟨Expr.grounded_constant hp, hrest⟩
          · exact .result ⟨Expr.grounded_literal hp, hrest⟩
      | var name => exact .result ⟨(Expr.Anchored.var hlocated).grounded rfl, hrest⟩
      | access target member => exact .result ⟨(Expr.Anchored.access hlocated).grounded rfl, hrest⟩
      | call name =>
          refine (harguments rest hrest).bind fun r hr => .result ⟨?_, hr.2⟩
          exact (Expr.Anchored.call hlocated fun e he => (hr.1 e he).anchored).grounded rfl
      | lparen =>
          exact (hinner rest hrest).bind fun r hr => rests_closeParentheses hlast hp hr.1 hr.2
      | word text => exact .result ⟨Expr.grounded_literal hp, hrest⟩
      | rparen | comma | plus | minus | star | slash =>
          exact .result ⟨Expr.grounded_literal hp, hrest⟩

/-- **All items and arguments that are read are grounded.** -/
theorem rests_lists : ∀ n : Nat,
    (∀ depth stops separated ts, Cursor.TokensIn source ts →
      Rests source (AllInText source) (items last n depth stops separated ts)) ∧
    (∀ depth ts, Cursor.TokensIn source ts →
      Rests source (AllInText source) (arguments last n depth ts))
  | 0 => ⟨fun _ _ _ _ _ => .fault hlast, fun _ _ _ => .fault hlast⟩
  | n + 1 => by
      obtain ⟨hitems, harguments⟩ := rests_lists n
      constructor
      · intro depth stops separated ts hts
        cases ts with
        | nil => exact .result ⟨nofun, hts⟩
        | cons t rest =>
            have hrest := (List.forall_mem_cons.mp hts).2
            rw [items]
            split
            · exact .result ⟨nofun, hts⟩
            · split
              · rename_i symbol hsymbol
                have hseparator : InText source (separator symbol) := by
                  refine grounded_separator ?_
                  cases hkind : t.kind <;> rw [hkind] at hsymbol <;> cases hsymbol <;>
                    decide
                refine (hitems depth stops true rest hrest).bind fun r hr => .result ⟨?_, hr.2⟩
                intro e he
                simp only [List.mem_append, List.mem_cons] at he
                rcases he with (he | rfl | he) | he
                · exact grounded_blankIf _ e he
                · exact hseparator
                · exact grounded_blankIf _ e he
                · exact hr.1 e he
              · refine (rests_sum hlast (fun ts hts => rests_operand hlast (hitems _ _ _)
                  (harguments _) hts) depth hts).bind fun r hr => ?_
                refine (hitems depth stops false r.2 hr.2).bind fun s hs => .result ⟨?_, hs.2⟩
                intro e he
                rcases List.mem_append.mp he with he | he
                · exact grounded_blankIf _ e he
                · rcases List.mem_cons.mp he with rfl | he
                  · exact hr.1
                  · exact hs.1 e he
      · intro depth ts hts
        cases ts with
        | nil => exact .fault hlast
        | cons t rest =>
            obtain ⟨ht, hrest⟩ := List.forall_mem_cons.mp hts
            rw [arguments]
            split
            · exact .result ⟨nofun, hrest⟩
            · split
              · exact harguments depth rest hrest
              · refine (hitems _ _ _ _ hts).bind fun r hr => ?_
                refine (harguments depth r.2 hr.2).bind fun s hs => .result ⟨?_, hs.2⟩
                exact List.forall_mem_cons.mpr ⟨.ofItems hr.1 ht, hs.1⟩

end Lists

namespace Cursor

theorem reads_value (h : c.On source) (stops : List Char) :
    Reads source (fun v => AllInText source v.items) (c.value stops) := by
  rw [value]
  refine (reads_tokensFrom stops h).bind fun r hr => ?_
  exact ((rests_lists hr.2.isIn _).1 _ _ _ _ hr.1).bind fun s hs => .result ⟨hs.1, hr.2⟩

end Cursor

end Parse

end Less
