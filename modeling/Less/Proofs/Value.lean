import Less.Eval
import Less.Function.Builtin
import Less.Proofs.Outcome

/-! # What evaluation leaves

    The values of expressions, and what a second evaluation does to them.

    * `Expr.IsValue functions n v`: `v` is built from constants, literals, calls
      of unknown functions and operations that have an operand without a
      constant, at most `n` deep.  Evaluation within a bound `n` gives such
      values only (`eval_isValue`).
    * `Expr.compact` drops the separators among the arguments of calls, which
      are not written anyway (`text_compact`).  A value evaluates to its compact
      form, in every scope and within the bound in which it was found
      (`eval_of_isValue`), so a second evaluation neither fails nor looks
      anything up.

    The route through the built-in functions is `Function.Plain`: their results
    are constants or literals, and they do not see what `compact` drops. -/

namespace Less

namespace Expr

/-! ## Expressions without separators among arguments -/

mutual

/-- The expression without the separators among the arguments of its calls. -/
def compact : Expr → Expr
  | constant v p => constant v p
  | literal s p => literal s p
  | var name p => var name p
  | list items p => list items p
  | call name arguments p => call name (compactAll arguments) p
  | access target member p => access target member p
  | binary op left right p => binary op left.compact right.compact p

/-- Arguments without separators, each compact. -/
def compactAll : List Expr → List Expr
  | [] => []
  | e :: es => if e.isSeparator then compactAll es else e.compact :: compactAll es

end

@[simp] theorem position_compact (e : Expr) : e.compact.position = e.position := by
  cases e <;> rfl

@[simp] theorem constant?_compact (e : Expr) : e.compact.constant? = e.constant? := by
  cases e <;> rfl

@[simp] theorem isSeparator_compact (e : Expr) : e.compact.isSeparator = e.isSeparator := by
  cases e <;> rfl

/-- Arguments that are compacted are those that are not separators. -/
theorem compactAll_eq (es : List Expr) :
    compactAll es = (es.filter fun e => !e.isSeparator).map compact := by
  induction es with
  | nil => rfl
  | cons e es ih =>
      rw [compactAll]
      cases h : e.isSeparator with
      | true => rw [if_pos rfl, ih, List.filter_cons_of_neg (by simp [h])]
      | false => rw [if_neg (by simp), ih, List.filter_cons_of_pos (by simp [h]), List.map_cons]

mutual

/-- **A compact expression is written like the whole one.** -/
theorem text_compact : ∀ e : Expr, e.compact.text = e.text
  | constant _ _ => rfl
  | literal _ _ => rfl
  | var _ _ => rfl
  | list _ _ => rfl
  | access _ _ _ => rfl
  | call name arguments p => by
      rw [compact, text, text, argumentTexts_compactAll arguments]
  | binary op left right p => by
      rw [compact, text, text, text_compact left, text_compact right]

theorem argumentTexts_compactAll : ∀ es : List Expr,
    argumentTexts (compactAll es) = argumentTexts es
  | [] => rfl
  | e :: es => by
      rw [compactAll, argumentTexts]
      cases h : e.isSeparator with
      | true => rw [if_pos rfl, if_pos rfl, argumentTexts_compactAll es]
      | false =>
          rw [if_neg (by simp), if_neg (by simp), argumentTexts, isSeparator_compact, h,
            if_neg (by simp), text_compact e, argumentTexts_compactAll es]

end

attribute [simp] text_compact

mutual

/-- Nothing is left to drop. -/
theorem compact_compact : ∀ e : Expr, e.compact.compact = e.compact
  | constant _ _ => rfl
  | literal _ _ => rfl
  | var _ _ => rfl
  | list _ _ => rfl
  | access _ _ _ => rfl
  | call name arguments p => by
      rw [compact, compact, compactAll_compactAll arguments]
  | binary op left right p => by
      rw [compact, compact, compact_compact left, compact_compact right]

theorem compactAll_compactAll : ∀ es : List Expr, compactAll (compactAll es) = compactAll es
  | [] => rfl
  | e :: es => by
      rw [compactAll]
      cases h : e.isSeparator with
      | true => rw [if_pos rfl, compactAll_compactAll es]
      | false =>
          rw [if_neg (by simp), compactAll, isSeparator_compact, h, if_neg (by simp),
            compact_compact e, compactAll_compactAll es]

end

theorem textOfAll_map_compact (es : List Expr) : textOfAll (es.map compact) = textOfAll es := by
  induction es with
  | nil => rfl
  | cons e es ih => rw [List.map_cons, textOfAll, textOfAll, text_compact, ih]

/-! ## Constants and literals -/

/-- A constant or a literal. -/
def isAtom : Expr → Bool
  | constant _ _ | literal _ _ => true
  | _ => false

end Expr

/-! ## The built-in functions -/

namespace Argument

open Less.Expr

@[simp] theorem kindError_compact (name : String) (place : Nat) (expected : String) (a : Expr) :
    kindError name place expected a.compact = kindError name place expected a := by
  rw [kindError, kindError, text_compact, position_compact]

@[simp] theorem color_compact (name : String) (place : Nat) (a : Expr) :
    color name place a.compact = color name place a := by
  rw [color, color, constant?_compact, kindError_compact]

@[simp] theorem number_compact (name : String) (place : Nat) (a : Expr) :
    number name place a.compact = number name place a := by
  rw [number, number, constant?_compact, kindError_compact]

@[simp] theorem percentage_compact (name : String) (place : Nat) (a : Expr) :
    percentage name place a.compact = percentage name place a := by
  rw [percentage, percentage, constant?_compact, kindError_compact]

@[simp] theorem component_compact (name : String) (place : Nat) (a : Expr) :
    component name place a.compact = component name place a := by
  rw [component, component, number_compact]

end Argument

namespace Function

open Less.Expr

/-- A result that, if it is one, is a constant or a literal. -/
def Atomic (x : Except Error Expr) : Prop :=
  ∀ v, x = .ok v → v.isAtom = true

theorem atomic_error (e : Error) : Atomic (.error e) :=
  fun _ h => nomatch h

theorem atomic_colorResult (c : Color) : Atomic (pure (colorResult c)) := by
  intro v h
  cases h
  rfl

theorem atomic_literal (s : String) (p : Option Position) : Atomic (.ok (literal s p)) := by
  intro v h
  cases h
  rfl

theorem atomic_bind {α : Type} (x : Except Error α) {f : α → Except Error Expr}
    (h : ∀ a, Atomic (f a)) : Atomic (x >>= f) := by
  cases x with
  | error e => exact atomic_error e
  | ok a => exact h a

/-- A function that gives constants and literals only, and for which compact
    arguments are as good as the whole ones. -/
structure Plain (f : Function) : Prop where
  atomic : ∀ name arguments, Atomic (f name arguments)
  compact : ∀ name arguments, f name (arguments.map Expr.compact) = f name arguments

theorem plain_adjustHsl (adjust : Hsl → Float → Hsl) : Plain (adjustHsl adjust) where
  atomic
    | _, [_, _] => atomic_bind _ fun _ => atomic_bind _ fun _ => atomic_colorResult _
    | _, [] | _, [_] | _, _ :: _ :: _ :: _ => atomic_error _
  compact
    | _, [_, _] => by simp [adjustHsl]
    | _, [] | _, [_] | _, _ :: _ :: _ :: _ => rfl

theorem plain_spin : Plain spin where
  atomic
    | name, [c, degrees] => by
        refine atomic_bind _ fun c => atomic_bind _ fun turn => ?_
        split
        · exact atomic_colorResult _
        · exact atomic_error _
    | _, [] | _, [_] | _, _ :: _ :: _ :: _ => atomic_error _
  compact
    | _, [_, _] => by simp [spin]
    | _, [] | _, [_] | _, _ :: _ :: _ :: _ => rfl

theorem plain_grayscale : Plain grayscale where
  atomic
    | _, [_] => atomic_bind _ fun _ => atomic_colorResult _
    | _, [] | _, _ :: _ :: _ => atomic_error _
  compact
    | _, [_] => by simp [grayscale]
    | _, [] | _, _ :: _ :: _ => rfl

theorem plain_argb : Plain argb where
  atomic
    | _, [_] => atomic_bind _ fun c => atomic_literal c.argbText none
    | _, [] | _, _ :: _ :: _ => atomic_error _
  compact
    | _, [_] => by simp [argb]
    | _, [] | _, _ :: _ :: _ => rfl

theorem plain_fade : Plain fade where
  atomic
    | _, [_, _] => atomic_bind _ fun _ => atomic_bind _ fun _ => atomic_colorResult _
    | _, [] | _, [_] | _, _ :: _ :: _ :: _ => atomic_error _
  compact
    | _, [_, _] => by simp [fade]
    | _, [] | _, [_] | _, _ :: _ :: _ :: _ => rfl

theorem plain_overlay : Plain overlay where
  atomic
    | _, [_, _] => atomic_bind _ fun _ => atomic_bind _ fun _ => atomic_colorResult _
    | _, [] | _, [_] | _, _ :: _ :: _ :: _ => atomic_error _
  compact
    | _, [_, _] => by simp [overlay]
    | _, [] | _, [_] | _, _ :: _ :: _ :: _ => rfl

theorem plain_ofComponents (build : (a b c alpha : Color.Component) → Color) :
    Plain (ofComponents build) where
  atomic
    | _, [_, _, _] =>
        atomic_bind _ fun _ => atomic_bind _ fun _ => atomic_bind _ fun _ => atomic_colorResult _
    | _, [_, _, _, _] =>
        atomic_bind _ fun _ => atomic_bind _ fun _ => atomic_bind _ fun _ =>
          atomic_bind _ fun _ => atomic_colorResult _
    | _, [] | _, [_] | _, [_, _] | _, _ :: _ :: _ :: _ :: _ :: _ => atomic_error _
  compact
    | _, [_, _, _] => by simp [ofComponents]
    | _, [_, _, _, _] => by simp [ofComponents]
    | _, [] | _, [_] | _, [_, _] | _, _ :: _ :: _ :: _ :: _ :: _ => rfl

theorem plain_escape : Plain escape where
  atomic
    | _, [_] => atomic_literal _ _
    | _, [] | _, _ :: _ :: _ => atomic_error _
  compact
    | _, [_] => by simp [escape]
    | _, [] | _, _ :: _ :: _ => rfl

@[simp] theorem fillOne_compact (letter : Char) (a : Expr) :
    fillOne letter a.compact = fillOne letter a := by
  rw [fillOne.eq_def, fillOne.eq_def, text_compact]
  cases a <;> rfl

/-- A template is filled by what the arguments look like. -/
theorem fill_map_compact (body : List Char) (arguments : List Expr) :
    fill body (arguments.map Expr.compact) = fill body arguments := by
  fun_induction fill body arguments with
  | case1 arguments => rw [fill]
  | case2 c rest ih => rfl
  | case3 c rest argument others h ih => rw [List.map_cons, fill, if_pos h, fillOne_compact, ih]
  | case4 c rest argument others h ih => rw [List.map_cons, fill, if_neg h, ← List.map_cons, ih]
  | case5 c rest arguments h₁ h₂ ih =>
      -- no placeholder starts here, whether or not arguments are left
      have hskip : ∀ c' rest', c = '%' → rest = c' :: rest' → False := by
        intro c' rest' hc hrest
        cases arguments with
        | nil => exact h₁ c' rest' rfl hc hrest
        | cons a as => exact h₂ c' rest' a as rfl hc hrest
      rw [fill, ih]
      · intro c' rest' _ hc hrest
        exact hskip c' rest' hc hrest
      · intro c' rest' a as _ hc hrest
        exact hskip c' rest' hc hrest

theorem plain_format : Plain format where
  atomic
    | _, [] => atomic_error _
    | name, template :: rest => by
        rw [format]
        split
        · exact atomic_literal _ _
        · exact atomic_error _
  compact
    | _, [] => rfl
    | name, template :: rest => by
        rw [List.map_cons, format, format, text_compact, Argument.kindError_compact]
        split
        · rw [fill_map_compact]
        · rfl

/-- Every built-in function is plain. -/
theorem plain_of_builtin {name : String} {f : Function} (h : Registry.builtin.get? name = some f) :
    Plain f := by
  have hmem : (name, f) ∈ Registry.builtinFunctions := Bindings.mem_of_get? h
  simp only [Registry.builtinFunctions, List.mem_cons, Prod.mk.injEq, List.not_mem_nil,
    or_false] at hmem
  rcases hmem with
    ⟨-, rfl⟩ | ⟨-, rfl⟩ | ⟨-, rfl⟩ | ⟨-, rfl⟩ | ⟨-, rfl⟩ | ⟨-, rfl⟩ | ⟨-, rfl⟩ | ⟨-, rfl⟩ |
    ⟨-, rfl⟩ |
    ⟨-, rfl⟩ | ⟨-, rfl⟩ | ⟨-, rfl⟩ | ⟨-, rfl⟩ | ⟨-, rfl⟩ | ⟨-, rfl⟩ | ⟨-, rfl⟩
  · exact plain_format
  · exact plain_escape
  · exact plain_adjustHsl _
  · exact plain_adjustHsl _
  · exact plain_adjustHsl _
  · exact plain_adjustHsl _
  · exact plain_spin
  · exact plain_grayscale
  · exact plain_grayscale
  · exact plain_argb
  · exact plain_fade
  · exact plain_overlay
  · exact plain_ofComponents _
  · exact plain_ofComponents _
  · exact plain_ofComponents _
  · exact plain_ofComponents _

end Function

/-- The functions are the same inside a container. -/
theorem Scope.functions_child {scope : Scope} {functions : Registry}
    (h : scope.functions = functions)
    (c : Container) : (scope.child c).functions = functions :=
  h

namespace Expr

/-! ## Values -/

/-- An expression that evaluation leaves as it is but for separators, at most
    `n` deep.  An operation is left when one operand denotes no constant, a call
    when no function has its name. -/
inductive IsValue (functions : Registry) : Nat → Expr → Prop where
  | constant {n : Nat} (v : Value) (p : Option Position) : IsValue functions (n + 1) (constant v p)
  | literal {n : Nat} (s : String) (p : Option Position) : IsValue functions (n + 1) (literal s p)
  | call {n : Nat} {name : String} {arguments : List Expr} (p : Option Position)
      (hname : functions.get? name = none)
      (harguments : ∀ a ∈ arguments, IsValue functions n a) :
      IsValue functions (n + 1) (call name arguments p)
  | binary {n : Nat} {op : Operator} {left right : Expr} (p : Option Position)
      (hleft : IsValue functions n left) (hright : IsValue functions n right)
      (hopen : left.constant? = none ∨ right.constant? = none) :
      IsValue functions (n + 1) (binary op left right p)

theorem IsValue.succ {functions : Registry} {n : Nat} {v : Expr} (h : IsValue functions n v) :
    IsValue functions (n + 1) v := by
  induction h with
  | constant v p => exact .constant v p
  | literal s p => exact .literal s p
  | call p hname _ ih => exact .call p hname ih
  | binary p _ _ hopen ihl ihr => exact .binary p ihl ihr hopen

theorem IsValue.mono {functions : Registry} {n m : Nat} {v : Expr} (hnm : n ≤ m)
    (h : IsValue functions n v) : IsValue functions m v := by
  induction hnm with
  | refl => exact h
  | step _ ih => exact ih.succ

theorem IsValue.of_isAtom {functions : Registry} {n : Nat} {v : Expr} (h : v.isAtom = true) :
    IsValue functions (n + 1) v := by
  cases v with
  | constant v p => exact .constant v p
  | literal s p => exact .literal s p
  | var | list | call | access | binary => cases h

theorem isAtom_withPosition (p : Option Position) (v : Expr) :
    (v.withPosition p).isAtom = v.isAtom := by
  cases v <;> rfl

/-- What a call of evaluated arguments gives is a value. -/
theorem IsValue.of_call {n : Nat} {name : String} {arguments : List Expr} {v : Expr}
    (p : Option Position) (h : Registry.builtin.call name arguments = .ok v)
    (harguments : ∀ a ∈ arguments, IsValue .builtin n a) :
    IsValue .builtin (n + 1) (v.withPosition p) := by
  rw [Registry.call] at h
  split at h
  · rename_i f hf
    refine .of_isAtom ?_
    rw [isAtom_withPosition]
    exact (Function.plain_of_builtin hf).atomic _ _ v h
  · rename_i hname
    cases h
    exact .call p hname harguments

/-- What an operation on values gives is a value. -/
theorem IsValue.of_applyTo {functions : Registry} {n : Nat} {op : Operator} {left right v : Expr}
    {p : Option Position} (h : applyTo op left right p = .ok v)
    (hleft : IsValue functions n left) (hright : IsValue functions n right) :
    IsValue functions (n + 1) v := by
  rw [applyTo.eq_def] at h
  split at h
  · split at h
    · cases h
      exact .constant _ p
    · cases h
  · rename_i hnone
    cases h
    refine .binary p hleft hright ?_
    cases hl : left.constant? with
    | none => exact Or.inl rfl
    | some a =>
        cases hr : right.constant? with
        | none => exact Or.inr rfl
        | some b => exact absurd hr (hnone a b hl)

/-- Pieces put together: one is left as it is, several become one literal. -/
theorem IsValue.of_pieces {functions : Registry} {n : Nat} {values : List Expr} {v : Expr}
    {glue : List Expr → String} {p : Option Position}
    (h : (match values with
      | [value] => (pure value : Evaluation Expr)
      | values => pure (Expr.literal (glue values) p)) = .done v)
    (hvalues : ∀ w ∈ values, IsValue functions n w) : IsValue functions (n + 1) v := by
  match values, h with
  | [value], h =>
      cases h
      exact (hvalues v List.mem_cons_self).succ
  | [], h | _ :: _ :: _, h =>
      cases h
      exact .literal _ p

/-- Values of all items are values. -/
theorem IsValue.of_mapM {functions : Registry} {n : Nat} {eval : Expr → Evaluation Expr}
    {items values : List Expr} (h : items.mapM eval = .done values)
    (heval : ∀ e v, eval e = .done v → IsValue functions n v) :
    ∀ v ∈ values, IsValue functions n v := by
  intro v hv
  obtain ⟨e, -, he⟩ := exists_of_forall₂ (Evaluation.mapM_eq_done h) hv
  exact heval e v he

/-- **Evaluation gives values only.** -/
theorem eval_isValue : ∀ {n : Nat} {scope : Scope} {e v : Expr}, scope.functions = .builtin →
    eval n scope e = .done v → IsValue .builtin n v := by
  intro n
  induction n with
  | zero => intro scope e v _ h; cases h
  | succ n ih =>
      intro scope e v hf h
      cases e with
      | constant value p => cases h; exact .constant value p
      | literal s p => cases h; exact .literal s p
      | var name p =>
          rw [eval] at h
          split at h
          · cases h
          · split at h
            · cases h
            · rename_i value _
              -- a variable costs one step that its value does not have
              have hinner : (scope.enter name).functions = .builtin := hf
              exact (ih hinner (Evaluation.locate_eq_done h)).succ
      | list items p =>
          rw [eval] at h
          obtain ⟨values, hvalues, h⟩ := Evaluation.bind_eq_done h
          exact .of_pieces h (.of_mapM hvalues fun e v he => ih hf he)
      | call name arguments p =>
          rw [eval] at h
          have h := Evaluation.locate_eq_done h
          obtain ⟨w, hw, h⟩ := Evaluation.bind_eq_done h
          cases h
          obtain ⟨values, hvalues, hcall⟩ := Evaluation.bind_eq_done hw
          rw [hf] at hcall
          exact .of_call p (Evaluation.ofExcept_eq_done hcall)
            (.of_mapM hvalues fun e v he => ih hf he)
      | access selector member p =>
          rw [eval] at h
          have h := Evaluation.locate_eq_done h
          obtain ⟨r, -, h⟩ := Evaluation.bind_eq_done h
          have hinner := Scope.functions_child hf r.container
          cases member with
          | var name =>
              simp only at h
              split at h
              · cases h
              · exact (ih hinner h).succ
          | property name =>
              simp only at h
              split at h
              · cases h
              · obtain ⟨values, hvalues, h⟩ := Evaluation.bind_eq_done h
                exact .of_pieces h (.of_mapM hvalues fun e v he => ih hinner he)
      | binary op left right p =>
          rw [eval] at h
          obtain ⟨l, hl, h⟩ := Evaluation.bind_eq_done h
          obtain ⟨r, hr, h⟩ := Evaluation.bind_eq_done h
          exact .of_applyTo (Evaluation.ofExcept_eq_done h) (ih hf hl) (ih hf hr)

/-- An operation with an operand that denotes no constant is left alone. -/
theorem applyTo_of_open {op : Operator} {left right : Expr} (p : Option Position)
    (h : left.constant? = none ∨ right.constant? = none) :
    applyTo op left right p = .ok (binary op left right p) := by
  rw [applyTo.eq_def]
  split
  · rename_i a b hl hr
    rcases h with h | h
    · cases h.symm.trans hl
    · cases h.symm.trans hr
  · rfl

/-- **A value evaluates to its compact form, whatever the scope.** -/
theorem eval_of_isValue {functions : Registry} {n : Nat} {v : Expr} (h : IsValue functions n v)
    {scope : Scope} (hf : scope.functions = functions) : eval n scope v = .done v.compact := by
  induction h with
  | constant v p => rfl
  | literal s p => rfl
  | @call n name arguments p hname _ ih =>
      have hvalues : (arguments.filter fun a => !a.isSeparator).mapM (eval n scope) =
          .done (compactAll arguments) := by
        rw [compactAll_eq]
        refine Evaluation.mapM_of_forall₂ (List.forall₂_map_right_iff.mpr ?_)
        exact List.forall₂_same.mpr fun a ha => ih a (List.mem_of_mem_filter ha)
      rw [eval, invoke, hvalues, Evaluation.done_bind, hf, Registry.call, hname]
      rfl
  | @binary n op left right p _ _ hopen ihl ihr =>
      have hopen' : left.compact.constant? = none ∨ right.compact.constant? = none := by
        rw [constant?_compact, constant?_compact]
        exact hopen
      rw [eval, ihl, Evaluation.done_bind, ihr, Evaluation.done_bind, applyTo_of_open p hopen']
      rfl

/-- **EVALUATION IS IDEMPOTENT, AND ITS RESULTS NEED NO SCOPE.**  What an
    expression evaluated to evaluates, in every scope over the built-in
    functions, to itself without the separators among the arguments of calls:
    written alike and at the same position. -/
theorem eval_value_anywhere {n : Nat} {scope : Scope} {e v : Expr} (hf : scope.functions = .builtin)
    (h : eval n scope e = .done v) :
    (∀ other : Scope, other.functions = .builtin → ∀ m, n ≤ m → eval m other v = .done v.compact)
      ∧ v.compact.text = v.text ∧ v.compact.position = v.position := by
  have hv : IsValue .builtin n v := eval_isValue hf h
  refine ⟨?_, text_compact v, position_compact v⟩
  intro other hother m hm
  exact eval_of_isValue (hv.mono hm) hother

/-- A separator that reached the arguments of an unknown function through a
    variable is dropped by a second evaluation, here in a scope that lacks the
    variable and is resolving it. -/
theorem eval_value_anywhere_dropping_separator :
    let gap : Container := { vars := .ofList [("gap", literal " " none)], body := [] }
    let scope : Scope := (Scope.root .builtin).child gap
    let e : Expr := call "foo" [var "gap" none, literal "a" none] none
    let v : Expr := call "foo" [literal " " none, literal "a" none] none
    eval 3 scope e = .done v
      ∧ eval 3 ((Scope.root .builtin).enter "gap") v
          = .done (call "foo" [literal "a" none] none) := by
  intro gap scope e v
  have h : eval 3 scope e = .done v := by rfl
  exact ⟨h, (eval_value_anywhere rfl h).1 _ rfl 3 (Nat.le_refl 3)⟩

end Expr

end Less
