import Less.Function.Builtin

/-! # Errors of arithmetic and of the built-in functions

    Arithmetic on constants fails because units do not go together or because of
    a division by zero (`error_of_apply`); it knows no positions.

    A built-in function that fails refuses its arguments: their number, or the
    kind of one of them.  The error is a text, and it carries the position of
    the argument it is about, or none (`refuses_of_builtin`).

    Positions are put on errors by `Error.locate`, which changes neither the
    cause of an error (`kind_locate`) nor a position that is there already. -/

namespace Less

namespace Error

/-- A position changes no cause. -/
@[simp] theorem kind_locate (e : Error) (p : Option Position) : (e.locate p).kind = e.kind := by
  cases e <;> cases p <;> rfl

/-- An error that has a position keeps it. -/
theorem position?_locate_of_some {e : Error} {q : Position} (h : e.position? = some q)
    (p : Option Position) : (e.locate p).position? = some q := by
  cases e with
  | located q' cause => exact h
  | _ => cases h

/-- A refusal has the position it was given. -/
theorem position?_function_locate (text : String) (p : Option Position) :
    ((Error.function text).locate p).position? = p := by
  cases p <;> rfl

end Error

/-! ## Arithmetic -/

/-- The units of two operands do not go together, or one is divided by zero. -/
def Error.IsArithmetic (e : Error) : Prop :=
  (∃ left right, e = .unitMismatch left right) ∨ e = .divisionByZero

theorem Number.error_of_apply {op : Operator} {a b : Number} {e : Error}
    (h : Number.apply op a b = .error e) : e.IsArithmetic := by
  rw [Number.apply] at h
  split at h
  · cases h
    exact Or.inl ⟨_, _, rfl⟩
  · split at h
    · cases h
      exact Or.inr rfl
    · cases h

/-- **Arithmetic fails on units and on zero only.** -/
theorem Value.error_of_apply {op : Operator} {a b : Value} {e : Error}
    (h : Value.apply op a b = .error e) : e.IsArithmetic := by
  cases a with
  | number a =>
      cases b with
      | number b =>
          rw [Value.apply] at h
          cases hab : Number.apply op a b with
          | error e' =>
              rw [hab] at h
              cases h
              exact Number.error_of_apply hab
          | ok n =>
              rw [hab] at h
              cases h
      | color c =>
          rw [Value.apply] at h
          split at h
          · cases h
          · cases h
            exact Or.inl ⟨_, _, rfl⟩
  | color c =>
      cases b with
      | number b =>
          rw [Value.apply] at h
          split at h
          · cases h
            exact Or.inl ⟨_, _, rfl⟩
          · split at h
            · cases h
              exact Or.inr rfl
            · cases h
      | color d =>
          rw [Value.apply] at h
          split at h
          · cases h
            exact Or.inr rfl
          · cases h

/-! ## Refused arguments -/

namespace Function

variable {α β : Type} {arguments : List Expr}

/-- A text about the arguments, at the position of one of them or at none. -/
def IsRefusal (arguments : List Expr) (e : Error) : Prop :=
  ∃ text p, e = (Error.function text).locate p ∧ (p = none ∨ ∃ a ∈ arguments, a.position = p)

/-- A step that fails, if it does, by refusing the arguments. -/
def Refuses (arguments : List Expr) (x : Except Error α) : Prop :=
  ∀ e, x = .error e → IsRefusal arguments e

theorem refuses_ok (a : α) : Refuses arguments (.ok a : Except Error α) :=
  fun _ h => nomatch h

theorem refuses_bind {x : Except Error α} {f : α → Except Error β} (hx : Refuses arguments x)
    (hf : ∀ a, Refuses arguments (f a)) : Refuses arguments (x >>= f) := by
  intro e h
  cases x with
  | error e' => cases h; exact hx e rfl
  | ok a => exact hf a e h

theorem refuses_arity (name : String) :
    Refuses arguments (.error (Argument.arityError name) : Except Error α) := by
  rintro e ⟨⟩
  exact ⟨_, none, rfl, Or.inl rfl⟩

theorem refuses_kind (name : String) (place : Nat) (expected : String) {a : Expr}
    (ha : a ∈ arguments) :
    Refuses arguments (.error (Argument.kindError name place expected a) : Except Error α) := by
  rintro e ⟨⟩
  exact ⟨_, a.position, rfl, Or.inr ⟨a, ha, rfl⟩⟩

/-! ## Checks on arguments -/

variable {a : Expr} (name : String) (place : Nat) (ha : a ∈ arguments)

include ha

theorem refuses_color : Refuses arguments (Argument.color name place a) := by
  rw [Argument.color.eq_def]
  split
  · exact refuses_ok _
  · exact refuses_kind name place _ ha

theorem refuses_number : Refuses arguments (Argument.number name place a) := by
  rw [Argument.number.eq_def]
  split
  · exact refuses_ok _
  · exact refuses_kind name place _ ha

theorem refuses_percentage : Refuses arguments (Argument.percentage name place a) := by
  rw [Argument.percentage.eq_def]
  split
  · split
    · exact refuses_ok _
    · exact refuses_kind name place _ ha
  · exact refuses_kind name place _ ha

theorem refuses_component : Refuses arguments (Argument.component name place a) :=
  refuses_bind (refuses_number name place ha) fun _ => refuses_ok _

omit ha

/-! ## The functions -/

theorem refuses_adjustHsl (adjust : Hsl → Float → Hsl) (name : String) :
    ∀ arguments : List Expr, Refuses arguments (adjustHsl adjust name arguments)
  | [c, amount] =>
      refuses_bind (refuses_color name 1 (by simp)) fun _ =>
        refuses_bind (refuses_percentage name 2 (by simp)) fun _ => refuses_ok _
  | [] | [_] | _ :: _ :: _ :: _ => refuses_arity name

theorem refuses_spin (name : String) :
    ∀ arguments : List Expr, Refuses arguments (spin name arguments)
  | [c, degrees] => by
      refine refuses_bind (refuses_color name 1 (by simp)) fun _ => ?_
      refine refuses_bind (refuses_number name 2 (by simp)) fun turn => ?_
      split
      · exact refuses_ok _
      · exact refuses_kind name 2 _ (by simp)
  | [] | [_] | _ :: _ :: _ :: _ => refuses_arity name

theorem refuses_grayscale (name : String) :
    ∀ arguments : List Expr, Refuses arguments (grayscale name arguments)
  | [c] => refuses_bind (refuses_color name 1 (by simp)) fun _ => refuses_ok _
  | [] | _ :: _ :: _ => refuses_arity name

theorem refuses_argb (name : String) :
    ∀ arguments : List Expr, Refuses arguments (argb name arguments)
  | [c] => refuses_bind (refuses_color name 1 (by simp)) fun _ => refuses_ok _
  | [] | _ :: _ :: _ => refuses_arity name

theorem refuses_fade (name : String) :
    ∀ arguments : List Expr, Refuses arguments (fade name arguments)
  | [c, amount] =>
      refuses_bind (refuses_color name 1 (by simp)) fun _ =>
        refuses_bind (refuses_percentage name 2 (by simp)) fun _ => refuses_ok _
  | [] | [_] | _ :: _ :: _ :: _ => refuses_arity name

theorem refuses_overlay (name : String) :
    ∀ arguments : List Expr, Refuses arguments (overlay name arguments)
  | [bottom, top] =>
      refuses_bind (refuses_color name 1 (by simp)) fun _ =>
        refuses_bind (refuses_color name 2 (by simp)) fun _ => refuses_ok _
  | [] | [_] | _ :: _ :: _ :: _ => refuses_arity name

theorem refuses_ofComponents (build : (a b c alpha : Color.Component) → Color) (name : String) :
    ∀ arguments : List Expr, Refuses arguments (ofComponents build name arguments)
  | [a, b, c] =>
      refuses_bind (refuses_component name 1 (by simp)) fun _ =>
        refuses_bind (refuses_component name 2 (by simp)) fun _ =>
          refuses_bind (refuses_component name 3 (by simp)) fun _ => refuses_ok _
  | [a, b, c, alpha] =>
      refuses_bind (refuses_component name 1 (by simp)) fun _ =>
        refuses_bind (refuses_component name 2 (by simp)) fun _ =>
          refuses_bind (refuses_component name 3 (by simp)) fun _ =>
            refuses_bind (refuses_component name 4 (by simp)) fun _ => refuses_ok _
  | [] | [_] | [_, _] | _ :: _ :: _ :: _ :: _ :: _ => refuses_arity name

theorem refuses_escape (name : String) :
    ∀ arguments : List Expr, Refuses arguments (escape name arguments)
  | [_] => refuses_ok _
  | [] | _ :: _ :: _ => refuses_arity name

theorem refuses_format (name : String) :
    ∀ arguments : List Expr, Refuses arguments (format name arguments)
  | [] => refuses_arity name
  | template :: rest => by
      rw [format]
      split
      · exact refuses_ok _
      · exact refuses_kind name 1 _ List.mem_cons_self

/-- **Every built-in function that fails refuses its arguments.** -/
theorem refuses_of_builtin {registered : String} {f : Function}
    (h : Registry.builtin.get? registered = some f) (name : String) (arguments : List Expr) :
    Refuses arguments (f name arguments) := by
  have hmem : (registered, f) ∈ Registry.builtinFunctions := Bindings.mem_of_get? h
  simp only [Registry.builtinFunctions, List.mem_cons, Prod.mk.injEq, List.not_mem_nil,
    or_false] at hmem
  rcases hmem with
    ⟨-, rfl⟩ | ⟨-, rfl⟩ | ⟨-, rfl⟩ | ⟨-, rfl⟩ | ⟨-, rfl⟩ | ⟨-, rfl⟩ | ⟨-, rfl⟩ | ⟨-, rfl⟩ |
    ⟨-, rfl⟩ |
    ⟨-, rfl⟩ | ⟨-, rfl⟩ | ⟨-, rfl⟩ | ⟨-, rfl⟩ | ⟨-, rfl⟩ | ⟨-, rfl⟩ | ⟨-, rfl⟩
  · exact refuses_format name arguments
  · exact refuses_escape name arguments
  · exact refuses_adjustHsl _ name arguments
  · exact refuses_adjustHsl _ name arguments
  · exact refuses_adjustHsl _ name arguments
  · exact refuses_adjustHsl _ name arguments
  · exact refuses_spin name arguments
  · exact refuses_grayscale name arguments
  · exact refuses_grayscale name arguments
  · exact refuses_argb name arguments
  · exact refuses_fade name arguments
  · exact refuses_overlay name arguments
  · exact refuses_ofComponents _ name arguments
  · exact refuses_ofComponents _ name arguments
  · exact refuses_ofComponents _ name arguments
  · exact refuses_ofComponents _ name arguments

end Function

end Less
