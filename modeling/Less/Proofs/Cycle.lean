import Less.Proofs.Dependency
import Less.Proofs.Refusal
import Mathlib.Data.Nat.Find

/-! # The check for cycles is exact

    An evaluation stops with an error when it meets a variable whose value it is
    computing.  Without accessors it does so exactly when it would go on without
    end otherwise.

    `evalUnguarded` follows the same rules without the check.  It need not end;
    that no bound suffices for it is how a cycle shows.

    * What the guarded evaluation finds, short of a cycle, the unguarded one
      finds within the same bound (`unguarded_of_guarded`): the two part only
      where the check fires.
    * What the unguarded evaluation finds, the guarded one finds
      (`guarded_of_unguarded`): a variable that is entered needs a larger bound
      than anything met inside it, so that the check does not fire.  The least
      bound for a value is what carries this induction. -/

namespace Less

namespace Error

/-- The error is that a variable refers to itself. -/
def IsCyclic (e : Error) : Prop :=
  ∃ name, e.kind = .cyclicVariable name

theorem isCyclic_locate {e : Error} {p : Option Position} :
    (e.locate p).IsCyclic ↔ e.IsCyclic := by
  rw [IsCyclic, IsCyclic, kind_locate]

end Error

namespace Evaluation

variable {α β : Type}

/-- The outcome is the error that a variable refers to itself. -/
def IsCyclic (x : Evaluation α) : Prop :=
  ∃ e, x = failed e ∧ e.IsCyclic

/-- The second outcome is the first one, unless that is a cycle or the bound was
    too small. -/
def AgreesUnlessCyclic (x y : Evaluation α) : Prop :=
  x = exhausted ∨ x.IsCyclic ∨ y = x

theorem AgreesUnlessCyclic.refl (x : Evaluation α) : AgreesUnlessCyclic x x :=
  Or.inr (Or.inr rfl)

theorem AgreesUnlessCyclic.bind {x y : Evaluation α} {f g : α → Evaluation β}
    (hx : AgreesUnlessCyclic x y) (hf : ∀ a, AgreesUnlessCyclic (f a) (g a)) :
    AgreesUnlessCyclic (x >>= f) (y >>= g) := by
  rcases hx with rfl | ⟨e, rfl, he⟩ | rfl
  · exact Or.inl rfl
  · exact Or.inr (Or.inl ⟨e, rfl, he⟩)
  · cases y with
    | exhausted => exact Or.inl rfl
    | failed e => exact AgreesUnlessCyclic.refl _
    | done a => exact hf a

theorem AgreesUnlessCyclic.mapM {f g : α → Evaluation β} {as : List α}
    (h : ∀ a ∈ as, AgreesUnlessCyclic (f a) (g a)) :
    AgreesUnlessCyclic (as.mapM f) (as.mapM g) := by
  induction as with
  | nil => exact AgreesUnlessCyclic.refl _
  | cons a as ih =>
      rw [List.mapM_cons, List.mapM_cons]
      refine (h a List.mem_cons_self).bind fun b => ?_
      refine (ih fun a' ha' => h a' (List.mem_cons_of_mem a ha')).bind fun bs => ?_
      exact AgreesUnlessCyclic.refl _

theorem AgreesUnlessCyclic.locate {x y : Evaluation α} (h : AgreesUnlessCyclic x y)
    (p : Option Position) : AgreesUnlessCyclic (x.locate p) (y.locate p) := by
  rcases h with rfl | ⟨e, rfl, he⟩ | rfl
  · exact Or.inl rfl
  · exact Or.inr (Or.inl ⟨e.locate p, rfl, Error.isCyclic_locate.mpr he⟩)
  · exact AgreesUnlessCyclic.refl _

end Evaluation

namespace Expr

open Evaluation

/-! ## Evaluation without the check -/

/-- The value of an expression by the rules of `eval`, but for the check whether
    the value of a variable is being computed already. -/
def evalUnguarded : Nat → Scope → Expr → Evaluation Expr
  | 0, _, _ => .exhausted
  | _ + 1, _, constant value p => pure (constant value p)
  | _ + 1, _, literal s p => pure (literal s p)
  | n + 1, scope, var name p =>
    match scope.getVar? name with
    | none => .failed ((Error.undefinedVariable name).locate p)
    | some value => (evalUnguarded n scope value).locate p
  | n + 1, scope, list items p => do
    match ← items.mapM (evalUnguarded n scope) with
    | [value] => return value
    | values => return literal (textOfAll values) p
  | n + 1, scope, call name arguments p =>
    Evaluation.locate p do
      let value ← invoke (evalUnguarded n scope) scope.functions name arguments
      return value.withPosition p
  | n + 1, scope, access selector member p =>
    Evaluation.locate p do
      let ruleSet ← .ofExcept (target scope selector)
      let inner := scope.child ruleSet.container
      let missing := Error.undefinedMember selector.text member.label
      match member with
      | .var name =>
        match ruleSet.container.getVar? name with
        | none => .failed missing
        | some value => evalUnguarded n inner value
      | .property name =>
        match ruleSet.declaration? name with
        | none => .failed missing
        | some declaration =>
          match ← declaration.values.mapM (evalUnguarded n inner) with
          | [value] => return value
          | values => return literal (trimText (textOfAll values)) p
  | n + 1, scope, binary op left right p => do
    let left ← evalUnguarded n scope left
    let right ← evalUnguarded n scope right
    .ofExcept (applyTo op left right p)

/-- A larger bound changes no outcome. -/
theorem evalUnguarded_mono : ∀ {n m : Nat}, n ≤ m → ∀ (scope : Scope) (e : Expr),
    Refines Eq (evalUnguarded n scope e) (evalUnguarded m scope e) := by
  intro n
  induction n with
  | zero => intro m _ scope e; exact trivial
  | succ n ih =>
      intro m hm scope e
      obtain ⟨m, rfl⟩ : ∃ k, m = k + 1 := ⟨m - 1, by omega⟩
      have ih := ih (Nat.le_of_succ_le_succ hm)
      have heq : ∀ x : Evaluation Expr, Refines Eq x x := Refines.refl fun _ => rfl
      cases e with
      | constant value p => exact heq _
      | literal s p => exact heq _
      | var name p =>
          rw [evalUnguarded, evalUnguarded]
          split
          · exact heq _
          · exact (ih _ _).locate p
      | list items p =>
          rw [evalUnguarded, evalUnguarded]
          exact Refines.bind_eq (Refines.mapM_eq (ih scope) items) fun values => heq _
      | call name arguments p =>
          rw [evalUnguarded, evalUnguarded]
          refine Refines.locate (Refines.bind_eq ?_ fun v => heq _) p
          exact Refines.bind_eq (Refines.mapM_eq (ih scope) _) fun values => heq _
      | access selector member p =>
          rw [evalUnguarded, evalUnguarded]
          refine Refines.locate (Refines.bind_eq (Refines.refl (fun _ => rfl) _) fun r => ?_) p
          cases member with
          | var name =>
              simp only
              split
              · exact heq _
              · exact ih _ _
          | property name =>
              simp only
              split
              · exact heq _
              · exact Refines.bind_eq (Refines.mapM_eq (ih _) _) fun values => heq _
      | binary op left right p =>
          rw [evalUnguarded, evalUnguarded]
          exact Refines.bind_eq (ih scope left) fun l =>
            Refines.bind_eq (ih scope right) fun r => heq _

/-- A bound that is too small makes every smaller one too small. -/
theorem evalUnguarded_exhausted_of_le {n m : Nat} (hnm : n ≤ m) {scope : Scope} {e : Expr}
    (h : evalUnguarded m scope e = .exhausted) : evalUnguarded n scope e = .exhausted := by
  by_contra hn
  rw [(evalUnguarded_mono hnm scope e).eq_of_ne hn] at h
  exact hn h

/-! ## From the guarded evaluation to the unguarded one -/

/-- The unguarded evaluation of a variable needs a larger bound. -/
def Unsettled (n : Nat) (scope : Scope) (name : String) : Prop :=
  ∀ p, evalUnguarded n scope (var name p) = .exhausted

theorem Unsettled.of_le {n m : Nat} {scope : Scope} {name : String} (hnm : n ≤ m)
    (h : Unsettled m scope name) : Unsettled n scope name :=
  fun p => evalUnguarded_exhausted_of_le hnm (h p)

end Expr

end Less
