import Less.Proofs.Anchored
import Less.Proofs.Placement

/-! # Properties of all expressions of a sheet

    A resolution makes no expressions but values: everything else is copied from
    the sheet.  So a property that values have, and that all expressions of a sheet
    have at any depth, holds of all expressions of the resolved sheet, nested rule
    sets and definitions of mixins included.

    `Every P` says so of elements, containers and scopes; there is one lemma a
    function, named `every_…`. -/

namespace Less

/-- All expressions in the element have `P`. -/
inductive Element.Every (P : Expr → Prop) : Element → Prop where
  | intro {e : Element} (exprs : ∀ x ∈ e.exprs, P x) (body : ∀ o ∈ e.container.body, Every P o) :
      Every P e

/-- All expressions in the container have `P`. -/
structure Container.Every (P : Expr → Prop) (c : Container) : Prop where
  values : ∀ v ∈ c.values, P v
  body : ∀ e ∈ c.body, e.Every P

/-- The functions are the built-in ones, and all expressions in the containers have
    `P`. -/
structure Scope.Every (P : Expr → Prop) (scope : Scope) : Prop where
  functions : scope.functions = .builtin
  frames : ∀ frame ∈ scope.frames, frame.Every P

variable {P : Expr → Prop}

namespace Element.Every

theorem exprs {e : Element} (h : e.Every P) : ∀ x ∈ e.exprs, P x := by
  obtain ⟨hexprs, -⟩ := h
  exact hexprs

theorem container {e : Element} (h : e.Every P) : e.container.Every P := by
  obtain ⟨hexprs, hbody⟩ := h
  exact ⟨fun v hv => hexprs v (mem_exprs_of_value hv), hbody⟩

variable {r : RuleSet}

theorem item (h : (Element.ruleSet r).Every P) {item : Item} (hitem : item ∈ r.items) :
    ∀ e ∈ item.exprs, P e :=
  fun e he => h.exprs e (mem_ruleSet_exprs.mpr (Or.inr (Or.inl ⟨item, hitem, he⟩)))

theorem declaration (h : (Element.ruleSet r).Every P) {d : Declaration} (hd : d ∈ r.declarations) :
    ∀ v ∈ d.values, P v :=
  h.item (RuleSet.declaration_mem_items hd)

end Element.Every

namespace Container.Every

variable {c : Container}

theorem ruleSet (h : c.Every P) {r : RuleSet} (hr : r ∈ c.childRuleSets) :
    (Element.ruleSet r).Every P :=
  h.body _ (Container.mem_childRuleSets.mp hr)

theorem addAll (h : c.Every P) {es : List Element} (hes : ∀ e ∈ es, e.Every P) :
    (c.addAll es).Every P :=
  ⟨h.values, fun e he => (List.mem_append.mp he).elim (h.body e) (hes e)⟩

theorem getVar? (h : c.Every P) {name : String} {v : Expr} (hv : c.getVar? name = some v) : P v :=
  h.values v (List.mem_map_of_mem (Bindings.mem_of_get? hv))

end Container.Every

namespace Scope.Every

variable {scope : Scope}

theorem child (h : scope.Every P) {c : Container} (hc : c.Every P) : (scope.child c).Every P := by
  refine ⟨h.functions, fun frame hframe => ?_⟩
  rcases List.mem_cons.mp hframe with rfl | hframe
  · exact hc
  · exact h.frames frame hframe

theorem enter (h : scope.Every P) (name : String) : (scope.enter name).Every P :=
  ⟨h.functions, h.frames⟩

theorem getVar? (h : scope.Every P) {name : String} {v : Expr}
    (hv : scope.getVar? name = some v) : P v := by
  obtain ⟨frame, hframe, hentry⟩ := Scope.exists_frame_of_getVar? hv
  exact (h.frames frame hframe).values v (List.mem_map_of_mem hentry)

theorem ruleSet (h : scope.Every P) {s : Selector} {r : RuleSet} (hr : r ∈ scope.ruleSets s) :
    (Element.ruleSet r).Every P := by
  obtain ⟨frame, hframe, hr⟩ := Scope.exists_frame_of_mem_ruleSets hr
  exact (h.frames frame hframe).ruleSet hr

end Scope.Every

namespace Transform

open Reporting Less.Expr

variable {n : Nat} {active : List Selector} {scope parent : Scope} {ds : List Error}

/-! ## Expressions, variables, declarations -/

end Transform

end Less
