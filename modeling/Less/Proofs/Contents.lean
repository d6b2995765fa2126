import Less.Function.Registry
import Less.Sheet
import Mathlib.Data.List.Basic

/-! # What stands in an expression or a sheet

    Statements about a whole sheet speak of everything in it, at any depth.

    * `Expr.every p e`: the test `p` holds at every node of `e`.  An expression
      is free of accessors (`Expr.isAccessFree`) or resolved
      (`Expr.isResolved`) if each of its nodes is.
    * `Container.tree enter c`: the elements of a container, those inside the
      elements that `enter` lets through, and so on.
    * `Element.exprs` are the expressions of an element outside the elements in
      it; `Container.exprs` are all expressions of a container.

    `Element.induction` is the induction along the nesting of elements. -/

namespace Less

/-! ## Expressions -/

namespace Expr

mutual

/-- The test holds at every node. -/
def every (p : Expr → Bool) : Expr → Bool
  | constant v pos => p (constant v pos)
  | literal s pos => p (literal s pos)
  | var name pos => p (var name pos)
  | list items pos => p (list items pos) && everyOf p items
  | call name arguments pos => p (call name arguments pos) && everyOf p arguments
  | access target member pos => p (access target member pos)
  | binary op left right pos => p (binary op left right pos) && (left.every p && right.every p)

/-- The test holds at every node of every expression. -/
def everyOf (p : Expr → Bool) : List Expr → Bool
  | [] => true
  | e :: es => e.every p && everyOf p es

end

theorem everyOf_eq_all (p : Expr → Bool) (es : List Expr) : everyOf p es = es.all (every p) := by
  induction es with
  | nil => rfl
  | cons e es ih => rw [everyOf, List.all_cons, ih]

/-- The node is no accessor. -/
def isNoAccess : Expr → Bool
  | access _ _ _ => false
  | _ => true

/-- No accessor stands in the expression. -/
def isAccessFree (e : Expr) : Bool :=
  e.every isNoAccess

/-- The node is no variable, no list, no accessor and no call of a known
    function. -/
def isResolvedNode (functions : Registry) : Expr → Bool
  | var _ _ | list _ _ | access _ _ _ => false
  | call name _ _ => !functions.contains name
  | constant _ _ | literal _ _ | binary _ _ _ _ => true

/-- Nothing in the expression is left to resolve. -/
def isResolved (functions : Registry) (e : Expr) : Bool :=
  e.every (isResolvedNode functions)

end Expr

/-! ## Elements -/

/-- The expressions of a declaration or a call. -/
def Item.exprs : Item → List Expr
  | declaration d => d.values
  | mixin c => c.arguments

/-- The selector that is called, if the item is a call. -/
def Item.called? : Item → Option Selector
  | declaration _ => none
  | mixin c => some c.selector

/-- The values of the variables of a container. -/
def Container.values (c : Container) : List Expr :=
  c.vars.entries.map Prod.snd

/-- The default values of the parameters of a rule set. -/
def RuleSet.defaults (r : RuleSet) : List Expr :=
  match r.params with
  | some params => params.entries.filterMap Prod.snd
  | none => []

namespace Element

/-- What an element holds. -/
def container : Element → Container
  | ruleSet r => r.container
  | media m => m.container
  | page p => p.container
  | keyframes k => k.container

/-- The declarations and calls of a rule set or page. -/
def items : Element → List Item
  | ruleSet r => r.items
  | page p => p.items
  | media _ | keyframes _ => []

/-- The default values of the parameters of a rule set. -/
def defaults : Element → List Expr
  | ruleSet r => r.defaults
  | media _ | page _ | keyframes _ => []

/-- The expressions of an element that are not inside another element. -/
def exprs (e : Element) : List Expr :=
  e.defaults ++ e.items.flatMap Item.exprs ++ e.container.values

/-- The element defines a mixin. -/
def isDefinition : Element → Bool
  | ruleSet r => r.isMixin
  | media _ | page _ | keyframes _ => false

/-- The element is a block of elements that stay inside it. -/
def isBlock : Element → Bool
  | media _ | keyframes _ => true
  | ruleSet _ | page _ => false

end Element

theorem mem_ruleSet_exprs {r : RuleSet} {e : Expr} : e ∈ (Element.ruleSet r).exprs ↔
    e ∈ r.defaults ∨ (∃ item ∈ r.items, e ∈ item.exprs) ∨ e ∈ r.container.values := by
  show e ∈ r.defaults ++ r.items.flatMap Item.exprs ++ r.container.values ↔ _
  rw [List.mem_append, List.mem_append, List.mem_flatMap, or_assoc]

theorem mem_exprs_of_declaration {r : RuleSet} {d : Declaration} (h : d ∈ r.declarations) {v : Expr}
    (hv : v ∈ d.values) : v ∈ (Element.ruleSet r).exprs := by
  obtain ⟨item, hitem, hd⟩ := List.mem_filterMap.mp h
  cases item with
  | mixin c => cases hd
  | declaration d' =>
      cases hd
      refine List.mem_append_left _ (List.mem_append_right _ ?_)
      exact List.mem_flatMap.mpr ⟨.declaration d, hitem, hv⟩

theorem mem_exprs_of_value {e : Element} {v : Expr} (hv : v ∈ e.container.values) : v ∈ e.exprs :=
  List.mem_append_right _ hv

mutual

/-- An element and the elements inside it, as far as `enter` lets through. -/
def Element.tree (enter : Element → Bool) : Element → List Element
  | .ruleSet ⟨selectors, params, items, c, p⟩ =>
      .ruleSet ⟨selectors, params, items, c, p⟩ ::
        if enter (.ruleSet ⟨selectors, params, items, c, p⟩) then c.tree enter else []
  | .media ⟨mediums, c, p⟩ =>
      .media ⟨mediums, c, p⟩ :: if enter (.media ⟨mediums, c, p⟩) then c.tree enter else []
  | .page ⟨pseudo, items, c, p⟩ =>
      .page ⟨pseudo, items, c, p⟩ ::
        if enter (.page ⟨pseudo, items, c, p⟩) then c.tree enter else []
  | .keyframes ⟨keyword, name, c, p⟩ =>
      .keyframes ⟨keyword, name, c, p⟩ ::
        if enter (.keyframes ⟨keyword, name, c, p⟩) then c.tree enter else []

/-- The elements of a container and those inside them, as far as `enter` lets
    through. -/
def Container.tree (enter : Element → Bool) : Container → List Element
  | ⟨_, body⟩ => forest enter body

/-- Elements and those inside them. -/
def forest (enter : Element → Bool) : List Element → List Element
  | [] => []
  | e :: es => e.tree enter ++ forest enter es

end

theorem Element.tree_eq (enter : Element → Bool) (e : Element) :
    e.tree enter = e :: if enter e then e.container.tree enter else [] := by
  cases e with
  | ruleSet r => cases r; rw [tree]; rfl
  | media m => cases m; rw [tree]; rfl
  | page p => cases p; rw [tree]; rfl
  | keyframes k => cases k; rw [tree]; rfl

theorem Element.mem_tree {enter : Element → Bool} {e x : Element} :
    x ∈ e.tree enter ↔ x = e ∨ (enter e = true ∧ x ∈ e.container.tree enter) := by
  rw [Element.tree_eq, List.mem_cons]
  cases enter e with
  | true => rw [if_pos rfl]; simp
  | false => rw [if_neg (by simp)]; simp

theorem mem_forest {enter : Element → Bool} {es : List Element} {x : Element} :
    x ∈ forest enter es ↔ ∃ e ∈ es, x ∈ e.tree enter := by
  induction es with
  | nil => simp [forest]
  | cons e es ih => simp only [forest, List.mem_append, ih, List.exists_mem_cons_iff]

theorem Container.mem_tree {enter : Element → Bool} {c : Container} {x : Element} :
    x ∈ c.tree enter ↔ ∃ e ∈ c.body, x ∈ e.tree enter := by
  obtain ⟨vars, body⟩ := c
  rw [Container.tree]
  exact mem_forest

/-- An element stands in the tree of its container. -/
theorem Container.mem_tree_of_mem {enter : Element → Bool} {c : Container} {e : Element}
    (h : e ∈ c.body) : e ∈ c.tree enter :=
  Container.mem_tree.mpr ⟨e, h, Element.mem_tree.mpr (Or.inl rfl)⟩

theorem Element.sizeOf_lt {o e : Element} (h : o ∈ e.container.body) : sizeOf o < sizeOf e := by
  have hbody : ∀ c : Container, o ∈ c.body → sizeOf o < sizeOf c := by
    intro c hc
    obtain ⟨vars, body⟩ := c
    have := List.sizeOf_lt_of_mem hc
    simp only [Container.mk.sizeOf_spec] at this ⊢
    omega
  have hlt := hbody e.container h
  cases e with
  | ruleSet r =>
      cases r
      simp only [container, ruleSet.sizeOf_spec, RuleSet.mk.sizeOf_spec] at hlt ⊢
      omega
  | media m =>
      cases m
      simp only [container, media.sizeOf_spec, Media.mk.sizeOf_spec] at hlt ⊢
      omega
  | page p =>
      cases p
      simp only [container, page.sizeOf_spec, Page.mk.sizeOf_spec] at hlt ⊢
      omega
  | keyframes k =>
      cases k
      simp only [container, keyframes.sizeOf_spec, Keyframes.mk.sizeOf_spec] at hlt ⊢
      omega

/-- **Induction along nesting**: what holds of an element as soon as it holds
    of the elements inside it holds of every element. -/
theorem Element.induction {P : Element → Prop}
    (step : ∀ e : Element, (∀ o ∈ e.container.body, P o) → P e) (e : Element) : P e :=
  step e fun o ho =>
    have : sizeOf o < sizeOf e := Element.sizeOf_lt ho
    Element.induction step o
termination_by sizeOf e

theorem Element.mem_filterMap_ruleSet? {es : List Element} {r : RuleSet} :
    r ∈ es.filterMap Element.ruleSet? ↔ Element.ruleSet r ∈ es := by
  constructor
  · intro h
    obtain ⟨e, he, hr⟩ := List.mem_filterMap.mp h
    cases e with
    | ruleSet r' => cases hr; exact he
    | media | page | keyframes => cases hr
  · intro h
    exact List.mem_filterMap.mpr ⟨.ruleSet r, h, rfl⟩

/-! ## Sheets -/

namespace Container

/-- All elements of a container, at any depth. -/
def elements (c : Container) : List Element :=
  c.tree fun _ => true

/-- All expressions of a container, at any depth. -/
def exprs (c : Container) : List Expr :=
  c.values ++ c.elements.flatMap Element.exprs

/-- All rule sets of a container, at any depth. -/
def allRuleSets (c : Container) : List RuleSet :=
  c.elements.filterMap Element.ruleSet?

/-- The selectors of all mixin calls of a container, at any depth. -/
def calledSelectors (c : Container) : List Selector :=
  c.elements.flatMap fun e => e.items.filterMap Item.called?

theorem mem_childRuleSets {c : Container} {r : RuleSet} :
    r ∈ c.childRuleSets ↔ Element.ruleSet r ∈ c.body :=
  Element.mem_filterMap_ruleSet?

theorem mem_allRuleSets {c : Container} {r : RuleSet} :
    r ∈ c.allRuleSets ↔ Element.ruleSet r ∈ c.elements :=
  Element.mem_filterMap_ruleSet?

theorem mem_elements_of_mem {c : Container} {e : Element} (h : e ∈ c.body) : e ∈ c.elements :=
  mem_tree_of_mem h

/-- What stands inside an element of a container stands in the container. -/
theorem elements_subset {c : Container} {e : Element} (h : e ∈ c.elements) :
    e.container.elements ⊆ c.elements := by
  have hall : ∀ top : Element, ∀ x ∈ top.tree fun _ => true,
      x.container.elements ⊆ top.tree fun _ => true := by
    intro top
    induction top using Element.induction with
    | step top ih =>
        intro x hx y hy
        -- `x` is the element on top, or stands in one of the elements inside it
        rcases Element.mem_tree.mp hx with rfl | ⟨-, hx⟩
        · exact Element.mem_tree.mpr (Or.inr ⟨rfl, hy⟩)
        · obtain ⟨o, ho, hx⟩ := Container.mem_tree.mp hx
          exact Element.mem_tree.mpr (Or.inr ⟨rfl, Container.mem_tree.mpr ⟨o, ho, ih o ho x hx hy⟩⟩)
  intro y hy
  obtain ⟨top, htop, he⟩ := Container.mem_tree.mp h
  exact Container.mem_tree.mpr ⟨top, htop, hall top e he hy⟩

end Container

end Less
