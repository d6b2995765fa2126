import Less.Proofs.CallerVariables
import Less.Proofs.Everywhere
import Less.Proofs.Nesting
import Less.Proofs.Resolved
import Less.Proofs.SameLookups

/-! # A rule set and its resolved copy, expanded as mixins

    A call of a plain rule set `d` expands the resolved copy of `d` if `d` stands
    before the caller, and `d` itself if it stands behind.  Here two expansions of
    the same rule set are compared: on the left the calls find the copy `copy` of
    `d`, on the right they find `d`.

    * `Twin d copy left right`: what is looked up in the scopes is the same, but
      for this pair, and but for the separators in values that were resolved twice
      on one side.
    * Expressions evaluate to the same values (`eval_twin`).
    * The expansion of `d` on the right is the copy itself, as long as no variable
      that `d` takes from around it is hidden there; the expansion of the copy on
      the left is the copy again, without separators (`matches_of_pair`).
    * So two expansions without diagnostics go in step, and give declarations that
      are written alike (`expand_twin`), by induction on the depth of calls and
      along the items of each rule set. -/

namespace Less

/-! ## Lists related to one list, computations without diagnostics -/

/-- Two lists related to the same list are equal if their members are. -/
theorem eq_of_forall₂ {α β : Type} {R S : α → β → Prop} {as : List α} {bs cs : List β}
    (hR : List.Forall₂ R as bs) (hS : List.Forall₂ S as cs)
    (h : ∀ a ∈ as, ∀ b c, R a b → S a c → b = c) : bs = cs := by
  induction hR generalizing cs with
  | nil =>
      cases hS
      rfl
  | cons hab _ ih =>
      cases hS with
      | cons hac hS =>
          rw [h _ List.mem_cons_self _ _ hab hac,
            ih hS fun a ha => h a (List.mem_cons_of_mem _ ha)]

namespace Expr

/-- The same expression, or values that differ in separators. -/
def SameValue (u v : Expr) : Prop :=
  u = v ∨ ∃ k, IsValue .builtin k u ∧ IsValue .builtin k v ∧ Alike u v

/-- The expression does not read the rule set through an accessor. -/
def Spares (d : RuleSet) (e : Expr) : Prop :=
  ∀ s ∈ e.targets, s ∉ d.selectors

/-- Whatever a value evaluates to is its compact form. -/
theorem eq_compact_of_eval {n k : Nat} {scope : Scope} {u v : Expr}
    (hf : scope.functions = .builtin) (hu : IsValue .builtin k u)
    (h : eval n scope u = .done v) : v = u.compact := by
  have hk : eval k scope u = .done u.compact := eval_of_isValue hu hf
  have hagree := eval_agree (by rw [h]; exact Evaluation.done_ne_exhausted v)
    (by rw [hk]; exact Evaluation.done_ne_exhausted u.compact)
  rw [h, hk] at hagree
  cases hagree
  rfl

end Expr

/-- The containers have the same elements, and the same variables but for
    separators. -/
structure Container.Matches (a b : Container) : Prop where
  vars : ∀ name, Option.Rel Expr.SameValue (a.getVar? name) (b.getVar? name)
  body : a.body = b.body

theorem Container.Matches.refl (c : Container) : c.Matches c := by
  refine ⟨fun name => ?_, rfl⟩
  cases c.getVar? name with
  | none => exact .none
  | some v => exact .some (Or.inl rfl)

/-- Declarations of the same property with the same value text. -/
def Declaration.SameText (d e : Declaration) : Prop :=
  d.property = e.property ∧ d.valueText = e.valueText

/-- The rule sets have matching containers and declarations written alike. -/
structure RuleSet.Matches (x y : RuleSet) : Prop where
  container : x.container.Matches y.container
  declarations : List.Forall₂ Declaration.SameText x.declarations y.declarations

theorem optionRel_or {α : Type} {R : α → α → Prop} {a b c d : Option α} (hab : Option.Rel R a b)
    (hcd : Option.Rel R c d) : Option.Rel R (a.or c) (b.or d) := by
  cases hab with
  | none => exact hcd
  | some h => exact .some h

/-! ## Twin scopes -/

/-- **Lookups give the same on both sides, but for a rule set and its copy**: where
    the right side finds `d`, the left side finds `copy`.  Accessors of the left
    side do not read `d`. -/
structure Twin (d copy : RuleSet) (left right : Scope) : Prop where
  every : left.Every (Expr.Spares d)
  functions : right.functions = .builtin
  resolving : left.resolving = right.resolving
  vars : ∀ name, Option.Rel Expr.SameValue (left.getVar? name) (right.getVar? name)
  mixins : ∀ {s count x y}, Transform.selectMixin (left.ruleSets s) count = some x →
    Transform.selectMixin (right.ruleSets s) count = some y → count ≤ x.arity → count ≤ y.arity →
      x = y ∨ (x = copy ∧ y = d)
  targets : ∀ {s x y}, s ∉ d.selectors → Expr.target left s = .ok x →
    Expr.target right s = .ok y → x = y

namespace Twin

variable {d copy : RuleSet} {left right : Scope}

theorem enter (h : Twin d copy left right) (name : String) :
    Twin d copy (left.enter name) (right.enter name) where
  every := h.every.enter name
  functions := h.functions
  resolving := by
    show name :: left.resolving = name :: right.resolving
    rw [h.resolving]
  vars := h.vars
  mixins := h.mixins
  targets := h.targets

/-- Scopes stay twins inside matching containers. -/
theorem child (h : Twin d copy left right) {a b : Container} (hab : a.Matches b)
    (ha : a.Every (Expr.Spares d)) : Twin d copy (left.child a) (right.child b) := by
  have hrules : ∀ s, a.ruleSets s = b.ruleSets s := by
    intro s
    rw [Transform.ruleSets_eq_among, Transform.ruleSets_eq_among, hab.body]
  refine ⟨h.every.child ha, h.functions, h.resolving, fun name => ?_, fun {s count x y} hx hy => ?_,
    fun {s x y} hs hx hy => ?_⟩
  · rw [Expr.getVar?_child, Expr.getVar?_child]
    exact optionRel_or (hab.vars name) (h.vars name)
  · rw [Scope.ruleSets_child] at hx hy
    rw [← hrules s] at hy
    split at hx
    · rename_i hnil
      rw [if_pos hnil] at hy
      exact h.mixins hx hy
    · rename_i hne
      rw [if_neg hne, hx] at hy
      cases hy
      exact fun _ _ => Or.inl rfl
  · rw [Expr.target, Scope.ruleSets_child] at hx hy
    rw [← hrules s] at hy
    by_cases hnil : a.ruleSets s = []
    · rw [if_pos hnil] at hx hy
      exact h.targets hs hx hy
    · rw [if_neg hnil] at hx hy
      rw [hx] at hy
      cases hy
      rfl

end Twin

/-! ## Evaluation -/

namespace Expr

open Evaluation

variable {d copy : RuleSet}

/-- Within a bound, expressions that do not read `d` have the same values in twin
    scopes. -/
def SameWithin (d copy : RuleSet) (n : Nat) : Prop :=
  ∀ {left right : Scope} {e v w : Expr}, Twin d copy left right → e.Spares d →
    eval n left e = .done v → eval n right e = .done w → v = w

namespace SameWithin

variable {n : Nat} {left right : Scope} {v w : Expr} {p : Option Position}

theorem mapM (ih : SameWithin d copy n) (h : Twin d copy left right) {es vs ws : List Expr}
    (hes : ∀ e ∈ es, e.Spares d) (hvs : es.mapM (eval n left) = .done vs)
    (hws : es.mapM (eval n right) = .done ws) : vs = ws :=
  eq_of_forall₂ (mapM_eq_done hvs) (mapM_eq_done hws) fun e he _ _ hv hw => ih h (hes e he) hv hw

theorem var (ih : SameWithin d copy n) (h : Twin d copy left right) {name : String}
    (hv : eval (n + 1) left (.var name p) = .done v)
    (hw : eval (n + 1) right (.var name p) = .done w) : v = w := by
  rw [eval] at hv hw
  rw [Scope.isResolving, ← h.resolving] at hw
  split at hv
  · cases hv
  · rename_i hres
    rw [Scope.isResolving] at hres
    rw [if_neg hres] at hw
    have hrel := h.vars name
    cases hl : left.getVar? name with
    | none => rw [hl] at hv; cases hv
    | some u =>
        rw [hl] at hv hrel
        cases hr : right.getVar? name with
        | none => rw [hr] at hw; cases hw
        | some u' =>
            rw [hr] at hw hrel
            cases hrel with
            | some hsame =>
                have hv := locate_eq_done hv
                have hw := locate_eq_done hw
                rcases hsame with rfl | ⟨k, hu, hu', halike⟩
                · exact ih (h.enter name) (h.every.getVar? hl) hv hw
                · rw [eq_compact_of_eval (h.every.enter name).functions hu hv,
                    eq_compact_of_eval (h.enter name).functions hu' hw]
                  exact halike

/-- An accessor reads the same rule set on both sides. -/
theorem access (ih : SameWithin d copy n) (h : Twin d copy left right) {s : Selector}
    {member : Member} (hs : s ∉ d.selectors)
    (hv : eval (n + 1) left (.access s member p) = .done v)
    (hw : eval (n + 1) right (.access s member p) = .done w) : v = w := by
  rw [eval] at hv hw
  obtain ⟨x, hx, hv⟩ := bind_eq_done (locate_eq_done hv)
  obtain ⟨y, hy, hw⟩ := bind_eq_done (locate_eq_done hw)
  have htarget := ofExcept_eq_done hx
  cases h.targets hs htarget (ofExcept_eq_done hy)
  have hread : (Element.ruleSet x).Every (Spares d) :=
    h.every.ruleSet (s := s) (by rw [ruleSets_of_target htarget]; exact List.mem_cons_self)
  have hinner := h.child (.refl x.container) hread.container
  cases member with
  | var name =>
      simp only at hv hw
      cases hvalue : x.container.getVar? name with
      | none => rw [hvalue] at hv; cases hv
      | some value =>
          rw [hvalue] at hv hw
          exact ih hinner (hread.container.getVar? hvalue) hv hw
  | property name =>
      simp only at hv hw
      cases hd : x.declaration? name with
      | none => rw [hd] at hv; cases hv
      | some dec =>
          rw [hd] at hv hw
          have hmem : dec ∈ x.declarations := List.mem_reverse.mp (List.mem_of_find?_eq_some hd)
          obtain ⟨vs, hvs, hv⟩ := bind_eq_done hv
          obtain ⟨ws, hws, hw⟩ := bind_eq_done hw
          rw [ih.mapM hinner (hread.declaration hmem) hvs hws] at hv
          rw [hv] at hw
          cases hw
          rfl

end SameWithin

end Expr

/-- A variable that the rule set names and does not define: it comes from around
    the rule set. -/
def RuleSet.Borrows (d : RuleSet) (name : String) : Prop :=
  d.container.getVar? name = none ∧ ∃ e ∈ (Element.ruleSet d).exprs, name ∈ e.varNames

namespace Transform

open Reporting Less.Expr

variable {n : Nat} {active : List Selector} {scope left right base : Scope} {d copy r x y : RuleSet}
    {source a b : Container} {ds : List Error}

/-! ## Rule sets without calls -/

/-- The variables that the rule set takes from around it are those of `base`. -/
structure Unhidden (d : RuleSet) (base scope : Scope) : Prop where
  functions : scope.functions = .builtin
  resolving : scope.resolving = []
  vars : ∀ {name}, d.Borrows name → scope.getVar? name = base.getVar? name

theorem Unhidden.child (h : Unhidden d base scope) {c : Container}
    (hc : ∀ name, d.Borrows name → c.getVar? name = none) : Unhidden d base (scope.child c) := by
  refine ⟨h.functions, h.resolving, fun {name} hname => ?_⟩
  rw [getVar?_child, hc name hname, h.vars hname]
  rfl

/-- Declarations that wait on both sides: the same one of the rule set, or two that
    mixins contributed, written alike. -/
inductive Pending.Matches (items : List Item) : Pending → Pending → Prop where
  | source {dec : Declaration} (h : .declaration dec ∈ items) :
      Matches items (.source dec) (.source dec)
  | resolved {dec dec' : Declaration} (h : dec.SameText dec') :
      Matches items (.resolved dec) (.resolved dec')

end Transform

end Less
