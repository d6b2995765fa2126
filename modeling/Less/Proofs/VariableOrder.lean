import Less.Css
import Less.Proofs.Agreement
import Mathlib.Data.List.Perm.Basic

/-! # The order of variables

    Variables are found by name, and no name is bound twice in a container.  So
    the order in which a container has its variables decides nothing but the
    order of the diagnostics.

    * `Reordered` relates elements, containers and sheets that differ in the order
      of variables only, at any depth; parameters keep their order, since
      arguments are bound by place.
    * `Reporting.Permutes R`: both computations give nothing, or both give results
      related by `R` with the same diagnostics in some order.  It passes through
      compositions (`Permutes.bind`, `Permutes.mapM`) and through a list of
      computations made in another order (`Permutes.of_perm`).
    * Expressions have the same values (`eval_reordered`), and the resolution of
      reordered sheets goes in step (`transformElement_reordered`), by induction
      on the bound.  Nothing that is written shows the order (`toCss_reordered`). -/

namespace Less

/-! ## Bindings in another order -/

namespace Bindings

variable {α : Type}

theorem mem_entries_iff {b : Bindings α} {name : String} {value : α} :
    (name, value) ∈ b.entries ↔ b.get? name = some value :=
  ⟨get?_of_mem, mem_of_get?⟩

/-- **Bindings are the same up to order if every name has the same value.** -/
theorem perm_iff_get? {a b : Bindings α} :
    a.entries.Perm b.entries ↔ ∀ name, a.get? name = b.get? name := by
  constructor
  · intro h name
    refine Option.ext fun value => ?_
    rw [← mem_entries_iff, ← mem_entries_iff]
    exact h.mem_iff
  · intro h
    rw [List.perm_ext_iff_of_nodup (.of_map _ a.nodup) (.of_map _ b.nodup)]
    rintro ⟨name, value⟩
    rw [mem_entries_iff, mem_entries_iff, h]

end Bindings

/-! ## Sheets with their variables in another order -/

mutual

/-- The second element is the first one with variables in another order. -/
inductive Element.Reordered : Element → Element → Prop where
  | ruleSet (r : RuleSet) {c : Container} (h : Container.Reordered r.container c) :
      Element.Reordered (.ruleSet r) (.ruleSet { r with container := c })
  | media (m : Media) {c : Container} (h : Container.Reordered m.container c) :
      Element.Reordered (.media m) (.media { m with container := c })
  | page (p : Page) {c : Container} (h : Container.Reordered p.container c) :
      Element.Reordered (.page p) (.page { p with container := c })
  | keyframes (k : Keyframes) {c : Container} (h : Container.Reordered k.container c) :
      Element.Reordered (.keyframes k) (.keyframes { k with container := c })

/-- The containers have the same variables in some order, and elements in the
    same order that differ in the order of variables only. -/
inductive Container.Reordered : Container → Container → Prop where
  | intro {c c' : Container} (vars : c.vars.entries.Perm c'.vars.entries)
      (body : List.Forall₂ Element.Reordered c.body c'.body) : Container.Reordered c c'

end

/-- The second rule set is the first one with variables in another order. -/
structure RuleSet.Reordered (r r' : RuleSet) : Prop where
  same : r' = { r with container := r'.container }
  container : r.container.Reordered r'.container

/-- The second sheet is the first one with variables in another order. -/
structure Sheet.Reordered (sheet sheet' : Sheet) : Prop where
  same : sheet' = { sheet with container := sheet'.container }
  container : sheet.container.Reordered sheet'.container

/-- The containers of the scopes differ in the order of variables only. -/
structure Scope.Reordered (left right : Scope) : Prop where
  functions : left.functions = right.functions
  resolving : left.resolving = right.resolving
  frames : List.Forall₂ Container.Reordered left.frames right.frames

theorem Element.reordered_ruleSet {r r' : RuleSet} :
    Element.Reordered (.ruleSet r) (.ruleSet r') ↔ r.Reordered r' := by
  constructor
  · intro h
    cases h with
    | ruleSet _ h => exact ⟨rfl, h⟩
  · rintro ⟨hsame, hcontainer⟩
    rw [hsame]
    exact .ruleSet r hcontainer

namespace RuleSet.Reordered

variable {r r' : RuleSet}

theorem selectors (h : r.Reordered r') : r'.selectors = r.selectors := by rw [h.same]

theorem params (h : r.Reordered r') : r'.params = r.params := by rw [h.same]

theorem items (h : r.Reordered r') : r'.items = r.items := by rw [h.same]

theorem isMixin (h : r.Reordered r') : r'.isMixin = r.isMixin := by
  rw [RuleSet.isMixin, RuleSet.isMixin, h.params]

theorem accepts (h : r.Reordered r') (count : Nat) : r'.accepts count = r.accepts count := by
  rw [RuleSet.accepts, RuleSet.accepts, h.params]

theorem arity (h : r.Reordered r') : r'.arity = r.arity := by
  rw [RuleSet.arity, RuleSet.arity, h.params]

theorem declarations (h : r.Reordered r') : r'.declarations = r.declarations := by
  rw [RuleSet.declarations, RuleSet.declarations, h.items]

theorem declaration? (h : r.Reordered r') (property : String) :
    r'.declaration? property = r.declaration? property := by
  rw [RuleSet.declaration?, RuleSet.declaration?, h.declarations]

end RuleSet.Reordered

namespace Container.Reordered

variable {c c' : Container}

theorem vars (h : c.Reordered c') : c.vars.entries.Perm c'.vars.entries := by
  obtain ⟨hvars, -⟩ := h
  exact hvars

theorem body (h : c.Reordered c') : List.Forall₂ Element.Reordered c.body c'.body := by
  obtain ⟨-, hbody⟩ := h
  exact hbody

theorem getVar? (h : c.Reordered c') (name : String) : c.getVar? name = c'.getVar? name :=
  Bindings.perm_iff_get?.mp h.vars name

/-- Containers are compared by what their variables are. -/
theorem of_getVar? (hvars : ∀ name, c.getVar? name = c'.getVar? name)
    (hbody : List.Forall₂ Element.Reordered c.body c'.body) : c.Reordered c' :=
  ⟨Bindings.perm_iff_get?.mpr hvars, hbody⟩

theorem childRuleSets (h : c.Reordered c') :
    List.Forall₂ RuleSet.Reordered c.childRuleSets c'.childRuleSets := by
  refine List.rel_filterMap (R := Element.Reordered) (fun e e' he => ?_) h.body
  cases he with
  | ruleSet r h => exact .some ⟨rfl, h⟩
  | media | page | keyframes => exact .none

theorem ruleSets (h : c.Reordered c') (s : Selector) :
    List.Forall₂ RuleSet.Reordered (c.ruleSets s) (c'.ruleSets s) := by
  refine List.rel_flatMap h.childRuleSets fun r r' hr => ?_
  show List.Forall₂ _ (List.replicate _ r) (List.replicate _ r')
  rw [hr.selectors]
  exact List.forall₂_iff_get.mpr ⟨by simp, fun i _ _ => by simpa using hr⟩

theorem setVariable (h : c.Reordered c') (name : String) (value : Expr) :
    (c.setVariable name value).Reordered (c'.setVariable name value) := by
  refine of_getVar? (fun other => ?_) h.body
  show (c.vars.set name value).get? other = (c'.vars.set name value).get? other
  rw [Bindings.get?_set, Bindings.get?_set, ← Container.getVar?, ← Container.getVar?, h.getVar?]

theorem addAll (h : c.Reordered c') {es es' : List Element}
    (hes : List.Forall₂ Element.Reordered es es') : (c.addAll es).Reordered (c'.addAll es') :=
  ⟨h.vars, List.rel_append h.body hes⟩

end Container.Reordered

namespace Scope.Reordered

variable {left right : Scope}

theorem child (h : left.Reordered right) {c c' : Container} (hc : c.Reordered c') :
    (left.child c).Reordered (right.child c') :=
  ⟨h.functions, h.resolving, .cons hc h.frames⟩

theorem enter (h : left.Reordered right) (name : String) :
    (left.enter name).Reordered (right.enter name) :=
  ⟨h.functions, congrArg (name :: ·) h.resolving, h.frames⟩

/-- **A variable has the same value in both scopes.** -/
theorem getVar? (h : left.Reordered right) (name : String) :
    left.getVar? name = right.getVar? name := by
  have hall : ∀ {as bs : List Container}, List.Forall₂ Container.Reordered as bs →
      as.findSome? (·.getVar? name) = bs.findSome? (·.getVar? name) := by
    intro as bs hab
    induction hab with
    | nil => rfl
    | cons hc _ ih => rw [List.findSome?_cons, List.findSome?_cons, hc.getVar?, ih]
  exact hall h.frames

/-- **A selector has the same rule sets in both scopes**, but for the order of
    their variables. -/
theorem ruleSets (h : left.Reordered right) (s : Selector) :
    List.Forall₂ RuleSet.Reordered (left.ruleSets s) (right.ruleSets s) := by
  have hall : ∀ {as bs : List Container}, List.Forall₂ Container.Reordered as bs →
      List.Forall₂ RuleSet.Reordered (ruleSetsIn as s) (ruleSetsIn bs s) := by
    intro as bs hab
    induction hab with
    | nil => exact .nil
    | @cons a b as bs hc _ ih =>
        have hfound := hc.ruleSets s
        rw [ruleSetsIn, ruleSetsIn]
        cases ha : a.ruleSets s with
        | nil =>
            rw [ha, List.forall₂_nil_left_iff] at hfound
            rw [hfound]
            exact ih
        | cons r rs =>
            rw [ha] at hfound
            obtain ⟨r', rs', hr, hrs, hb⟩ := List.forall₂_cons_left_iff.mp hfound
            rw [hb]
            exact .cons hr hrs
  exact hall h.frames

end Scope.Reordered

/-! ## Evaluation -/

namespace Expr

variable {left right : Scope}

/-- An accessor reads the same rule set, or fails alike. -/
theorem target_reordered (h : left.Reordered right) (s : Selector) :
    (∃ e, target left s = .error e ∧ target right s = .error e) ∨
      ∃ r r', target left s = .ok r ∧ target right s = .ok r' ∧ r.Reordered r' := by
  have hfound := h.ruleSets s
  rw [target, target]
  generalize left.ruleSets s = found at hfound ⊢
  generalize right.ruleSets s = found' at hfound ⊢
  cases hfound with
  | nil => exact Or.inl ⟨_, rfl, rfl⟩
  | cons hr hrest =>
      cases hrest with
      | nil => exact Or.inr ⟨_, _, rfl, rfl, hr⟩
      | cons hr' hmore =>
          refine Or.inl ⟨_, rfl, ?_⟩
          simp only [List.length_cons, hmore.length_eq]

/-- **AN EXPRESSION HAS THE SAME VALUE WHATEVER THE ORDER OF VARIABLES.** -/
theorem eval_reordered : ∀ {n : Nat} {left right : Scope} (e : Expr), left.Reordered right →
    eval n left e = eval n right e := by
  intro n
  induction n with
  | zero => intro left right e _; rfl
  | succ n ih =>
      intro left right e h
      cases e with
      | constant value p => rfl
      | literal s p => rfl
      | var name p =>
          rw [eval, eval, Scope.isResolving, Scope.isResolving, h.resolving, h.getVar?]
          split
          · rfl
          · split
            · rfl
            · rw [ih _ (h.enter name)]
      | list items p => rw [eval, eval, mapM_congr_of_mem fun e _ => ih e h]
      | call name arguments p =>
          rw [eval, eval, invoke, invoke, mapM_congr_of_mem fun e _ => ih e h, h.functions]
      | access s member p =>
          rw [eval, eval]
          rcases target_reordered h s with ⟨e, hl, hr⟩ | ⟨r, r', hl, hr, hrr⟩
          · rw [hl, hr]
            rfl
          · have hinner := h.child hrr.container
            rw [hl, hr]
            cases member with
            | var name =>
                simp only [Evaluation.ofExcept, Evaluation.done_bind, hrr.container.getVar?]
                split
                · rfl
                · rw [ih _ hinner]
            | property name =>
                simp only [Evaluation.ofExcept, Evaluation.done_bind, hrr.declaration?]
                split
                · rfl
                · rw [mapM_congr_of_mem fun e _ => ih e hinner]
      | binary op l r p => rw [eval, eval, ih l h, ih r h]

end Expr

/-! ## Computations with their diagnostics in another order -/

namespace Reporting

variable {α β γ δ : Type}

/-- Neither computation has a result, or both do, related by `R`, with the same
    diagnostics in some order. -/
def Permutes (R : α → β → Prop) (x : Reporting α) (y : Reporting β) : Prop :=
  (x = none ∧ y = none) ∨
    ∃ a b ds es, x = some (a, ds) ∧ y = some (b, es) ∧ R a b ∧ ds.Perm es

namespace Permutes

variable {R : α → β → Prop} {Q : γ → δ → Prop} {x : Reporting α} {y : Reporting β}

theorem pure {a : α} {b : β} (h : R a b) :
    Permutes R (pure a : Reporting α) (pure b : Reporting β) :=
  Or.inr ⟨a, b, [], [], rfl, rfl, h, .nil⟩

theorem of_eq {R : α → α → Prop} (hR : ∀ a, R a a) {x y : Reporting α} (h : x = y) :
    Permutes R x y := by
  subst h
  cases x with
  | none => exact Or.inl ⟨rfl, rfl⟩
  | some r => exact Or.inr ⟨r.1, r.1, r.2, r.2, rfl, rfl, hR r.1, .refl _⟩

theorem bind {f : α → Reporting γ} {g : β → Reporting δ} (h : Permutes R x y)
    (hfg : ∀ a b, R a b → Permutes Q (f a) (g b)) : Permutes Q (x >>= f) (y >>= g) := by
  rcases h with ⟨rfl, rfl⟩ | ⟨a, b, ds, es, rfl, rfl, hab, hperm⟩
  · exact Or.inl ⟨rfl, rfl⟩
  · rcases hfg a b hab with ⟨hf, hg⟩ | ⟨c, d, fs, gs, hf, hg, hcd, hperm'⟩
    · refine Or.inl ⟨?_, ?_⟩
      · show Reporting.bind (some (a, ds)) f = none
        simp only [Reporting.bind, hf]
        rfl
      · show Reporting.bind (some (b, es)) g = none
        simp only [Reporting.bind, hg]
        rfl
    · exact Or.inr ⟨c, d, ds ++ fs, es ++ gs, bind_of_some rfl hf, bind_of_some rfl hg, hcd,
        hperm.append hperm'⟩

theorem map {f : α → γ} {g : β → δ} (h : Permutes R x y) (hfg : ∀ a b, R a b → Q (f a) (g b)) :
    Permutes Q (f <$> x) (g <$> y) := by
  rw [map_eq_pure_bind, map_eq_pure_bind]
  exact h.bind fun a b hab => .pure (hfg a b hab)

/-- Related lists give related results. -/
theorem mapM {f : α → Reporting γ} {g : β → Reporting δ} {as : List α} {bs : List β}
    (hab : List.Forall₂ R as bs) (h : ∀ a b, R a b → Permutes Q (f a) (g b)) :
    Permutes (List.Forall₂ Q) (as.mapM f) (bs.mapM g) := by
  induction hab with
  | nil => exact .pure .nil
  | cons ha _ ih =>
      rw [List.mapM_cons, List.mapM_cons]
      refine (h _ _ ha).bind fun c d hcd => ?_
      exact ih.bind fun cs ds hcds => .pure (.cons hcd hcds)

/-- **The order of computations decides the order of results and diagnostics only.** -/
theorem of_perm {f : α → Reporting β} {as as' : List α} (h : as.Perm as') :
    Permutes List.Perm (as.mapM f) (as'.mapM f) := by
  -- one direction serves both, as a permutation can be undone
  have hsome : ∀ {xs ys : List α}, xs.Perm ys → ∀ bs ds, ys.mapM f = some (bs, ds) →
      ∃ bs' ds', xs.mapM f = some (bs', ds') ∧ bs'.Perm bs ∧ ds'.Perm ds := by
    intro xs ys hxy bs ds hys
    obtain ⟨parts, hparts, rfl, rfl⟩ := mapM_eq_some_iff.mp hys
    obtain ⟨parts', hparts', hperm⟩ := List.perm_comp_forall₂ hxy hparts
    exact ⟨_, _, mapM_eq_some_iff.mpr ⟨parts', hparts', rfl, rfl⟩, hperm.map _,
      hperm.flatMap_right _⟩
  cases hright : as'.mapM f with
  | some r =>
      obtain ⟨bs, ds, hleft, hbs, hds⟩ := hsome h r.1 r.2 hright
      exact Or.inr ⟨bs, r.1, ds, r.2, hleft, rfl, hbs, hds⟩
  | none =>
      cases hleft : as.mapM f with
      | none => exact Or.inl ⟨rfl, rfl⟩
      | some r =>
          obtain ⟨bs, ds, hsome, -⟩ := hsome h.symm r.1 r.2 hleft
          rw [hright] at hsome
          cases hsome

/-- What is known of the first result may be used. -/
theorem and_left {P : α → Prop} (h : Permutes R x y) (hP : ∀ a ds, x = some (a, ds) → P a) :
    Permutes (fun a b => R a b ∧ P a) x y := by
  rcases h with h | ⟨a, b, ds, es, hx, hy, hab, hperm⟩
  · exact Or.inl h
  · exact Or.inr ⟨a, b, ds, es, hx, hy, ⟨hab, hP a ds hx⟩, hperm⟩

end Permutes

end Reporting

namespace Transform

open Reporting

variable {n : Nat} {active : List Selector} {left right : Scope} {c c' a b : Container}
    {r r' : RuleSet}

/-! ## Variables and declarations -/

theorem resolve_reordered (h : left.Reordered right) (p : Option Position) (e : Expr) :
    resolve n left p e = resolve n right p e := by
  rw [resolve, resolve, Expr.eval_reordered e h]

/-- Entries that are computed one by one keep their names. -/
theorem names_of_mapM {f : String × Expr → Reporting Expr} {entries results : List (String × Expr)}
    {ds : List Error}
    (h : entries.mapM (fun entry => do return (entry.1, ← f entry)) = some (results, ds)) :
    results.map Prod.fst = entries.map Prod.fst := by
  have hnames : List.Forall₂ Eq (entries.map Prod.fst) (results.map Prod.fst) := by
    rw [List.forall₂_map_left_iff, List.forall₂_map_right_iff]
    refine (mapM_eq_some h).imp fun entry result hstep => ?_
    obtain ⟨es, hes, -⟩ := hstep
    obtain ⟨value, first, second, -, hpure, -⟩ := bind_eq_some hes
    obtain ⟨rfl, -⟩ := pure_eq_some hpure
    rfl
  rw [List.forall₂_eq_eq_eq] at hnames
  exact hnames.symm

/-- The variables of a container are resolved in its order, to the same values. -/
theorem resolveVariables_reordered (h : left.Reordered right) (hc : c.Reordered c') :
    Permutes (fun vars vars' => vars.entries.Perm vars'.entries) (resolveVariables n left c)
      (resolveVariables n right c') := by
  have hsame : ∀ entry : String × Expr,
      resolve n (left.child c) entry.2.position entry.2 =
        resolve n (right.child c') entry.2.position entry.2 :=
    fun entry => resolve_reordered (h.child hc) _ _
  rw [resolveVariables, resolveVariables]
  simp only [hsame]
  refine Permutes.bind (Permutes.and_left (P := fun entries => (entries.map Prod.fst).Nodup)
    (.of_perm hc.vars) fun entries ds hentries => ?_) fun entries entries' hentries => .pure ?_
  · rw [names_of_mapM hentries]
    exact c.vars.nodup
  · -- distinct names are bound in the order in which they come
    obtain ⟨hperm, hnodup⟩ := hentries
    rw [Bindings.entries_ofList hnodup,
      Bindings.entries_ofList ((hperm.map Prod.fst).nodup_iff.mp hnodup)]
    exact hperm

theorem resolveDeclaration_reordered (h : left.Reordered right) (d : Declaration) :
    resolveDeclaration n left d = resolveDeclaration n right d := by
  rw [resolveDeclaration, resolveDeclaration,
    mapM_congr_of_mem fun e _ => resolve_reordered h d.position e]

/-! ## Mixin calls -/

theorem find?_reordered {rs rs' : List RuleSet} (h : List.Forall₂ RuleSet.Reordered rs rs')
    (count : Nat) : Option.Rel RuleSet.Reordered (rs.find? (·.accepts count))
      (rs'.find? (·.accepts count)) := by
  induction h with
  | nil => exact .none
  | cons hr _ ih =>
      rw [List.find?_cons, List.find?_cons, hr.accepts]
      split
      · exact .some hr
      · exact ih

theorem selectMixin_reordered {rs rs' : List RuleSet} (h : List.Forall₂ RuleSet.Reordered rs rs')
    (count : Nat) :
    Option.Rel RuleSet.Reordered (selectMixin rs count) (selectMixin rs' count) := by
  have hhead : Option.Rel RuleSet.Reordered rs.head? rs'.head? := by
    cases h with
    | nil => exact .none
    | cons hr _ => exact .some hr
  have hfind := find?_reordered h count
  rw [selectMixin, selectMixin]
  generalize rs.find? _ = found at hfind ⊢
  generalize rs'.find? _ = found' at hfind ⊢
  cases hfind with
  | some hr => exact .some hr
  | none => exact hhead

/-- The parameters are bound in their own order. -/
theorem bindParameters_reordered (params : List (String × Option Expr)) :
    ∀ (arguments : List Expr) {c c' : Container}, c.Reordered c' →
      (bindParameters params arguments c).Reordered (bindParameters params arguments c') := by
  induction params with
  | nil => exact fun _ _ _ h => h
  | cons param params ih =>
      intro arguments c c' h
      rw [bindParameters, bindParameters]
      split
      · exact ih _ (h.setVariable _ _)
      · exact ih _ h

theorem instantiate_reordered (h : r.Reordered r') (arguments : List Expr) :
    (instantiate r arguments).Reordered (instantiate r' arguments) := by
  rw [instantiate, instantiate, h.params]
  split
  · rename_i params hparams
    refine ⟨?_, bindParameters_reordered params.entries arguments h.container⟩
    rw [h.same]
  · exact h

theorem prepareCall_reordered (h : left.Reordered right) (hc : c.Reordered c')
    (hab : a.Reordered b) (call : MixinCall) :
    Permutes (Option.Rel RuleSet.Reordered) (prepareCall n active left c a call)
      (prepareCall n active right c' b call) := by
  have hfail : ∀ e : Error, Permutes (Option.Rel RuleSet.Reordered)
      (do report (e.locate call.position); return none : Reporting (Option RuleSet))
      (do report (e.locate call.position); return none : Reporting (Option RuleSet)) :=
    fun e => Or.inr ⟨none, none, _, _, rfl, rfl, .none, .refl _⟩
  have hselect := selectMixin_reordered ((h.child hc).ruleSets call.selector) call.arguments.length
  rw [prepareCall, prepareCall]
  simp only
  split
  · exact hfail _
  · generalize selectMixin ((left.child c).ruleSets call.selector) _ = found at hselect ⊢
    generalize selectMixin ((right.child c').ruleSets call.selector) _ = found' at hselect ⊢
    cases hselect with
    | none => exact hfail _
    | some hr =>
        simp only [hr.arity]
        split
        · exact hfail _
        · rw [mapM_congr_of_mem fun e _ => Expr.eval_reordered e (h.child hab)]
          refine Permutes.bind (.of_eq (R := Eq) (fun _ => rfl) rfl) ?_
          rintro result _ rfl
          cases result with
          | error e => exact hfail e
          | ok arguments => exact .pure (.some (instantiate_reordered hr arguments))

/-- The expander does not see the order of variables. -/
def Unordered (expand : Expander) : Prop :=
  ∀ (active : List Selector) (left right : Scope) (r r' : RuleSet), left.Reordered right →
    r.Reordered r' → Permutes RuleSet.Reordered (expand active left r) (expand active right r')

theorem expandCall_reordered {expand : Expander} (hexpand : Unordered expand)
    (h : left.Reordered right) (hc : c.Reordered c') (hab : a.Reordered b) (call : MixinCall) :
    Permutes (Option.Rel RuleSet.Reordered) (expandCall n expand active left c a call)
      (expandCall n expand active right c' b call) := by
  rw [expandCall, expandCall]
  refine (prepareCall_reordered h hc hab call).bind fun mixin mixin' hmixin => ?_
  cases hmixin with
  | none => exact .pure .none
  | some hr => exact (hexpand _ _ _ _ _ (h.child hab) hr).map fun x y hxy => .some hxy

/-! ## Items -/

/-- Variables that are taken over have distinct names, so that their order does
    not decide which value stays. -/
theorem absorb_reordered (hab : a.Reordered b) (hr : r.Reordered r') :
    (absorb a r).Reordered (absorb b r') := by
  refine .of_getVar? (fun name => ?_) (List.rel_append hab.body ?_)
  · rw [getVar?_absorb, getVar?_absorb, hr.container.getVar?, hab.getVar?]
  · rw [List.forall₂_map_left_iff, List.forall₂_map_right_iff]
    exact hr.container.childRuleSets.imp fun _ _ h => Element.reordered_ruleSet.mpr h

/-- **The items of the rule set go in step**: the same declarations wait in the
    end. -/
theorem gather_reordered {call call' : Container → MixinCall → Reporting (Option RuleSet)}
    (hcall : ∀ a b m, a.Reordered b →
      Permutes (Option.Rel RuleSet.Reordered) (call a m) (call' b m)) :
    ∀ (items : List Item) {a b : Container}, a.Reordered b →
      Permutes (fun x y => x.1 = y.1 ∧ x.2.Reordered y.2) (gather call items a)
        (gather call' items b) := by
  intro items
  induction items with
  | nil => exact fun hab => .pure ⟨rfl, hab⟩
  | cons item items ih =>
      intro a b hab
      cases item with
      | declaration d =>
          rw [gather, gather]
          refine (ih hab).bind ?_
          rintro ⟨pending, a'⟩ ⟨_, b'⟩ ⟨rfl, hab'⟩
          exact .pure ⟨rfl, hab'⟩
      | mixin m =>
          rw [gather, gather]
          refine (hcall a b m hab).bind fun copy copy' hcopy => ?_
          cases hcopy with
          | none => exact ih hab
          | some hr =>
              refine (ih (absorb_reordered hab hr)).bind ?_
              rintro ⟨pending, a'⟩ ⟨_, b'⟩ ⟨rfl, hab'⟩
              exact .pure ⟨by rw [hr.declarations], hab'⟩

theorem settle_reordered (h : left.Reordered right) (p : Pending) :
    settle n left p = settle n right p := by
  cases p with
  | source d => rw [settle, settle, resolveDeclaration_reordered h]
  | resolved d => rfl

theorem resolveItems_reordered {expand : Expander} (hexpand : Unordered expand)
    (h : left.Reordered right) (items : List Item) (hc : c.Reordered c') (hab : a.Reordered b) :
    Permutes (fun x y => x.1 = y.1 ∧ x.2.Reordered y.2)
      (resolveItems n expand active left items c a)
      (resolveItems n expand active right items c' b) := by
  rw [resolveItems, resolveItems]
  split
  · refine (gather_reordered (fun a b m hab => expandCall_reordered hexpand h hc hab m) items
      hab).bind ?_
    rintro ⟨pending, a'⟩ ⟨_, b'⟩ ⟨rfl, hab'⟩
    show Permutes _ (pending.mapM (settle n (left.child a')) >>= _)
      (pending.mapM (settle n (right.child b')) >>= _)
    rw [mapM_congr_of_mem fun p _ => settle_reordered (h.child hab') p]
    exact Permutes.bind (.of_eq (R := Eq) (fun _ => rfl) rfl) fun x y hxy => .pure ⟨hxy, hab'⟩
  · simp only [resolveDeclaration_reordered (h.child hc)]
    exact Permutes.bind (.of_eq (R := Eq) (fun _ => rfl) rfl) fun x y hxy => .pure ⟨hxy, hab⟩

/-! ## Rule sets -/

/-- **The expansion of a rule set does not see the order of variables**, by
    induction on the depth of calls. -/
theorem expand_reordered : ∀ n : Nat, Unordered (expand n)
  | 0, _, _, _, _, _, _, _ => Or.inl ⟨rfl, rfl⟩
  | n + 1, active, left, right, r, r', h, hr => by
      rw [expand, expand, hr.items]
      refine (resolveVariables_reordered h hr.container).bind fun vars vars' hvars => ?_
      refine (resolveItems_reordered (a := { vars, body := r.container.body })
        (b := { vars := vars', body := r'.container.body }) (expand_reordered n) h r.items
        hr.container ⟨hvars, hr.container.body⟩).bind ?_
      rintro ⟨items, a⟩ ⟨_, b⟩ ⟨rfl, hab⟩
      exact .pure ⟨by rw [hr.same], hab⟩

theorem flatten_reordered {transform : Scope → RuleSet → Reporting (List RuleSet)}
    (htransform : ∀ {left right r r'}, left.Reordered right → r.Reordered r' →
      Permutes (List.Forall₂ RuleSet.Reordered) (transform left r) (transform right r'))
    (h : left.Reordered right) (hr : r.Reordered r') :
    Permutes (List.Forall₂ RuleSet.Reordered) (flatten transform left r)
      (flatten transform right r') := by
  have hchildren : List.Forall₂ RuleSet.Reordered
      (r.container.childRuleSets.filter fun child => !child.isMixin)
      (r'.container.childRuleSets.filter fun child => !child.isMixin) := by
    refine List.rel_filter (fun x y hxy => ?_) hr.container.childRuleSets
    show (!x.isMixin) = true ↔ (!y.isMixin) = true
    rw [hxy.isMixin]
  rw [flatten, flatten]
  refine (Permutes.mapM hchildren fun x y hxy => htransform (h.child hr.container) hxy).bind
    fun produced produced' hproduced => .pure ?_
  refine List.rel_map (fun x y hxy => ?_) (List.rel_flatten hproduced)
  refine ⟨?_, hxy.container⟩
  rw [hr.selectors, hxy.same]

theorem transformRuleSet_reordered : ∀ {n : Nat} {left right : Scope} {r r' : RuleSet},
    left.Reordered right → r.Reordered r' →
      Permutes (List.Forall₂ RuleSet.Reordered) (transformRuleSet n left r)
        (transformRuleSet n right r') := by
  intro n
  induction n with
  | zero => exact fun _ _ => Or.inl ⟨rfl, rfl⟩
  | succ n ih =>
      intro left right r r' h hr
      rw [transformRuleSet, transformRuleSet, hr.isMixin]
      split
      · exact .pure (.cons hr .nil)
      · refine (expand_reordered n _ _ _ _ _ h hr).bind fun x y hxy => ?_
        exact (flatten_reordered ih h hxy).bind fun xs ys hxys => .pure (.cons hxy hxys)

/-! ## Elements -/

theorem transformBody_reordered {transform : Scope → Element → Reporting (List Element)}
    (htransform : ∀ {left right e e'}, left.Reordered right → e.Reordered e' →
      Permutes (List.Forall₂ Element.Reordered) (transform left e) (transform right e'))
    (h : left.Reordered right) {es es' : List Element} (hes : List.Forall₂ Element.Reordered es es')
    (hab : a.Reordered b) :
    Permutes Container.Reordered (transformBody transform left es a)
      (transformBody transform right es' b) := by
  induction hes generalizing a b with
  | nil => exact .pure hab
  | cons he _ ih =>
      rw [transformBody, transformBody]
      exact (htransform (h.child hab) he).bind fun produced produced' hproduced =>
        ih (hab.addAll hproduced)

theorem transformContainer_reordered {transform : Scope → Element → Reporting (List Element)}
    (htransform : ∀ {left right e e'}, left.Reordered right → e.Reordered e' →
      Permutes (List.Forall₂ Element.Reordered) (transform left e) (transform right e'))
    {parent parent' : Scope} (h : left.Reordered right) (hparent : parent.Reordered parent')
    (hc : c.Reordered c') :
    Permutes Container.Reordered (transformContainer n transform left parent c)
      (transformContainer n transform right parent' c') := by
  rw [transformContainer, transformContainer]
  exact (resolveVariables_reordered h hc).bind fun vars vars' hvars =>
    transformBody_reordered (a := { vars, body := [] }) (b := { vars := vars', body := [] })
      htransform hparent hc.body ⟨hvars, .nil⟩

theorem transformPage_reordered (h : left.Reordered right) (p : Page)
    (hc : p.container.Reordered c) :
    Permutes (fun x y => Element.Reordered (.page x) (.page y)) (transformPage n left p)
      (transformPage n right { p with container := c }) := by
  rw [transformPage, transformPage]
  refine (resolveVariables_reordered h hc).bind fun vars vars' hvars => ?_
  refine (resolveItems_reordered (a := { vars, body := [] }) (b := { vars := vars', body := [] })
    (expand_reordered n) h p.items hc ⟨hvars, .nil⟩).bind ?_
  rintro ⟨items, a⟩ ⟨_, b⟩ ⟨rfl, hab⟩
  exact .pure (.page { p with items, container := a } hab)

/-- **REORDERED ELEMENTS ARE RESOLVED IN STEP.** -/
theorem transformElement_reordered : ∀ {n : Nat} {left right : Scope} {e e' : Element},
    left.Reordered right → e.Reordered e' →
      Permutes (List.Forall₂ Element.Reordered) (transformElement n left e)
        (transformElement n right e') := by
  intro n
  induction n with
  | zero => exact fun _ _ => Or.inl ⟨rfl, rfl⟩
  | succ n ih =>
      intro left right e e' h he
      cases he with
      | ruleSet r hc =>
          rw [transformElement, transformElement]
          refine (transformRuleSet_reordered h ⟨rfl, hc⟩).bind fun rs rs' hrs => .pure ?_
          exact List.rel_map (fun _ _ h => Element.reordered_ruleSet.mpr h) hrs
      | media m hc =>
          rw [transformElement, transformElement]
          exact (transformContainer_reordered ih h h hc).bind fun a b hab =>
            .pure (.cons (.media { m with container := a } hab) .nil)
      | page p hc =>
          rw [transformElement, transformElement]
          exact (transformPage_reordered h p hc).bind fun x y hxy => .pure (.cons hxy .nil)
      | keyframes k hc =>
          rw [transformElement, transformElement]
          exact (transformContainer_reordered ih h h hc).bind fun a b hab =>
            .pure (.cons (.keyframes { k with container := a } hab) .nil)

theorem transformSheet_reordered (n : Nat) (functions : Registry) {sheet sheet' : Sheet}
    (h : sheet.Reordered sheet') :
    Permutes Sheet.Reordered (transformSheet n functions sheet)
      (transformSheet n functions sheet') := by
  have hroot : (Scope.root functions).Reordered (Scope.root functions) := ⟨rfl, rfl, .nil⟩
  rw [transformSheet, transformSheet]
  refine (transformContainer_reordered transformElement_reordered hroot (hroot.child h.container)
    h.container).bind fun a b hab => .pure ⟨?_, hab⟩
  rw [h.same]

end Transform

/-! ## CSS text -/

namespace Css

/-- Elements are written one by one. -/
theorem body_congr (write : Element → Option String) {writeAll : List Element → List String}
    (hcons : ∀ e es, writeAll (e :: es) = (write e).toList ++ writeAll es) {es es' : List Element}
    (hes : List.Forall₂ Element.Reordered es es')
    (h : ∀ e ∈ es, ∀ e', e.Reordered e' → write e = write e') : writeAll es = writeAll es' := by
  induction hes with
  | nil => rfl
  | cons he _ ih =>
      rw [hcons, hcons, h _ List.mem_cons_self _ he, ih fun e he => h e (List.mem_cons_of_mem _ he)]

/-- **An element is written without its variables**, by induction along nesting. -/
theorem prettyElement_reordered (e : Element) : ∀ (level : Nat) (e' : Element), e.Reordered e' →
    prettyElement level e = prettyElement level e' := by
  induction e using Element.induction with
  | step e ih =>
      intro level e' h
      have hbody : ∀ {body'}, List.Forall₂ Element.Reordered e.container.body body' →
          prettyBody (level + 1) e.container.body = prettyBody (level + 1) body' :=
        fun hall => body_congr (prettyElement (level + 1)) (fun _ _ => rfl) hall
          fun o ho o' hoo => ih o ho (level + 1) o' hoo
      cases h with
      | ruleSet r h => rfl
      | page p h => rfl
      | media m h =>
          rw [prettyElement_of_media, prettyElement_of_media, ← hbody h.body]
          rfl
      | keyframes k h =>
          rw [prettyElement_of_keyframes, prettyElement_of_keyframes, ← hbody h.body]
          rfl

/-- The same for minified text. -/
theorem minifiedElement_reordered (e : Element) : ∀ e' : Element, e.Reordered e' →
    minifiedElement e = minifiedElement e' := by
  induction e using Element.induction with
  | step e ih =>
      intro e' h
      have hbody : ∀ {body'}, List.Forall₂ Element.Reordered e.container.body body' →
          minifiedBody e.container.body = minifiedBody body' :=
        fun hall => body_congr minifiedElement (fun _ _ => rfl) hall ih
      cases h with
      | ruleSet r h => rfl
      | page p h => rfl
      | media m h =>
          rw [minifiedElement_of_media, minifiedElement_of_media, ← hbody h.body]
          rfl
      | keyframes k h =>
          rw [minifiedElement_of_keyframes, minifiedElement_of_keyframes, ← hbody h.body]
          rfl

end Css

/-- **A sheet is written without its variables**, and so in whatever order they
    are. -/
theorem Sheet.toCss_reordered {sheet sheet' : Sheet} (h : sheet.Reordered sheet') (minify : Bool) :
    sheet.toCss minify = sheet'.toCss minify := by
  have hheader : Css.headerLines sheet' = Css.headerLines sheet := by
    rw [h.same]
    rfl
  have hpretty : Css.prettyBody 0 sheet.container.body = Css.prettyBody 0 sheet'.container.body :=
    Css.body_congr (Css.prettyElement 0) (fun _ _ => rfl) h.container.body
      fun e _ => Css.prettyElement_reordered e 0
  have hminified : Css.minifiedBody sheet.container.body = Css.minifiedBody sheet'.container.body :=
    Css.body_congr Css.minifiedElement (fun _ _ => rfl) h.container.body
      fun e _ => Css.minifiedElement_reordered e
  rw [Sheet.toCss, Sheet.toCss, Css.minified, Css.minified, Css.pretty, Css.pretty, hheader,
    hpretty, hminified]

/-! ## The whole sheet -/

/-- **THE ORDER OF VARIABLES IS IRRELEVANT.**  If a sheet is resolved within a
    bound, so is every sheet with the same variables in another order, in any
    containers at any depth: with the same diagnostics in some order, to a sheet
    that again differs in the order of variables only, and to the same text. -/
theorem Transform.variable_order_irrelevant {sheet sheet' : Sheet} (h : sheet.Reordered sheet')
    {n : Nat} {functions : Registry} {out : Sheet} {ds : List Error}
    (hrun : transformSheet n functions sheet = some (out, ds)) :
    ∃ out' ds', transformSheet n functions sheet' = some (out', ds') ∧ ds.Perm ds'
      ∧ out.Reordered out' ∧ ∀ minify, out.toCss minify = out'.toCss minify := by
  rcases transformSheet_reordered n functions h with
    ⟨hnone, -⟩ | ⟨_, out', _, ds', hsome, hrun', hout, hperm⟩
  · rw [hnone] at hrun
    cases hrun
  · rw [hrun] at hsome
    cases hsome
    exact ⟨out', ds', hrun', hperm, hout, Sheet.toCss_reordered hout⟩

/-- Two faulty variables of a sheet and two variables of a mixin, of which one
    uses the other, change places: the two diagnostics do as well. -/
theorem Transform.variable_order_irrelevant_with_mixin :
    let u : String × Expr := ("u", .var "x" none)
    let v : String × Expr := ("v", .var "y" none)
    let s : String × Expr := ("s", .var "t" none)
    let t : String × Expr := ("t", .literal "red" none)
    let definition (entries : List (String × Expr)) : RuleSet :=
      { selectors := [⟨".m"⟩], params := some (.ofList [("a", none)])
        container := { vars := .ofList entries, body := [] }, position := none
        items := [.declaration { property := "color", values := [.var "s" none, .var "a" none] }] }
    let caller : RuleSet :=
      { selectors := [⟨".c"⟩], params := none, container := .empty, position := none
        items := [.mixin { selector := ⟨".m"⟩, arguments := [.literal "!" none] }] }
    let sheet (outer inner : List (String × Expr)) : Sheet :=
      { container :=
          { vars := .ofList outer, body := [.ruleSet (definition inner), .ruleSet caller] } }
    (sheet [u, v] [s, t]).Reordered (sheet [v, u] [t, s])
      ∧ ∃ out out',
        transformSheet 8 .builtin (sheet [u, v] [s, t])
            = some (out, [.undefinedVariable "x", .undefinedVariable "y"])
          ∧ transformSheet 8 .builtin (sheet [v, u] [t, s])
            = some (out', [.undefinedVariable "y", .undefinedVariable "x"])
          ∧ ∀ minify, out.toCss minify = out'.toCss minify := by
  intro u v s t definition caller sheet
  have hreordered : (sheet [u, v] [s, t]).Reordered (sheet [v, u] [t, s]) := by
    refine ⟨rfl, .intro (.swap v u []) (.cons (.ruleSet (definition [s, t]) ?_)
      (.cons (.ruleSet caller ?_) .nil))⟩
    · exact .intro (.swap t s []) .nil
    · exact .intro .nil .nil
  have hreport : (transformSheet 8 .builtin (sheet [u, v] [s, t])).map Prod.snd
      = some [.undefinedVariable "x", .undefinedVariable "y"] := by rfl
  have hreport' : (transformSheet 8 .builtin (sheet [v, u] [t, s])).map Prod.snd
      = some [.undefinedVariable "y", .undefinedVariable "x"] := by rfl
  obtain ⟨⟨out, ds⟩, hrun, rfl⟩ := Option.map_eq_some_iff.mp hreport
  obtain ⟨out', ds', hrun', -, -, htext⟩ := variable_order_irrelevant hreordered hrun
  rw [hrun'] at hreport'
  cases hreport'
  exact ⟨hreordered, out, out', hrun, hrun', htext⟩

end Less
