import Less.Proofs.Contents
import Less.Proofs.Steps
import Less.Proofs.Value

/-! # Resolved sheets

    A resolved sheet has nothing left to resolve.  With or without diagnostics,
    its rule sets and pages hold declarations only; without diagnostics, every
    value of a declaration and of a variable is an expression without variables,
    lists, accessors and calls of built-in functions.

    The expressions a resolution writes come from `resolve`, whose results are
    values (`isValue_of_resolve`), or from an expanded mixin.  So the statement
    for an expansion is by induction on the depth of mixin calls
    (`expand_yieldsValues`), the one for nested rule sets by induction on their
    nesting, and the one for blocks by induction on theirs; each step is an
    invariant of a loop.  Definitions of mixins are passed on as they are, and
    so are the elements inside the rule sets of the result. -/

namespace Less

namespace Expr

/-- A value is resolved. -/
theorem isResolved_of_isValue {functions : Registry} {n : Nat} {v : Expr}
    (h : IsValue functions n v) :
    v.isResolved functions = true := by
  induction h with
  | constant v p => rfl
  | literal s p => rfl
  | @call n name arguments p hname _ ih =>
      have hnode : isResolvedNode functions (call name arguments p) = true := by
        rw [isResolvedNode, Registry.contains, Bindings.contains]
        rw [Registry.get?] at hname
        rw [hname]
        rfl
      rw [isResolved, every, hnode, everyOf_eq_all, Bool.true_and, List.all_eq_true]
      exact ih
  | @binary n op left right p _ _ _ ihl ihr =>
      rw [isResolved] at ihl ihr
      rw [isResolved, every, ihl, ihr]
      rfl

end Expr

/-- Every one of the expressions is resolved. -/
def AllResolved (es : List Expr) : Prop :=
  ∀ e ∈ es, e.isResolved .builtin = true

/-- Every one of the expressions is a value, at most `n` deep. -/
def AllValues (n : Nat) (es : List Expr) : Prop :=
  ∀ e ∈ es, Expr.IsValue .builtin n e

theorem AllValues.allResolved {n : Nat} {es : List Expr} (h : AllValues n es) : AllResolved es :=
  fun e he => Expr.isResolved_of_isValue (h e he)

namespace Transform

open Reporting

variable {n : Nat} {scope parent : Scope} {ds : List Error}

/-! ## Expansion without diagnostics -/

/-- What is resolved without a diagnostic is a value. -/
theorem isValue_of_resolve (hf : scope.functions = .builtin) {p : Option Position} {value v : Expr}
    (h : resolve n scope p value = some (v, [])) : Expr.IsValue .builtin n v :=
  Expr.eval_isValue hf (eval_of_resolve h)

theorem resolveVariables_allValues (hf : scope.functions = .builtin) {c : Container}
    {vars : Bindings Expr} (h : resolveVariables n scope c = some (vars, []))
    (body : List Element) :
    AllValues n ({ vars, body } : Container).values := by
  intro v hv
  obtain ⟨⟨name, v'⟩, hentry, rfl⟩ := List.mem_map.mp hv
  obtain ⟨source, -, -, es, hes, hsub⟩ := exists_of_forall₂ (resolveVariables_eq_some h) hentry
  rw [List.subset_nil.mp hsub] at hes
  exact isValue_of_resolve (Scope.functions_child hf c) hes

theorem resolveDeclaration_allValues (hf : scope.functions = .builtin) {d result : Declaration}
    (h : resolveDeclaration n scope d = some (result, [])) : AllValues n result.values := by
  obtain ⟨values, rfl, hvalues⟩ := resolveDeclaration_eq_some h
  intro v hv
  obtain ⟨value, -, es, hes, hsub⟩ := exists_of_forall₂ hvalues hv
  rw [List.subset_nil.mp hsub] at hes
  exact isValue_of_resolve hf hes

/-- The expander leaves values, at most `n` deep, where it reports nothing. -/
def YieldsValues (n : Nat) (expand : Expander) : Prop :=
  ∀ {active : List Selector} {scope : Scope} {r result : RuleSet}, scope.functions = .builtin →
    expand active scope r = some (result, []) → AllValues n (Element.ruleSet result).exprs

/-- Items resolved without a diagnostic hold values, and so does the container
    that was built with them. -/
theorem resolveItems_allValues {expand : Expander} (hexpand : YieldsValues n expand)
    (hf : scope.functions = .builtin) {active : List Selector} {items result : List Item}
    {source dest final : Container}
    (h : resolveItems n expand active scope items source dest = some ((result, final), []))
    (hdest : AllValues n dest.values) :
    AllValues n (result.flatMap Item.exprs) ∧ AllValues n final.values := by
  rcases resolveItems_eq_some h with
    ⟨-, pending, first, second, hgather, hsettle, hds⟩ | ⟨-, rfl, hmap⟩
  · obtain ⟨rfl, rfl⟩ := List.append_eq_nil_iff.mp hds.symm
    -- an expanded call brings in variables and declarations with values only
    have hcall : ∀ {dest c expanded es}, AllValues n dest.values →
        expandCall n expand active scope source dest c = some (some expanded, es) → es ⊆ [] →
        AllValues n (absorb dest expanded).values ∧
          ∀ d ∈ expanded.declarations, AllValues n d.values := by
      intro dest c expanded es hdest hc hes
      rw [List.subset_nil.mp hes] at hc
      rcases expandCall_eq_some hc with ⟨hnone, -⟩ | ⟨mixin, arguments, r, -, -, -, -, hr, hsome⟩
      · cases hnone
      · cases hsome
        have hexprs := hexpand (Scope.functions_child hf dest) hr
        refine ⟨fun v hv => ?_, fun d hd v hv => hexprs v (mem_exprs_of_declaration hd hv)⟩
        rcases mem_values_absorb hv with hv | hv
        · exact hdest v hv
        · exact hexprs v (mem_exprs_of_value (e := .ruleSet expanded) hv)
    obtain ⟨hfinal, hpending⟩ := gather_invariant hcall hgather (List.Subset.refl []) hdest
    refine ⟨fun v hv => ?_, hfinal⟩
    obtain ⟨item, hitem, hv⟩ := List.mem_flatMap.mp hv
    obtain ⟨p, hp, es, hes, hsub⟩ := exists_of_forall₂ (mapM_eq_some hsettle) hitem
    rw [List.subset_nil.mp hsub] at hes
    rcases settle_eq_some hes with ⟨d, rfl, rfl, -⟩ | ⟨d, result, -, rfl, hd⟩
    · rcases hpending _ hp with ⟨d', hd', -⟩ | ⟨d', hd', hresolved⟩
      · cases hd'
      · cases hd'
        exact hresolved v hv
    · exact resolveDeclaration_allValues (Scope.functions_child hf final) hd v hv
  · refine ⟨fun v hv => ?_, hdest⟩
    obtain ⟨item, hitem, hv⟩ := List.mem_flatMap.mp hv
    obtain ⟨d, -, es, hes, hsub⟩ := exists_of_forall₂ (mapM_eq_some hmap) hitem
    rw [List.subset_nil.mp hsub] at hes
    obtain ⟨result, hd, rfl⟩ := map_eq_some hes
    exact resolveDeclaration_allValues (Scope.functions_child hf source) hd v hv

/-- **An expansion without diagnostics leaves values.** -/
theorem expand_yieldsValues : ∀ n : Nat, YieldsValues n (expand n) := by
  intro n
  induction n with
  | zero => intro active scope r result _ h; cases h
  | succ n ih =>
      intro active scope r result hf h
      obtain ⟨vars, items, container, first, second, hvars, hitems, rfl, hds⟩ := expand_eq_some h
      obtain ⟨rfl, rfl⟩ := List.append_eq_nil_iff.mp hds.symm
      obtain ⟨hresult, hfinal⟩ := resolveItems_allValues ih hf hitems
        (resolveVariables_allValues hf hvars r.container.body)
      intro v hv
      rcases List.mem_append.mp hv with hv | hv
      · exact (hresult v hv).succ
      · exact (hfinal v hv).succ

/-! ## Elements of the result -/

/-- An element as a resolution leaves it: a definition of a mixin, or one with
    declarations only, whose expressions are resolved in the clean case. -/
def Settled (clean : Prop) (e : Element) : Prop :=
  e.isDefinition = false →
    (∀ item ∈ e.items, item.isMixin = false) ∧ (clean → AllResolved e.exprs)

/-- Selectors do not matter for what is left in a rule set. -/
theorem settled_withSelectors {clean : Prop} {r : RuleSet} (selectors : List Selector)
    (h : Settled clean (.ruleSet r)) : Settled clean (.ruleSet { r with selectors }) :=
  h

theorem settled_of_expand {clean : Prop} (hf : scope.functions = .builtin) {active : List Selector}
    {r result : RuleSet} (h : expand n active scope r = some (result, ds))
    (hclean : clean → ds = []) :
    Settled clean (.ruleSet result) := by
  intro _
  refine ⟨fun item hitem => ?_, fun hc => ?_⟩
  · cases n with
    | zero => cases h
    | succ n =>
        obtain ⟨vars, items, container, first, second, -, hitems, rfl, -⟩ := expand_eq_some h
        obtain ⟨d, rfl⟩ := mem_resolveItems hitems item hitem
        rfl
  · rw [hclean hc] at h
    exact (expand_yieldsValues n hf h).allResolved

/-- Every rule set that takes the place of a rule set is settled. -/
theorem transformRuleSet_settled {clean : Prop} : ∀ {n : Nat} {scope : Scope} {r : RuleSet}
    {result : List RuleSet} {ds : List Error}, scope.functions = .builtin →
    transformRuleSet n scope r = some (result, ds) → (clean → ds = []) →
    ∀ x ∈ result, Settled clean (.ruleSet x) := by
  intro n
  induction n with
  | zero => intro scope r result ds _ h; cases h
  | succ n ih =>
      intro scope r result ds hf h hclean x hx
      rcases transformRuleSet_eq_some h with
        ⟨hmixin, rfl, -⟩ | ⟨-, dest, nested, first, second, hdest, hnested, rfl, rfl⟩
      · intro hdef
        rw [List.mem_singleton] at hx
        subst hx
        cases hmixin.symm.trans hdef
      · rcases List.mem_cons.mp hx with rfl | hx
        · exact settled_of_expand hf hdest fun hc => (List.append_eq_nil_iff.mp (hclean hc)).1
        · obtain ⟨produced, rfl, hproduced⟩ := flatten_eq_some hnested
          obtain ⟨y, hy, rfl⟩ := List.mem_map.mp hx
          obtain ⟨rs, hrs, hy⟩ := List.mem_flatten.mp hy
          obtain ⟨child, -, es, hes, hsub⟩ := exists_of_forall₂ hproduced hrs
          refine settled_withSelectors _ (ih (Scope.functions_child hf dest.container) hes ?_ y hy)
          intro hc
          rw [(List.append_eq_nil_iff.mp (hclean hc)).2] at hsub
          exact List.subset_nil.mp hsub

/-- A page is settled. -/
theorem transformPage_settled {clean : Prop} (hf : scope.functions = .builtin) {p result : Page}
    (h : transformPage n scope p = some (result, ds)) (hclean : clean → ds = []) :
    Settled clean (.page result) := by
  obtain ⟨vars, items, container, first, second, hvars, hitems, rfl, rfl⟩ := transformPage_eq_some h
  intro _
  refine ⟨fun item hitem => ?_, fun hc => ?_⟩
  · obtain ⟨d, rfl⟩ := mem_resolveItems hitems item hitem
    rfl
  · obtain ⟨rfl, rfl⟩ := List.append_eq_nil_iff.mp (hclean hc)
    obtain ⟨hresult, hfinal⟩ := resolveItems_allValues (expand_yieldsValues n) hf hitems
      (resolveVariables_allValues hf hvars [])
    intro v hv
    rcases List.mem_append.mp hv with hv | hv
    · exact hresult.allResolved v hv
    · exact hfinal.allResolved v hv

/-- The elements of a block are settled if each of them is resolved into
    settled ones, and the variables of the block are resolved. -/
theorem transformContainer_settled (clean : Prop)
    {transform : Scope → Element → Reporting (List Element)}
    (hf : scope.functions = .builtin)
    (hstep : ∀ {dest e produced es}, transform (parent.child dest) e = some (produced, es) →
      (clean → es = []) → ∀ x ∈ produced, ∀ b ∈ x.tree Element.isBlock, Settled clean b)
    {c result : Container} (h : transformContainer n transform scope parent c = some (result, ds))
    (hclean : clean → ds = []) :
    (clean → AllResolved result.values) ∧ ∀ b ∈ result.tree Element.isBlock, Settled clean b := by
  obtain ⟨vars, first, second, hvars, hbody, rfl⟩ := transformContainer_eq_some h
  obtain ⟨hsame, helements⟩ := transformBody_invariant
    (P := fun x => ∀ b ∈ x.tree Element.isBlock, Settled clean b)
    (fun hproduced hsub => hstep hproduced fun hc => by
      rw [(List.append_eq_nil_iff.mp (hclean hc)).2] at hsub
      exact List.subset_nil.mp hsub)
    hbody (List.Subset.refl second) (fun x hx => absurd hx List.not_mem_nil)
  refine ⟨fun hc => ?_, fun b hb => ?_⟩
  · rw [(List.append_eq_nil_iff.mp (hclean hc)).1] at hvars
    rw [Container.values, hsame]
    exact (resolveVariables_allValues hf hvars []).allResolved
  · obtain ⟨e, he, hb⟩ := Container.mem_tree.mp hb
    exact helements e he b hb

/-- A block is settled with everything inside it. -/
theorem settled_of_block {clean : Prop} {e : Element} (hdefaults : e.defaults = [])
    (hitems : e.items = [])
    (h : (clean → AllResolved e.container.values) ∧
      ∀ b ∈ e.container.tree Element.isBlock, Settled clean b) :
    ∀ b ∈ e.tree Element.isBlock, Settled clean b := by
  intro b hb
  rcases Element.mem_tree.mp hb with rfl | ⟨-, hb⟩
  · intro _
    refine ⟨fun item hitem => ?_, fun hc v hv => h.1 hc v ?_⟩
    · rw [hitems] at hitem
      exact absurd hitem List.not_mem_nil
    · rw [Element.exprs, hdefaults, hitems] at hv
      exact hv
  · exact h.2 b hb

/-- **Whatever takes the place of an element is settled**, by induction on the
    nesting of blocks. -/
theorem transformElement_settled {clean : Prop} : ∀ {n : Nat} {scope : Scope} {e : Element}
    {result : List Element} {ds : List Error}, scope.functions = .builtin →
    transformElement n scope e = some (result, ds) → (clean → ds = []) →
    ∀ x ∈ result, ∀ b ∈ x.tree Element.isBlock, Settled clean b := by
  intro n
  induction n with
  | zero => intro scope e result ds _ h; cases h
  | succ n ih =>
      intro scope e result ds hf h hclean x hx
      rcases transformElement_eq_some h with
        ⟨r, rs, rfl, hrs, rfl⟩ | ⟨m, container, rfl, hcontainer, rfl⟩ |
        ⟨p, page, rfl, hpage, rfl⟩ | ⟨k, container, rfl, hcontainer, rfl⟩
      · obtain ⟨r', hr', rfl⟩ := List.mem_map.mp hx
        intro b hb
        -- a rule set is no block: what is left inside it does not count
        rcases Element.mem_tree.mp hb with rfl | ⟨hblock, -⟩
        · exact transformRuleSet_settled hf hrs hclean r' hr'
        · cases hblock
      · rw [List.mem_singleton] at hx
        subst hx
        exact settled_of_block rfl rfl (transformContainer_settled clean hf
          (fun hproduced hes => ih (Scope.functions_child hf _) hproduced hes) hcontainer hclean)
      · rw [List.mem_singleton] at hx
        subst hx
        intro b hb
        rcases Element.mem_tree.mp hb with rfl | ⟨hblock, -⟩
        · exact transformPage_settled hf hpage hclean
        · cases hblock
      · rw [List.mem_singleton] at hx
        subst hx
        exact settled_of_block rfl rfl (transformContainer_settled clean hf
          (fun hproduced hes => ih (Scope.functions_child hf _) hproduced hes) hcontainer hclean)

/-- **A RESOLVED SHEET IS FULLY RESOLVED.**  Among the elements of the result,
    outside rule sets, all that are no definitions of mixins hold declarations
    and no calls; and if there are no diagnostics, all their expressions and the
    variables of the sheet are resolved. -/
theorem transformSheet_resolved {n : Nat} {sheet result : Sheet} {ds : List Error}
    (h : transformSheet n .builtin sheet = some (result, ds)) :
    (∀ e ∈ result.container.tree Element.isBlock, e.isDefinition = false →
      ∀ item ∈ e.items, item.isMixin = false)
    ∧ (ds = [] →
      (∀ v ∈ result.container.values, v.isResolved .builtin = true)
      ∧ ∀ e ∈ result.container.tree Element.isBlock, e.isDefinition = false →
          ∀ v ∈ e.exprs, v.isResolved .builtin = true) := by
  obtain ⟨container, hcontainer, rfl⟩ := transformSheet_eq_some h
  obtain ⟨hvalues, htree⟩ := transformContainer_settled (ds = []) rfl
    (fun hproduced hes => transformElement_settled rfl hproduced hes) hcontainer (fun hc => hc)
  refine ⟨fun e he hdef => (htree e he hdef).1, fun hds => ⟨hvalues hds, fun e he hdef => ?_⟩⟩
  exact (htree e he hdef).2 hds

/-- A mixin of the sheet, called inside a media block with a variable of the
    sheet as its argument. -/
theorem transformSheet_resolved_in_media :
    let definition : RuleSet :=
      { selectors := [⟨".m"⟩], params := some (.ofList [("x", none)])
        container := .empty, position := none
        items := [.declaration { property := "color", values := [.var "x" none] }] }
    let caller : RuleSet :=
      { selectors := [⟨".a"⟩], params := none, container := .empty, position := none
        items := [.mixin { selector := ⟨".m"⟩, arguments := [.var "c" none] }] }
    let resolved : RuleSet :=
      { caller with
        items := [.declaration { property := "color", values := [.literal "red" none] }]
        container := { vars := .ofList [("x", .literal "red" none)], body := [] } }
    let sheet (r : RuleSet) : Sheet :=
      { container :=
          { vars := .ofList [("c", .literal "red" none)]
            body := [.ruleSet definition,
              .media { mediums := ["print"], container := { vars := .empty, body := [.ruleSet r] }
                       position := none }] } }
    transformSheet 8 .builtin (sheet caller) = some (sheet resolved, [])
      ∧ (∀ item ∈ resolved.items, item.isMixin = false)
      ∧ ∀ v ∈ (Element.ruleSet resolved).exprs, v.isResolved .builtin = true := by
  intro definition caller resolved sheet
  have h : transformSheet 8 .builtin (sheet caller) = some (sheet resolved, []) := by rfl
  have hmem : Element.ruleSet resolved ∈ (sheet resolved).container.tree Element.isBlock := by
    simp [sheet, resolved, Container.tree, forest, Element.tree, Element.isBlock, definition]
  obtain ⟨hitems, hexprs⟩ := transformSheet_resolved h
  exact ⟨h, hitems _ hmem rfl, (hexprs rfl).2 _ hmem rfl⟩

end Transform

end Less
