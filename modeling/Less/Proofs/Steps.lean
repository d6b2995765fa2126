import Less.Proofs.Contents
import Less.Proofs.Outcome
import Less.Transform.Sheet

/-! # The steps of a resolution

    What each function of the resolution has done when it has a result: one
    lemma a function, named `…_eq_some`, which later proofs cite instead of
    opening the function.  Diagnostics of a step are always among those of the
    whole, so that a run without diagnostics consists of steps without any.

    The loops have invariants instead: `gather_invariant` for the items of a
    rule set, `transformBody_invariant` for the elements of a block. -/

namespace Less.Transform

open Reporting

variable {n : Nat} {scope parent : Scope} {ds : List Error}

/-! ## Expressions, variables, declarations -/

/-- An expression was evaluated, or was reported and stayed as it is. -/
theorem resolve_eq_some {p : Option Position} {value v : Expr}
    (h : resolve n scope p value = some (v, ds)) :
    (value.eval n scope = .done v ∧ ds = []) ∨
      ∃ e, value.eval n scope = .failed e ∧ v = value ∧ ds = [e.locate p] := by
  obtain ⟨r, first, second, hr, h, rfl⟩ := bind_eq_some h
  obtain ⟨rfl, ⟨e, he, rfl⟩ | ⟨a, ha, rfl⟩⟩ := attempt_eq_some hr
  · cases h
    exact Or.inr ⟨e, he, rfl, rfl⟩
  · cases h
    exact Or.inl ⟨ha, rfl⟩

/-- What is resolved without a diagnostic has a value. -/
theorem eval_of_resolve {p : Option Position} {e v : Expr}
    (h : resolve n scope p e = some (v, [])) : e.eval n scope = .done v := by
  rcases resolve_eq_some h with ⟨hv, -⟩ | ⟨err, -, -, hds⟩
  · exact hv
  · cases hds

/-- A variable keeps its name, and its value is resolved inside the container. -/
theorem resolveVariables_eq_some {c : Container} {vars : Bindings Expr}
    (h : resolveVariables n scope c = some (vars, ds)) :
    List.Forall₂ (fun source result => result.1 = source.1 ∧
        ∃ es, resolve n (scope.child c) source.2.position source.2 = some (result.2, es) ∧ es ⊆ ds)
      c.vars.entries vars.entries := by
  obtain ⟨entries, first, second, hentries, hpure, rfl⟩ := bind_eq_some h
  obtain ⟨rfl, rfl⟩ := pure_eq_some hpure
  have hall : List.Forall₂ (fun source result => result.1 = source.1 ∧
      ∃ es, resolve n (scope.child c) source.2.position source.2 = some (result.2, es)
        ∧ es ⊆ first ++ [])
      c.vars.entries entries := by
    refine (mapM_eq_some hentries).imp fun source result hstep => ?_
    obtain ⟨es, hes, hsub⟩ := hstep
    obtain ⟨value, third, fourth, hvalue, hpure, rfl⟩ := bind_eq_some hes
    obtain ⟨rfl, rfl⟩ := pure_eq_some hpure
    rw [List.append_nil] at hsub ⊢
    exact ⟨rfl, third, hvalue, hsub⟩
  -- the names are those of the source, so that none of them replaces another
  have hnames : c.vars.entries.map Prod.fst = entries.map Prod.fst := by
    rw [← List.forall₂_eq_eq_eq, List.forall₂_map_left_iff, List.forall₂_map_right_iff]
    exact hall.imp fun source result hstep => hstep.1.symm
  have hnodup : (entries.map Prod.fst).Nodup := by
    rw [← hnames]
    exact c.vars.nodup
  rw [Bindings.entries_ofList hnodup]
  exact hall

/-- A declaration keeps all but its values, which are resolved one by one. -/
theorem resolveDeclaration_eq_some {d result : Declaration}
    (h : resolveDeclaration n scope d = some (result, ds)) :
    ∃ values, result = { d with values } ∧
      List.Forall₂ (fun value v => ∃ es, resolve n scope d.position value = some (v, es) ∧ es ⊆ ds)
        d.values values := by
  obtain ⟨values, first, second, hvalues, hpure, rfl⟩ := bind_eq_some h
  obtain ⟨rfl, rfl⟩ := pure_eq_some hpure
  rw [List.append_nil]
  exact ⟨values, rfl, mapM_eq_some hvalues⟩

/-! ## Mixin calls -/

/-- A call failed, with one diagnostic, or gave the copy of the selected mixin. -/
theorem prepareCall_eq_some {active : List Selector} {source dest : Container} {call : MixinCall}
    {result : Option RuleSet}
    (h : prepareCall n active scope source dest call = some (result, ds)) :
    (result = none ∧ ∃ e, ds = [e]) ∨
      ∃ mixin arguments,
        call.selector ∉ active
        ∧ selectMixin ((scope.child source).ruleSets call.selector) call.arguments.length
            = some mixin
        ∧ call.arguments.length ≤ mixin.arity
        ∧ call.arguments.mapM (Expr.eval n (scope.child dest)) = .done arguments
        ∧ result = some (instantiate mixin arguments) ∧ ds = [] := by
  rw [prepareCall] at h
  simp only at h
  split at h
  · cases h
    exact Or.inl ⟨rfl, _, rfl⟩
  · rename_i hactive
    split at h
    · cases h
      exact Or.inl ⟨rfl, _, rfl⟩
    · rename_i mixin hmixin
      split at h
      · cases h
        exact Or.inl ⟨rfl, _, rfl⟩
      · rename_i harity
        obtain ⟨r, first, second, hr, h, rfl⟩ := bind_eq_some h
        obtain ⟨rfl, ⟨e, he, rfl⟩ | ⟨arguments, harguments, rfl⟩⟩ := attempt_eq_some hr
        · cases h
          exact Or.inl ⟨rfl, _, rfl⟩
        · obtain ⟨rfl, rfl⟩ := pure_eq_some h
          refine Or.inr
            ⟨mixin, arguments, ?_, hmixin, Nat.le_of_not_lt harity, harguments, rfl, rfl⟩
          intro hmem
          exact hactive (List.contains_iff_mem.mpr hmem)

/-- A call failed, with one diagnostic, or the selected mixin was expanded with
    its selector on the stack. -/
theorem expandCall_eq_some {expand : Expander} {active : List Selector} {source dest : Container}
    {call : MixinCall} {result : Option RuleSet}
    (h : expandCall n expand active scope source dest call = some (result, ds)) :
    (result = none ∧ ∃ e, ds = [e]) ∨
      ∃ mixin arguments expanded,
        call.selector ∉ active
        ∧ selectMixin ((scope.child source).ruleSets call.selector) call.arguments.length
            = some mixin
        ∧ call.arguments.length ≤ mixin.arity
        ∧ call.arguments.mapM (Expr.eval n (scope.child dest)) = .done arguments
        ∧ expand (call.selector :: active) (scope.child dest) (instantiate mixin arguments)
            = some (expanded, ds)
        ∧ result = some expanded := by
  obtain ⟨copy, first, second, hcopy, hrest, rfl⟩ := bind_eq_some h
  rcases prepareCall_eq_some hcopy with
    ⟨rfl, e, rfl⟩ | ⟨mixin, arguments, hactive, hmixin, harity, harguments, rfl, rfl⟩
  · obtain ⟨rfl, rfl⟩ := pure_eq_some hrest
    exact Or.inl ⟨rfl, e, rfl⟩
  · obtain ⟨expanded, hexpanded, rfl⟩ := map_eq_some hrest
    exact Or.inr ⟨mixin, arguments, expanded, hactive, hmixin, harity, harguments, hexpanded, rfl⟩

/-- A selected mixin is one of the candidates. -/
theorem mem_of_selectMixin {candidates : List RuleSet} {count : Nat} {mixin : RuleSet}
    (h : selectMixin candidates count = some mixin) : mixin ∈ candidates := by
  rw [selectMixin] at h
  cases hfind : candidates.find? (·.accepts count) with
  | some r =>
      rw [hfind] at h
      cases h
      exact List.mem_of_find?_eq_some hfind
  | none =>
      rw [hfind, Option.none_or] at h
      exact List.mem_of_mem_head? h

/-- The values of a container that took over an expanded mixin are its own and
    the mixin's. -/
theorem mem_values_absorb {dest : Container} {expanded : RuleSet} {v : Expr}
    (h : v ∈ (absorb dest expanded).values) : v ∈ dest.values ∨ v ∈ expanded.container.values := by
  obtain ⟨entry, hentry, rfl⟩ := List.mem_map.mp h
  rcases Bindings.mem_setAll hentry with hentry | hentry
  · exact Or.inl (List.mem_map_of_mem hentry)
  · exact Or.inr (List.mem_map_of_mem hentry)

/-! ## Items -/

/-- **The invariant of the items of a rule set.**  If `I` holds of the container
    that is being built and every expanded call keeps it and contributes
    declarations with `P`, then `I` holds at the end, and every declaration that
    waits is one of the rule set's own or has `P`. -/
theorem gather_invariant {call : Container → MixinCall → Reporting (Option RuleSet)}
    {I : Container → Prop} {P : Declaration → Prop} {all : List Error}
    (hcall : ∀ {dest c expanded es}, I dest → call dest c = some (some expanded, es) → es ⊆ all →
      I (absorb dest expanded) ∧ ∀ d ∈ expanded.declarations, P d)
    {items : List Item} {dest result : Container} {pending : List Pending}
    (h : gather call items dest = some ((pending, result), ds)) (hds : ds ⊆ all) (hdest : I dest) :
    I result ∧ ∀ p ∈ pending,
      (∃ d, p = .source d ∧ .declaration d ∈ items) ∨ ∃ d, p = .resolved d ∧ P d := by
  induction items generalizing dest result pending ds with
  | nil =>
      cases h
      exact ⟨hdest, fun p hp => absurd hp List.not_mem_nil⟩
  | cons item items ih =>
      cases item with
      | declaration d =>
          rw [gather] at h
          obtain ⟨⟨rest, last⟩, first, second, hrest, hpure, rfl⟩ := bind_eq_some h
          cases hpure
          obtain ⟨hI, hP⟩ := ih hrest (fun e he => hds (List.mem_append_left _ he)) hdest
          refine ⟨hI, fun p hp => ?_⟩
          rcases List.mem_cons.mp hp with rfl | hp
          · exact Or.inl ⟨d, rfl, List.mem_cons_self⟩
          · rcases hP p hp with ⟨d', rfl, hmem⟩ | hp
            · exact Or.inl ⟨d', rfl, List.mem_cons_of_mem _ hmem⟩
            · exact Or.inr hp
      | mixin c =>
          rw [gather] at h
          obtain ⟨r, first, second, hr, hlater, rfl⟩ := bind_eq_some h
          have hfirst : first ⊆ all := fun e he => hds (List.mem_append_left _ he)
          have hsecond : second ⊆ all := fun e he => hds (List.mem_append_right _ he)
          cases r with
          | none =>
              obtain ⟨hI, hP⟩ := ih hlater hsecond hdest
              refine ⟨hI, fun p hp => ?_⟩
              rcases hP p hp with ⟨d', rfl, hmem⟩ | hp
              · exact Or.inl ⟨d', rfl, List.mem_cons_of_mem _ hmem⟩
              · exact Or.inr hp
          | some expanded =>
              obtain ⟨⟨rest, last⟩, third, fourth, hrest, hpure, rfl⟩ := bind_eq_some hlater
              cases hpure
              rw [List.append_nil] at hsecond
              obtain ⟨habsorb, hdeclarations⟩ := hcall hdest hr hfirst
              obtain ⟨hI, hP⟩ := ih hrest hsecond habsorb
              refine ⟨hI, fun p hp => ?_⟩
              rcases List.mem_append.mp hp with hp | hp
              · obtain ⟨d, hd, rfl⟩ := List.mem_map.mp hp
                exact Or.inr ⟨d, rfl, hdeclarations d hd⟩
              · rcases hP p hp with ⟨d', rfl, hmem⟩ | hp
                · exact Or.inl ⟨d', rfl, List.mem_cons_of_mem _ hmem⟩
                · exact Or.inr hp

/-- A declaration that a mixin contributed is left alone; one that waited is
    resolved. -/
theorem settle_eq_some {p : Pending} {item : Item} (h : settle n scope p = some (item, ds)) :
    (∃ d, p = .resolved d ∧ item = .declaration d ∧ ds = []) ∨
      ∃ d result, p = .source d ∧ item = .declaration result
        ∧ resolveDeclaration n scope d = some (result, ds) := by
  cases p with
  | source d =>
      obtain ⟨result, hresult, rfl⟩ := map_eq_some h
      exact Or.inr ⟨d, result, rfl, rfl, hresult⟩
  | resolved d =>
      cases h
      exact Or.inl ⟨d, rfl, rfl, rfl⟩

/-- Items without calls are resolved inside their own container; with calls,
    the calls are expanded first, and then what waited is resolved inside the
    container that was built. -/
theorem resolveItems_eq_some {expand : Expander} {active : List Selector} {items result : List Item}
    {source dest final : Container}
    (h : resolveItems n expand active scope items source dest = some ((result, final), ds)) :
    (items.any Item.isMixin = true ∧ ∃ pending first second,
      gather (expandCall n expand active scope source) items dest = some ((pending, final), first)
      ∧ pending.mapM (settle n (scope.child final)) = some (result, second) ∧ ds = first ++ second)
    ∨ (items.any Item.isMixin = false ∧ final = dest ∧
      (items.filterMap Item.declaration?).mapM
          (fun d => Item.declaration <$> resolveDeclaration n (scope.child source) d)
        = some (result, ds)) := by
  rw [resolveItems] at h
  split at h
  · rename_i hany
    obtain ⟨⟨pending, last⟩, first, second, hgather, hlater, rfl⟩ := bind_eq_some h
    obtain ⟨resolved, third, fourth, hsettle, hpure, rfl⟩ := bind_eq_some hlater
    cases hpure
    exact Or.inl ⟨hany, pending, first, third, hgather, hsettle, by rw [List.append_nil]⟩
  · rename_i hany
    obtain ⟨resolved, first, second, hmap, hpure, rfl⟩ := bind_eq_some h
    cases hpure
    rw [List.append_nil]
    exact Or.inr ⟨Bool.not_eq_true _ ▸ hany, rfl, hmap⟩

/-- Resolved items are declarations: they come from the rule set itself,
    resolved, or from a mixin. -/
theorem mem_resolveItems {expand : Expander} {active : List Selector} {items result : List Item}
    {source dest final : Container}
    (h : resolveItems n expand active scope items source dest = some ((result, final), ds)) :
    ∀ item ∈ result, ∃ d, item = .declaration d := by
  intro item hitem
  rcases resolveItems_eq_some h with ⟨-, pending, first, second, -, hsettle, -⟩ | ⟨-, -, hmap⟩
  · obtain ⟨p, -, es, hp, -⟩ := exists_of_forall₂ (mapM_eq_some hsettle) hitem
    rcases settle_eq_some hp with ⟨d, -, rfl, -⟩ | ⟨d, result, -, rfl, -⟩
    · exact ⟨d, rfl⟩
    · exact ⟨result, rfl⟩
  · obtain ⟨d, -, es, hd, -⟩ := exists_of_forall₂ (mapM_eq_some hmap) hitem
    obtain ⟨result, -, rfl⟩ := map_eq_some hd
    exact ⟨result, rfl⟩

/-! ## Rule sets -/

/-- An expansion resolves the variables, then the items. -/
theorem expand_eq_some {active : List Selector} {r result : RuleSet}
    (h : expand (n + 1) active scope r = some (result, ds)) :
    ∃ vars items container first second,
      resolveVariables n scope r.container = some (vars, first)
      ∧ resolveItems n (expand n) active scope r.items r.container
        { vars, body := r.container.body }
          = some ((items, container), second)
      ∧ result = { r with params := none, items, container }
      ∧ ds = first ++ second := by
  rw [expand] at h
  obtain ⟨vars, first, second, hvars, hlater, rfl⟩ := bind_eq_some h
  obtain ⟨⟨items, container⟩, third, fourth, hitems, hpure, rfl⟩ := bind_eq_some hlater
  cases hpure
  exact ⟨vars, items, container, first, third, hvars, hitems, rfl, by rw [List.append_nil]⟩

theorem any_isMixin_of_no_calls {items : List Item} (h : ∀ item ∈ items, item.isMixin = false) :
    items.any Item.isMixin = false :=
  List.any_eq_false.mpr fun item hitem => by rw [h item hitem]; exact Bool.false_ne_true

/-- What nested rule sets become gets the combined selectors. -/
theorem flatten_eq_some {transform : Scope → RuleSet → Reporting (List RuleSet)} {dest : RuleSet}
    {result : List RuleSet} (h : flatten transform scope dest = some (result, ds)) :
    ∃ produced,
      result = produced.flatten.map
        (fun r => { r with selectors := Selector.combineAll dest.selectors r.selectors })
      ∧ List.Forall₂ (fun child rs => ∃ es,
          transform (scope.child dest.container) child = some (rs, es) ∧ es ⊆ ds)
        (dest.container.childRuleSets.filter fun child => !child.isMixin) produced := by
  obtain ⟨produced, first, second, hproduced, hpure, rfl⟩ := bind_eq_some h
  cases hpure
  rw [List.append_nil]
  exact ⟨produced, rfl, mapM_eq_some hproduced⟩

/-- A rule set becomes its expansion and its flattened nested ones; the
    definition of a mixin stays. -/
theorem transformRuleSet_eq_some {r : RuleSet} {result : List RuleSet}
    (h : transformRuleSet (n + 1) scope r = some (result, ds)) :
    (r.isMixin = true ∧ result = [r] ∧ ds = []) ∨
      (r.isMixin = false ∧ ∃ dest nested first second,
        expand n [] scope r = some (dest, first)
        ∧ flatten (transformRuleSet n) scope dest = some (nested, second)
        ∧ result = dest :: nested ∧ ds = first ++ second) := by
  rw [transformRuleSet] at h
  split at h
  · rename_i hmixin
    cases h
    exact Or.inl ⟨hmixin, rfl, rfl⟩
  · rename_i hmixin
    obtain ⟨dest, first, second, hdest, hlater, rfl⟩ := bind_eq_some h
    obtain ⟨nested, third, fourth, hnested, hpure, rfl⟩ := bind_eq_some hlater
    cases hpure
    exact Or.inr ⟨Bool.not_eq_true _ ▸ hmixin, dest, nested, first, third, hdest, hnested, rfl,
      by rw [List.append_nil]⟩

/-! ## Elements -/

/-- **The invariant of the elements of a block.**  If every element becomes
    elements with `P`, then all elements of the block built have `P`, and its
    variables are those it started with. -/
theorem transformBody_invariant {transform : Scope → Element → Reporting (List Element)}
    {P : Element → Prop} {all : List Error}
    (hstep : ∀ {dest e produced es}, transform (parent.child dest) e = some (produced, es) →
      es ⊆ all →
      ∀ x ∈ produced, P x)
    {es : List Element} {dest result : Container}
    (h : transformBody transform parent es dest = some (result, ds)) (hds : ds ⊆ all)
    (hdest : ∀ x ∈ dest.body, P x) :
    result.vars = dest.vars ∧ ∀ x ∈ result.body, P x := by
  induction es generalizing dest ds with
  | nil =>
      cases h
      exact ⟨rfl, hdest⟩
  | cons e es ih =>
      rw [transformBody] at h
      obtain ⟨produced, first, second, hproduced, hrest, rfl⟩ := bind_eq_some h
      have hadd : ∀ x ∈ (dest.addAll produced).body, P x := by
        intro x hx
        rcases List.mem_append.mp hx with hx | hx
        · exact hdest x hx
        · exact hstep hproduced (fun e he => hds (List.mem_append_left _ he)) x hx
      obtain ⟨hvars, hbody⟩ := ih hrest (fun e he => hds (List.mem_append_right _ he)) hadd
      exact ⟨hvars, hbody⟩

/-- The container of a block has its variables resolved, then its elements. -/
theorem transformContainer_eq_some {transform : Scope → Element → Reporting (List Element)}
    {c result : Container} (h : transformContainer n transform scope parent c = some (result, ds)) :
    ∃ vars first second,
      resolveVariables n scope c = some (vars, first)
      ∧ transformBody transform parent c.body { vars, body := [] } = some (result, second)
      ∧ ds = first ++ second := by
  obtain ⟨vars, first, second, hvars, hbody, rfl⟩ := bind_eq_some h
  exact ⟨vars, first, second, hvars, hbody, rfl⟩

/-- A page has its variables resolved, then its items. -/
theorem transformPage_eq_some {p result : Page} (h : transformPage n scope p = some (result, ds)) :
    ∃ vars items container first second,
      resolveVariables n scope p.container = some (vars, first)
      ∧ resolveItems n (expand n) [] scope p.items p.container { vars, body := [] }
          = some ((items, container), second)
      ∧ result = { p with items, container }
      ∧ ds = first ++ second := by
  obtain ⟨vars, first, second, hvars, hlater, rfl⟩ := bind_eq_some h
  obtain ⟨⟨items, container⟩, third, fourth, hitems, hpure, rfl⟩ := bind_eq_some hlater
  cases hpure
  exact ⟨vars, items, container, first, third, hvars, hitems, rfl, by rw [List.append_nil]⟩

/-- An element becomes elements of its own kind. -/
theorem transformElement_eq_some {e : Element} {result : List Element}
    (h : transformElement (n + 1) scope e = some (result, ds)) :
    (∃ r rs, e = .ruleSet r ∧ transformRuleSet n scope r = some (rs, ds) ∧ result = rs.map .ruleSet)
    ∨ (∃ m container, e = .media m
      ∧ transformContainer n (transformElement n) scope scope m.container = some (container, ds)
      ∧ result = [.media { m with container }])
    ∨ (∃ p page, e = .page p ∧ transformPage n scope p = some (page, ds) ∧ result = [.page page])
    ∨ (∃ k container, e = .keyframes k
      ∧ transformContainer n (transformElement n) scope scope k.container = some (container, ds)
      ∧ result = [.keyframes { k with container }]) := by
  cases e with
  | ruleSet r =>
      obtain ⟨rs, first, second, hrs, hpure, rfl⟩ := bind_eq_some h
      cases hpure
      rw [List.append_nil]
      exact Or.inl ⟨r, rs, rfl, hrs, rfl⟩
  | media m =>
      obtain ⟨container, first, second, hcontainer, hpure, rfl⟩ := bind_eq_some h
      cases hpure
      rw [List.append_nil]
      exact Or.inr (Or.inl ⟨m, container, rfl, hcontainer, rfl⟩)
  | page p =>
      obtain ⟨page, first, second, hpage, hpure, rfl⟩ := bind_eq_some h
      cases hpure
      rw [List.append_nil]
      exact Or.inr (Or.inr (Or.inl ⟨p, page, rfl, hpage, rfl⟩))
  | keyframes k =>
      obtain ⟨container, first, second, hcontainer, hpure, rfl⟩ := bind_eq_some h
      cases hpure
      rw [List.append_nil]
      exact Or.inr (Or.inr (Or.inr ⟨k, container, rfl, hcontainer, rfl⟩))

/-- A sheet keeps its header, and its container is resolved inside itself. -/
theorem transformSheet_eq_some {functions : Registry} {sheet result : Sheet}
    (h : transformSheet n functions sheet = some (result, ds)) :
    ∃ container, transformContainer n (transformElement n) (Scope.root functions)
        ((Scope.root functions).child sheet.container) sheet.container = some (container, ds)
      ∧ result = { sheet with container } := by
  obtain ⟨container, first, second, hcontainer, hpure, rfl⟩ := bind_eq_some h
  cases hpure
  rw [List.append_nil]
  exact ⟨container, hcontainer, rfl⟩

end Less.Transform
