import Less.Proofs.Splicing
import Less.Proofs.Tame

/-! # What stands in the place of a call

    An expansion writes one block of declarations for each item of a rule set, in the
    order of the items.  The block of a declaration is that declaration with its
    pieces resolved.  The block of a call is what the expanded copy of its mixin
    declares, which is put together in the same way, and so on for the mixins that
    the mixin calls; a call that failed has an empty block.

    Nested rule sets go with the blocks: behind the elements of the rule set itself
    stand, call by call, the rule sets nested in the copies, which are those of the
    mixin followed by those that the copy took over from its own calls.

    `Spliced` is this description, with one constructor for each thing an item can
    become.  Every expansion has one, by induction on the depth of the calls and,
    within a rule set, along the run of its items. -/

namespace Less.Transform

open Reporting

/-- **What stands in the place of each item.**  The items of a rule set with the
    container `source` are gone through from the container `dest`; each has a block
    of declarations, and a list of the rule sets that it brings. -/
inductive Spliced : List Selector → Scope → Container → Container → List Item →
    List (List Declaration) → List (List RuleSet) → Prop where
  | nil {active : List Selector} {scope : Scope} {source dest : Container} :
      Spliced active scope source dest [] [] []
  /-- A declaration stays where it is, with as many pieces as before. -/
  | declaration {active : List Selector} {scope : Scope} {source dest : Container}
      {items : List Item} {blocks : List (List Declaration)} {promoted : List (List RuleSet)}
      {d : Declaration} {values : List Expr} (hvalues : values.length = d.values.length)
      (rest : Spliced active scope source dest items blocks promoted) :
      Spliced active scope source dest (.declaration d :: items) ([{ d with values }] :: blocks)
        ([] :: promoted)
  /-- A call that failed leaves nothing. -/
  | failed {n : Nat} {active : List Selector} {scope : Scope} {source dest : Container}
      {items : List Item} {blocks : List (List Declaration)} {promoted : List (List RuleSet)}
      {call : MixinCall} {es : List Error}
      (hcall : expandCall n (expand n) active scope source dest call = some (none, es))
      (rest : Spliced active scope source dest items blocks promoted) :
      Spliced active scope source dest (.mixin call :: items) ([] :: blocks) ([] :: promoted)
  /-- A call is replaced by the copy of the mixin that it selects, which is put
      together in the same way from the items of the mixin. -/
  | expanded {n m : Nat} {active : List Selector} {scope : Scope} {source dest : Container}
      {items : List Item} {blocks inner : List (List Declaration)}
      {promoted children : List (List RuleSet)} {call : MixinCall} {mixin copy : RuleSet}
      {arguments : List Expr} {vars : Bindings Expr} {es fs : List Error}
      (hcall : expandCall n (expand n) active scope source dest call = some (some copy, es))
      (hmixin : selectMixin ((scope.child source).ruleSets call.selector) call.arguments.length =
        some mixin)
      (harguments : call.arguments.mapM (Expr.eval n (scope.child dest)) = .done arguments)
      (hvars : resolveVariables m (scope.child dest) (instantiate mixin arguments).container =
        some (vars, fs))
      (hinner : Spliced (call.selector :: active) (scope.child dest)
        (instantiate mixin arguments).container { vars, body := mixin.container.body }
        mixin.items inner children)
      (hitems : copy.items = inner.flatten.map .declaration)
      (hbody : copy.container.body = mixin.container.body ++ children.flatten.map .ruleSet)
      (rest : Spliced active scope source (absorb dest copy) items blocks promoted) :
      Spliced active scope source dest (.mixin call :: items) (copy.declarations :: blocks)
        (copy.container.childRuleSets :: promoted)

variable {n : Nat} {active : List Selector} {scope : Scope} {ds : List Error}

/-! ## Along the items of a rule set -/

theorem instantiate_items (mixin : RuleSet) (arguments : List Expr) :
    (instantiate mixin arguments).items = mixin.items := by
  rw [instantiate]
  split
  · rfl
  · rfl

theorem instantiate_body (mixin : RuleSet) (arguments : List Expr) :
    (instantiate mixin arguments).container.body = mixin.container.body := by
  rw [instantiate]
  split
  · exact bindParameters_body _ _ _
  · rfl

/-- A resolved declaration differs from its source in its pieces only. -/
theorem exists_values_of_resolveDeclaration {d result : Declaration}
    (h : resolveDeclaration n scope d = some (result, ds)) :
    ∃ values : List Expr, result = { d with values } ∧ values.length = d.values.length := by
  obtain ⟨values, rfl, hvalues⟩ := resolveDeclaration_eq_some h
  exact ⟨values, rfl, hvalues.length_eq.symm⟩

/-- What mixins contributed is written as it is. -/
theorem mapM_settle_resolved {declarations : List Declaration} {written : List Item}
    (h : (declarations.map Pending.resolved).mapM (settle n scope) = some (written, ds)) :
    written = declarations.map .declaration := by
  induction declarations generalizing written ds with
  | nil =>
      cases h
      rfl
  | cons d declarations ih =>
      rw [List.map_cons, List.mapM_cons] at h
      obtain ⟨item, first, second, hitem, hlater, -⟩ := bind_eq_some h
      obtain ⟨rest, third, fourth, hrest, hpure, -⟩ := bind_eq_some hlater
      cases hpure
      cases hitem
      rw [ih hrest]
      rfl

/-- What the expansion of a rule set within the bound is put together from. -/
def SplicesWithin (n : Nat) : Prop :=
  ∀ {active : List Selector} {scope : Scope} {r result : RuleSet} {ds : List Error},
    expand n active scope r = some (result, ds) → ∃ m vars first blocks promoted,
      resolveVariables m scope r.container = some (vars, first)
      ∧ Spliced active scope r.container { vars, body := r.container.body } r.items blocks promoted
      ∧ result.items = blocks.flatten.map .declaration
      ∧ result.container.body = r.container.body ++ promoted.flatten.map .ruleSet

/-- **The run of the items puts the blocks together**, if the copies are put
    together in this way. -/
theorem spliced_of_gathers (hexpand : SplicesWithin n) {source dest final : Container}
    {items : List Item} {blocks : List (List Pending)} {copies : List RuleSet} {inner : Scope}
    (h : Gathers (expandCall n (expand n) active scope source) dest items blocks copies final ds) :
    ∀ {written : List (List Item)},
      List.Forall₂ (fun block out => ∃ es, block.mapM (settle n inner) = some (out, es))
        blocks written →
      ∃ declared promoted, Spliced active scope source dest items declared promoted
        ∧ written.flatten = declared.flatten.map .declaration
        ∧ final.body = dest.body ++ promoted.flatten.map .ruleSet := by
  induction h with
  | nil dest =>
      rintro written ⟨⟩
      exact ⟨[], [], .nil, rfl, (List.append_nil _).symm⟩
  | @declaration dest final items blocks copies ds d rest ih =>
      intro written hwritten
      obtain ⟨out, later, ⟨es, hout⟩, hlater, rfl⟩ := List.forall₂_cons_left_iff.mp hwritten
      obtain ⟨declared, promoted, hspliced, hdeclared, hpromoted⟩ := ih hlater
      rw [List.mapM_cons] at hout
      obtain ⟨item, first, second, hitem, hpure, -⟩ := bind_eq_some hout
      cases hpure
      obtain ⟨result, hresult, rfl⟩ := map_eq_some hitem
      obtain ⟨values, rfl, hlength⟩ := exists_values_of_resolveDeclaration hresult
      refine ⟨_, _, .declaration hlength hspliced, ?_, hpromoted⟩
      rw [List.flatten_cons, List.flatten_cons, hdeclared, List.map_append]
      rfl
  | @failed dest final call items blocks copies es ds hcall rest ih =>
      intro written hwritten
      obtain ⟨out, later, ⟨fs, hout⟩, hlater, rfl⟩ := List.forall₂_cons_left_iff.mp hwritten
      obtain ⟨declared, promoted, hspliced, hdeclared, hpromoted⟩ := ih hlater
      cases hout
      exact ⟨_, _, .failed hcall hspliced, hdeclared, hpromoted⟩
  | @expanded dest final call copy items blocks copies es ds hcall rest ih =>
      intro written hwritten
      obtain ⟨out, later, ⟨fs, hout⟩, hlater, rfl⟩ := List.forall₂_cons_left_iff.mp hwritten
      obtain ⟨declared, promoted, hspliced, hdeclared, hpromoted⟩ := ih hlater
      rcases expandCall_eq_some hcall with
        ⟨hnone, -⟩ | ⟨mixin, arguments, _, -, hmixin, -, harguments, hcopy, hsome⟩
      · cases hnone
      · cases hsome
        -- the copy is put together in the same way
        obtain ⟨m, vars, first, inside, children, hvars, hinside, hitems, hbody⟩ := hexpand hcopy
        rw [instantiate_items, instantiate_body] at hinside
        rw [instantiate_body] at hbody
        refine ⟨_, _, .expanded hcall hmixin harguments hvars hinside hitems hbody hspliced, ?_, ?_⟩
        · rw [List.flatten_cons, List.flatten_cons, hdeclared, List.map_append,
            mapM_settle_resolved hout]
        · rw [hpromoted, List.flatten_cons, List.map_append, ← List.append_assoc]
          rfl

/-- Without calls every block is a declaration. -/
theorem spliced_of_no_calls {source dest : Container} {items : List Item}
    {written : List (List Item)} {inner : Scope} (hcalls : items.any Item.isMixin = false)
    (h : List.Forall₂ (WrittenFrom n inner) items written) :
    ∃ declared promoted, Spliced active scope source dest items declared promoted
      ∧ written.flatten = declared.flatten.map .declaration ∧ promoted.flatten = [] := by
  induction h with
  | nil => exact ⟨[], [], .nil, rfl, rfl⟩
  | @cons item out items later hout hlater ih =>
      rw [List.any_cons, Bool.or_eq_false_iff] at hcalls
      obtain ⟨declared, promoted, hspliced, hdeclared, hpromoted⟩ := ih hcalls.2
      cases item with
      | mixin call => cases hcalls.1
      | declaration d =>
          obtain ⟨result, es, hresult, rfl⟩ := hout d rfl
          obtain ⟨values, rfl, hlength⟩ := exists_values_of_resolveDeclaration hresult
          refine ⟨_, _, .declaration hlength hspliced, ?_, hpromoted⟩
          rw [List.flatten_cons, List.flatten_cons, hdeclared, List.map_append]
          rfl

/-! ## To any depth of calls -/

/-- Copies that are put together in this way put the rule set that calls them
    together. -/
theorem SplicesWithin.succ (hcopies : SplicesWithin n) : SplicesWithin (n + 1) := by
  intro active scope r result ds h
  obtain ⟨vars, items, container, first, second, hvars, hitems, rfl, -⟩ := expand_eq_some h
  cases hany : r.items.any Item.isMixin with
  | true =>
      rcases resolveItems_eq_some hitems with
        ⟨-, pending, third, fourth, hgather, hsettle, -⟩ | ⟨hnone, -⟩
      · obtain ⟨blocks, copies, hrun, rfl⟩ := gathers_of_gather hgather
        obtain ⟨written, rfl, hwritten⟩ := mapM_flatten_eq_some hsettle
        obtain ⟨declared, promoted, hspliced, hdeclared, hbody⟩ :=
          spliced_of_gathers hcopies hrun hwritten
        exact ⟨n, vars, first, declared, promoted, hvars, hspliced, hdeclared, hbody⟩
      · rw [hany] at hnone
        cases hnone
  | false =>
      obtain ⟨rfl, written, rfl, hwritten⟩ := resolveItems_of_no_calls hany hitems
      obtain ⟨declared, promoted, hspliced, hdeclared, hpromoted⟩ :=
        spliced_of_no_calls hany hwritten
      refine ⟨n, vars, first, declared, promoted, hvars, hspliced, hdeclared, ?_⟩
      rw [hpromoted, List.map_nil, List.append_nil]

/-- **A CALL IS REPLACED IN ITS PLACE.**  What an expansion declares is the blocks of
    its items, one behind the other, and its body is that of the rule set followed by
    the rule sets that the calls brought. -/
theorem expand_spliced {r result : RuleSet}
    (h : expand n active scope r = some (result, ds)) :
    ∃ m vars first blocks promoted, resolveVariables m scope r.container = some (vars, first)
      ∧ Spliced active scope r.container { vars, body := r.container.body } r.items blocks promoted
      ∧ result.items = blocks.flatten.map .declaration
      ∧ result.container.body = r.container.body ++ promoted.flatten.map .ruleSet := by
  induction n generalizing active scope r result ds with
  | zero => cases h
  | succ n ih => exact SplicesWithin.succ ih h

/-- A call of a mixin that calls another stands between two declarations, behind a
    call that fails: the declarations of both mixins come between, and the rule set
    nested in the inner one is promoted through both. -/
theorem expand_spliced_two_deep :
    let declare (property value : String) : Item :=
      .declaration { property, values := [.literal value none] }
    let call (s : String) : Item := .mixin { selector := ⟨s⟩, arguments := [] }
    let rule (s : String) (items : List Item) (body : List Element) : RuleSet :=
      { selectors := [⟨s⟩], params := none, items, container := { vars := .empty, body }
        position := none }
    let leaf := rule "leaf" [declare "top" "0"] []
    let inner := rule ".inner" [declare "color" "red"] [.ruleSet leaf]
    let outer := rule ".outer" [declare "left" "1px", call ".inner", declare "left" "2px"] []
    let scope := (Scope.root .builtin).child
      { vars := .empty, body := [.ruleSet inner, .ruleSet outer] }
    let r := rule ".x" [declare "top" "1px", call ".missing", call ".outer", declare "top" "2px"] []
    let items := [declare "top" "1px", declare "left" "1px", declare "color" "red",
      declare "left" "2px", declare "top" "2px"]
    ∃ ds, expand 5 [] scope r = some (rule ".x" items [.ruleSet leaf], ds)
      ∧ ∃ m vars first blocks promoted, resolveVariables m scope r.container = some (vars, first)
        ∧ Spliced [] scope r.container { vars, body := [] } r.items blocks promoted
        ∧ items = blocks.flatten.map .declaration
        ∧ [.ruleSet leaf] = promoted.flatten.map Element.ruleSet := by
  intro declare call rule leaf inner outer scope r items
  have h : expand 5 [] scope r = some (rule ".x" items [.ruleSet leaf],
      [.undefinedMixin ".missing"]) := by rfl
  exact ⟨_, h, expand_spliced h⟩

end Less.Transform
