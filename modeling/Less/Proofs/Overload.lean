import Less.Proofs.Agreement

/-! # Which definition of a mixin a call expands

    A call looks for its selector in the rule set it stands in, then among the
    elements that are resolved already, then in the unresolved sheet, and stops at
    the first of these that has the selector.  Among the rule sets found, the first
    that accepts the number of arguments is expanded.

    So a call with arguments expands the first definition of the sheet that accepts
    them, **unless one definition stands before the rule set and none of those
    accepts them**: then the definitions behind it stay hidden and the call is
    refused (`overload_selected`, `later_overload_hidden`).

    Definitions pass a resolution unchanged, and the rule sets that a resolution
    makes accept no arguments.  So among the elements resolved already, those that
    accept a positive number of arguments are the definitions before the rule set,
    in order (`filter_accepts_part`). -/

namespace Less.Transform

open Reporting

variable {n k : Nat} {functions : Registry} {sheet : Sheet} {ds : List Error}
    {active : List Selector} {scope : Scope} {source dest : Container} {call : MixinCall}
    {s : Selector}

/-! ## A call and the mixin it selects -/

/-- What a call makes of the mixin it selected: a copy with its arguments, or a
    diagnostic if an argument has no value. -/
def bindCall (n : Nat) (scope : Scope) (call : MixinCall) (mixin : RuleSet) :
    Reporting (Option RuleSet) := do
  match ← attempt (call.arguments.mapM (Expr.eval n scope)) with
  | .error e =>
    report (e.locate call.position)
    return none
  | .ok arguments => return some (instantiate mixin arguments)

/-- A call that is refused. -/
def refuse (call : MixinCall) (e : Error) : Reporting (Option RuleSet) := do
  report (e.locate call.position)
  return none

/-- A rule set accepts as many arguments as it has parameters, and fewer. -/
theorem accepts_iff {r : RuleSet} : r.accepts k = true ↔ k ≤ r.arity := by
  rw [RuleSet.accepts, RuleSet.arity]
  split
  · exact decide_eq_true_iff
  · rw [beq_iff_eq, Nat.le_zero]

/-- The call expands the first rule set found that accepts its arguments. -/
theorem prepareCall_of_find {mixin : RuleSet} (hactive : call.selector ∉ active)
    (h : ((scope.child source).ruleSets call.selector).find? (·.accepts call.arguments.length) =
      some mixin) :
    prepareCall n active scope source dest call = bindCall n (scope.child dest) call mixin := by
  have hselect : selectMixin ((scope.child source).ruleSets call.selector) call.arguments.length =
      some mixin := by
    rw [selectMixin, h]
    rfl
  have hcontains : active.contains call.selector = false := by
    rw [Bool.eq_false_iff]
    exact fun hmem => hactive (List.contains_iff_mem.mp hmem)
  have harity : ¬ mixin.arity < call.arguments.length := by
    have haccepts : mixin.accepts call.arguments.length = true := by
      simpa using List.find?_some h
    exact Nat.not_lt_of_le (accepts_iff.mp haccepts)
  rw [prepareCall]
  simp only [hcontains, hselect, harity, if_false, Bool.false_eq_true]
  rfl

/-- The call is refused if rule sets are found and none of them accepts its
    arguments. -/
theorem prepareCall_of_none (hactive : call.selector ∉ active)
    (hfound : (scope.child source).ruleSets call.selector ≠ [])
    (h : ((scope.child source).ruleSets call.selector).find? (·.accepts call.arguments.length) =
      none) :
    ∃ arity < call.arguments.length, prepareCall n active scope source dest call =
      refuse call (.mixinArity arity call.arguments.length) := by
  obtain ⟨first, rest, hcons⟩ := List.exists_cons_of_ne_nil hfound
  have hselect : selectMixin ((scope.child source).ruleSets call.selector) call.arguments.length =
      some first := by
    rw [selectMixin, h, hcons]
    rfl
  have hcontains : active.contains call.selector = false := by
    rw [Bool.eq_false_iff]
    exact fun hmem => hactive (List.contains_iff_mem.mp hmem)
  have harity : first.arity < call.arguments.length := by
    have hmem : first ∈ (scope.child source).ruleSets call.selector := by
      rw [hcons]
      exact List.mem_cons_self
    exact Nat.lt_of_not_le fun hle => List.find?_eq_none.mp h first hmem (accepts_iff.mpr hle)
  refine ⟨first.arity, harity, ?_⟩
  rw [prepareCall]
  simp only [hcontains, hselect, harity, if_true, if_false, Bool.false_eq_true]
  rfl

/-! ## Definitions among resolved elements -/

theorem arity_of_plain {r : RuleSet} (hr : r.isMixin = false) : r.arity = 0 := by
  rw [RuleSet.isMixin, Option.isSome_eq_false_iff, Option.isNone_iff_eq_none] at hr
  rw [RuleSet.arity, hr]

/-- A plain rule set accepts no arguments. -/
theorem not_accepts_of_plain {r : RuleSet} (hr : r.isMixin = false) (hk : 0 < k) :
    r.accepts k = false := by
  rw [Bool.eq_false_iff, Ne, accepts_iff, arity_of_plain hr]
  exact Nat.not_le_of_lt hk

/-- No plain element accepts arguments. -/
theorem filter_accepts_of_plain {es : List Element}
    (h : ∀ r, .ruleSet r ∈ es → r.isMixin = false) (hk : 0 < k) :
    (ruleSetsAmong es s).filter (·.accepts k) = [] := by
  rw [List.filter_eq_nil_iff]
  intro r hr
  rw [not_accepts_of_plain (h r (mem_ruleSetsAmong.mp hr).1) hk]
  exact Bool.false_ne_true

/-- An element and its block have the same definitions. -/
theorem filter_accepts_block {e : Element} {block : List Element} (hk : 0 < k)
    (h : transformElement n scope e = some (block, ds)) :
    (ruleSetsAmong block s).filter (·.accepts k) =
      (ruleSetsAmong [e] s).filter (·.accepts k) := by
  cases e with
  | ruleSet r =>
      rcases block_of_ruleSet h with
        ⟨-, rfl⟩ | ⟨hplain, m, copy, nested, first, second, -, -, -, rfl, -, -, hcopy, hnested⟩
      · rfl
      · rw [filter_accepts_of_plain _ hk, filter_accepts_of_plain _ hk]
        · intro r' hr'
          cases List.mem_singleton.mp hr'
          exact hplain
        · intro r' hr'
          rcases List.mem_cons.mp hr' with heq | hr'
          · cases heq
            exact hcopy
          · obtain ⟨x, hx, heq⟩ := List.mem_map.mp hr'
            cases heq
            exact hnested r' hx
  | media | page | keyframes =>
      cases n with
      | zero => cases h
      | succ n =>
          obtain ⟨_, _, _, -, hpure, -⟩ := bind_eq_some h
          cases hpure
          rfl

/-- **The definitions that accept arguments pass a resolution in order.** -/
theorem filter_accepts_part {before : List Element} {part : Container} (hk : 0 < k)
    (h : resolvedPart n functions sheet before = some (part, ds)) :
    (part.ruleSets s).filter (·.accepts k) = (ruleSetsAmong before s).filter (·.accepts k) := by
  obtain ⟨vars, first, second, -, hbody, -⟩ := bind_eq_some h
  obtain ⟨-, blocks, hpart, hblocks⟩ := transformBody_blocks hbody
  rw [ruleSets_eq_among, hpart]
  clear hpart hbody h
  show (ruleSetsAmong blocks.flatten s).filter _ = _
  induction hblocks with
  | nil => rfl
  | @cons e block es blocks hblock _ ih =>
      obtain ⟨part', fs, hfs, -⟩ := hblock
      rw [List.flatten_cons, ruleSetsAmong_append, List.filter_append, ih,
        filter_accepts_block hk hfs, ← List.filter_append, ← ruleSetsAmong_append]
      rfl

/-! ## The definition that is expanded -/

/-- **THE DEFINITION A CALL EXPANDS.**  Take a call in a top-level rule set that
    has no nested rule set with the selector called, while that selector is not
    being expanded.

    * If no element resolved so far has the selector, the first rule set of the
      sheet that accepts the arguments is expanded.
    * A call with arguments that a rule set before this one accepts expands the
      first rule set of the sheet that accepts them.
    * A call without arguments expands the first rule set with the selector among
      the elements resolved so far.
    * A call with arguments that no rule set before this one accepts is refused as
      soon as an element resolved so far has the selector, whatever stands behind. -/
theorem overload_selected (m : Nat) (active : List Selector) (dest : Container) (call : MixinCall)
    {before after : List Element} {r : RuleSet} {part : Container}
    (hsheet : sheet.container.body = before ++ .ruleSet r :: after)
    (hpart : resolvedPart n functions sheet before = some (part, ds))
    (hown : r.container.ruleSets call.selector = []) (hactive : call.selector ∉ active) :
    let scope := scopeBehind functions sheet part
    let count := call.arguments.length
    (∀ mixin, part.ruleSets call.selector = [] →
      (sheet.container.ruleSets call.selector).find? (·.accepts count) = some mixin →
      prepareCall m active scope r.container dest call = bindCall m (scope.child dest) call mixin)
    ∧ (∀ mixin, 0 < count →
      (ruleSetsAmong before call.selector).find? (·.accepts count) = some mixin →
      (sheet.container.ruleSets call.selector).find? (·.accepts count) = some mixin
      ∧ prepareCall m active scope r.container dest call = bindCall m (scope.child dest) call mixin)
    ∧ (∀ mixin, count = 0 → (part.ruleSets call.selector).head? = some mixin →
      prepareCall m active scope r.container dest call = bindCall m (scope.child dest) call mixin)
    ∧ (0 < count → part.ruleSets call.selector ≠ [] →
      (ruleSetsAmong before call.selector).find? (·.accepts count) = none →
      ∃ arity < count, prepareCall m active scope r.container dest call =
        refuse call (.mixinArity arity count)) := by
  intro scope count
  -- what the call finds: the resolved part hides the sheet
  have hfound : (scope.child r.container).ruleSets call.selector =
      if part.ruleSets call.selector = [] then sheet.container.ruleSets call.selector
      else part.ruleSets call.selector := by
    rw [Scope.ruleSets_child, if_pos hown]
    exact ruleSets_scopeBehind functions sheet part call.selector
  have hfind : 0 < count → (part.ruleSets call.selector).find? (·.accepts count) =
      (ruleSetsAmong before call.selector).find? (·.accepts count) := by
    intro hcount
    rw [← List.head?_filter, ← List.head?_filter, filter_accepts_part hcount hpart]
  refine ⟨fun mixin hnil hmixin => ?_, fun mixin hcount hmixin => ⟨?_, ?_⟩,
    fun mixin hcount hmixin => ?_, fun hcount hne hnone => ?_⟩
  · refine prepareCall_of_find hactive ?_
    rw [hfound, if_pos hnil]
    exact hmixin
  · rw [ruleSets_eq_among, hsheet, ruleSetsAmong_append, List.find?_append, hmixin]
    rfl
  · have hpartFind := (hfind hcount).trans hmixin
    have hne : part.ruleSets call.selector ≠ [] := by
      intro hnil
      rw [hnil] at hpartFind
      cases hpartFind
    refine prepareCall_of_find hactive ?_
    rw [hfound, if_neg hne]
    exact hpartFind
  · obtain ⟨rest, hcons⟩ : ∃ rest, part.ruleSets call.selector = mixin :: rest :=
      List.head?_eq_some_iff.mp hmixin
    refine prepareCall_of_find hactive ?_
    rw [hfound, hcons, if_neg (List.cons_ne_nil mixin rest), List.find?_cons_of_pos]
    exact accepts_iff.mpr (hcount.trans_le (Nat.zero_le _))
  · refine prepareCall_of_none hactive ?_ ?_
    · rw [hfound, if_neg hne]
      exact hne
    · rw [hfound, if_neg hne]
      exact (hfind hcount).trans hnone

/-- A definition with two parameters behind one with a single parameter, both
    before the rule set: the call with two arguments expands the second one. -/
theorem overload_selected_among_two :
    let mixin (params : List String) : RuleSet :=
      { selectors := [⟨".m"⟩], params := some (.ofList (params.map fun x => (x, none)))
        items := [], container := .empty, position := none }
    let call : MixinCall :=
      { selector := ⟨".m"⟩, arguments := [.literal "1" none, .literal "2" none] }
    let r : RuleSet :=
      { selectors := [⟨".x"⟩], params := none, items := [.mixin call], container := .empty
        position := none }
    let before : List Element := [.ruleSet (mixin ["a"]), .ruleSet (mixin ["a", "b"])]
    let sheet : Sheet := { container := { vars := .empty, body := before ++ [.ruleSet r] } }
    let part : Container := { vars := .empty, body := before }
    let scope := scopeBehind .builtin sheet part
    resolvedPart 3 .builtin sheet before = some (part, [])
      ∧ prepareCall 2 [] scope .empty .empty call =
          bindCall 2 (scope.child .empty) call (mixin ["a", "b"]) := by
  intro mixin call r before sheet part scope
  have hpart : resolvedPart 3 .builtin sheet before = some (part, []) := by rfl
  have hmixin : (ruleSetsAmong before call.selector).find? (·.accepts 2) =
      some (mixin ["a", "b"]) := by rfl
  have hsheet : sheet.container.body = before ++ .ruleSet r :: [] := rfl
  have h := overload_selected 2 [] .empty call hsheet hpart rfl List.not_mem_nil
  exact ⟨hpart, (h.2.1 _ (by decide) hmixin).2⟩

/-- **A definition that stands too early hides a later one**: with a definition of
    one parameter before the rule set and one of two parameters behind it, a call
    with two arguments is refused.  It is not if both definitions stand before the
    rule set, or both behind it. -/
theorem later_overload_hidden :
    let mixin (params : List String) (property value : String) : Element :=
      .ruleSet
        { selectors := [⟨".m"⟩], params := some (.ofList (params.map fun x => (x, none)))
          items := [.declaration { property, values := [.var value none] }]
          container := .empty, position := none }
    let one := mixin ["a"] "w" "a"
    let two := mixin ["a", "b"] "h" "b"
    let caller (items : List Item) (vars : List (String × Expr)) : Element :=
      .ruleSet
        { selectors := [⟨".x"⟩], params := none, items, position := none
          container := { vars := .ofList vars, body := [] } }
    let call : MixinCall :=
      { selector := ⟨".m"⟩, arguments := [.literal "1" none, .literal "2" none] }
    let x := caller [.mixin call] []
    let expanded := caller [.declaration { property := "h", values := [.literal "2" none] }]
      [("a", .literal "1" none), ("b", .literal "2" none)]
    let sheet (body : List Element) : Sheet := { container := { vars := .empty, body } }
    transformSheet 8 .builtin (sheet [one, two, x]) = some (sheet [one, two, expanded], [])
      ∧ transformSheet 8 .builtin (sheet [x, one, two]) = some (sheet [expanded, one, two], [])
      ∧ transformSheet 8 .builtin (sheet [one, x, two]) =
          some (sheet [one, caller [] [], two], [.mixinArity 1 2]) := by
  intro mixin one two caller call x expanded sheet
  exact ⟨rfl, rfl, rfl⟩

end Less.Transform
