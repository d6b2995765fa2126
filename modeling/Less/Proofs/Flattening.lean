import Less.Proofs.Nesting
import Mathlib.Algebra.BigOperators.Group.List.Basic

/-! # Flattening keeps every rule set

    A rule set without calls comes out as the list of the rule sets nested in
    it, itself in front.  Nothing is lost, nothing comes out twice, and the
    order is the one in which the rule sets are written.

    The list on the other side is `RuleSet.paths`: the ways into the rule set
    that pass no definition of a mixin, a rule set before those nested in it.
    `transformRuleSet_yields` pairs it with the result, so what is left to say
    is what the pairs have in common:

    * the declarations, of which only the values are replaced
      (`items_keep_declarations`);
    * the number of selectors, which multiplies along the path
      (`length_fromInside`). -/

namespace Less

namespace Selector

theorem length_combineAll (parents children : List Selector) :
    (combineAll parents children).length = parents.length * children.length := by
  simp [combineAll]

/-- **Selectors multiply along a path.** -/
theorem length_fromInside {path : List (List Selector)} (hne : path ≠ []) :
    (fromInside path).length = (path.map List.length).prod := by
  induction path with
  | nil => exact absurd rfl hne
  | cons selectors rest ih =>
      by_cases hrest : rest = []
      · subst hrest
        simp [fromInside]
      · rw [fromInside_cons selectors hrest, length_combineAll, ih hrest, List.map_cons,
          List.prod_cons]

end Selector

namespace Transform

open Reporting Selector

variable {n : Nat} {scope : Scope} {ds : List Error}

/-- An expansion without calls replaces the values of each declaration and keeps
    the rest of it. -/
theorem items_keep_declarations {active : List Selector} {r dest : RuleSet}
    (hitems : ∀ item ∈ r.items, item.isMixin = false)
    (h : expand n active scope r = some (dest, ds)) :
    List.Forall₂ (fun d item => ∃ values, item = .declaration { d with values })
      r.declarations dest.items := by
  cases n with
  | zero => cases h
  | succ n =>
      refine (items_of_no_calls hitems h).imp ?_
      rintro d item ⟨d', rfl, es, hd', -⟩
      obtain ⟨values, rfl, -⟩ := resolveDeclaration_eq_some hd'
      exact ⟨values, rfl⟩

/-- An expansion defines no mixin and stands where the rule set stood. -/
theorem expand_isMixin_position {active : List Selector} {r dest : RuleSet}
    (h : expand n active scope r = some (dest, ds)) :
    dest.isMixin = false ∧ dest.position = r.position := by
  cases n with
  | zero => cases h
  | succ n =>
      obtain ⟨vars, items, container, first, second, -, -, rfl, -⟩ := expand_eq_some h
      exact ⟨rfl, rfl⟩

/-- What flattening keeps of the rule set at the end of a path. -/
structure Keeps (path : List RuleSet) (x : RuleSet) : Prop where
  /-- A plain rule set at the same place, with the same declarations but for
      their values, and with nothing else between its braces. -/
  source : ∃ source, path.getLast? = some source ∧ x.isMixin = false
    ∧ x.position = source.position
    ∧ List.Forall₂ (fun d item => ∃ values, item = .declaration { d with values })
        source.declarations x.items
  /-- One selector for each choice of selectors along the path. -/
  count : x.selectors.length = (path.map (·.selectors.length)).prod

theorem Yields.keeps {path : List RuleSet} {x : RuleSet} (h : Yields path x)
    (hcalls : ∀ s ∈ path, ∀ item ∈ s.items, item.isMixin = false) : Keeps path x := by
  obtain ⟨n, scope, source, dest, ds, hsource, hdest, hx⟩ := h.expansion
  have hmem : source ∈ path := List.mem_of_getLast? hsource
  have hne : path.map (·.selectors) ≠ [] := by
    simpa using List.ne_nil_of_mem hmem
  obtain ⟨hplain, hposition⟩ := expand_isMixin_position hdest
  have hitems := items_keep_declarations (hcalls source hmem) hdest
  constructor
  · refine ⟨source, hsource, ?_⟩
    rw [hx]
    exact ⟨hplain, hposition, hitems⟩
  · rw [h.selectors, length_fromInside hne, List.map_map]
    rfl

/-- **FLATTENING KEEPS EVERY RULE SET.**  Without calls, what a rule set becomes
    is one rule set for each path into it, in the order of the paths: a rule set,
    then its first nested one with all inside that, and so on.  Each has the
    declarations of the rule set at the end of its path, in order and but for the
    values the same, and as many selectors as there are choices of selectors
    along the path. -/
theorem transformRuleSet_keeps {n : Nat} {scope : Scope} {r : RuleSet} {result : List RuleSet}
    {ds : List Error} (hr : r.isMixin = false)
    (hcalls : ∀ path ∈ r.paths, ∀ s ∈ path, ∀ item ∈ s.items, item.isMixin = false)
    (h : transformRuleSet n scope r = some (result, ds)) :
    List.Forall₂ Keeps r.paths result :=
  forall₂_imp_of_mem (fun path hpath _ hx => hx.keeps (hcalls path hpath))
    (transformRuleSet_yields hr hcalls h)

/-- A rule set with selectors, properties that are written with the value `v`,
    and nested rule sets. -/
def bush (selectors properties : List String) (body : List RuleSet) : RuleSet :=
  ⟨selectors.map .ofText, none,
    properties.map fun p => .declaration { property := p, values := [.literal "v" none] },
    ⟨.empty, body.map .ruleSet⟩, none⟩

/-- Two rule sets side by side, the second with two more inside it and with a
    definition of a mixin, whose own nested rule set does not come out. -/
def bushOfTwo : RuleSet :=
  bush [".a", ".b"] ["w", "h"]
    [bush [".c"] ["x"] [],
      bush [".d", "&:hover"] []
        [{ bush [".m"] ["y"] [bush [".n"] ["z"] []] with params := some .empty },
          bush [".e", ".f", ".g"] ["u", "v"] []]]

/-- Four rule sets come out of `bushOfTwo`, with two, two, four and twelve
    selectors. -/
theorem transformRuleSet_keeps_of_bush :
    ∃ result ds, transformRuleSet 5 (Scope.root .empty) bushOfTwo = some (result, ds)
      ∧ result.map (·.selectors.length) = [2, 2, 4, 12]
      ∧ result.map (fun x => x.declarations.map (·.property)) = [["w", "h"], ["x"], [], ["u", "v"]]
      ∧ List.Forall₂ Keeps bushOfTwo.paths result := by
  have hrun : (transformRuleSet 5 (Scope.root .empty) bushOfTwo).map
      (fun x => (x.1.map (·.selectors.length), x.1.map fun x => x.declarations.map (·.property))) =
      some ([2, 2, 4, 12], [["w", "h"], ["x"], [], ["u", "v"]]) := by decide +kernel
  obtain ⟨⟨result, ds⟩, hresult, heq⟩ := Option.map_eq_some_iff.mp hrun
  have hcalls : ∀ path ∈ bushOfTwo.paths, ∀ s ∈ path, ∀ item ∈ s.items, item.isMixin = false := by
    decide +kernel
  exact ⟨result, ds, hresult, congrArg Prod.fst heq, congrArg Prod.snd heq,
    transformRuleSet_keeps rfl hcalls hresult⟩

end Transform

end Less
