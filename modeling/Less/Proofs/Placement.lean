import Less.Proofs.Steps

/-! # The elements of a sheet one by one

    The elements of a sheet are resolved in order, each inside the container that
    the elements before it have filled, with the unresolved sheet around it.

    * `resolvedPart`: the container once some elements are resolved; the next one is
      resolved in the scope `scopeBehind`, and what it becomes stands in the result
      right behind that container's elements (`transformSheet_split`).
    * Each element becomes a block of elements (`transformBody_blocks`).  The
      definition of a mixin stays as it is; any other rule set becomes a copy with
      its selectors, followed by its nested rule sets, none of them with
      parameters (`block_of_ruleSet`). -/

namespace Less.Transform

open Reporting

variable {n : Nat} {functions : Registry} {sheet result : Sheet} {ds : List Error}

/-- The container that is being built once the given elements are resolved. -/
def resolvedPart (n : Nat) (functions : Registry) (sheet : Sheet) (before : List Element) :
    Reporting Container := do
  let vars ← resolveVariables n (Scope.root functions) sheet.container
  transformBody (transformElement n) ((Scope.root functions).child sheet.container) before
    { vars, body := [] }

/-- Where the element behind a resolved part is resolved. -/
def scopeBehind (functions : Registry) (sheet : Sheet) (part : Container) : Scope :=
  ((Scope.root functions).child sheet.container).child part

section Blocks

variable {transform : Scope → Element → Reporting (List Element)} {parent : Scope}

/-- Elements are resolved one part after the other. -/
theorem transformBody_append (xs ys : List Element) (dest : Container) :
    transformBody transform parent (xs ++ ys) dest =
      transformBody transform parent xs dest >>= transformBody transform parent ys := by
  induction xs generalizing dest with
  | nil => exact (pure_bind dest _).symm
  | cons x xs ih =>
      rw [List.cons_append, transformBody, transformBody, bind_assoc]
      exact bind_congr fun produced => ih _

/-- **Each element becomes a block**, and the blocks are added in order. -/
theorem transformBody_blocks {es : List Element} {dest final : Container}
    (h : transformBody transform parent es dest = some (final, ds)) :
    final.vars = dest.vars ∧ ∃ blocks, final.body = dest.body ++ blocks.flatten
      ∧ List.Forall₂ (fun e block => ∃ part fs,
          transform (parent.child part) e = some (block, fs) ∧ fs ⊆ ds) es blocks := by
  induction es generalizing dest ds with
  | nil =>
      cases h
      exact ⟨rfl, [], (List.append_nil _).symm, .nil⟩
  | cons e es ih =>
      rw [transformBody] at h
      obtain ⟨produced, first, second, hproduced, hrest, rfl⟩ := bind_eq_some h
      obtain ⟨hvars, blocks, hbody, hblocks⟩ := ih hrest
      refine ⟨hvars, produced :: blocks, ?_, .cons ⟨dest, first, hproduced, ?_⟩ ?_⟩
      · rw [hbody, List.flatten_cons]
        exact List.append_assoc _ _ _
      · exact List.subset_append_left _ _
      · refine hblocks.imp fun e block hblock => ?_
        obtain ⟨part, fs, hfs, hsub⟩ := hblock
        exact ⟨part, fs, hfs, fun x hx => List.mem_append_right _ (hsub hx)⟩

end Blocks

/-- **An element of a sheet is resolved behind the elements before it**, and
    stands there in the result. -/
theorem transformSheet_split {before after : List Element} {e : Element}
    (hbody : sheet.container.body = before ++ e :: after)
    (h : transformSheet n functions sheet = some (result, ds)) :
    ∃ part first block second rest,
      resolvedPart n functions sheet before = some (part, first) ∧ first ⊆ ds
      ∧ transformElement n (scopeBehind functions sheet part) e = some (block, second)
      ∧ second ⊆ ds ∧ result.container.body = part.body ++ block ++ rest := by
  obtain ⟨container, hcontainer, rfl⟩ := transformSheet_eq_some h
  obtain ⟨vars, first, later, hvars, hlater, rfl⟩ := transformContainer_eq_some hcontainer
  rw [hbody, transformBody_append] at hlater
  obtain ⟨part, second, third, hpart, hrest, rfl⟩ := bind_eq_some hlater
  rw [transformBody] at hrest
  obtain ⟨block, fourth, fifth, hblock, hafter, rfl⟩ := bind_eq_some hrest
  obtain ⟨-, blocks, hfinal, -⟩ := transformBody_blocks hafter
  refine ⟨part, first ++ second, block, fourth, blocks.flatten, bind_of_some hvars hpart, ?_,
    hblock, ?_, hfinal⟩
  · intro x hx
    rw [← List.append_assoc]
    exact List.mem_append_left _ hx
  · intro x hx
    exact List.mem_append_right _ (List.mem_append_right _ (List.mem_append_left _ hx))

/-- In a sheet without diagnostics neither the elements before nor the element
    itself have any. -/
theorem transformSheet_split_nil {before after : List Element} {e : Element}
    (hbody : sheet.container.body = before ++ e :: after)
    (h : transformSheet n functions sheet = some (result, [])) :
    ∃ part block, resolvedPart n functions sheet before = some (part, [])
      ∧ transformElement n (scopeBehind functions sheet part) e = some (block, [])
      ∧ block ⊆ result.container.body := by
  obtain ⟨part, first, block, second, rest, hpart, hfirst, hblock, hsecond, hresult⟩ :=
    transformSheet_split hbody h
  obtain rfl := List.subset_nil.mp hfirst
  obtain rfl := List.subset_nil.mp hsecond
  refine ⟨part, block, hpart, hblock, fun x hx => ?_⟩
  rw [hresult]
  exact List.mem_append_left _ (List.mem_append_right _ hx)

/-- In the sheet, the element behind `before` becomes the block. -/
def Becomes (n : Nat) (functions : Registry) (sheet : Sheet) (before : List Element) (e : Element)
    (block : List Element) : Prop :=
  ∃ part first second, resolvedPart n functions sheet before = some (part, first)
    ∧ transformElement n (scopeBehind functions sheet part) e = some (block, second)

/-- The rule sets with a selector among elements. -/
def ruleSetsAmong (es : List Element) (s : Selector) : List RuleSet :=
  (es.filterMap Element.ruleSet?).flatMap fun r => List.replicate (r.selectors.count s) r

theorem ruleSets_eq_among (c : Container) (s : Selector) : c.ruleSets s = ruleSetsAmong c.body s :=
  rfl

theorem ruleSetsAmong_append (xs ys : List Element) (s : Selector) :
    ruleSetsAmong (xs ++ ys) s = ruleSetsAmong xs s ++ ruleSetsAmong ys s := by
  rw [ruleSetsAmong, List.filterMap_append, List.flatMap_append]
  rfl

theorem mem_ruleSetsAmong {es : List Element} {s : Selector} {r : RuleSet} :
    r ∈ ruleSetsAmong es s ↔ .ruleSet r ∈ es ∧ s ∈ r.selectors := by
  rw [ruleSetsAmong, List.mem_flatMap]
  constructor
  · rintro ⟨r', hr', hr⟩
    obtain ⟨hcount, rfl⟩ := List.mem_replicate.mp hr
    exact ⟨Element.mem_filterMap_ruleSet?.mp hr',
      List.count_pos_iff.mp (Nat.pos_of_ne_zero hcount)⟩
  · rintro ⟨hr, hs⟩
    exact ⟨r, Element.mem_filterMap_ruleSet?.mpr hr,
      List.mem_replicate.mpr ⟨Nat.ne_of_gt (List.count_pos_iff.mpr hs), rfl⟩⟩

/-! ## What a rule set becomes -/

/-- An expansion keeps the selectors and has no parameters. -/
theorem expand_selectors {active : List Selector} {scope : Scope} {r copy : RuleSet}
    (h : expand n active scope r = some (copy, ds)) :
    copy.selectors = r.selectors ∧ copy.isMixin = false := by
  cases n with
  | zero => cases h
  | succ n =>
      obtain ⟨vars, items, container, first, second, -, -, rfl, -⟩ := expand_eq_some h
      exact ⟨rfl, rfl⟩

/-- Whatever takes the place of a plain rule set is plain. -/
theorem transformRuleSet_plain : ∀ {n : Nat} {scope : Scope} {r : RuleSet} {rs : List RuleSet}
    {ds : List Error}, r.isMixin = false → transformRuleSet n scope r = some (rs, ds) →
    ∀ x ∈ rs, x.isMixin = false := by
  intro n
  induction n with
  | zero => intro scope r rs ds _ h; cases h
  | succ n ih =>
      intro scope r rs ds hr h x hx
      rcases transformRuleSet_eq_some h with
        ⟨hmixin, -⟩ | ⟨-, copy, nested, first, second, hcopy, hnested, rfl, -⟩
      · rw [hr] at hmixin
        cases hmixin
      · rcases List.mem_cons.mp hx with rfl | hx
        · exact (expand_selectors hcopy).2
        · obtain ⟨produced, rfl, hproduced⟩ := flatten_eq_some hnested
          obtain ⟨y, hy, rfl⟩ := List.mem_map.mp hx
          obtain ⟨ys, hys, hy⟩ := List.mem_flatten.mp hy
          obtain ⟨child, hchild, es, hes, -⟩ := exists_of_forall₂ hproduced hys
          have hplain : child.isMixin = false := by
            simpa using (List.mem_filter.mp hchild).2
          exact ih hplain hes y hy

/-- **The definition of a mixin stays; a plain rule set becomes a copy with its
    selectors, followed by plain rule sets.** -/
theorem block_of_ruleSet {scope : Scope} {r : RuleSet} {block : List Element}
    (h : transformElement n scope (.ruleSet r) = some (block, ds)) :
    (r.isMixin = true ∧ block = [.ruleSet r])
      ∨ (r.isMixin = false ∧ ∃ (m : Nat) (copy : RuleSet) (nested : List RuleSet)
          (first second : List Error), n = m + 2
        ∧ expand m [] scope r = some (copy, first)
        ∧ flatten (transformRuleSet m) scope copy = some (nested, second)
        ∧ block = .ruleSet copy :: nested.map .ruleSet ∧ ds = first ++ second
        ∧ copy.selectors = r.selectors ∧ copy.isMixin = false
        ∧ ∀ x ∈ nested, x.isMixin = false) := by
  cases n with
  | zero => cases h
  | succ n =>
      obtain ⟨rs, first, second, hrs, hpure, rfl⟩ := bind_eq_some h
      cases hpure
      cases n with
      | zero => cases hrs
      | succ n =>
          rw [List.append_nil]
          rcases transformRuleSet_eq_some hrs with
            ⟨hmixin, rfl, -⟩ | ⟨hplain, copy, nested, third, fourth, hcopy, hnested, rfl, rfl⟩
          · exact Or.inl ⟨hmixin, rfl⟩
          · have hall := transformRuleSet_plain hplain hrs
            exact Or.inr ⟨hplain, n, copy, nested, third, fourth, rfl, hcopy, hnested, rfl, rfl,
              (expand_selectors hcopy).1, (expand_selectors hcopy).2,
              fun x hx => hall x (List.mem_cons_of_mem _ hx)⟩

/-- A plain rule set without diagnostics is expanded without any. -/
theorem block_of_plain {scope : Scope} {r : RuleSet} {block : List Element}
    (hplain : r.isMixin = false)
    (h : transformElement n scope (.ruleSet r) = some (block, [])) :
    ∃ (m : Nat) (copy : RuleSet) (nested : List RuleSet), n = m + 2
      ∧ expand m [] scope r = some (copy, []) ∧ block = .ruleSet copy :: nested.map .ruleSet
      ∧ copy.selectors = r.selectors ∧ ∀ x ∈ copy :: nested, x.isMixin = false := by
  rcases block_of_ruleSet h with
    ⟨hmixin, -⟩ | ⟨-, m, copy, nested, first, second, hm, hcopy, -, hblock, hnil, hselectors, hplain,
      hnested⟩
  · rw [hplain] at hmixin
    cases hmixin
  · obtain ⟨rfl, -⟩ := List.append_eq_nil_iff.mp hnil.symm
    exact ⟨m, copy, nested, hm, hcopy, hblock, hselectors, List.forall_mem_cons.mpr ⟨hplain, hnested⟩⟩

/-- The selectors of the elements resolved so far are found among them. -/
theorem ruleSets_part_ne_nil {before : List Element} {part : Container} {x : RuleSet}
    {s : Selector} (h : resolvedPart n functions sheet before = some (part, ds))
    (hx : .ruleSet x ∈ before) (hs : s ∈ x.selectors) : part.ruleSets s ≠ [] := by
  obtain ⟨vars, first, second, -, hbody, -⟩ := bind_eq_some h
  obtain ⟨-, blocks, hpart, hblocks⟩ := transformBody_blocks hbody
  obtain ⟨block, hblock, part', fs, hfs, -⟩ := exists_image_of_forall₂ hblocks hx
  -- the block begins with a rule set that has the selectors
  obtain ⟨y, hy, hys⟩ : ∃ y, .ruleSet y ∈ block ∧ s ∈ y.selectors := by
    rcases block_of_ruleSet hfs with
      ⟨-, rfl⟩ | ⟨-, _, copy, _, _, _, -, -, -, rfl, -, hselectors, -⟩
    · exact ⟨x, List.mem_cons_self, hs⟩
    · exact ⟨copy, List.mem_cons_self, hselectors ▸ hs⟩
  refine List.ne_nil_of_mem (a := y) ?_
  rw [ruleSets_eq_among, mem_ruleSetsAmong, hpart]
  exact ⟨List.mem_append_right _ (List.mem_flatten.mpr ⟨block, hblock, hy⟩), hys⟩

end Less.Transform
