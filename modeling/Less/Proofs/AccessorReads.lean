import Less.Proofs.Agreement
import Less.Proofs.Resolved
import Less.Proofs.Spacing

/-! # What an accessor reads

    `s[p]` reads the last declaration of `p` in the one rule set with the selector
    `s`, and evaluates it inside that rule set.  Behind a resolved rule set this is
    what is written for it (`accessor_reads_written`), wherever in a later rule set
    the accessor is evaluated.

    * `Container.Lacks s c`: no rule set in the container has the selector, at any
      depth.  Such a container around an accessor hides nothing that it reads.
    * `EvaluatesIn scope r inner`: expressions are evaluated in `inner` while `r` is
      resolved in `scope`.  All containers on the way are those of rule sets of the
      source, or filled with their nested rule sets, so they lack a selector that
      only one rule set at the top has (`ruleSets_of_evaluatesIn`).
    * What is written is a value, and values need no scope. -/

namespace Less

/-! ## Containers without a selector -/

/-- No rule set in the container, at any depth, has the selector. -/
def Container.Lacks (s : Selector) (c : Container) : Prop :=
  ∀ r ∈ c.allRuleSets, s ∉ r.selectors

/-- No rule set of the container has one with the selector inside it. -/
def Container.NoneInside (s : Selector) (c : Container) : Prop :=
  ∀ r ∈ c.childRuleSets, r.container.Lacks s

/-- No rule set that the scope can see has one with the selector inside it. -/
def Scope.NoneInside (s : Selector) (scope : Scope) : Prop :=
  ∀ frame ∈ scope.frames, frame.NoneInside s

variable {s : Selector}

namespace Container

variable {c d : Container}

theorem mem_allRuleSets_of_child {r : RuleSet} (h : r ∈ c.childRuleSets) : r ∈ c.allRuleSets :=
  mem_allRuleSets.mpr (mem_elements_of_mem (mem_childRuleSets.mp h))

theorem Lacks.noneInside (h : c.Lacks s) : c.NoneInside s := by
  intro r hr inner hinner
  have hmem := elements_subset (mem_elements_of_mem (mem_childRuleSets.mp hr))
    (mem_allRuleSets.mp hinner)
  exact h inner (mem_allRuleSets.mpr hmem)

theorem Lacks.ruleSets_eq_nil (h : c.Lacks s) : c.ruleSets s = [] := by
  refine List.eq_nil_iff_forall_not_mem.mpr fun r hr => ?_
  obtain ⟨hr, hs⟩ := mem_ruleSets.mp hr
  exact h r (mem_allRuleSets_of_child hr) hs

/-- Only the elements of a container count. -/
theorem Lacks.of_body (h : c.Lacks s) (hbody : ∀ e ∈ d.body, e ∈ c.body) : d.Lacks s := by
  intro r hr
  obtain ⟨e, he, hr⟩ := mem_tree.mp (mem_allRuleSets.mp hr)
  exact h r (mem_allRuleSets.mpr (mem_tree.mpr ⟨e, hbody e he, hr⟩))

theorem Lacks.absorb (h : c.Lacks s) {copy : RuleSet} (hcopy : copy.container.Lacks s) :
    (Transform.absorb c copy).Lacks s := by
  intro r hr
  obtain ⟨e, he, hr⟩ := mem_tree.mp (mem_allRuleSets.mp hr)
  rcases List.mem_append.mp he with he | he
  · exact h r (mem_allRuleSets.mpr (mem_tree.mpr ⟨e, he, hr⟩))
  · obtain ⟨child, hchild, rfl⟩ := List.mem_map.mp he
    exact hcopy r (mem_allRuleSets.mpr (mem_tree.mpr ⟨_, mem_childRuleSets.mp hchild, hr⟩))

end Container

namespace Scope.NoneInside

variable {scope : Scope}

theorem child (h : scope.NoneInside s) {c : Container} (hc : c.NoneInside s) :
    (scope.child c).NoneInside s := by
  intro frame hframe
  rcases List.mem_cons.mp hframe with rfl | hframe
  · exact hc
  · exact h frame hframe

theorem ruleSet (h : scope.NoneInside s) {other : Selector} {r : RuleSet}
    (hr : r ∈ scope.ruleSets other) : r.container.Lacks s := by
  obtain ⟨frame, hframe, hr⟩ := Scope.exists_frame_of_mem_ruleSets hr
  exact h frame hframe r hr

end Scope.NoneInside

/-- A container without the selector hides nothing that has it. -/
theorem Scope.ruleSets_child_of_lacks (scope : Scope) {c : Container} (h : c.Lacks s) :
    (scope.child c).ruleSets s = scope.ruleSets s := by
  rw [ruleSets_child, if_pos h.ruleSets_eq_nil]

theorem forest_append (enter : Element → Bool) (xs ys : List Element) :
    forest enter (xs ++ ys) = forest enter xs ++ forest enter ys := by
  induction xs with
  | nil => rfl
  | cons x xs ih => rw [List.cons_append, forest, forest, ih, List.append_assoc]

/-- If only one rule set at the top has the selector, none has one inside it. -/
theorem Container.noneInside_of_unique {c : Container} {before after : List Element} {t : RuleSet}
    (hbody : c.body = before ++ .ruleSet t :: after) (hs : s ∈ t.selectors)
    (hunique : c.allRuleSets.filter (s ∈ ·.selectors) = [t]) : c.NoneInside s := by
  -- the rule sets before `t`, inside it and behind it, at any depth
  let front := (forest (fun _ => true) before).filterMap Element.ruleSet?
  let back := (forest (fun _ => true) after).filterMap Element.ruleSet?
  have hall : c.allRuleSets = front ++ t :: (t.container.allRuleSets ++ back) := by
    have hforest : c.elements = forest (fun _ => true) c.body := by
      cases c
      rw [elements, tree]
    rw [allRuleSets, hforest, hbody, forest_append, forest, Element.tree_eq, if_pos rfl,
      List.filterMap_append, List.cons_append, List.filterMap_cons, List.filterMap_append]
    rfl
  have hnone : ∀ r ∈ front ++ (t.container.allRuleSets ++ back), s ∉ r.selectors := by
    rw [hall, List.filter_append, List.filter_cons_of_pos (by simpa using hs)] at hunique
    have hlength := congrArg List.length hunique
    have hnil : (front ++ (t.container.allRuleSets ++ back)).filter (s ∈ ·.selectors) = [] := by
      rw [List.filter_append, ← List.length_eq_zero_iff, List.length_append]
      rw [List.length_append, List.length_cons, List.length_singleton] at hlength
      omega
    intro r hr hsr
    have := List.filter_eq_nil_iff.mp hnil r hr
    simp [hsr] at this
  intro r hr inner hinner
  have htree : Element.ruleSet inner ∈ (Element.ruleSet r).tree fun _ => true :=
    Element.mem_tree.mpr (Or.inr ⟨rfl, mem_allRuleSets.mp hinner⟩)
  have hmem := mem_childRuleSets.mp hr
  rw [hbody] at hmem
  refine hnone inner ?_
  rcases List.mem_append.mp hmem with hmem | hmem
  · exact List.mem_append_left _
      (Element.mem_filterMap_ruleSet?.mpr (mem_forest.mpr ⟨_, hmem, htree⟩))
  · rcases List.mem_cons.mp hmem with heq | hmem
    · cases heq
      exact List.mem_append_right _ (List.mem_append_left _ hinner)
    · exact List.mem_append_right _ (List.mem_append_right _
        (Element.mem_filterMap_ruleSet?.mpr (mem_forest.mpr ⟨_, hmem, htree⟩)))

namespace Transform

open Reporting

variable {n : Nat} {active : List Selector} {scope parent : Scope} {ds : List Error}

/-! ## Expansion fills no container with the selector -/

/-- The copy of a mixin that is found lacks the selector. -/
theorem lacks_of_selectMixin (hscope : scope.NoneInside s) {source : Container}
    (hsource : source.Lacks s) {other : Selector} {count : Nat} {mixin : RuleSet}
    (h : selectMixin ((scope.child source).ruleSets other) count = some mixin)
    (arguments : List Expr) : (instantiate mixin arguments).container.Lacks s := by
  have hfound := (hscope.child hsource.noneInside).ruleSet (mem_of_selectMixin h)
  rw [instantiate]
  split
  · rename_i params _
    refine hfound.of_body fun e he => ?_
    rw [← bindParameters_body params.entries arguments mixin.container]
    exact he
  · exact hfound

/-- The expander keeps the selector out. -/
def KeepsOut (s : Selector) (expand : Expander) : Prop :=
  ∀ {active : List Selector} {scope : Scope} {r copy : RuleSet} {ds : List Error},
    scope.NoneInside s → r.container.Lacks s → expand active scope r = some (copy, ds) →
      copy.container.Lacks s

/-- The container built from items keeps the selector out. -/
theorem lacks_gather {expand : Expander} (hexpand : KeepsOut s expand)
    (hscope : scope.NoneInside s) {source dest final : Container} (hsource : source.Lacks s)
    (hdest : dest.Lacks s) {items : List Item} {pending : List Pending}
    (h : gather (expandCall n expand active scope source) items dest
      = some ((pending, final), ds)) : final.Lacks s := by
  refine (gather_invariant (I := Container.Lacks s) (P := fun _ => True)
    (fun {dest c copy es} hdest hcall _ => ⟨?_, fun _ _ => trivial⟩) h (List.Subset.refl _) hdest).1
  rcases expandCall_eq_some hcall with
    ⟨hnone, -⟩ | ⟨mixin, arguments, expanded, -, hmixin, -, -, hexpanded, hsome⟩
  · cases hnone
  · cases hsome
    have hmixin' := lacks_of_selectMixin hscope hsource hmixin arguments
    exact hdest.absorb (hexpand (hscope.child hdest.noneInside) hmixin' hexpanded)

/-- **Expansion keeps the selector out**, by induction on the depth of calls. -/
theorem lacks_expand : ∀ n : Nat, KeepsOut s (expand n) := by
  intro n
  induction n with
  | zero => intro active scope r copy ds _ _ h; cases h
  | succ n ih =>
      intro active scope r copy ds hscope hr h
      obtain ⟨vars, items, container, first, second, -, hitems, rfl, -⟩ := expand_eq_some h
      have hdest : Container.Lacks s { vars, body := r.container.body } := hr.of_body fun e he => he
      rcases resolveItems_eq_some hitems with ⟨-, pending, third, fourth, hgather, -⟩ | ⟨-, rfl, -⟩
      · exact lacks_gather ih hscope hr hdest hgather
      · exact hdest

theorem lacks_transformRuleSet : ∀ {n : Nat} {scope : Scope} {r : RuleSet} {rs : List RuleSet}
    {ds : List Error}, scope.NoneInside s → r.container.Lacks s →
    transformRuleSet n scope r = some (rs, ds) → ∀ x ∈ rs, x.container.Lacks s := by
  intro n
  induction n with
  | zero => intro scope r rs ds _ _ h; cases h
  | succ n ih =>
      intro scope r rs ds hscope hr h x hx
      rcases transformRuleSet_eq_some h with
        ⟨-, rfl, -⟩ | ⟨-, copy, nested, first, second, hcopy, hnested, rfl, -⟩
      · rw [List.mem_singleton.mp hx]
        exact hr
      · have hlacks := lacks_expand n hscope hr hcopy
        rcases List.mem_cons.mp hx with rfl | hx
        · exact hlacks
        · obtain ⟨produced, rfl, hproduced⟩ := flatten_eq_some hnested
          obtain ⟨y, hy, rfl⟩ := List.mem_map.mp hx
          obtain ⟨ys, hys, hy⟩ := List.mem_flatten.mp hy
          obtain ⟨child, hchild, es, hes, -⟩ := exists_of_forall₂ hproduced hys
          exact ih (hscope.child hlacks.noneInside)
            (hlacks.noneInside child (List.mem_filter.mp hchild).1) hes y hy

/-- What an element becomes has no rule set with the selector inside another. -/
theorem noneInside_transformElement {e : Element} {block : List Element}
    (hscope : scope.NoneInside s) (he : ∀ r, e = .ruleSet r → r.container.Lacks s)
    (h : transformElement n scope e = some (block, ds)) :
    ∀ x, .ruleSet x ∈ block → x.container.Lacks s := by
  intro x hx
  cases n with
  | zero => cases h
  | succ n =>
      rcases transformElement_eq_some h with
        ⟨r, rs, rfl, hrs, rfl⟩ | ⟨m, container, rfl, -, rfl⟩ | ⟨p, page, rfl, -, rfl⟩ |
        ⟨k, container, rfl, -, rfl⟩
      · obtain ⟨x', hx', heq⟩ := List.mem_map.mp hx
        cases heq
        exact lacks_transformRuleSet hscope (he r rfl) hrs x hx'
      · cases List.mem_singleton.mp hx
      · cases List.mem_singleton.mp hx
      · cases List.mem_singleton.mp hx

theorem noneInside_transformBody (hparent : parent.NoneInside s) {es : List Element}
    {dest final : Container} (hes : ∀ r, .ruleSet r ∈ es → r.container.Lacks s)
    (hdest : dest.NoneInside s)
    (h : transformBody (transformElement n) parent es dest = some (final, ds)) :
    final.NoneInside s := by
  induction es generalizing dest ds with
  | nil =>
      cases h
      exact hdest
  | cons e es ih =>
      rw [transformBody] at h
      obtain ⟨produced, first, second, hproduced, hrest, -⟩ := bind_eq_some h
      have hblock := noneInside_transformElement (hparent.child hdest)
        (fun r hr => hes r (hr ▸ List.mem_cons_self)) hproduced
      refine ih (fun r hr => hes r (List.mem_cons_of_mem _ hr)) (fun r hr => ?_) hrest
      rcases List.mem_append.mp (Container.mem_childRuleSets.mp hr) with hr | hr
      · exact hdest r (Container.mem_childRuleSets.mpr hr)
      · exact hblock r hr

/-- No rule set seen from behind a resolved part has one with the selector inside
    it, if none in the sheet has. -/
theorem noneInside_scopeBehind {functions : Registry} {sheet : Sheet} {before : List Element}
    {part : Container} (hsheet : sheet.container.NoneInside s)
    (hbefore : ∀ e ∈ before, e ∈ sheet.container.body)
    (h : resolvedPart n functions sheet before = some (part, ds)) :
    (scopeBehind functions sheet part).NoneInside s := by
  obtain ⟨vars, first, second, -, hbody, -⟩ := bind_eq_some h
  have hroot : ((Scope.root functions).child sheet.container).NoneInside s := by
    intro frame hframe
    rw [List.mem_singleton.mp hframe]
    exact hsheet
  refine hroot.child (noneInside_transformBody hroot (fun r hr => ?_) (fun r hr => ?_) hbody)
  · exact hsheet r (Container.mem_childRuleSets.mpr (hbefore _ hr))
  · exact absurd hr List.not_mem_nil

/-! ## Where expressions are evaluated -/

/-- While the rule set is resolved in the scope, the container is built once these
    items are gathered. -/
def Builds (scope : Scope) (r : RuleSet) (items : List Item) (dest : Container) : Prop :=
  ∃ n active vars first pending second,
    resolveVariables n scope r.container = some (vars, first)
    ∧ gather (expandCall n (expand n) active scope r.container) items
        { vars, body := r.container.body } = some ((pending, dest), second)

/-- **Expressions are evaluated in `inner` while the rule set is resolved in the
    scope.** -/
inductive EvaluatesIn : Scope → RuleSet → Scope → Prop where
  /-- Its variables, and its declarations if it has no calls. -/
  | own (scope : Scope) (r : RuleSet) : EvaluatesIn scope r (scope.child r.container)
  /-- The arguments of a call behind some items, and the declarations behind all. -/
  | built {scope : Scope} {r : RuleSet} {items : List Item} {dest : Container}
      (hitems : items <+: r.items) (hdest : Builds scope r items dest) :
      EvaluatesIn scope r (scope.child dest)
  /-- The expressions of a mixin that it calls. -/
  | called {scope inner : Scope} {r mixin : RuleSet} {items : List Item} {dest : Container}
      {call : MixinCall} {n : Nat} {active : List Selector} {ds : List Error}
      (hitems : items ++ [.mixin call] <+: r.items) (hdest : Builds scope r items dest)
      (hcall : prepareCall n active scope r.container dest call = some (some mixin, ds))
      (hinner : EvaluatesIn (scope.child dest) mixin inner) : EvaluatesIn scope r inner
  /-- The expressions of a rule set nested in it, or taken over from a mixin. -/
  | nested {scope inner : Scope} {r copy child : RuleSet} {n : Nat} {active : List Selector}
      {ds : List Error} (hcopy : expand n active scope r = some (copy, ds))
      (hchild : child ∈ copy.container.childRuleSets)
      (hinner : EvaluatesIn (scope.child copy.container) child inner) : EvaluatesIn scope r inner
  /-- The value of a variable that an expression mentions. -/
  | entered {scope inner : Scope} {r : RuleSet} (name : String)
      (hinner : EvaluatesIn scope r inner) : EvaluatesIn scope r (inner.enter name)
  /-- What an accessor reads. -/
  | read {scope inner : Scope} {r target : RuleSet} {other : Selector}
      (hinner : EvaluatesIn scope r inner) (htarget : target ∈ inner.ruleSets other) :
      EvaluatesIn scope r (inner.child target.container)

theorem lacks_of_builds {r : RuleSet} {items : List Item} {dest : Container}
    (hscope : scope.NoneInside s) (hr : r.container.Lacks s) (h : Builds scope r items dest) :
    dest.Lacks s := by
  obtain ⟨n, active, vars, first, pending, second, -, hgather⟩ := h
  have hstart : Container.Lacks s { vars, body := r.container.body } := hr.of_body fun e he => he
  exact lacks_gather (lacks_expand n) hscope hr hstart hgather

theorem lacks_of_prepareCall {source dest : Container} {call : MixinCall} {mixin : RuleSet}
    (hscope : scope.NoneInside s) (hsource : source.Lacks s)
    (h : prepareCall n active scope source dest call = some (some mixin, ds)) :
    mixin.container.Lacks s := by
  rcases prepareCall_eq_some h with ⟨hnone, -⟩ | ⟨found, arguments, -, hfound, -, -, hsome, -⟩
  · cases hnone
  · cases hsome
    exact lacks_of_selectMixin hscope hsource hfound arguments

/-- **Wherever an expression is evaluated, the selector finds the same rule sets.** -/
theorem ruleSets_of_evaluatesIn {inner : Scope} {r : RuleSet} (h : EvaluatesIn scope r inner)
    (hscope : scope.NoneInside s) (hr : r.container.Lacks s) :
    inner.ruleSets s = scope.ruleSets s ∧ inner.functions = scope.functions
      ∧ inner.NoneInside s := by
  induction h with
  | own scope r =>
      exact ⟨scope.ruleSets_child_of_lacks hr, rfl, hscope.child hr.noneInside⟩
  | @built scope _ _ _ _ hdest =>
      have hlacks := lacks_of_builds hscope hr hdest
      exact ⟨scope.ruleSets_child_of_lacks hlacks, rfl, hscope.child hlacks.noneInside⟩
  | @called scope _ _ _ _ _ _ _ _ _ _ hdest hcall _ ih =>
      have hlacks := lacks_of_builds hscope hr hdest
      obtain ⟨hsame, hfunctions, hinner⟩ :=
        ih (hscope.child hlacks.noneInside) (lacks_of_prepareCall hscope hr hcall)
      exact ⟨hsame.trans (scope.ruleSets_child_of_lacks hlacks), hfunctions, hinner⟩
  | @nested scope _ _ _ child _ _ _ hcopy hchild _ ih =>
      have hlacks := lacks_expand _ hscope hr hcopy
      obtain ⟨hsame, hfunctions, hinner⟩ :=
        ih (hscope.child hlacks.noneInside) (hlacks.noneInside child hchild)
      exact ⟨hsame.trans (scope.ruleSets_child_of_lacks hlacks), hfunctions, hinner⟩
  | entered name _ ih => exact ih hscope hr
  | @read _ inner _ _ _ _ htarget ih =>
      obtain ⟨hsame, hfunctions, hinner⟩ := ih hscope hr
      have hlacks := hinner.ruleSet htarget
      exact ⟨(inner.ruleSets_child_of_lacks hlacks).trans hsame, hfunctions,
        hinner.child hlacks.noneInside⟩

/-- The declarations of a rule set are resolved in such scopes. -/
theorem exists_resolved_declaration {r copy : RuleSet}
    (h : expand n active scope r = some (copy, ds)) {d : Declaration}
    (hd : .declaration d ∈ r.items) :
    ∃ m inner d' es, EvaluatesIn scope r inner
      ∧ resolveDeclaration m inner d = some (d', es) ∧ d' ∈ copy.declarations := by
  cases n with
  | zero => cases h
  | succ n =>
      obtain ⟨vars, items, container, first, second, hvars, hitems, rfl, -⟩ := expand_eq_some h
      -- the scope is the same for all items: with calls it is the one behind all of them
      have hwritten : ∃ (inner : Scope) (written : List (List Item)), EvaluatesIn scope r inner
          ∧ items = written.flatten ∧ List.Forall₂ (WrittenFrom n inner) r.items written := by
        rcases resolveItems_eq_some hitems with
          ⟨hany, pending, third, fourth, hgather, -⟩ | ⟨hany, -⟩
        · obtain ⟨-, -, -, written, -, hflat, hall⟩ := resolveItems_blocks hany hitems
          refine ⟨_, written, .built (List.prefix_refl r.items) ?_, hflat, hall⟩
          exact ⟨n, active, vars, first, pending, third, hvars, hgather⟩
        · obtain ⟨-, written, hflat, hall⟩ := resolveItems_of_no_calls hany hitems
          exact ⟨_, written, .own scope r, hflat, hall⟩
      obtain ⟨inner, written, hinner, rfl, hall⟩ := hwritten
      obtain ⟨block, hblock, hfrom⟩ := exists_image_of_forall₂ hall hd
      obtain ⟨d', es, hd', rfl⟩ := hfrom d rfl
      refine ⟨n, inner, d', es, hinner, hd', List.mem_filterMap.mpr ⟨.declaration d', ?_, rfl⟩⟩
      exact List.mem_flatten.mpr ⟨_, hblock, List.mem_singleton_self _⟩

end Transform

/-! ## Reading a declaration -/

theorem trimText_trimText (text : String) : trimText (trimText text) = trimText text := by
  rw [trimText, trimText, String.toList_ofList, Text.trim_trim]

/-- A declaration without a later one of its property is the one that is read. -/
theorem RuleSet.declaration?_of_last {r : RuleSet} {front back : List Declaration} {d : Declaration}
    (h : r.declarations = front ++ d :: back) (hlast : ∀ d' ∈ back, d'.property ≠ d.property) :
    r.declaration? d.property = some d := by
  have hback : back.reverse.find? (·.property == d.property) = none := by
    refine List.find?_eq_none.mpr fun d' hd' => ?_
    rw [beq_iff_eq]
    exact hlast d' (List.mem_reverse.mp hd')
  rw [declaration?, h, List.reverse_append, List.reverse_cons, List.append_assoc, List.find?_append,
    hback, Option.none_or, List.singleton_append, List.find?_cons_of_pos (by simp)]

/-- What an accessor makes of the values of a declaration: one value is given as it
    is, several are put together and trimmed. -/
def Expr.ofPieces (p : Option Position) : List Expr → Expr
  | [value] => value
  | values => .literal (trimText (textOfAll values)) p

theorem Expr.trimText_ofPieces (p : Option Position) (values : List Expr) :
    trimText (ofPieces p values).text = trimText (textOfAll values) := by
  rcases values with _ | ⟨value, _ | ⟨other, rest⟩⟩
  · exact trimText_trimText _
  · rw [ofPieces, textOfAll, textOfAll, String.append_empty]
  · exact trimText_trimText _

/-- **An accessor of a property whose values are evaluated gives their text**, in
    every scope in which the selector finds just that rule set. -/
theorem Expr.eval_access_of_values {n : Nat} {scope : Scope} {r : RuleSet} {d : Declaration}
    {name : String} (hf : scope.functions = .builtin) (htarget : scope.ruleSets s = [r])
    (hd : r.declaration? name = some d) (hvalues : AllValues n d.values) (p : Option Position) :
    ∃ v, (∀ m, n < m → eval m scope (.access s (.property name) p) = .done v)
      ∧ trimText v.text = trimText d.valueText := by
  refine ⟨ofPieces p (d.values.map compact), fun m hm => ?_, ?_⟩
  · obtain ⟨m, rfl⟩ := Nat.exists_eq_succ_of_ne_zero (Nat.ne_of_gt (Nat.zero_lt_of_lt hm))
    have hone : target scope s = .ok r := by rw [target, htarget]
    have hread : d.values.mapM (eval m (scope.child r.container)) =
        .done (d.values.map compact) := by
      refine Evaluation.mapM_of_forall₂ (List.forall₂_map_right_iff.mpr (List.forall₂_same.mpr ?_))
      exact fun v hv => eval_of_isValue ((hvalues v hv).mono (Nat.le_of_lt_succ hm)) hf
    rw [eval, hone]
    simp only [Evaluation.ofExcept, Evaluation.done_bind, hd, hread]
    rcases d.values.map compact with _ | ⟨value, _ | ⟨other, rest⟩⟩
    · rfl
    · rfl
    · rfl
  · rw [trimText_ofPieces, textOfAll_map_compact]
    rfl

/-! ## Behind a resolved rule set -/

/-- Only rule sets with the selector count. -/
theorem Container.ruleSets_eq_filter (c : Container) (s : Selector) :
    c.ruleSets s = (c.childRuleSets.filter (s ∈ ·.selectors)).flatMap
      fun r => List.replicate (r.selectors.count s) r := by
  rw [ruleSets]
  induction c.childRuleSets with
  | nil => rfl
  | cons r rs ih =>
      by_cases hs : s ∈ r.selectors
      · rw [List.filter_cons_of_pos (by simpa using hs), List.flatMap_cons, List.flatMap_cons, ih]
      · rw [List.filter_cons_of_neg (by simpa using hs), List.flatMap_cons, ih,
          List.count_eq_zero.mpr hs]
        rfl

namespace Transform

open Reporting

variable {n : Nat} {sheet result : Sheet} {before between after : List Element} {t x copy : RuleSet}

/-- A plain rule set becomes the only rule set with a selector of its own. -/
theorem becomes_of_unique (hbody : sheet.container.body = before ++ .ruleSet t :: after)
    (hrun : transformSheet n .builtin sheet = some (result, [])) (hplain : t.isMixin = false)
    (hs : s ∈ t.selectors)
    (hresult : result.container.childRuleSets.filter (s ∈ ·.selectors) = [copy]) :
    (∃ nested, Becomes n .builtin sheet before (.ruleSet t) (.ruleSet copy :: nested))
      ∧ copy.selectors = t.selectors ∧ AllValues n (Element.ruleSet copy).exprs := by
  obtain ⟨part, block, hpart, hblock, hsub⟩ := transformSheet_split_nil hbody hrun
  obtain ⟨m, copy', nested, rfl, hcopy, rfl, hselectors, -⟩ := block_of_plain hplain hblock
  have hmem : copy' ∈ result.container.childRuleSets.filter (s ∈ ·.selectors) := by
    refine List.mem_filter.mpr ⟨Container.mem_childRuleSets.mpr (hsub List.mem_cons_self), ?_⟩
    rw [hselectors]
    simpa using hs
  rw [hresult, List.mem_singleton] at hmem
  subst hmem
  exact ⟨⟨nested.map .ruleSet, part, [], [], hpart, hblock⟩, hselectors,
    fun v hv => (expand_yieldsValues m rfl hcopy v hv).mono (Nat.le_add_right m 2)⟩

/-- Behind it the selector finds just that one. -/
theorem ruleSets_behind_unique
    (hbody : sheet.container.body = before ++ .ruleSet x :: after)
    (hrun : transformSheet n .builtin sheet = some (result, [])) (ht : .ruleSet t ∈ before)
    (hs : s ∈ t.selectors) (honce : copy.selectors.count s = 1)
    (hresult : result.container.childRuleSets.filter (s ∈ ·.selectors) = [copy]) :
    ∃ part, resolvedPart n .builtin sheet before = some (part, [])
      ∧ (scopeBehind .builtin sheet part).ruleSets s = [copy] := by
  obtain ⟨part, first, block, second, rest, hpart, hfirst, -, -, hsplit⟩ :=
    transformSheet_split hbody hrun
  obtain rfl := List.subset_nil.mp hfirst
  have hne : part.ruleSets s ≠ [] := ruleSets_part_ne_nil hpart ht hs
  refine ⟨part, hpart, ?_⟩
  rw [ruleSets_scopeBehind, if_neg hne]
  -- what is found in the part comes first among what is found in the result
  have hprefix : part.childRuleSets.filter (s ∈ ·.selectors) <+: [copy] := by
    rw [← hresult, Container.childRuleSets, Container.childRuleSets, hsplit, List.append_assoc,
      List.filterMap_append, List.filter_append]
    exact List.prefix_append _ _
  rw [Container.ruleSets_eq_filter] at hne ⊢
  rcases List.prefix_cons_iff.mp hprefix with hnil | ⟨later, hfound, hlater⟩
  · rw [hnil] at hne
    exact absurd rfl hne
  · rw [hfound, List.prefix_nil.mp hlater, List.flatMap_singleton, honce]
    rfl

/-- A declaration that consists of one expression is written as its value. -/
theorem valueText_of_single {scope : Scope} {e v : Expr} {d d' : Declaration} {ds : List Error}
    (hd : d.values = [e])
    (heval : Expr.eval n scope e ≠ .exhausted → Expr.eval n scope e = .done v)
    (h : resolveDeclaration n scope d = some (d', ds)) :
    d'.property = d.property ∧ d'.valueText = v.text := by
  obtain ⟨values, rfl, hvalues⟩ := resolveDeclaration_eq_some h
  rw [hd] at hvalues
  obtain ⟨w, rest, ⟨es, hw, -⟩, hrest, rfl⟩ := List.forall₂_cons_left_iff.mp hvalues
  cases List.forall₂_nil_left_iff.mp hrest
  have hwv : w = v := by
    rcases resolve_eq_some hw with ⟨hdone, -⟩ | ⟨err, hfailed, -⟩
    · rw [hdone] at heval
      exact Evaluation.done.inj (heval (Evaluation.done_ne_exhausted w))
    · rw [hfailed] at heval
      cases heval (Evaluation.failed_ne_exhausted err)
  refine ⟨rfl, ?_⟩
  rw [Declaration.valueText, hwv, Expr.textOfAll, Expr.textOfAll, String.append_empty]

/-- A declaration that consists of one expression is written with its text, if the
    expression has one wherever its rule set is resolved. -/
theorem written_of_evaluated {part : Container}
    (hbody : sheet.container.body = before ++ .ruleSet x :: after)
    (hrun : transformSheet n .builtin sheet = some (result, []))
    (hpart : resolvedPart n .builtin sheet before = some (part, [])) (hplain : x.isMixin = false) :
    ∃ y ∈ result.container.childRuleSets, y.selectors = x.selectors
      ∧ ∀ d e text, .declaration d ∈ x.items → d.values = [e] →
        (∀ inner, EvaluatesIn (scopeBehind .builtin sheet part) x inner → ∃ v,
          (∀ m, Expr.eval m inner e ≠ .exhausted → Expr.eval m inner e = .done v)
            ∧ trimText v.text = text) →
          ∃ d' ∈ y.declarations, d'.property = d.property ∧ trimText d'.valueText = text := by
  obtain ⟨part', block, hpart', hblock, hsub⟩ := transformSheet_split_nil hbody hrun
  cases hpart.symm.trans hpart'
  obtain ⟨k, y, nested, -, hexpand, rfl, hselectors, -⟩ := block_of_plain hplain hblock
  refine ⟨y, Container.mem_childRuleSets.mpr (hsub List.mem_cons_self), hselectors, ?_⟩
  intro d e text hd hvalues hvalue
  obtain ⟨m, inner, d', es, hinner, hd', hmem⟩ := exists_resolved_declaration hexpand hd
  obtain ⟨v, heval, htext⟩ := hvalue inner hinner
  obtain ⟨hproperty, hwritten⟩ := valueText_of_single hvalues (heval m) hd'
  exact ⟨d', hmem, hproperty, by rw [hwritten, htext]⟩

/-- **AN ACCESSOR READS WHAT IS WRITTEN.**  Take a sheet that is resolved without
    diagnostics, with a plain rule set `t` that has the selector `s` once, where no
    other rule set has it at any depth, and where only one rule set of the result
    has it: then this is what `t` becomes.  Wherever expressions of a rule set `x`
    behind `t` are evaluated, `s[p]` gives one value, and its text is what is
    written for the last declaration of `p` in it, but for blanks around it.  So a
    declaration of `x` that consists of the accessor is written with that text. -/
theorem accessor_reads_written
    (hbody : sheet.container.body = before ++ .ruleSet t :: (between ++ .ruleSet x :: after))
    (hrun : transformSheet n .builtin sheet = some (result, [])) (hplain : t.isMixin = false)
    (honce : t.selectors.count s = 1)
    (hsource : sheet.container.allRuleSets.filter (s ∈ ·.selectors) = [t])
    (hresult : result.container.childRuleSets.filter (s ∈ ·.selectors) = [copy]) :
    (∃ nested, Becomes n .builtin sheet before (.ruleSet t) (.ruleSet copy :: nested))
      ∧ ∃ part, resolvedPart n .builtin sheet (before ++ .ruleSet t :: between) = some (part, [])
        ∧ ∀ front d back, copy.declarations = front ++ d :: back →
          (∀ d' ∈ back, d'.property ≠ d.property) →
          (∀ inner, EvaluatesIn (scopeBehind .builtin sheet part) x inner → ∀ p,
            let accessor : Expr := .access s (.property d.property) p
            ∃ v, (∀ m, n < m → Expr.eval m inner accessor = .done v)
              ∧ (∀ m, Expr.eval m inner accessor ≠ .exhausted →
                  Expr.eval m inner accessor = .done v)
              ∧ trimText v.text = trimText d.valueText)
          ∧ (x.isMixin = false → ∃ y ∈ result.container.childRuleSets, y.selectors = x.selectors
            ∧ ∀ dx p, .declaration dx ∈ x.items →
              dx.values = [.access s (.property d.property) p] →
                ∃ dy ∈ y.declarations, dy.property = dx.property
                  ∧ trimText dy.valueText = trimText d.valueText) := by
  have hs : s ∈ t.selectors := List.count_pos_iff.mp (by rw [honce]; exact Nat.one_pos)
  have hbody' : sheet.container.body =
      (before ++ .ruleSet t :: between) ++ .ruleSet x :: after := by
    rw [hbody, List.append_assoc, List.cons_append]
  obtain ⟨hbecomes, hselectors, hvalues⟩ := becomes_of_unique hbody hrun hplain hs hresult
  have ht : .ruleSet t ∈ before ++ .ruleSet t :: between :=
    List.mem_append_right _ List.mem_cons_self
  obtain ⟨part, hpart, hfound⟩ :=
    ruleSets_behind_unique hbody' hrun ht hs (hselectors ▸ honce) hresult
  refine ⟨hbecomes, part, hpart, fun front d back hd hlast => ?_⟩
  have hnone : sheet.container.NoneInside s :=
    Container.noneInside_of_unique hbody hs hsource
  have hscope : (scopeBehind .builtin sheet part).NoneInside s :=
    noneInside_scopeBehind hnone (fun e he => hbody' ▸ List.mem_append_left _ he) hpart
  have hx : x.container.Lacks s := by
    refine hnone x (Container.mem_childRuleSets.mpr ?_)
    rw [hbody']
    exact List.mem_append_right _ List.mem_cons_self
  have hmem : d ∈ copy.declarations := by
    rw [hd]
    exact List.mem_append_right _ List.mem_cons_self
  have hreads : ∀ inner, EvaluatesIn (scopeBehind .builtin sheet part) x inner → ∀ p,
      let accessor : Expr := .access s (.property d.property) p
      ∃ v, (∀ m, n < m → Expr.eval m inner accessor = .done v)
        ∧ (∀ m, Expr.eval m inner accessor ≠ .exhausted → Expr.eval m inner accessor = .done v)
        ∧ trimText v.text = trimText d.valueText := by
    intro inner hinner p accessor
    obtain ⟨hsame, hfunctions, -⟩ := ruleSets_of_evaluatesIn hinner hscope hx
    obtain ⟨v, heval, htext⟩ := Expr.eval_access_of_values hfunctions (hsame.trans hfound)
      (RuleSet.declaration?_of_last hd hlast)
      (fun v hv => hvalues v (mem_exprs_of_declaration hmem hv)) p
    refine ⟨v, heval, fun m hm => ?_, htext⟩
    -- a smaller bound that suffices gives the same
    have hlarge : Expr.eval (n + 1) inner accessor = .done v := heval (n + 1) (Nat.lt_succ_self n)
    rw [Expr.eval_agree hm (by rw [hlarge]; exact Evaluation.done_ne_exhausted v), hlarge]
  refine ⟨hreads, fun hxplain => ?_⟩
  obtain ⟨y, hy, hyselectors, hwritten⟩ := written_of_evaluated hbody' hrun hpart hxplain
  refine ⟨y, hy, hyselectors, fun dx p hdx haccessor => hwritten dx _ _ hdx haccessor ?_⟩
  intro inner hinner
  obtain ⟨v, -, heval, htext⟩ := hreads inner hinner p
  exact ⟨v, heval, htext⟩

/-- A rule set that takes a property from a mixin, read by one that hides the
    variable of that mixin. -/
theorem accessor_reads_written_from_mixin :
    let value (text : String) : Expr := .literal text none
    let definition : RuleSet :=
      { selectors := [⟨".m"⟩], params := some .empty, container := .empty, position := none
        items := [.declaration
          { property := "height", values := [.var "w" none, value " ", value "1"] }] }
    let t : RuleSet :=
      { selectors := [⟨".t"⟩], params := none, container := .empty, position := none
        items := [.declaration { property := "height", values := [value "0"] },
          .mixin { selector := ⟨".m"⟩, arguments := [] }] }
    let x : RuleSet :=
      { selectors := [⟨".x"⟩], params := none, position := none
        container := { vars := .ofList [("w", value "9")], body := [] }
        items := [.declaration { property := "width"
                                 values := [.access ⟨".t"⟩ (.property "height") none] }] }
    let sheet : Sheet :=
      { container := { vars := .ofList [("w", value "5")]
                       body := [.ruleSet definition, .ruleSet t, .ruleSet x] } }
    ∃ result part v, transformSheet 8 .builtin sheet = some (result, [])
      ∧ resolvedPart 8 .builtin sheet [.ruleSet definition, .ruleSet t] = some (part, [])
      ∧ Expr.eval 9 ((scopeBehind .builtin sheet part).child x.container)
          (.access ⟨".t"⟩ (.property "height") none) = .done v
      ∧ trimText v.text = "5 1" := by
  intro value definition t x sheet
  let first : Declaration := { property := "height", values := [value "0"] }
  let last : Declaration := { property := "height", values := [value "5", value " ", value "1"] }
  let copy : RuleSet := { t with items := [.declaration first, .declaration last] }
  let result : Sheet :=
    { container :=
        { vars := .ofList [("w", value "5")]
          body := [.ruleSet definition, .ruleSet copy,
            .ruleSet { x with items := [.declaration
              { property := "width", values := [value "5 1"] }] }] } }
  have hrun : transformSheet 8 .builtin sheet = some (result, []) := by rfl
  have hbody : sheet.container.body =
      [.ruleSet definition] ++ .ruleSet t :: ([] ++ .ruleSet x :: []) := rfl
  have hresult : result.container.childRuleSets.filter (⟨".t"⟩ ∈ ·.selectors) = [copy] := by rfl
  obtain ⟨-, part, hpart, hreads⟩ :=
    accessor_reads_written hbody hrun rfl (by decide) (by rfl) hresult
  obtain ⟨hvalue, -⟩ := hreads [first] last [] rfl fun d hd => absurd hd List.not_mem_nil
  obtain ⟨v, heval, -, htext⟩ := hvalue _ (.own _ x) none
  exact ⟨result, part, v, hrun, hpart, heval 9 (by decide), htext.trans (by decide +kernel)⟩

end Transform

end Less
