import Less.Proofs.AccessFree
import Less.Proofs.Contents
import Less.Proofs.Steps

/-! # What a mixin call can meet

    The invariant behind the termination of a resolution.  Relative to the
    selectors `called` that a sheet calls:

    * a rule set is **call-free** if neither it nor a rule set nested in it has a
      mixin call; flattening it follows its nesting;
    * it is **callable** if its calls are among `called` and the rule sets nested
      in it are call-free; expanding it pushes selectors of `called` only, and
      what comes out is call-free;
    * a scope is **tame** if every rule set that can be found in it is callable.

    All expressions concerned are free of accessors.  Instances of a mixin stay
    callable (`instantiate_callable`), and a container that takes over an
    expanded mixin still holds call-free rule sets only (`absorb_tame`). -/

namespace Less

/-- Neither the rule set nor a rule set nested in it has a call, and there are
    no accessors. -/
inductive RuleSet.CallFree : RuleSet → Prop where
  | intro {r : RuleSet} (exprs : ∀ e ∈ (Element.ruleSet r).exprs, e.isAccessFree = true)
      (items : ∀ item ∈ r.items, item.isMixin = false)
      (children : ∀ child ∈ r.container.childRuleSets, CallFree child) : CallFree r

/-- The variables of the container have no accessors, and its rule sets
    satisfy `P`. -/
structure Container.Tame (P : RuleSet → Prop) (c : Container) : Prop where
  values : ∀ v ∈ c.values, v.isAccessFree = true
  ruleSets : ∀ r ∈ c.childRuleSets, P r

/-- The rule set has no accessors, its calls are among the selectors, and the
    rule sets nested in it are call-free. -/
structure RuleSet.Callable (called : List Selector) (r : RuleSet) : Prop where
  exprs : ∀ e ∈ (Element.ruleSet r).exprs, e.isAccessFree = true
  calls : ∀ call, Item.mixin call ∈ r.items → call.selector ∈ called
  children : ∀ child ∈ r.container.childRuleSets, child.CallFree

/-- All rule sets that can be found in the scope are callable. -/
structure Scope.Tame (called : List Selector) (scope : Scope) : Prop where
  functions : scope.functions.AccessFree
  frames : ∀ frame ∈ scope.frames, frame.Tame (RuleSet.Callable called)

/-! ## Rule sets and containers -/

variable {called : List Selector}

theorem RuleSet.CallFree.callable {r : RuleSet} (h : r.CallFree) : r.Callable called := by
  obtain ⟨hexprs, hitems, hchildren⟩ := h
  exact ⟨hexprs, fun call hcall => (nomatch hitems _ hcall), hchildren⟩

theorem RuleSet.CallFree.exprs {r : RuleSet} (h : r.CallFree) :
    ∀ e ∈ (Element.ruleSet r).exprs, e.isAccessFree = true := by
  obtain ⟨hexprs, -, -⟩ := h
  exact hexprs

theorem RuleSet.CallFree.container {r : RuleSet} (h : r.CallFree) :
    r.container.Tame RuleSet.CallFree := by
  obtain ⟨hexprs, -, hchildren⟩ := h
  exact ⟨fun v hv => hexprs v (mem_ruleSet_exprs.mpr (Or.inr (Or.inr hv))), hchildren⟩

/-- Selectors do not matter. -/
theorem RuleSet.CallFree.withSelectors {r : RuleSet} (h : r.CallFree) (selectors : List Selector) :
    RuleSet.CallFree { r with selectors } := by
  obtain ⟨hexprs, hitems, hchildren⟩ := h
  exact ⟨hexprs, hitems, hchildren⟩

theorem RuleSet.Callable.values {r : RuleSet} (h : r.Callable called) :
    ∀ v ∈ r.container.values, v.isAccessFree = true :=
  fun v hv => h.exprs v (mem_ruleSet_exprs.mpr (Or.inr (Or.inr hv)))

theorem RuleSet.Callable.items {r : RuleSet} (h : r.Callable called) :
    ∀ item ∈ r.items, ∀ e ∈ item.exprs, e.isAccessFree = true :=
  fun item hitem e he => h.exprs e (mem_ruleSet_exprs.mpr (Or.inr (Or.inl ⟨item, hitem, he⟩)))

theorem RuleSet.Callable.container {r : RuleSet} (h : r.Callable called) :
    r.container.Tame RuleSet.CallFree :=
  ⟨h.values, h.children⟩

theorem Container.Tame.imp {P Q : RuleSet → Prop} {c : Container} (h : c.Tame P)
    (hPQ : ∀ r, P r → Q r) : c.Tame Q :=
  ⟨h.values, fun r hr => hPQ r (h.ruleSets r hr)⟩

theorem Container.Tame.callable {c : Container} (h : c.Tame RuleSet.CallFree) :
    c.Tame (RuleSet.Callable called) :=
  h.imp fun _ hr => hr.callable

theorem Container.tame_of_entries {P : RuleSet → Prop} {vars : Bindings Expr} {body : List Element}
    (hvars : ∀ entry ∈ vars.entries, entry.2.isAccessFree = true)
    (hbody : ∀ r, Element.ruleSet r ∈ body → P r) :
    Container.Tame P { vars, body } := by
  refine ⟨fun v hv => ?_, fun r hr => hbody r (Container.mem_childRuleSets.mp hr)⟩
  obtain ⟨entry, hentry, rfl⟩ := List.mem_map.mp hv
  exact hvars entry hentry

/-- Elements added to a tame container keep it tame if their rule sets do. -/
theorem Container.Tame.addAll {P : RuleSet → Prop} {c : Container} (h : c.Tame P)
    {es : List Element}
    (hes : ∀ r, Element.ruleSet r ∈ es → P r) : (c.addAll es).Tame P := by
  refine ⟨h.values, fun r hr => ?_⟩
  have hmem : Element.ruleSet r ∈ c.body ++ es := Container.mem_childRuleSets.mp hr
  rcases List.mem_append.mp hmem with hmem | hmem
  · exact h.ruleSets r (Container.mem_childRuleSets.mpr hmem)
  · exact hes r hmem

/-! ## Scopes -/

namespace Scope

variable {scope : Scope}

theorem Tame.accessFree (h : scope.Tame called) : scope.AccessFree :=
  fun frame hframe => (h.frames frame hframe).values

theorem Tame.child (h : scope.Tame called) {c : Container} (hc : c.Tame (RuleSet.Callable called)) :
    (scope.child c).Tame called := by
  refine ⟨h.functions, fun frame hframe => ?_⟩
  rcases List.mem_cons.mp hframe with rfl | hframe
  · exact hc
  · exact h.frames frame hframe

/-- A rule set that is found stands in one of the containers. -/
theorem exists_frame_of_mem_ruleSets {s : Selector} {r : RuleSet} (h : r ∈ scope.ruleSets s) :
    ∃ frame ∈ scope.frames, r ∈ frame.childRuleSets := by
  have hall : ∀ frames : List Container, r ∈ ruleSetsIn frames s →
      ∃ frame ∈ frames, r ∈ frame.childRuleSets := by
    intro frames
    induction frames with
    | nil => intro h; exact absurd h List.not_mem_nil
    | cons c outer ih =>
        intro h
        rw [ruleSetsIn] at h
        split at h
        · obtain ⟨frame, hframe, hr⟩ := ih h
          exact ⟨frame, List.mem_cons_of_mem c hframe, hr⟩
        · obtain ⟨r', hr', hr⟩ := List.mem_flatMap.mp h
          rw [List.eq_of_mem_replicate hr]
          exact ⟨c, List.mem_cons_self, hr'⟩
  exact hall scope.frames h

theorem Tame.callable_of_mem_ruleSets (h : scope.Tame called) {s : Selector} {r : RuleSet}
    (hr : r ∈ scope.ruleSets s) : r.Callable called := by
  obtain ⟨frame, hframe, hr⟩ := exists_frame_of_mem_ruleSets hr
  exact (h.frames frame hframe).ruleSets r hr

end Scope

/-! ## Calls -/

namespace Transform

/-- The values of a container with a variable set are its own and the new one. -/
theorem mem_values_setVariable {c : Container} {name : String} {value v : Expr}
    (h : v ∈ (c.setVariable name value).values) : v = value ∨ v ∈ c.values := by
  obtain ⟨entry, hentry, rfl⟩ := List.mem_map.mp h
  rcases Bindings.mem_setEntry hentry with rfl | hentry
  · exact Or.inl rfl
  · exact Or.inr (List.mem_map_of_mem hentry)

/-- A parameter is set to an argument or to a default. -/
theorem mem_values_bindParameters : ∀ {params : List (String × Option Expr)} {arguments : List Expr}
    {c : Container} {v : Expr}, v ∈ (bindParameters params arguments c).values →
    v ∈ c.values ∨ v ∈ arguments ∨ v ∈ params.filterMap Prod.snd := by
  intro params
  induction params with
  | nil => intro arguments c v h; exact Or.inl h
  | cons param params ih =>
      intro arguments c v h
      obtain ⟨name, default⟩ := param
      have hlater : ∀ {x}, x ∈ params.filterMap Prod.snd →
          x ∈ ((name, default) :: params).filterMap Prod.snd := by
        intro x hx
        obtain ⟨param, hparam, hx⟩ := List.mem_filterMap.mp hx
        exact List.mem_filterMap.mpr ⟨param, List.mem_cons_of_mem _ hparam, hx⟩
      rw [bindParameters] at h
      split at h
      · rename_i value hvalue
        rcases ih h with hv | hv | hv
        · rcases mem_values_setVariable hv with rfl | hv
          · -- the value that is set here
            rcases Option.or_eq_some_iff.mp hvalue with hhead | ⟨-, hdefault⟩
            · exact Or.inr (Or.inl (List.mem_of_mem_head? hhead))
            · exact Or.inr (Or.inr (List.mem_filterMap.mpr
                ⟨(name, default), List.mem_cons_self, hdefault⟩))
          · exact Or.inl hv
        · exact Or.inr (Or.inl (List.mem_of_mem_tail hv))
        · exact Or.inr (Or.inr (hlater hv))
      · rcases ih h with hv | hv | hv
        · exact Or.inl hv
        · exact Or.inr (Or.inl (List.mem_of_mem_tail hv))
        · exact Or.inr (Or.inr (hlater hv))

theorem bindParameters_body (params : List (String × Option Expr)) (arguments : List Expr)
    (c : Container) :
    (bindParameters params arguments c).body = c.body := by
  induction params generalizing arguments c with
  | nil => rfl
  | cons param params ih =>
      obtain ⟨name, default⟩ := param
      rw [bindParameters]
      split
      · rw [ih]
        rfl
      · exact ih _ _

/-- **A mixin stays callable with its parameters set.** -/
theorem instantiate_callable {mixin : RuleSet} {arguments : List Expr} (h : mixin.Callable called)
    (harguments : ∀ a ∈ arguments, a.isAccessFree = true) :
    (instantiate mixin arguments).Callable called := by
  rw [instantiate]
  split
  · rename_i params hparams
    have hdefaults : mixin.defaults = params.entries.filterMap Prod.snd := by
      rw [RuleSet.defaults, hparams]
    refine ⟨fun e he => ?_, h.calls, fun child hchild => ?_⟩
    · -- the copy has no parameters left: their defaults may be variables now
      rcases mem_ruleSet_exprs.mp he with he | ⟨item, hitem, he⟩ | he
      · exact absurd he List.not_mem_nil
      · exact h.items item hitem e he
      · rcases mem_values_bindParameters he with he | he | he
        · exact h.values e he
        · exact harguments e he
        · exact h.exprs e (mem_ruleSet_exprs.mpr (Or.inl (hdefaults ▸ he)))
    · refine h.children child (Container.mem_childRuleSets.mpr ?_)
      rw [← bindParameters_body params.entries arguments mixin.container]
      exact Container.mem_childRuleSets.mp hchild
  · exact h

/-- **A container that takes over an expanded mixin stays call-free.** -/
theorem absorb_tame {dest : Container} {expanded : RuleSet} (hdest : dest.Tame RuleSet.CallFree)
    (hexpanded : expanded.CallFree) : (absorb dest expanded).Tame RuleSet.CallFree := by
  have hvars : (dest.setVariables expanded.container.vars.entries).Tame RuleSet.CallFree := by
    refine ⟨fun v hv => ?_, hdest.ruleSets⟩
    rcases mem_values_absorb hv with hv | hv
    · exact hdest.values v hv
    · exact hexpanded.container.values v hv
  refine hvars.addAll fun r hr => ?_
  obtain ⟨child, hchild, heq⟩ := List.mem_map.mp hr
  cases heq
  exact hexpanded.container.ruleSets _ hchild

end Transform

/-! ## Sheets -/

/-- The element has no accessors of its own, and whatever it calls or holds is
    callable. -/
def Element.Tame (called : List Selector) : Element → Prop
  | ruleSet r => r.Callable called
  | page p => (∀ e ∈ (Element.page p).exprs, e.isAccessFree = true) ∧
      (∀ call, Item.mixin call ∈ p.items → call.selector ∈ called) ∧
      p.container.Tame (RuleSet.Callable called)
  | media m => ∀ v ∈ m.container.values, v.isAccessFree = true
  | keyframes k => ∀ v ∈ k.container.values, v.isAccessFree = true

namespace Container

variable {c : Container}

theorem mem_exprs_of_mem_elements {e : Element} (he : e ∈ c.elements) {x : Expr}
    (hx : x ∈ e.exprs) :
    x ∈ c.exprs :=
  List.mem_append_right _ (List.mem_flatMap.mpr ⟨e, he, hx⟩)

theorem mem_calledSelectors {e : Element} (he : e ∈ c.elements) {call : MixinCall}
    (hcall : Item.mixin call ∈ e.items) : call.selector ∈ c.calledSelectors :=
  List.mem_flatMap.mpr ⟨e, he, List.mem_filterMap.mpr ⟨.mixin call, hcall, rfl⟩⟩

/-- A rule set nested in another one is call-free if no rule set nested in
    that one has a call. -/
theorem callFree_of_nested (hexprs : ∀ e ∈ c.exprs, e.isAccessFree = true) {r : RuleSet}
    (hr : Element.ruleSet r ∈ c.elements)
    (hnested : ∀ inner ∈ r.container.allRuleSets, ∀ item ∈ inner.items, item.isMixin = false) :
    ∀ {inner : RuleSet}, Element.ruleSet inner ∈ r.container.elements → inner.CallFree := by
  have hall : ∀ e : Element, e ∈ r.container.elements →
      ∀ inner, e = .ruleSet inner → inner.CallFree := by
    intro e
    -- along the nesting of elements inside `r`
    induction e using Element.induction with
    | step e ih =>
        rintro he inner rfl
        refine ⟨fun x hx => ?_, hnested inner (mem_allRuleSets.mpr he), fun child hchild => ?_⟩
        · exact hexprs x (mem_exprs_of_mem_elements (elements_subset hr he) hx)
        · have hmem := mem_childRuleSets.mp hchild
          exact ih _ hmem (elements_subset he (mem_elements_of_mem hmem)) child rfl
  exact fun {inner} h => hall (.ruleSet inner) h inner rfl

/-- **All elements of a sheet without accessors are tame**, if no rule set nested
    in another one has a call. -/
theorem tame_of_mem_elements (hexprs : ∀ e ∈ c.exprs, e.isAccessFree = true)
    (hnested : ∀ r ∈ c.allRuleSets, ∀ inner ∈ r.container.allRuleSets,
      ∀ item ∈ inner.items, item.isMixin = false) :
    ∀ e ∈ c.elements, e.Tame c.calledSelectors := by
  intro e he
  have hown : ∀ x ∈ e.exprs, x.isAccessFree = true :=
    fun x hx => hexprs x (mem_exprs_of_mem_elements he hx)
  have hcallable : ∀ r, Element.ruleSet r ∈ c.elements → r.Callable c.calledSelectors := by
    intro r hr
    refine ⟨fun x hx => hexprs x (mem_exprs_of_mem_elements hr hx),
      fun call hcall => mem_calledSelectors hr hcall, fun child hchild => ?_⟩
    exact callFree_of_nested hexprs hr (hnested r (mem_allRuleSets.mpr hr))
      (mem_elements_of_mem (mem_childRuleSets.mp hchild))
  cases e with
  | ruleSet r => exact hcallable r he
  | page p =>
      refine ⟨hown, fun call hcall => mem_calledSelectors he hcall,
        fun v hv => hown v (mem_exprs_of_value hv), ?_⟩
      exact fun r hr =>
        hcallable r (elements_subset he (mem_elements_of_mem (mem_childRuleSets.mp hr)))
  | media m => exact fun v hv => hown v (mem_exprs_of_value hv)
  | keyframes k => exact fun v hv => hown v (mem_exprs_of_value hv)

end Container

end Less
