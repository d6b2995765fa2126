import Less.Proofs.MixinStack
import Less.Proofs.Tame

/-! # Resolution ends

    A resolution of a sheet without accessors ends whatever its mixins call, as
    long as no rule set nested in another one has a call.

    An expansion pushes a selector that the sheet calls and that is not on the
    stack, so that fewer are left for the expansions inside it
    (`expand_converges`).  What it gives has no calls, so that flattening, which
    starts again from an empty stack, follows the nesting of rule sets
    (`transformRuleSet_converges_of_callFree`).  With calls in nested rule sets
    this last step fails: they would be expanded again with nothing on the
    stack.

    `Converges called active x P` says all of this about one computation on a
    stack: from some bound on, started on `active`, it gives one result with
    `P`, leaves `active` behind, and has met called selectors only. -/

namespace Less

namespace Stacked

variable {α β : Type} {called active : List Selector}

/-- From some bound on there is a result, always the same one, with `P`; the
    stack is as before, and no stack on the way held other selectors. -/
def Converges (called active : List Selector) (x : Nat → Stacked α) (P : α → Prop) : Prop :=
  ∀ seen, (∀ s ∈ seen, s ⊆ called) →
    Reporting.Converges (fun n => x n ⟨active, seen⟩) fun result =>
      P result.1 ∧ result.2.active = active ∧ ∀ s ∈ result.2.seen, s ⊆ called

variable {x : Nat → Stacked α} {P : α → Prop} {Q : β → Prop}

theorem Converges.lift {y : Nat → Reporting α} (h : Reporting.Converges y P) :
    Converges called active (fun n => lift (y n)) P :=
  fun _ hseen => h.bind fun _ ha => .pure ⟨ha, rfl, hseen⟩

theorem Converges.pure {a : α} (ha : P a) : Converges called active (fun _ => pure a) P :=
  fun _ hseen => .pure ⟨ha, rfl, hseen⟩

theorem Converges.of_succ (h : Converges called active (fun n => x (n + 1)) P) :
    Converges called active x P :=
  fun seen hseen => Reporting.Converges.of_succ (h seen hseen)

theorem Converges.bind {f : Nat → α → Stacked β} (hx : Converges called active x P)
    (hf : ∀ a, P a → Converges called active (fun n => f n a) Q) :
    Converges called active (fun n => x n >>= f n) Q := by
  intro seen hseen
  refine (hx seen hseen).bind fun result hresult => ?_
  obtain ⟨a, active', mid⟩ := result
  obtain ⟨ha, rfl, hmid⟩ := hresult
  exact hf a ha mid hmid

theorem Converges.imp {P Q : α → Prop} (hx : Converges called active x P) (h : ∀ a, P a → Q a) :
    Converges called active x Q :=
  fun seen hseen => (hx seen hseen).imp fun _ hresult => ⟨h _ hresult.1, hresult.2⟩

theorem Converges.mapM {f : Nat → α → Stacked β} {as : List α}
    (h : ∀ a ∈ as, Converges called active (fun n => f n a) Q) :
    Converges called active (fun n => as.mapM (f n)) fun bs => ∀ b ∈ bs, Q b := by
  induction as with
  | nil => exact .pure fun b hb => absurd hb List.not_mem_nil
  | cons a as ih =>
      simp only [List.mapM_cons]
      refine (h a List.mem_cons_self).bind fun b hb => ?_
      refine (ih fun a' ha' => h a' (List.mem_cons_of_mem a ha')).bind fun bs hbs => ?_
      exact .pure (List.forall_mem_cons.mpr ⟨hb, hbs⟩)

theorem Converges.active_bind {f : Nat → List Selector → Stacked α}
    (h : Converges called active (fun n => f n active) P) :
    Converges called active (fun n => Stacked.active >>= f n) P := by
  intro seen hseen
  simp only [active_bind_run]
  exact h seen hseen

/-- A called selector may be pushed. -/
theorem Converges.within {s : Selector} (hs : s ∈ called) (hactive : active ⊆ called)
    (h : Converges called (s :: active) x P) :
    Converges called active (fun n => within s (x n)) P := by
  intro seen hseen
  have hpush : ∀ t ∈ (s :: active) :: seen, t ⊆ called :=
    List.forall_mem_cons.mpr ⟨List.cons_subset.mpr ⟨hs, hactive⟩, hseen⟩
  simp only [within_run]
  refine (h _ hpush).bind fun result hresult => .pure ?_
  obtain ⟨a, active', seen'⟩ := result
  obtain ⟨ha, rfl, hseen'⟩ := hresult
  exact ⟨ha, rfl, List.forall_mem_cons.mpr ⟨hactive, hseen'⟩⟩

/-! ## Calls -/

variable {scope : Scope} {source dest : Container}

/-- A call without accessors fails or selects a mixin; then its selector is not
    on the stack and the copy of the mixin is callable. -/
theorem prepareCall_converges (hscope : scope.Tame called)
    (hsource : source.Tame (RuleSet.Callable called))
    (hdest : dest.Tame (RuleSet.Callable called)) {call : MixinCall}
    (harguments : ∀ a ∈ call.arguments, a.isAccessFree = true) :
    Reporting.Converges (fun n => Transform.prepareCall n active scope source dest call)
      fun result =>
        ∀ mixin, result = some mixin → call.selector ∉ active ∧ mixin.Callable called := by
  have hlookup := hscope.child hsource
  have hcaller := hscope.child hdest
  simp only [Transform.prepareCall]
  -- the selector is on the stack, or has no rule set, or there are too many arguments
  split
  · exact .of_some (fun _ => rfl) (by rintro _ ⟨⟩)
  · rename_i hfree
    split
    · exact .of_some (fun _ => rfl) (by rintro _ ⟨⟩)
    · rename_i mixin hmixin
      split
      · exact .of_some (fun _ => rfl) (by rintro _ ⟨⟩)
      · have hattempt := Transform.attempt_converges hcaller.functions hcaller.accessFree harguments
        refine hattempt.bind fun result hresult => ?_
        cases result with
        | error e => exact .of_some (fun _ => rfl) (by rintro _ ⟨⟩)
        | ok arguments =>
            refine .pure ?_
            rintro _ ⟨⟩
            have hcallable := hlookup.callable_of_mem_ruleSets (Transform.mem_of_selectMixin hmixin)
            exact ⟨fun hmem => hfree (List.contains_iff_mem.mpr hmem),
              Transform.instantiate_callable hcallable (hresult arguments rfl)⟩

/-- The expander ends on callable rule sets with any further called selector
    on the stack, and gives call-free ones. -/
def ExpandsBeyond (called active : List Selector)
    (expander : Nat → Scope → RuleSet → Stacked RuleSet) : Prop :=
  ∀ {s : Selector} {scope : Scope} {r : RuleSet}, s ∈ called → s ∉ active → scope.Tame called →
    r.Callable called →
      Converges called (s :: active) (fun n => expander n scope r) RuleSet.CallFree

variable {expander : Nat → Scope → RuleSet → Stacked RuleSet}

theorem expandCall_converges (hexpand : ExpandsBeyond called active expander)
    (hactive : active ⊆ called) (hscope : scope.Tame called)
    (hsource : source.Tame (RuleSet.Callable called))
    (hdest : dest.Tame RuleSet.CallFree) {call : MixinCall} (hcall : call.selector ∈ called)
    (harguments : ∀ a ∈ call.arguments, a.isAccessFree = true) :
    Converges called active (fun n => expandCall n (expander n) scope source dest call)
      fun result => ∀ expanded, result = some expanded → expanded.CallFree := by
  refine Converges.active_bind ?_
  refine (Converges.lift (prepareCall_converges hscope hsource hdest.callable harguments)).bind
    fun copy hcopy => ?_
  cases copy with
  | none => exact .pure (by rintro _ ⟨⟩)
  | some mixin =>
      obtain ⟨hfree, hmixin⟩ := hcopy mixin rfl
      simp only [map_eq_pure_bind]
      have hinner := hexpand hcall hfree (hscope.child hdest.callable) hmixin
      refine (Converges.within hcall hactive hinner).bind fun expanded hexpanded => .pure ?_
      rintro _ ⟨⟩
      exact hexpanded

/-! ## Items -/

/-- The values of a declaration that waits. -/
def pendingValues : Transform.Pending → List Expr
  | .source d | .resolved d => d.values

/-- The item is a declaration without accessors. -/
def PlainItem (item : Item) : Prop :=
  item.isMixin = false ∧ ∀ e ∈ item.exprs, e.isAccessFree = true

theorem gather_converges {call : Nat → Container → MixinCall → Stacked (Option RuleSet)}
    {items : List Item}
    (hcall : ∀ c, Item.mixin c ∈ items → ∀ {dest : Container}, dest.Tame RuleSet.CallFree →
      Converges called active (fun n => call n dest c) fun result =>
        ∀ expanded, result = some expanded → expanded.CallFree)
    (hitems : ∀ item ∈ items, ∀ e ∈ item.exprs, e.isAccessFree = true)
    (hdest : dest.Tame RuleSet.CallFree) :
    Converges called active (fun n => gather (call n) items dest) fun result =>
      (∀ p ∈ result.1, ∀ v ∈ pendingValues p, v.isAccessFree = true)
        ∧ result.2.Tame RuleSet.CallFree := by
  induction items generalizing dest with
  | nil => exact .pure ⟨fun p hp => absurd hp List.not_mem_nil, hdest⟩
  | cons item items ih =>
      have hlater : ∀ {dest : Container}, dest.Tame RuleSet.CallFree → _ := fun {dest} hdest =>
        ih (fun c hc => hcall c (List.mem_cons_of_mem item hc))
          (fun item' hitem' => hitems item' (List.mem_cons_of_mem item hitem')) hdest
      cases item with
      | declaration d =>
          refine (hlater hdest).bind fun result hresult => .pure ⟨fun p hp => ?_, hresult.2⟩
          rcases List.mem_cons.mp hp with rfl | hp
          · exact hitems (.declaration d) List.mem_cons_self
          · exact hresult.1 p hp
      | mixin c =>
          refine (hcall c List.mem_cons_self hdest).bind fun outcome houtcome => ?_
          cases outcome with
          | none => exact hlater hdest
          | some expanded =>
              have hexpanded := houtcome expanded rfl
              refine (hlater (Transform.absorb_tame hdest hexpanded)).bind fun result hresult => ?_
              refine .pure ⟨fun p hp => ?_, hresult.2⟩
              rcases List.mem_append.mp hp with hp | hp
              · obtain ⟨d, hd, rfl⟩ := List.mem_map.mp hp
                exact fun v hv => hexpanded.exprs v (mem_exprs_of_declaration hd hv)
              · exact hresult.1 p hp

theorem settle_converges (hscope : scope.Tame called) {p : Transform.Pending}
    (hp : ∀ v ∈ pendingValues p, v.isAccessFree = true) :
    Reporting.Converges (fun n => Transform.settle n scope p) PlainItem := by
  cases p with
  | source d =>
      exact (Transform.resolveDeclaration_converges hscope.functions hscope.accessFree hp).map
        fun result hresult => ⟨rfl, hresult⟩
  | resolved d => exact .pure ⟨rfl, hp⟩

/-- Items are resolved into declarations; without calls, the container stays as
    it is. -/
theorem resolveItems_converges (hexpand : ExpandsBeyond called active expander)
    (hactive : active ⊆ called) (hscope : scope.Tame called)
    (hsource : source.Tame (RuleSet.Callable called))
    (hdest : dest.Tame RuleSet.CallFree) {items : List Item}
    (hcalls : ∀ call, Item.mixin call ∈ items → call.selector ∈ called)
    (hitems : ∀ item ∈ items, ∀ e ∈ item.exprs, e.isAccessFree = true) :
    Converges called active (fun n => resolveItems n (expander n) scope items source dest)
      fun result => (∀ item ∈ result.1, PlainItem item) ∧ result.2.Tame RuleSet.CallFree ∧
        ((∀ item ∈ items, item.isMixin = false) → result.2 = dest) := by
  simp only [resolveItems]
  split
  · rename_i hany
    refine (gather_converges (fun c hc dest hdest => ?_) hitems hdest).bind
      fun gathered hgathered => ?_
    · exact expandCall_converges hexpand hactive hscope hsource hdest (hcalls c hc)
        (hitems (.mixin c) hc)
    have hsettle : Reporting.Converges
        (fun n => gathered.1.mapM (Transform.settle n (scope.child gathered.2)))
        fun resolved => ∀ item ∈ resolved, PlainItem item :=
      Reporting.Converges.mapM fun p hp =>
        settle_converges (hscope.child hgathered.2.callable) (hgathered.1 p hp)
    refine (Converges.lift hsettle).bind fun resolved hresolved => ?_
    refine .pure ⟨hresolved, hgathered.2, fun hnone => ?_⟩
    obtain ⟨item, hitem, hmixin⟩ := List.any_eq_true.mp hany
    rw [hnone item hitem] at hmixin
    cases hmixin
  · have hinner := hscope.child hsource
    have hresolve : Reporting.Converges (fun n => (items.filterMap Item.declaration?).mapM fun d =>
        Item.declaration <$> Transform.resolveDeclaration n (scope.child source) d)
        fun resolved => ∀ item ∈ resolved, PlainItem item := by
      refine Reporting.Converges.mapM fun d hd => ?_
      obtain ⟨item, hitem, hd⟩ := List.mem_filterMap.mp hd
      cases item with
      | mixin c => cases hd
      | declaration d' =>
          cases hd
          exact (Transform.resolveDeclaration_converges hinner.functions hinner.accessFree
            (hitems _ hitem)).map fun result hresult => ⟨rfl, hresult⟩
    exact (Converges.lift hresolve).bind fun resolved hresolved =>
      .pure ⟨hresolved, hdest, fun _ => rfl⟩

/-! ## Expansion -/

/-- What is put together from resolved items and a call-free container. -/
theorem callFree_of_plain {selectors : List Selector} {items : List Item} {c : Container}
    {p : Option Position}
    (hitems : ∀ item ∈ items, PlainItem item) (hc : c.Tame RuleSet.CallFree) :
    RuleSet.CallFree { selectors, params := none, items, container := c, position := p } := by
  refine ⟨fun e he => ?_, fun item hitem => (hitems item hitem).1, hc.ruleSets⟩
  rcases mem_ruleSet_exprs.mp he with he | ⟨item, hitem, he⟩ | he
  · exact absurd he List.not_mem_nil
  · exact (hitems item hitem).2 e he
  · exact hc.values e he

/-- **EXPANSION ENDS.**  A callable rule set is expanded into a call-free one; a
    call-free one keeps the rule sets nested in it. -/
theorem expand_converges (hscope : scope.Tame called) {r : RuleSet} (hr : r.Callable called)
    (hactive : active ⊆ called) :
    Converges called active (fun n => expand n scope r) fun result => result.CallFree ∧
      ((∀ item ∈ r.items, item.isMixin = false) →
        result.container.childRuleSets = r.container.childRuleSets) := by
  -- every call leaves fewer selectors that are not on the stack
  induction hleft : (called.toFinset \ active.toFinset).card using Nat.strong_induction_on
    generalizing active scope r with
  | _ left ih =>
      have hexpand : ExpandsBeyond called active expand := by
        intro s inner r' hs hfree hinner hr'
        have hlt : (called.toFinset \ (s :: active).toFinset).card < left := by
          rw [← hleft]
          exact card_sdiff_cons_lt hs hfree
        exact (ih _ hlt hinner hr' (List.cons_subset.mpr ⟨hs, hactive⟩) rfl).imp fun _ h => h.1
      refine Converges.of_succ ?_
      have hvars := Transform.resolveVariables_converges hscope.functions hscope.accessFree
        hr.values
      refine (Converges.lift hvars).bind fun vars hvars => ?_
      have hdest : Container.Tame RuleSet.CallFree { vars, body := r.container.body } :=
        Container.tame_of_entries hvars fun child hchild =>
          hr.children child (Container.mem_childRuleSets.mpr hchild)
      have hitems := resolveItems_converges hexpand hactive hscope hr.container.callable hdest
        hr.calls hr.items
      refine hitems.bind fun result hresult =>
        .pure ⟨callFree_of_plain hresult.1 hresult.2.1, fun hnone => ?_⟩
      rw [hresult.2.2 hnone]
      rfl

/-! ## Rule sets -/

/-- Flattening ends if it does on the nested rule sets. -/
theorem flatten_converges {transform : Nat → Scope → RuleSet → Stacked (List RuleSet)}
    {dest : RuleSet}
    (htransform : ∀ child ∈ dest.container.childRuleSets,
      Converges called active (fun n => transform n (scope.child dest.container) child)
        fun rs => ∀ r ∈ rs, r.CallFree) :
    Converges called active (fun n => flatten (transform n) scope dest)
      fun rs => ∀ r ∈ rs, r.CallFree := by
  refine (Converges.mapM fun child hchild => htransform child (List.mem_of_mem_filter hchild)).bind
    fun produced hproduced => .pure fun r hr => ?_
  obtain ⟨r', hr', rfl⟩ := List.mem_map.mp hr
  obtain ⟨rs, hrs, hr'⟩ := List.mem_flatten.mp hr'
  exact (hproduced rs hrs r' hr').withSelectors _

/-- **Call-free rule sets are flattened along their nesting.** -/
theorem transformRuleSet_converges_of_callFree {r : RuleSet} (hr : r.CallFree)
    (hscope : scope.Tame called) :
    Converges called [] (fun n => transformRuleSet n scope r) fun rs => ∀ r ∈ rs, r.CallFree := by
  induction hr generalizing scope with
  | @intro r hexprs hitems hchildren ih =>
      have hr : r.CallFree := ⟨hexprs, hitems, hchildren⟩
      refine Converges.of_succ ?_
      simp only [transformRuleSet]
      split
      · exact .pure fun r' hr' => List.mem_singleton.mp hr' ▸ hr
      · refine (expand_converges hscope hr.callable (List.nil_subset _)).bind fun dest hdest => ?_
        -- the expansion has no other rule sets nested in it
        have hnested : ∀ child ∈ dest.container.childRuleSets,
            Converges called [] (fun n => transformRuleSet n (scope.child dest.container) child)
              fun rs => ∀ r ∈ rs, r.CallFree := by
          intro child hchild
          rw [hdest.2 hitems] at hchild
          exact ih child hchild (hscope.child hdest.1.container.callable)
        refine (flatten_converges hnested).bind fun nested hnested => .pure fun r' hr' => ?_
        rcases List.mem_cons.mp hr' with rfl | hr'
        · exact hdest.1
        · exact hnested r' hr'

theorem transformRuleSet_converges {r : RuleSet} (hr : r.Callable called)
    (hscope : scope.Tame called) :
    Converges called [] (fun n => transformRuleSet n scope r)
      fun rs => ∀ r ∈ rs, r.Callable called := by
  refine Converges.of_succ ?_
  simp only [transformRuleSet]
  split
  · exact .pure fun r' hr' => List.mem_singleton.mp hr' ▸ hr
  · refine (expand_converges hscope hr (List.nil_subset _)).bind fun dest hdest => ?_
    have hinner := hscope.child hdest.1.container.callable
    refine (flatten_converges fun child hchild => transformRuleSet_converges_of_callFree
      (hdest.1.container.ruleSets child hchild) hinner).bind
        fun nested hnested => .pure fun r' hr' => ?_
    rcases List.mem_cons.mp hr' with rfl | hr'
    · exact hdest.1.callable
    · exact (hnested r' hr').callable

/-! ## Elements -/

/-- The elements of a block are resolved one after the other into a container
    that stays tame. -/
theorem transformBody_converges {transform : Nat → Scope → Element → Stacked (List Element)}
    {parent : Scope}
    (hparent : parent.Tame called) {es : List Element}
    (htransform : ∀ e ∈ es, ∀ {scope : Scope}, scope.Tame called →
      Converges called [] (fun n => transform n scope e) fun produced =>
        ∀ r, Element.ruleSet r ∈ produced → r.Callable called)
    (hdest : dest.Tame (RuleSet.Callable called)) :
    Converges called [] (fun n => transformBody (transform n) parent es dest) fun _ => True := by
  induction es generalizing dest with
  | nil => exact .pure trivial
  | cons e es ih =>
      refine (htransform e List.mem_cons_self (hparent.child hdest)).bind
        fun produced hproduced => ?_
      exact ih (fun e' he' => htransform e' (List.mem_cons_of_mem e he')) (hdest.addAll hproduced)

theorem transformContainer_converges {transform : Nat → Scope → Element → Stacked (List Element)}
    {parent : Scope} (hscope : scope.Tame called) (hparent : parent.Tame called) {c : Container}
    (hc : ∀ v ∈ c.values, v.isAccessFree = true)
    (htransform : ∀ e ∈ c.body, ∀ {scope : Scope}, scope.Tame called →
      Converges called [] (fun n => transform n scope e) fun produced =>
        ∀ r, Element.ruleSet r ∈ produced → r.Callable called) :
    Converges called [] (fun n => transformContainer n (transform n) scope parent c)
      fun _ => True := by
  have hvars := Transform.resolveVariables_converges hscope.functions hscope.accessFree hc
  refine (Converges.lift hvars).bind fun vars hvars => transformBody_converges hparent htransform ?_
  exact Container.tame_of_entries hvars fun r hr => absurd hr List.not_mem_nil

theorem transformPage_converges (hscope : scope.Tame called) {p : Page}
    (hp : (Element.page p).Tame called) :
    Converges called [] (fun n => transformPage n scope p) fun _ => True := by
  obtain ⟨hexprs, hcalls, hcontainer⟩ := hp
  have hvars := Transform.resolveVariables_converges hscope.functions hscope.accessFree
    hcontainer.values
  refine (Converges.lift hvars).bind fun vars hvars => ?_
  have hdest : Container.Tame RuleSet.CallFree { vars, body := [] } :=
    Container.tame_of_entries hvars fun r hr => absurd hr List.not_mem_nil
  have hexpand : ExpandsBeyond called [] expand := fun hs _ hinner hr =>
    (expand_converges hinner hr (List.cons_subset.mpr ⟨hs, List.nil_subset _⟩)).imp fun _ h => h.1
  have hitems : ∀ item ∈ p.items, ∀ e ∈ item.exprs, e.isAccessFree = true := fun item hitem e he =>
    hexprs e (List.mem_append_left _ (List.mem_append_right _
      (List.mem_flatMap.mpr ⟨item, hitem, he⟩)))
  have hresolve := resolveItems_converges hexpand (List.nil_subset _) hscope hcontainer hdest
    hcalls hitems
  exact hresolve.bind fun result _ => .pure trivial

/-- **EVERY ELEMENT IS RESOLVED**, in every tame scope, if the elements inside
    it are tame. -/
theorem transformElement_converges (e : Element) (he : ∀ o ∈ e.tree fun _ => true, o.Tame called) :
    ∀ {scope : Scope}, scope.Tame called → Converges called [] (fun n => transformElement n scope e)
      fun produced => ∀ r, Element.ruleSet r ∈ produced → r.Callable called := by
  induction e using Element.induction with
  | step e ih =>
      intro scope hscope
      have hself : e.Tame called := he e (Element.mem_tree.mpr (Or.inl rfl))
      have hinner : ∀ o ∈ e.container.body, ∀ {scope : Scope}, scope.Tame called →
          Converges called [] (fun n => transformElement n scope o) fun produced =>
            ∀ r, Element.ruleSet r ∈ produced → r.Callable called := by
        intro o ho
        refine ih o ho fun x hx => he x (Element.mem_tree.mpr (Or.inr ⟨rfl, ?_⟩))
        exact Container.mem_tree.mpr ⟨o, ho, hx⟩
      refine Converges.of_succ ?_
      cases e with
      | ruleSet r =>
          refine (transformRuleSet_converges hself hscope).bind fun rs hrs => .pure fun r' hr' => ?_
          obtain ⟨r'', hr'', heq⟩ := List.mem_map.mp hr'
          cases heq
          exact hrs _ hr''
      | page p =>
          refine (transformPage_converges hscope hself).bind fun page _ => .pure fun r hr => ?_
          cases List.mem_singleton.mp hr
      | media m =>
          refine (transformContainer_converges hscope hscope hself hinner).bind
            fun c _ => .pure fun r hr => ?_
          cases List.mem_singleton.mp hr
      | keyframes k =>
          refine (transformContainer_converges hscope hscope hself hinner).bind
            fun c _ => .pure fun r hr => ?_
          cases List.mem_singleton.mp hr

/-! ## Sheets -/

variable {functions : Registry} {sheet : Sheet}

theorem transformSheet_converges (hfunctions : functions.AccessFree)
    (hexprs : ∀ e ∈ sheet.container.exprs, e.isAccessFree = true)
    (hnested : ∀ r ∈ sheet.container.allRuleSets, ∀ inner ∈ r.container.allRuleSets,
      ∀ item ∈ inner.items, item.isMixin = false) :
    Converges sheet.container.calledSelectors [] (fun n => transformSheet n functions sheet)
      fun _ => True := by
  have htame := Container.tame_of_mem_elements hexprs hnested
  have hvalues : ∀ v ∈ sheet.container.values, v.isAccessFree = true := fun v hv =>
    hexprs v (List.mem_append_left _ hv)
  have hroot : (Scope.root functions).Tame sheet.container.calledSelectors :=
    ⟨hfunctions, fun frame hframe => absurd hframe List.not_mem_nil⟩
  have hcontainer : sheet.container.Tame (RuleSet.Callable sheet.container.calledSelectors) :=
    ⟨hvalues, fun r hr => htame (.ruleSet r)
      (Container.mem_elements_of_mem (Container.mem_childRuleSets.mp hr))⟩
  refine (transformContainer_converges hroot (hroot.child hcontainer) hvalues fun e he => ?_).bind
    fun c _ => .pure trivial
  exact transformElement_converges e fun o ho => htame o (Container.mem_tree.mpr ⟨e, he, ho⟩)

end Stacked

namespace Transform

end Transform

end Less
