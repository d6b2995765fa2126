import Less.Proofs.Anchored

/-! # Diagnostics of a resolution

    A resolution of an anchored sheet meets anchored expressions only: values of
    variables and arguments are put into containers, mixins are copied and rule
    sets moved, and all of it stays anchored.  So each diagnostic on the way has a
    position in `S`.  There is one lemma a function, named `meets_…`. -/

namespace Less

variable {S : Position → Prop}

/-! ## Containers that are built -/

namespace Container.Anchored

variable {c : Container}

theorem of_entries {vars : Bindings Expr} {body : List Element}
    (hvars : ∀ entry ∈ vars.entries, entry.2.Anchored S) (hbody : ∀ e ∈ body, e.Anchored S) :
    Container.Anchored S { vars, body } := by
  refine ⟨fun v hv => ?_, hbody⟩
  obtain ⟨entry, hentry, rfl⟩ := List.mem_map.mp hv
  exact hvars entry hentry

theorem addAll (h : c.Anchored S) {es : List Element} (hes : ∀ e ∈ es, e.Anchored S) :
    (c.addAll es).Anchored S :=
  ⟨h.values, fun e he => (List.mem_append.mp he).elim (h.body e) (hes e)⟩

theorem setVariable (h : c.Anchored S) (name : String) {value : Expr} (hvalue : value.Anchored S) :
    (c.setVariable name value).Anchored S := by
  refine ⟨fun v hv => ?_, h.body⟩
  rcases Transform.mem_values_setVariable hv with rfl | hv
  · exact hvalue
  · exact h.values v hv

end Container.Anchored

namespace Transform

open Reporting

/-- **A copy of an anchored mixin is anchored.** -/
theorem instantiate_anchored {mixin : RuleSet} {arguments : List Expr}
    (h : (Element.ruleSet mixin).Anchored S) (harguments : ∀ a ∈ arguments, a.Anchored S) :
    (Element.ruleSet (instantiate mixin arguments)).Anchored S := by
  rw [instantiate]
  split
  · rename_i params hparams
    have hdefaults : params.entries.filterMap Prod.snd = mixin.defaults := by
      rw [RuleSet.defaults, hparams]
    have hbody := bindParameters_body params.entries arguments mixin.container
    refine ⟨h.position, h.items, fun x hx => absurd hx List.not_mem_nil, fun v hv => ?_,
      fun o ho => ?_⟩
    · rcases mem_values_bindParameters hv with hv | hv | hv
      · exact h.container.values v hv
      · exact harguments v hv
      · rw [hdefaults] at hv
        exact h.defaults v hv
    · exact h.container.body o (hbody ▸ ho)
  · exact h

/-- **A container that takes over an anchored rule set stays anchored.** -/
theorem absorb_anchored {dest : Container} {expanded : RuleSet} (hdest : dest.Anchored S)
    (hexpanded : (Element.ruleSet expanded).Anchored S) : (absorb dest expanded).Anchored S := by
  have hvars : (dest.setVariables expanded.container.vars.entries).Anchored S := by
    refine ⟨fun v hv => ?_, hdest.body⟩
    rcases mem_values_absorb hv with hv | hv
    · exact hdest.values v hv
    · exact hexpanded.container.values v hv
  refine hvars.addAll fun e he => ?_
  obtain ⟨child, hchild, rfl⟩ := List.mem_map.mp he
  exact hexpanded.container.body _ (Container.mem_childRuleSets.mp hchild)

/-! ## Expressions, variables, declarations -/

/-- The diagnostic has a position in `S`. -/
abbrev Placed (S : Position → Prop) (d : Error) : Prop :=
  Located S d.position?

variable {n : Nat} {scope : Scope}

theorem meets_resolve (hscope : scope.Anchored S) (p : Option Position) {value : Expr}
    (hvalue : value.Anchored S) :
    (resolve n scope p value).Meets (fun v => v.Anchored S) (Placed S) := by
  rw [resolve]
  refine (Meets.attempt (Expr.eval_anchored hscope hvalue)).bind fun r hr => ?_
  cases r with
  | ok v => exact .pure hr.1
  | error e => exact .report (Located.locate hr p) hvalue

theorem meets_resolveVariables (hscope : scope.Anchored S) {c : Container} (hc : c.Anchored S) :
    (resolveVariables n scope c).Meets (fun vars => ∀ entry ∈ vars.entries, entry.2.Anchored S)
      (Placed S) := by
  rw [resolveVariables]
  refine Meets.bind (Q := fun entries => ∀ entry ∈ entries, entry.2.Anchored S)
    (.mapM fun entry hentry => ?_) fun entries hentries => .pure fun entry hentry => ?_
  · exact (meets_resolve (hscope.child hc) entry.2.position
      (hc.values entry.2 (List.mem_map_of_mem hentry))).bind fun v hv => .pure hv
  · exact (Bindings.mem_setAll hentry).elim (fun h => absurd h List.not_mem_nil) (hentries entry)

/-- A declaration that is resolved keeps its position. -/
theorem meets_resolveDeclaration (hscope : scope.Anchored S) {d : Declaration}
    (hd : (Item.declaration d).Anchored S) :
    (resolveDeclaration n scope d).Meets (fun d => (Item.declaration d).Anchored S) (Placed S) := by
  rw [resolveDeclaration]
  refine (Meets.mapM fun v hv => meets_resolve hscope d.position (hd.exprs v hv)).bind
    fun values hvalues => .pure ⟨hd.position, hvalues⟩

/-! ## Mixin calls -/

/-- A call that fails is reported with its own position, if not with that of an
    argument. -/
theorem meets_prepareCall {active : List Selector} {source dest : Container} {call : MixinCall}
    (hscope : scope.Anchored S) (hsource : source.Anchored S) (hdest : dest.Anchored S)
    (hcall : (Item.mixin call).Anchored S) :
    (prepareCall n active scope source dest call).Meets
      (fun copy => ∀ r, copy = some r → (Element.ruleSet r).Anchored S) (Placed S) := by
  have hfail : ∀ {e : Error}, (∀ p, (e.locate p).position? = p) →
      Placed S (e.locate call.position) := fun h => located_locate h hcall.position
  have hnone : ∀ r : RuleSet, none = some r → (Element.ruleSet r).Anchored S :=
    fun _ h => by cases h
  rw [prepareCall]
  simp only
  split
  · exact .report (hfail fun p => by cases p <;> rfl) hnone
  · split
    · exact .report (hfail fun p => by cases p <;> rfl) hnone
    · rename_i mixin hmixin
      have hanchored : (Element.ruleSet mixin).Anchored S :=
        (hscope.child hsource).of_mem_ruleSets (mem_of_selectMixin hmixin)
      split
      · exact .report (hfail fun p => by cases p <;> rfl) hnone
      · have harguments : (call.arguments.mapM (Expr.eval n (scope.child dest))).Meets
            (fun vs => ∀ v ∈ vs, v.Anchored S) (Placed S) :=
          .mapM fun a ha => (Expr.eval_anchored (hscope.child hdest) (hcall.exprs a ha)).imp
            (fun v hv => hv.1) fun _ => id
        refine (Meets.attempt harguments).bind fun r hr => ?_
        cases r with
        | error e => exact .report (Located.locate hr _) hnone
        | ok arguments =>
            refine .pure ?_
            rintro r ⟨⟩
            exact instantiate_anchored hanchored hr

/-- The expander turns anchored rule sets into such. -/
def KeepsAnchors (S : Position → Prop) (expand : Expander) : Prop :=
  ∀ active scope r, scope.Anchored S → (Element.ruleSet r).Anchored S →
    (expand active scope r).Meets (fun r => (Element.ruleSet r).Anchored S) (Placed S)

theorem meets_expandCall {expand : Expander} {active : List Selector} {source dest : Container}
    {call : MixinCall} (hexpand : KeepsAnchors S expand) (hscope : scope.Anchored S)
    (hsource : source.Anchored S) (hdest : dest.Anchored S)
    (hcall : (Item.mixin call).Anchored S) :
    (expandCall n expand active scope source dest call).Meets
      (fun expanded => ∀ r, expanded = some r → (Element.ruleSet r).Anchored S) (Placed S) := by
  rw [expandCall]
  refine (meets_prepareCall hscope hsource hdest hcall).bind fun copy hcopy => ?_
  cases copy with
  | none => exact .pure nofun
  | some mixin =>
      refine (hexpand _ _ mixin (hscope.child hdest) (hcopy mixin rfl)).map fun r hr => ?_
      rintro r' ⟨⟩
      exact hr

/-! ## Items -/

/-- The declaration that waits is anchored. -/
def Pending.Anchored (S : Position → Prop) : Pending → Prop
  | source d | resolved d => (Item.declaration d).Anchored S

theorem meets_gather {call : Container → MixinCall → Reporting (Option RuleSet)}
    (hcall : ∀ dest c, dest.Anchored S → (Item.mixin c).Anchored S →
      (call dest c).Meets (fun expanded => ∀ r, expanded = some r → (Element.ruleSet r).Anchored S)
        (Placed S)) :
    ∀ {items : List Item} {dest : Container}, (∀ i ∈ items, i.Anchored S) → dest.Anchored S →
      (gather call items dest).Meets
        (fun x => (∀ p ∈ x.1, p.Anchored S) ∧ x.2.Anchored S) (Placed S) := by
  intro items
  induction items with
  | nil => intro dest _ hdest; exact .pure ⟨fun p hp => absurd hp List.not_mem_nil, hdest⟩
  | cons item items ih =>
      intro dest hitems hdest
      have hitem := hitems item List.mem_cons_self
      have hlater : ∀ i ∈ items, i.Anchored S := fun i hi => hitems i (List.mem_cons_of_mem _ hi)
      cases item with
      | declaration d =>
          rw [gather]
          refine (ih hlater hdest).bind fun x hx => .pure ⟨?_, hx.2⟩
          exact List.forall_mem_cons.mpr ⟨hitem, hx.1⟩
      | mixin c =>
          rw [gather]
          refine (hcall dest c hdest hitem).bind fun expanded hexpanded => ?_
          cases expanded with
          | none => exact ih hlater hdest
          | some r =>
              have hr := hexpanded r rfl
              refine (ih hlater (absorb_anchored hdest hr)).bind fun x hx =>
                .pure ⟨fun p hp => ?_, hx.2⟩
              rcases List.mem_append.mp hp with hp | hp
              · obtain ⟨d, hd, rfl⟩ := List.mem_map.mp hp
                exact hr.items _ (RuleSet.declaration_mem_items hd)
              · exact hx.1 p hp

theorem meets_settle (hscope : scope.Anchored S) {p : Pending} (hp : p.Anchored S) :
    (settle n scope p).Meets (fun i => i.Anchored S) (Placed S) := by
  cases p with
  | source d => exact (meets_resolveDeclaration hscope hp).map fun d hd => hd
  | resolved d => exact .pure hp

theorem meets_resolveItems {expand : Expander} {active : List Selector} {items : List Item}
    {source dest : Container} (hexpand : KeepsAnchors S expand) (hscope : scope.Anchored S)
    (hitems : ∀ i ∈ items, i.Anchored S) (hsource : source.Anchored S) (hdest : dest.Anchored S) :
    (resolveItems n expand active scope items source dest).Meets
      (fun x => (∀ i ∈ x.1, i.Anchored S) ∧ x.2.Anchored S) (Placed S) := by
  rw [resolveItems]
  split
  · refine (meets_gather (fun dest c hdest hc =>
      meets_expandCall hexpand hscope hsource hdest hc) hitems hdest).bind fun x hx => ?_
    refine (Meets.mapM fun p hp => meets_settle (hscope.child hx.2) (hx.1 p hp)).bind
      fun resolved hresolved => .pure ⟨hresolved, hx.2⟩
  · refine Meets.bind (Q := fun resolved => ∀ i ∈ resolved, i.Anchored S) (.mapM fun d hd => ?_)
      fun resolved hresolved => .pure ⟨hresolved, hdest⟩
    obtain ⟨item, hitem, heq⟩ := List.mem_filterMap.mp hd
    cases item with
    | mixin c => cases heq
    | declaration d' =>
        cases heq
        exact (meets_resolveDeclaration (hscope.child hsource) (hitems _ hitem)).map fun d hd => hd

/-! ## Rule sets -/

/-- **Expansion keeps anchors.** -/
theorem keepsAnchors_expand : ∀ n : Nat, KeepsAnchors S (expand n)
  | 0, _, _, _, _, _ => nofun
  | n + 1, active, scope, r, hscope, hr => by
      rw [expand]
      refine (meets_resolveVariables hscope hr.container).bind fun vars hvars => ?_
      refine (meets_resolveItems (keepsAnchors_expand n) hscope hr.items hr.container
        (.of_entries hvars hr.container.body)).bind fun x hx => .pure ?_
      exact ⟨hr.position, hx.1, fun x hx => absurd hx List.not_mem_nil, hx.2.values, hx.2.body⟩

theorem meets_transformRuleSet : ∀ {n : Nat} {scope : Scope} {r : RuleSet}, scope.Anchored S →
    (Element.ruleSet r).Anchored S →
    (transformRuleSet n scope r).Meets (fun rs => ∀ r ∈ rs, (Element.ruleSet r).Anchored S)
      (Placed S) := by
  intro n
  induction n with
  | zero => intro scope r _ _; exact nofun
  | succ n ih =>
      intro scope r hscope hr
      rw [transformRuleSet]
      split
      · exact .pure (List.forall_mem_singleton.mpr hr)
      · refine (keepsAnchors_expand n [] scope r hscope hr).bind fun dest hdest => ?_
        have hnested : (flatten (transformRuleSet n) scope dest).Meets
            (fun rs => ∀ r ∈ rs, (Element.ruleSet r).Anchored S) (Placed S) := by
          rw [flatten]
          refine (Meets.mapM fun child hchild => ih (hscope.child hdest.container)
            (hdest.container.body _ (Container.mem_childRuleSets.mp
              (List.mem_filter.mp hchild).1))).bind fun produced hproduced => .pure ?_
          intro r hr
          obtain ⟨r', hr', rfl⟩ := List.mem_map.mp hr
          obtain ⟨rs, hrs, hr'⟩ := List.mem_flatten.mp hr'
          have h := hproduced rs hrs r' hr'
          exact ⟨h.position, h.items, h.defaults, h.container.values, h.container.body⟩
        exact hnested.bind fun rs hrs => .pure (List.forall_mem_cons.mpr ⟨hdest, hrs⟩)

/-! ## Elements -/

theorem meets_transformBody {transform : Scope → Element → Reporting (List Element)}
    {parent : Scope} (hparent : parent.Anchored S)
    (hstep : ∀ scope e, scope.Anchored S → e.Anchored S →
      (transform scope e).Meets (fun es => ∀ e ∈ es, e.Anchored S) (Placed S)) :
    ∀ {es : List Element} {dest : Container}, (∀ e ∈ es, e.Anchored S) → dest.Anchored S →
      (transformBody transform parent es dest).Meets (fun c => c.Anchored S) (Placed S) := by
  intro es
  induction es with
  | nil => intro dest _ hdest; exact .pure hdest
  | cons e es ih =>
      intro dest hes hdest
      rw [transformBody]
      refine (hstep _ e (hparent.child hdest) (hes e List.mem_cons_self)).bind
        fun produced hproduced => ?_
      exact ih (fun e he => hes e (List.mem_cons_of_mem _ he)) (hdest.addAll hproduced)

theorem meets_transformContainer {transform : Scope → Element → Reporting (List Element)}
    {parent : Scope} {c : Container} (hscope : scope.Anchored S) (hparent : parent.Anchored S)
    (hc : c.Anchored S)
    (hstep : ∀ scope e, scope.Anchored S → e.Anchored S →
      (transform scope e).Meets (fun es => ∀ e ∈ es, e.Anchored S) (Placed S)) :
    (transformContainer n transform scope parent c).Meets (fun c => c.Anchored S) (Placed S) := by
  rw [transformContainer]
  refine (meets_resolveVariables hscope hc).bind fun vars hvars => ?_
  exact meets_transformBody hparent hstep hc.body
    (.of_entries hvars fun e he => absurd he List.not_mem_nil)

theorem meets_transformPage {p : Page} (hscope : scope.Anchored S)
    (hp : (Element.page p).Anchored S) :
    (transformPage n scope p).Meets (fun p => (Element.page p).Anchored S) (Placed S) := by
  rw [transformPage]
  refine (meets_resolveVariables hscope hp.container).bind fun vars hvars => ?_
  refine (meets_resolveItems (keepsAnchors_expand n) hscope hp.items hp.container
    (.of_entries hvars fun e he => absurd he List.not_mem_nil)).bind fun x hx => .pure ?_
  exact ⟨hp.position, hx.1, fun x hx => absurd hx List.not_mem_nil, hx.2.values, hx.2.body⟩

theorem meets_transformElement : ∀ {n : Nat} {scope : Scope} {e : Element}, scope.Anchored S →
    e.Anchored S →
    (transformElement n scope e).Meets (fun es => ∀ e ∈ es, e.Anchored S) (Placed S) := by
  intro n
  induction n with
  | zero => intro scope e _ _; exact nofun
  | succ n ih =>
      intro scope e hscope he
      have hblock : ∀ {c : Container}, c.Anchored S →
          (transformContainer n (transformElement n) scope scope c).Meets (fun c => c.Anchored S)
            (Placed S) :=
        fun hc => meets_transformContainer hscope hscope hc fun _ _ => ih
      cases e with
      | ruleSet r =>
          refine (meets_transformRuleSet hscope he).bind fun rs hrs => .pure fun e he => ?_
          obtain ⟨r', hr', rfl⟩ := List.mem_map.mp he
          exact hrs r' hr'
      | media m =>
          refine (hblock he.container).bind fun c hc => .pure (List.forall_mem_singleton.mpr ?_)
          exact ⟨he.position, he.items, he.defaults, hc.values, hc.body⟩
      | page p =>
          exact (meets_transformPage hscope he).bind fun p hp =>
            .pure (List.forall_mem_singleton.mpr hp)
      | keyframes k =>
          refine (hblock he.container).bind fun c hc => .pure (List.forall_mem_singleton.mpr ?_)
          exact ⟨he.position, he.items, he.defaults, hc.values, hc.body⟩

/-- **DIAGNOSTICS HAVE POSITIONS.**  Whatever the resolution of an anchored sheet
    reports has a position in `S`. -/
theorem transformSheet_anchored {sheet result : Sheet} {ds : List Error}
    (hsheet : sheet.container.Anchored S)
    (h : transformSheet n .builtin sheet = some (result, ds)) : ∀ d ∈ ds, Placed S d := by
  obtain ⟨container, hcontainer, -⟩ := transformSheet_eq_some h
  have hroot : (Scope.root .builtin).Anchored S :=
    ⟨rfl, fun frame hframe => absurd hframe List.not_mem_nil⟩
  exact (meets_transformContainer hroot (hroot.child hsheet) hsheet
    (fun _ _ => meets_transformElement) container ds hcontainer).2

end Transform

end Less
