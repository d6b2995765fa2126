import Less.Proofs.Steps

/-! # The stack of the mixins being expanded

    The functions of a resolution are handed the selectors of the mixins that
    are being expanded.  Here the same functions keep them on a stack: a call
    pushes its selector before the mixin is expanded and pops it afterwards,
    and every state of the stack is recorded (`Stack.seen`).

    `Follows active x y` says that `x`, started on the stack `active`, gives
    what `y` gives, leaves `active` behind, and met no stack with a selector
    twice.  It passes through compositions, so the whole resolution with a
    stack follows the resolution (`transformSheet_follows`): for every sheet
    the stack is empty again at the end, and never held a selector twice. -/

namespace Less

/-- The selectors of the mixins being expanded, the innermost first, and every
    state the stack was in. -/
structure Stack where
  active : List Selector
  seen : List (List Selector)

namespace Stack

def push (stack : Stack) (s : Selector) : Stack :=
  { active := s :: stack.active, seen := (s :: stack.active) :: stack.seen }

def pop (stack : Stack) : Stack :=
  { active := stack.active.tail, seen := stack.active.tail :: stack.seen }

end Stack

/-- A computation that works on a stack. -/
abbrev Stacked := StateT Stack Reporting

namespace Stacked

variable {α β : Type}

/-- A computation that leaves the stack alone. -/
def lift (x : Reporting α) : Stacked α :=
  StateT.lift x

/-- The selectors on the stack. -/
def active : Stacked (List Selector) := do
  return (← get).active

/-- A computation with a selector on top of the stack. -/
def within (s : Selector) (x : Stacked α) : Stacked α := do
  modify (Stack.push · s)
  let a ← x
  modify Stack.pop
  return a

/-! ## The resolution with a stack

    Each function does what the function of `Transform` with its name does.  Only
    `expandCall` touches the stack; the others no longer hand selectors down. -/

def expandCall (n : Nat) (expand : Scope → RuleSet → Stacked RuleSet) (scope : Scope)
    (source dest : Container) (call : MixinCall) : Stacked (Option RuleSet) := do
  match ← lift (Transform.prepareCall n (← active) scope source dest call) with
  | none => return none
  | some mixin => some <$> within call.selector (expand (scope.child dest) mixin)

def gather (call : Container → MixinCall → Stacked (Option RuleSet)) :
    List Item → Container → Stacked (List Transform.Pending × Container)
  | [], dest => return ([], dest)
  | .declaration d :: items, dest => do
      let (pending, dest) ← gather call items dest
      return (.source d :: pending, dest)
  | .mixin c :: items, dest => do
      match ← call dest c with
      | none => gather call items dest
      | some expanded =>
          let (pending, dest) ← gather call items (Transform.absorb dest expanded)
          return (expanded.declarations.map .resolved ++ pending, dest)

def resolveItems (n : Nat) (expand : Scope → RuleSet → Stacked RuleSet) (scope : Scope)
    (items : List Item) (source dest : Container) : Stacked (List Item × Container) := do
  if items.any Item.isMixin then
    let (pending, dest) ← gather (expandCall n expand scope source) items dest
    let resolved ← lift (pending.mapM (Transform.settle n (scope.child dest)))
    return (resolved, dest)
  else
    let resolved ← lift ((items.filterMap Item.declaration?).mapM fun d =>
      Item.declaration <$> Transform.resolveDeclaration n (scope.child source) d)
    return (resolved, dest)

def expand : Nat → Scope → RuleSet → Stacked RuleSet
  | 0, _, _ => lift .exhausted
  | n + 1, scope, r => do
      let vars ← lift (Transform.resolveVariables n scope r.container)
      let (items, container) ←
        resolveItems n (expand n) scope r.items r.container { vars, body := r.container.body }
      return { r with params := none, items, container }

def flatten (transform : Scope → RuleSet → Stacked (List RuleSet)) (scope : Scope)
    (dest : RuleSet) :
    Stacked (List RuleSet) := do
  let children := dest.container.childRuleSets.filter fun child => !child.isMixin
  let produced ← children.mapM (transform (scope.child dest.container))
  return produced.flatten.map fun r =>
    { r with selectors := Selector.combineAll dest.selectors r.selectors }

def transformRuleSet : Nat → Scope → RuleSet → Stacked (List RuleSet)
  | 0, _, _ => lift .exhausted
  | n + 1, scope, r => do
      if r.isMixin then return [r]
      else
        let dest ← expand n scope r
        let nested ← flatten (transformRuleSet n) scope dest
        return dest :: nested

def transformBody (transform : Scope → Element → Stacked (List Element)) (parent : Scope) :
    List Element → Container → Stacked Container
  | [], dest => return dest
  | e :: es, dest => do
      let produced ← transform (parent.child dest) e
      transformBody transform parent es (dest.addAll produced)

def transformPage (n : Nat) (scope : Scope) (p : Page) : Stacked Page := do
  let vars ← lift (Transform.resolveVariables n scope p.container)
  let (items, container) ← resolveItems n (expand n) scope p.items p.container { vars, body := [] }
  return { p with items, container }

def transformContainer (n : Nat) (transform : Scope → Element → Stacked (List Element))
    (scope parent : Scope) (c : Container) : Stacked Container := do
  let vars ← lift (Transform.resolveVariables n scope c)
  transformBody transform parent c.body { vars, body := [] }

def transformElement : Nat → Scope → Element → Stacked (List Element)
  | 0, _, _ => lift .exhausted
  | n + 1, scope, .ruleSet r => do
      return (← transformRuleSet n scope r).map .ruleSet
  | n + 1, scope, .media m => do
      let container ← transformContainer n (transformElement n) scope scope m.container
      return [.media { m with container }]
  | n + 1, scope, .page p => do
      return [.page (← transformPage n scope p)]
  | n + 1, scope, .keyframes k => do
      let container ← transformContainer n (transformElement n) scope scope k.container
      return [.keyframes { k with container }]

def transformSheet (n : Nat) (functions : Registry) (sheet : Sheet) : Stacked Sheet := do
  let root := Scope.root functions
  let container ←
    transformContainer n (transformElement n) root (root.child sheet.container) sheet.container
  return { sheet with container }

/-! ## Following a computation without a stack -/

/-- The computation gives what the second one gives, leaves the stack as it
    found it, and met no stack with a selector twice. -/
def Follows (active : List Selector) (x : Stacked α) (y : Reporting α) : Prop :=
  ∀ seen, (∀ s ∈ seen, s.Nodup) →
    ∃ seen', (∀ s ∈ seen', s.Nodup) ∧ x ⟨active, seen⟩ = (fun a => (a, ⟨active, seen'⟩)) <$> y

variable {active : List Selector}

theorem Follows.lift (y : Reporting α) : Follows active (lift y) y := by
  intro seen hseen
  refine ⟨seen, hseen, ?_⟩
  rw [map_eq_pure_bind]
  rfl

theorem Follows.pure (a : α) : Follows active (pure a) (pure a) :=
  fun seen hseen => ⟨seen, hseen, rfl⟩

theorem Follows.bind {x : Stacked α} {y : Reporting α} {f : α → Stacked β} {g : α → Reporting β}
    (hx : Follows active x y) (hf : ∀ a ds, y = some (a, ds) → Follows active (f a) (g a)) :
    Follows active (x >>= f) (y >>= g) := by
  intro seen hseen
  obtain ⟨mid, hmid, hx⟩ := hx seen hseen
  -- the second computation starts on the same stack, with more states on record
  have hrun : (x >>= f) ⟨active, seen⟩ = y >>= fun a => f a ⟨active, mid⟩ := by
    show x ⟨active, seen⟩ >>= (fun r => f r.1 r.2) = _
    rw [hx, bind_map_left]
  have hcases : y = none ∨ ∃ a ds, y = some (a, ds) := by
    cases y with
    | none => exact Or.inl rfl
    | some r => exact Or.inr ⟨r.1, r.2, rfl⟩
  rcases hcases with hy | ⟨a, ds, hy⟩
  · refine ⟨seen, hseen, ?_⟩
    rw [hrun, hy]
    rfl
  · -- what it meets depends on the one result that `y` has
    obtain ⟨seen', hseen', hf⟩ := hf a ds hy mid hmid
    refine ⟨seen', hseen', ?_⟩
    rw [hrun, map_bind]
    refine Reporting.bind_congr_of_some fun a' ds' hy' => ?_
    rw [hy] at hy'
    cases hy'
    exact hf

theorem Follows.map {x : Stacked α} {y : Reporting α} (f : α → β) (h : Follows active x y) :
    Follows active (f <$> x) (f <$> y) := by
  rw [map_eq_pure_bind, map_eq_pure_bind]
  exact h.bind fun a _ _ => Follows.pure (f a)

theorem Follows.mapM {f : α → Stacked β} {g : α → Reporting β} {as : List α}
    (h : ∀ a ∈ as, Follows active (f a) (g a)) : Follows active (as.mapM f) (as.mapM g) := by
  induction as with
  | nil => exact Follows.pure []
  | cons a as ih =>
      rw [List.mapM_cons, List.mapM_cons]
      refine (h a List.mem_cons_self).bind fun b _ _ => ?_
      refine (ih fun a' ha' => h a' (List.mem_cons_of_mem a ha')).bind fun bs _ _ => ?_
      exact Follows.pure (b :: bs)

theorem active_bind_run (f : List Selector → Stacked α) (stack : Stack) :
    (Stacked.active >>= f) stack = f stack.active stack := by
  show (Pure.pure (stack.active, stack) : Reporting _) >>= (fun r => f r.1 r.2) = _
  rw [pure_bind]

/-- What depends on the stack may be followed for the stack at hand. -/
theorem Follows.active_bind {f : List Selector → Stacked α} {y : Reporting α}
    (h : Follows active (f active) y) : Follows active (Stacked.active >>= f) y := by
  intro seen hseen
  obtain ⟨seen', hseen', hf⟩ := h seen hseen
  exact ⟨seen', hseen', by rw [active_bind_run, hf]⟩

theorem within_run (s : Selector) (x : Stacked α) (stack : Stack) :
    within s x stack = x (stack.push s) >>= fun r => Pure.pure (r.1, r.2.pop) := by
  show ((Pure.pure ((), stack.push s) : Reporting _) >>= fun pushed =>
    x pushed.2 >>= fun r => Pure.pure ((), r.2.pop) >>= fun popped => Pure.pure (r.1, popped.2)) = _
  simp only [pure_bind]

/-- A selector that is pushed is popped again. -/
theorem Follows.within {s : Selector} {x : Stacked α} {y : Reporting α}
    (hnodup : (s :: active).Nodup)
    (h : Follows (s :: active) x y) : Follows active (within s x) y := by
  intro seen hseen
  have hpush : ∀ t ∈ (s :: active) :: seen, t.Nodup := List.forall_mem_cons.mpr ⟨hnodup, hseen⟩
  obtain ⟨seen', hseen', hx⟩ := h _ hpush
  refine ⟨active :: seen', ?_, ?_⟩
  · exact List.forall_mem_cons.mpr ⟨(List.nodup_cons.mp hnodup).2, hseen'⟩
  · rw [within_run, Stack.push, hx, bind_map_left, map_eq_pure_bind]
    rfl

/-! ## Function by function -/

variable {n : Nat} {expander : Transform.Expander}
    {stackedExpander : Scope → RuleSet → Stacked RuleSet}

/-- A call follows the call without a stack, as soon as its expander does. -/
theorem expandCall_follows
    (hexpand : ∀ {active} scope r, active.Nodup →
      Follows active (stackedExpander scope r) (expander active scope r))
    (hactive : active.Nodup) (scope : Scope) (source dest : Container) (call : MixinCall) :
    Follows active (expandCall n stackedExpander scope source dest call)
      (Transform.expandCall n expander active scope source dest call) := by
  refine Follows.active_bind ((Follows.lift _).bind fun copy ds hcopy => ?_)
  cases copy with
  | none => exact Follows.pure none
  | some mixin =>
      -- the selector is not on the stack, since the call has not failed
      rcases Transform.prepareCall_eq_some hcopy with ⟨hnone, -⟩ | ⟨_, _, hfree, -⟩
      · cases hnone
      · have hnodup : (call.selector :: active).Nodup := List.nodup_cons.mpr ⟨hfree, hactive⟩
        exact (Follows.within hnodup (hexpand _ _ hnodup)).map some

theorem gather_follows {call : Container → MixinCall → Stacked (Option RuleSet)}
    {call' : Container → MixinCall → Reporting (Option RuleSet)}
    (hcall : ∀ dest c, Follows active (call dest c) (call' dest c)) (items : List Item)
    (dest : Container) :
    Follows active (gather call items dest) (Transform.gather call' items dest) := by
  induction items generalizing dest with
  | nil => exact Follows.pure _
  | cons item items ih =>
      cases item with
      | declaration d => exact (ih dest).bind fun r _ _ => Follows.pure _
      | mixin c =>
          refine (hcall dest c).bind fun result _ _ => ?_
          cases result with
          | none => exact ih dest
          | some expanded => exact (ih _).bind fun r _ _ => Follows.pure _

theorem resolveItems_follows
    (hexpand : ∀ {active} scope r, active.Nodup →
      Follows active (stackedExpander scope r) (expander active scope r))
    (hactive : active.Nodup) (scope : Scope) (items : List Item) (source dest : Container) :
    Follows active (resolveItems n stackedExpander scope items source dest)
      (Transform.resolveItems n expander active scope items source dest) := by
  rw [resolveItems, Transform.resolveItems]
  split
  · refine (gather_follows (expandCall_follows hexpand hactive scope source) items dest).bind
      fun r _ _ => ?_
    exact (Follows.lift _).bind fun resolved _ _ => Follows.pure _
  · exact (Follows.lift _).bind fun resolved _ _ => Follows.pure _

theorem expand_follows (n : Nat) : ∀ {active : List Selector} (scope : Scope) (r : RuleSet),
    active.Nodup →
    Follows active (expand n scope r) (Transform.expand n active scope r) := by
  induction n with
  | zero => intro active scope r _; exact Follows.lift _
  | succ n ih =>
      intro active scope r hactive
      refine (Follows.lift _).bind fun vars _ _ => ?_
      exact (resolveItems_follows ih hactive scope r.items r.container _).bind
        fun result _ _ => Follows.pure _

theorem flatten_follows {transform : Scope → RuleSet → Stacked (List RuleSet)}
    {transform' : Scope → RuleSet → Reporting (List RuleSet)}
    (h : ∀ scope r, Follows active (transform scope r) (transform' scope r)) (scope : Scope)
    (dest : RuleSet) :
    Follows active (flatten transform scope dest) (Transform.flatten transform' scope dest) :=
  (Follows.mapM fun child _ => h _ child).bind fun _ _ _ => Follows.pure _

theorem transformRuleSet_follows (n : Nat) (scope : Scope) (r : RuleSet) :
    Follows [] (transformRuleSet n scope r) (Transform.transformRuleSet n scope r) := by
  induction n generalizing scope r with
  | zero => exact Follows.lift _
  | succ n ih =>
      rw [transformRuleSet, Transform.transformRuleSet]
      split
      · exact Follows.pure _
      · refine (expand_follows n scope r List.nodup_nil).bind fun dest _ _ => ?_
        exact (flatten_follows ih scope dest).bind fun nested _ _ => Follows.pure _

theorem transformBody_follows {transform : Scope → Element → Stacked (List Element)}
    {transform' : Scope → Element → Reporting (List Element)}
    (h : ∀ scope e, Follows active (transform scope e) (transform' scope e)) (parent : Scope)
    (es : List Element) (dest : Container) :
    Follows active (transformBody transform parent es dest)
      (Transform.transformBody transform' parent es dest) := by
  induction es generalizing dest with
  | nil => exact Follows.pure dest
  | cons e es ih => exact (h _ e).bind fun _ _ _ => ih _

theorem transformContainer_follows {transform : Scope → Element → Stacked (List Element)}
    {transform' : Scope → Element → Reporting (List Element)}
    (h : ∀ scope e, Follows active (transform scope e) (transform' scope e)) (scope parent : Scope)
    (c : Container) :
    Follows active (transformContainer n transform scope parent c)
      (Transform.transformContainer n transform' scope parent c) :=
  (Follows.lift _).bind fun _ _ _ => transformBody_follows h parent c.body _

theorem transformPage_follows (scope : Scope) (p : Page) :
    Follows [] (transformPage n scope p) (Transform.transformPage n scope p) := by
  refine (Follows.lift _).bind fun vars _ _ => ?_
  exact (resolveItems_follows (expand_follows n) List.nodup_nil scope p.items p.container _).bind
    fun result _ _ => Follows.pure _

theorem transformElement_follows (n : Nat) (scope : Scope) (e : Element) :
    Follows [] (transformElement n scope e) (Transform.transformElement n scope e) := by
  induction n generalizing scope e with
  | zero => exact Follows.lift _
  | succ n ih =>
      cases e with
      | ruleSet r => exact (transformRuleSet_follows n scope r).bind fun rs _ _ => Follows.pure _
      | media m =>
          exact (transformContainer_follows ih scope scope m.container).bind
            fun c _ _ => Follows.pure _
      | page p => exact (transformPage_follows scope p).bind fun page _ _ => Follows.pure _
      | keyframes k =>
          exact (transformContainer_follows ih scope scope k.container).bind
            fun c _ _ => Follows.pure _

/-- **THE STACK IS BALANCED.**  A resolution with a stack gives what the
    resolution gives; at the end the stack is empty again, and it never held a
    selector twice. -/
theorem transformSheet_follows (n : Nat) (functions : Registry) (sheet : Sheet) :
    Follows [] (transformSheet n functions sheet) (Transform.transformSheet n functions sheet) :=
  (transformContainer_follows (transformElement_follows n) _ _ sheet.container).bind
    fun _ _ _ => Follows.pure _

end Stacked

end Less
