import Less.Proofs.MixinStack
import Less.Proofs.Overload
import Less.Proofs.Refusal

/-! # The contract of a mixin call

    A call is refused for one of four reasons, tried in this order (`Refused`): its
    mixin is being expanded already, no container from the caller's own outward has
    its selector, the definition it selects has too few parameters, or an argument
    has no value.  A refused call is reported and leaves no other trace: the items
    behind it find the container, the declarations gathered so far and the stack as
    the call found them (`LeavesOnly`).

    Every other call expands the first definition that accepts its arguments in the
    nearest container that has the selector, with its parameters set to arguments
    and defaults (`BindsParameters`).

    The reasons are put in terms of the containers and their rule sets, so the work
    is to see through the two lookups: the candidates of a selector
    (`selectMixin_eq_some_iff`) and the arguments, of which the first faulty one
    decides (`mapM_eq_failed_iff`). -/

namespace Less

variable {α β : Type}

/-- The first member of a list with a property. -/
def IsFirst (P : α → Prop) (as : List α) (a : α) : Prop :=
  ∃ before after, as = before ++ a :: after ∧ P a ∧ ∀ x ∈ before, ¬ P x

theorem find?_eq_some_iff_isFirst {p : α → Bool} {as : List α} {a : α} :
    as.find? p = some a ↔ IsFirst (p · = true) as a := by
  rw [List.find?_eq_some_iff_append]
  constructor
  · rintro ⟨ha, before, after, rfl, hbefore⟩
    exact ⟨before, after, rfl, ha, fun x hx => by simpa using hbefore x hx⟩
  · rintro ⟨before, after, rfl, ha, hbefore⟩
    exact ⟨ha, before, after, rfl, fun x hx => by simpa using hbefore x hx⟩

/-- The first faulty item of a list decides its error. -/
theorem Evaluation.mapM_eq_failed_iff {f : α → Evaluation β} {as : List α} {e : Error} :
    as.mapM f = .failed e ↔
      ∃ before a after, as = before ++ a :: after ∧ (∀ b ∈ before, ∃ v, f b = .done v)
        ∧ f a = .failed e := by
  constructor
  · intro h
    induction as with
    | nil => cases h
    | cons a as ih =>
        rw [List.mapM_cons] at h
        cases ha : f a with
        | exhausted => rw [ha] at h; cases h
        | failed e' =>
            rw [ha] at h
            cases h
            exact ⟨[], a, as, rfl, nofun, ha⟩
        | done v =>
            rw [ha, done_bind] at h
            cases has : as.mapM f with
            | exhausted => rw [has] at h; cases h
            | done vs => rw [has] at h; cases h
            | failed e' =>
                rw [has] at h
                cases h
                obtain ⟨before, b, after, rfl, hbefore, hb⟩ := ih has
                exact ⟨a :: before, b, after, rfl,
                  List.forall_mem_cons.mpr ⟨⟨v, ha⟩, hbefore⟩, hb⟩
  · rintro ⟨before, a, after, rfl, hbefore, ha⟩
    induction before with
    | nil => rw [List.nil_append, List.mapM_cons, ha, failed_bind]
    | cons b before ih =>
        obtain ⟨⟨v, hv⟩, hbefore⟩ := List.forall_mem_cons.mp hbefore
        rw [List.cons_append, List.mapM_cons, hv, done_bind, ih hbefore, failed_bind]

/-! ## Which definition is selected -/

/-- A rule set of the container has the selector. -/
def Container.Has (s : Selector) (c : Container) : Prop :=
  ∃ r ∈ c.childRuleSets, s ∈ r.selectors

theorem Container.ruleSets_eq_nil_iff {c : Container} {s : Selector} :
    c.ruleSets s = [] ↔ ¬ c.Has s := by
  rw [List.eq_nil_iff_forall_not_mem]
  simp only [Container.mem_ruleSets, Has, not_exists]

/-- Searching the rule sets of a selector is searching the rule sets that have
    it. -/
theorem Container.find?_ruleSets (c : Container) (s : Selector) (p : RuleSet → Bool) :
    (c.ruleSets s).find? p = c.childRuleSets.find? fun r => decide (s ∈ r.selectors) && p r := by
  rw [Container.ruleSets, List.find?_flatMap]
  induction c.childRuleSets with
  | nil => rfl
  | cons r rs ih =>
      rw [List.findSome?_cons, List.find?_cons, ih, List.find?_replicate]
      by_cases hs : s ∈ r.selectors
      · cases hp : p r with
        | true => simp [List.count_eq_zero, hs]
        | false => simp [List.count_eq_zero]
      · simp [List.count_eq_zero, hs]

/-- The nearest container with the selector hides all others; if there is none,
    nothing is found. -/
theorem Scope.ruleSetsIn_cases (frames : List Container) (s : Selector) :
    ((∀ c ∈ frames, ¬ c.Has s) ∧ ruleSetsIn frames s = [])
      ∨ ∃ c, IsFirst (·.Has s) frames c ∧ ruleSetsIn frames s = c.ruleSets s := by
  induction frames with
  | nil => exact Or.inl ⟨nofun, rfl⟩
  | cons c outer ih =>
      by_cases hc : c.Has s
      · refine Or.inr ⟨c, ⟨[], outer, rfl, hc, nofun⟩, ?_⟩
        rw [ruleSetsIn]
        split
        · rename_i hnil
          exact absurd hc (Container.ruleSets_eq_nil_iff.mp hnil)
        · rfl
      · have hskip : ruleSetsIn (c :: outer) s = ruleSetsIn outer s := by
          rw [ruleSetsIn, Container.ruleSets_eq_nil_iff.mpr hc]
        rw [hskip]
        rcases ih with ⟨hnone, hnil⟩ | ⟨d, ⟨inner, rest, rfl, hd, hinner⟩, hfound⟩
        · exact Or.inl ⟨List.forall_mem_cons.mpr ⟨hc, hnone⟩, hnil⟩
        · exact Or.inr ⟨d, ⟨c :: inner, rest, rfl, hd, List.forall_mem_cons.mpr ⟨hc, hinner⟩⟩,
            hfound⟩

/-- There is one first member at most. -/
theorem IsFirst.unique {P : α → Prop} {as : List α} {a b : α} (ha : IsFirst P as a)
    (hb : IsFirst P as b) : a = b := by
  classical
  have key : ∀ {x}, IsFirst P as x → as.find? (fun y => decide (P y)) = some x := by
    intro x hx
    refine find?_eq_some_iff_isFirst.mpr ?_
    simpa only [decide_eq_true_eq] using hx
  exact Option.some.inj ((key ha).symm.trans (key hb))

theorem Container.setVariables_nil (c : Container) : c.setVariables [] = c := by
  cases c
  rfl

namespace Transform

/-- **The definition that a call with `k` arguments selects**: the first one in the
    nearest container with the selector that accepts them, or else the first one
    there. -/
inductive Selects (frames : List Container) (s : Selector) (k : Nat) (mixin : RuleSet) : Prop where
  | accepting {c : Container} (hc : IsFirst (·.Has s) frames c)
      (h : IsFirst (fun r => s ∈ r.selectors ∧ r.accepts k = true) c.childRuleSets mixin)
  | fallback {c : Container} (hc : IsFirst (·.Has s) frames c)
      (hnone : ∀ r ∈ c.childRuleSets, s ∈ r.selectors → r.accepts k = false)
      (h : IsFirst (s ∈ ·.selectors) c.childRuleSets mixin)

theorem find?_accepts_eq_some_iff {c : Container} {s : Selector} {k : Nat} {mixin : RuleSet} :
    (c.ruleSets s).find? (·.accepts k) = some mixin ↔
      IsFirst (fun r => s ∈ r.selectors ∧ r.accepts k = true) c.childRuleSets mixin := by
  rw [Container.find?_ruleSets, find?_eq_some_iff_isFirst]
  simp only [Bool.and_eq_true, decide_eq_true_eq]

theorem head?_ruleSets_eq_some_iff {c : Container} {s : Selector} {mixin : RuleSet} :
    (c.ruleSets s).head? = some mixin ↔ IsFirst (s ∈ ·.selectors) c.childRuleSets mixin := by
  have hhead : (c.ruleSets s).head? = (c.ruleSets s).find? fun _ => true := by
    cases c.ruleSets s with
    | nil => rfl
    | cons r rs => rfl
  rw [hhead, Container.find?_ruleSets, find?_eq_some_iff_isFirst]
  simp only [Bool.and_true, decide_eq_true_eq]

theorem selectMixin_eq_some_iff {frames : List Container} {s : Selector} {k : Nat}
    {mixin : RuleSet} :
    selectMixin (Scope.ruleSetsIn frames s) k = some mixin ↔ Selects frames s k mixin := by
  rcases Scope.ruleSetsIn_cases frames s with ⟨hnone, hnil⟩ | ⟨c, hc, hfound⟩
  · rw [hnil]
    refine ⟨nofun, fun h => ?_⟩
    have habsurd : ∀ {c}, ¬ IsFirst (·.Has s) frames c := by
      rintro c ⟨before, after, rfl, hhas, -⟩
      exact hnone c (List.mem_append_right _ List.mem_cons_self) hhas
    cases h with
    | accepting hc h => exact absurd hc habsurd
    | fallback hc hnone h => exact absurd hc habsurd
  · rw [hfound, selectMixin]
    constructor
    · intro h
      cases hfind : (c.ruleSets s).find? (·.accepts k) with
      | some r =>
          rw [hfind] at h
          cases h
          exact .accepting hc (find?_accepts_eq_some_iff.mp hfind)
      | none =>
          rw [hfind, Option.none_or] at h
          refine .fallback hc (fun r hr hs => ?_) (head?_ruleSets_eq_some_iff.mp h)
          simpa using List.find?_eq_none.mp hfind r (Container.mem_ruleSets.mpr ⟨hr, hs⟩)
    · intro h
      cases h with
      | accepting hc' h =>
          cases hc.unique hc'
          rw [find?_accepts_eq_some_iff.mpr h]
          rfl
      | fallback hc' hnone h =>
          cases hc.unique hc'
          have hfind : (c.ruleSets s).find? (·.accepts k) = none := by
            refine List.find?_eq_none.mpr fun r hr => ?_
            obtain ⟨hr, hs⟩ := Container.mem_ruleSets.mp hr
            simpa using hnone r hr hs
          rw [hfind, Option.none_or, head?_ruleSets_eq_some_iff.mpr h]

theorem selectMixin_eq_none_iff {frames : List Container} {s : Selector} {k : Nat} :
    selectMixin (Scope.ruleSetsIn frames s) k = none ↔ ∀ c ∈ frames, ¬ c.Has s := by
  rcases Scope.ruleSetsIn_cases frames s with ⟨hnone, hnil⟩ | ⟨c, hc, hfound⟩
  · rw [hnil]
    exact ⟨fun _ => hnone, fun _ => rfl⟩
  · obtain ⟨before, after, rfl, hhas, -⟩ := hc
    refine ⟨fun h => ?_, fun h => absurd hhas (h c (List.mem_append_right _ List.mem_cons_self))⟩
    rw [hfound, selectMixin, Option.or_eq_none_iff, List.head?_eq_none_iff] at h
    exact absurd hhas (Container.ruleSets_eq_nil_iff.mp h.2)

/-! ## How parameters are bound -/

/-- The parameters that get a value, in the order of their declaration: the `i`-th
    one the `i`-th argument, or else its default. -/
def assignments (params : List (String × Option Expr)) (values : List Expr) :
    List (String × Expr) :=
  (params.mapIdx fun i param => (values[i]?.or param.2).map (param.1, ·)).reduceOption

theorem assignments_cons (name : String) (default : Option Expr)
    (params : List (String × Option Expr)) (values : List Expr) :
    assignments ((name, default) :: params) values =
      ((values.head?.or default).map (name, ·)).toList ++ assignments params values.tail := by
  have htail : ∀ i, values[i + 1]? = values.tail[i]? := fun i => List.getElem?_tail.symm
  rw [assignments, List.mapIdx_cons, List.head?_eq_getElem?]
  simp only [htail]
  cases (values[0]?.or default).map (name, ·) with
  | none => rfl
  | some entry => rfl

theorem assignments_nil (values : List Expr) : assignments [] values = [] := by
  rw [assignments, List.mapIdx_nil]
  rfl

/-- Parameters are set one after the other. -/
theorem bindParameters_eq (params : List (String × Option Expr)) (values : List Expr)
    (c : Container) :
    bindParameters params values c = c.setVariables (assignments params values) := by
  induction params generalizing values c with
  | nil => rw [bindParameters, assignments_nil, Container.setVariables_nil]
  | cons param params ih =>
      obtain ⟨name, default⟩ := param
      rw [bindParameters, assignments_cons]
      cases values.head?.or default with
      | none => exact ih values.tail c
      | some value => exact ih values.tail (c.setVariable name value)

theorem names_assignments (params : List (String × Option Expr)) (values : List Expr) :
    ((assignments params values).map Prod.fst).Sublist (params.map Prod.fst) := by
  induction params generalizing values with
  | nil => rw [assignments_nil]; exact .slnil
  | cons param params ih =>
      obtain ⟨name, default⟩ := param
      rw [assignments_cons]
      cases values.head?.or default with
      | none => exact (ih values.tail).cons name
      | some value => exact (ih values.tail).cons_cons name

/-- A parameter has the value of its own argument, since no other parameter has its
    name. -/
theorem lookup_assignments {params : List (String × Option Expr)} {values : List Expr} {i : Nat}
    {name : String} {default : Option Expr} (hnodup : (params.map Prod.fst).Nodup)
    (hparam : params[i]? = some (name, default)) :
    (assignments params values).lookup name = values[i]?.or default := by
  induction params generalizing values i with
  | nil => cases hparam
  | cons param params ih =>
      obtain ⟨other, otherDefault⟩ := param
      rw [List.map_cons, List.nodup_cons] at hnodup
      rw [assignments_cons]
      cases i with
      | zero =>
          cases hparam
          rw [List.head?_eq_getElem?]
          cases values[0]?.or default with
          | some value => exact List.lookup_cons_self
          | none =>
              rw [Option.map_none, Option.toList_none, List.nil_append, List.lookup_eq_none_iff]
              intro entry hentry
              have hmem := (names_assignments params values.tail).subset
                (List.mem_map.mpr ⟨entry, hentry, rfl⟩)
              exact bne_iff_ne.mpr fun heq => hnodup.1 (heq ▸ hmem)
      | succ i =>
          have hparam' : params[i]? = some (name, default) := hparam
          have hmem : name ∈ params.map Prod.fst :=
            List.mem_map.mpr ⟨_, List.mem_of_getElem? hparam', rfl⟩
          have hne : name ≠ other := fun heq => hnodup.1 (heq ▸ hmem)
          have hskip :
              ((values.head?.or otherDefault).map (other, ·)).toList.lookup name = none := by
            cases values.head?.or otherDefault with
            | none => rfl
            | some value => exact (List.lookup_cons ..).trans (by rw [beq_false_of_ne hne]; rfl)
          rw [List.lookup_append, hskip, Option.none_or, ih hnodup.2 hparam', List.getElem?_tail]

/-- The parameters of a rule set, none for a plain one. -/
def parametersOf (r : RuleSet) : List (String × Option Expr) :=
  match r.params with
  | some params => params.entries
  | none => []

/-- **The container has the parameters of the mixin set**: in the order of their
    declaration, the `i`-th to the `i`-th of the values, or else to its default.  One
    with neither stays what it was, like every other variable. -/
structure BindsParameters (mixin : RuleSet) (values : List Expr) (bound : Container) : Prop where
  sets : bound = mixin.container.setVariables (assignments (parametersOf mixin) values)
  parameter : ∀ (i : Nat) name default, (parametersOf mixin)[i]? = some (name, default) →
    bound.getVar? name = (values[i]?.or default).or (mixin.container.getVar? name)
  other : ∀ name, name ∉ (parametersOf mixin).map Prod.fst →
    bound.getVar? name = mixin.container.getVar? name

theorem instantiate_bindsParameters (mixin : RuleSet) (values : List Expr) :
    ∃ bound, BindsParameters mixin values bound
      ∧ instantiate mixin values = { mixin with params := none, container := bound } := by
  have hnodup : ((parametersOf mixin).map Prod.fst).Nodup := by
    rw [parametersOf]
    split
    · rename_i params _
      exact params.nodup
    · exact List.nodup_nil
  have hget : ∀ name, (mixin.container.setVariables
      (assignments (parametersOf mixin) values)).getVar? name =
        ((assignments (parametersOf mixin) values).lookup name).or
          (mixin.container.getVar? name) :=
    fun name => Bindings.get?_setAll (hnodup.sublist (names_assignments _ values)) name
  refine ⟨_, ⟨rfl, fun i name default hparam => ?_, fun name hname => ?_⟩, ?_⟩
  · rw [hget, lookup_assignments hnodup hparam]
  · have hnone : (assignments (parametersOf mixin) values).lookup name = none := by
      rw [List.lookup_eq_none_iff]
      intro entry hentry
      have hmem := (names_assignments _ values).subset (List.mem_map.mpr ⟨entry, hentry, rfl⟩)
      exact bne_iff_ne.mpr fun heq => hname (heq ▸ hmem)
    rw [hget, hnone, Option.none_or]
  · obtain ⟨selectors, params, items, container, position⟩ := mixin
    cases params with
    | some params =>
        simp only [instantiate, bindParameters_eq]
        rfl
    | none =>
        rw [parametersOf, assignments_nil, Container.setVariables_nil]
        rfl

/-! ## Why a call is refused -/

/-- **The reason a call is refused**, the first of four that applies. -/
inductive Refused (n : Nat) (active : List Selector) (scope : Scope) (source dest : Container)
    (call : MixinCall) : Error → Prop where
  /-- The mixin is being expanded. -/
  | recursive (h : call.selector ∈ active) :
      Refused n active scope source dest call (.recursiveMixin call.selector.text)
  /-- No container from the caller's own outward has the selector. -/
  | undefined (hactive : call.selector ∉ active)
      (h : ∀ c ∈ source :: scope.frames, ¬ c.Has call.selector) :
      Refused n active scope source dest call (.undefinedMixin call.selector.text)
  /-- The selected definition has fewer parameters than the call has arguments. -/
  | arity (hactive : call.selector ∉ active) {mixin : RuleSet}
      (hmixin : Selects (source :: scope.frames) call.selector call.arguments.length mixin)
      (h : mixin.arity < call.arguments.length) :
      Refused n active scope source dest call (.mixinArity mixin.arity call.arguments.length)
  /-- An argument has no value, while all before it have one. -/
  | argument (hactive : call.selector ∉ active) {mixin : RuleSet}
      (hmixin : Selects (source :: scope.frames) call.selector call.arguments.length mixin)
      (harity : call.arguments.length ≤ mixin.arity) {before after : List Expr} {a : Expr}
      {e : Error} (harguments : call.arguments = before ++ a :: after)
      (hbefore : ∀ b ∈ before, ∃ v, b.eval n (scope.child dest) = .done v)
      (h : a.eval n (scope.child dest) = .failed e) : Refused n active scope source dest call e

variable {n : Nat} {active : List Selector} {scope : Scope} {source dest : Container}
    {call : MixinCall} {e : Error} {ds : List Error}

/-- A call that is refused is reported. -/
theorem prepareCall_of_refused (h : Refused n active scope source dest call e) :
    prepareCall n active scope source dest call = some (none, [e.locate call.position]) := by
  have hcontains : call.selector ∉ active → active.contains call.selector = false := fun hactive =>
    Bool.eq_false_iff.mpr fun hmem => hactive (List.contains_iff_mem.mp hmem)
  rw [prepareCall]
  cases h with
  | recursive h =>
      rw [List.contains_iff_mem.mpr h]
      rfl
  | undefined hactive h =>
      have hnone : selectMixin ((scope.child source).ruleSets call.selector)
          call.arguments.length = none := selectMixin_eq_none_iff.mpr h
      simp only [hcontains hactive, hnone]
      rfl
  | @arity hactive mixin hmixin h =>
      have hsome : selectMixin ((scope.child source).ruleSets call.selector)
          call.arguments.length = some mixin := selectMixin_eq_some_iff.mpr hmixin
      simp only [hcontains hactive, hsome, h]
      rfl
  | @argument hactive mixin hmixin harity before after a e harguments hbefore h =>
      have hsome : selectMixin ((scope.child source).ruleSets call.selector)
          call.arguments.length = some mixin := selectMixin_eq_some_iff.mpr hmixin
      have hfailed : call.arguments.mapM (Expr.eval n (scope.child dest)) = .failed e :=
        Evaluation.mapM_eq_failed_iff.mpr ⟨before, a, after, harguments, hbefore, h⟩
      simp only [hcontains hactive, hsome, Nat.not_lt.mpr harity, hfailed]
      rfl

/-- **A call that fails is refused.** -/
theorem refused_of_prepareCall (h : prepareCall n active scope source dest call = some (none, ds)) :
    ∃ e, Refused n active scope source dest call e := by
  by_cases hactive : call.selector ∈ active
  · exact ⟨_, .recursive hactive⟩
  · cases hselect : selectMixin (Scope.ruleSetsIn (source :: scope.frames) call.selector)
        call.arguments.length with
    | none => exact ⟨_, .undefined hactive (selectMixin_eq_none_iff.mp hselect)⟩
    | some mixin =>
        have hmixin := selectMixin_eq_some_iff.mp hselect
        by_cases harity : mixin.arity < call.arguments.length
        · exact ⟨_, .arity hactive hmixin harity⟩
        · -- the definition fits, so an argument is at fault
          have hcontains : active.contains call.selector = false :=
            Bool.eq_false_iff.mpr fun hmem => hactive (List.contains_iff_mem.mp hmem)
          have hsome : selectMixin ((scope.child source).ruleSets call.selector)
              call.arguments.length = some mixin := hselect
          rw [prepareCall] at h
          simp only [hcontains, hsome, harity, if_false, Bool.false_eq_true] at h
          obtain ⟨r, first, second, hr, hlater, -⟩ := Reporting.bind_eq_some h
          rcases (Reporting.attempt_eq_some hr).2 with ⟨e, he, rfl⟩ | ⟨values, hvalues, rfl⟩
          · obtain ⟨before, a, after, harguments, hbefore, ha⟩ :=
              Evaluation.mapM_eq_failed_iff.mp he
            exact ⟨e, .argument hactive hmixin (Nat.le_of_not_lt harity) harguments hbefore ha⟩
          · cases hlater

end Transform

/-! ## What a refused call leaves behind -/

namespace Stacked

open Transform (Pending)

/-- Items are gathered part by part. -/
theorem gather_append (call : Container → MixinCall → Stacked (Option RuleSet))
    (before after : List Item) (dest : Container) :
    gather call (before ++ after) dest = do
      let (buffered, middle) ← gather call before dest
      let (later, final) ← gather call after middle
      return (buffered ++ later, final) := by
  induction before generalizing dest with
  | nil =>
      rw [List.nil_append, gather, pure_bind]
      exact (bind_pure _).symm
  | cons item before ih =>
      cases item with
      | declaration d =>
          rw [List.cons_append, gather, gather, ih]
          simp only [bind_assoc, pure_bind, List.cons_append]
      | mixin c =>
          rw [List.cons_append, gather, gather]
          simp only [bind_assoc]
          refine congrArg _ (funext fun result => ?_)
          cases result with
          | none => exact ih dest
          | some copy =>
              simp only [ih, bind_assoc, pure_bind, List.append_assoc]

variable {n : Nat} {scope : Scope} {source dest : Container} {call : MixinCall} {e : Error}

theorem bind_run {α β : Type} {x : Stacked α} {f : α → Stacked β} {stack middle last : Stack}
    {a : α} {b : β} {es fs : List Error} (hx : x stack = some ((a, middle), es))
    (hf : f a middle = some ((b, last), fs)) : (x >>= f) stack = some ((b, last), es ++ fs) :=
  Reporting.bind_of_some hx hf

/-- A refused call leaves the stack alone. -/
theorem expandCall_of_refused {expand : Scope → RuleSet → Stacked RuleSet} {stack : Stack}
    (h : Transform.Refused n stack.active scope source dest call e) :
    expandCall n expand scope source dest call stack =
      some ((none, stack), [e.locate call.position]) := by
  rw [expandCall, active_bind_run]
  have hlift : lift (Transform.prepareCall n stack.active scope source dest call) stack =
      some ((none, stack), [e.locate call.position] ++ []) :=
    Reporting.bind_of_some (Transform.prepareCall_of_refused h) rfl
  exact bind_run hlift rfl

end Stacked

namespace Transform

variable {n : Nat} {active : List Selector} {scope : Scope} {source dest : Container}
    {call : MixinCall} {e : Error} {ds : List Error}

/-- Gathers the items of a rule set, with the mixins being expanded on a stack. -/
def gatherOnStack (n : Nat) (scope : Scope) (source : Container) :
    List Item → Container → Stacked (List Pending × Container) :=
  Stacked.gather (Stacked.expandCall n (Stacked.expand n) scope source)

/-- **A call leaves one diagnostic behind and nothing else.**  Let the items before
    it have given some declarations and the container `dest`, with `active` on the
    stack.  Then the items behind it start from the same container and the same
    stack, and what they give stands behind the declarations given so far. -/
def LeavesOnly (n : Nat) (active : List Selector) (scope : Scope) (source dest : Container)
    (call : MixinCall) (diagnostic : Error) : Prop :=
  ∀ {before after : List Item} {start final : Container} {buffered later : List Pending}
    {stack last : Stack} {seen : List (List Selector)} {es fs : List Error},
    gatherOnStack n scope source before start stack =
        some (((buffered, dest), ⟨active, seen⟩), es) →
    gatherOnStack n scope source after dest ⟨active, seen⟩ = some (((later, final), last), fs) →
    gatherOnStack n scope source (before ++ .mixin call :: after) start stack =
      some (((buffered ++ later, final), last), es ++ diagnostic :: fs)

theorem leavesOnly_of_refused (h : Refused n active scope source dest call e) :
    LeavesOnly n active scope source dest call (e.locate call.position) := by
  intro before after start final buffered later stack last seen es fs hbefore hafter
  have hcall : gatherOnStack n scope source (.mixin call :: after) dest ⟨active, seen⟩ =
      some (((later, final), last), [e.locate call.position] ++ fs) :=
    Stacked.bind_run (Stacked.expandCall_of_refused h) hafter
  rw [gatherOnStack, Stacked.gather_append]
  refine (Stacked.bind_run hbefore (Stacked.bind_run hcall rfl)).trans ?_
  rw [List.append_nil]
  rfl

/-! ## The contract -/

theorem expandCall_of_refused {expand : Expander} (h : Refused n active scope source dest call e) :
    expandCall n expand active scope source dest call =
      some (none, [e.locate call.position]) :=
  Reporting.bind_of_some (prepareCall_of_refused h) rfl

theorem refused_of_expandCall {expand : Expander}
    (h : expandCall n expand active scope source dest call = some (none, ds)) :
    ∃ e, Refused n active scope source dest call e := by
  obtain ⟨copy, first, second, hcopy, hrest, -⟩ := Reporting.bind_eq_some h
  cases copy with
  | none => exact refused_of_prepareCall hcopy
  | some mixin =>
      obtain ⟨expanded, -, hnone⟩ := Reporting.map_eq_some hrest
      cases hnone

/-- A selected definition with enough parameters is the first that accepts the
    arguments. -/
theorem Selects.isFirst_accepts {frames : List Container} {s : Selector} {k : Nat}
    {mixin : RuleSet} (h : Selects frames s k mixin) (harity : k ≤ mixin.arity) :
    ∃ c, IsFirst (·.Has s) frames c
      ∧ IsFirst (fun r => s ∈ r.selectors ∧ r.accepts k = true) c.childRuleSets mixin := by
  cases h with
  | accepting hc h => exact ⟨_, hc, h⟩
  | fallback hc hnone h =>
      obtain ⟨before, after, hsplit, hs, -⟩ := h
      have hmem : mixin ∈ _ := hsplit ▸ List.mem_append_right before List.mem_cons_self
      have hrefuses := hnone mixin hmem hs
      rw [accepts_iff.mpr harity] at hrefuses
      cases hrefuses

/-- An error that takes a position keeps the one it has and takes the other if it
    has none. -/
theorem position?_locate {p : Option Position} (h : ∀ messages, e ≠ .compile messages) :
    (e.locate p).position? = e.position?.or p := by
  cases e with
  | compile messages => exact absurd rfl (h messages)
  | located q cause => rfl
  | _ => cases p <;> rfl

/-- **THE CONTRACT OF A CALL.**  A call that ends fails exactly if it is refused;
    then it leaves one diagnostic, at the position of the error or else of the call.
    Otherwise the first definition that accepts the arguments, in the nearest
    container with the selector, is expanded with its parameters bound, its selector
    on the stack, and the stack is as before in the end. -/
theorem expandCall_contract {result : Option RuleSet}
    (h : expandCall n (expand n) active scope source dest call = some (result, ds)) :
    (result = none ↔ ∃ e, Refused n active scope source dest call e)
      ∧ (∀ e, Refused n active scope source dest call e →
        ds = [e.locate call.position]
        ∧ (e.locate call.position).kind = e.kind
        ∧ ((∀ messages, e ≠ .compile messages) →
          (e.locate call.position).position? = e.position?.or call.position)
        ∧ LeavesOnly n active scope source dest call (e.locate call.position))
      ∧ (∀ copy, result = some copy → ∃ c mixin values bound,
        IsFirst (·.Has call.selector) (source :: scope.frames) c
        ∧ IsFirst (fun r => call.selector ∈ r.selectors
            ∧ r.accepts call.arguments.length = true) c.childRuleSets mixin
        ∧ List.Forall₂ (fun a v => a.eval n (scope.child dest) = .done v) call.arguments values
        ∧ BindsParameters mixin values bound
        ∧ expand n (call.selector :: active) (scope.child dest)
            { mixin with params := none, container := bound } = some (copy, ds))
      ∧ (active.Nodup → ∀ seen, (∀ s ∈ seen, s.Nodup) → ∃ seen',
        Stacked.expandCall n (Stacked.expand n) scope source dest call ⟨active, seen⟩ =
          some ((result, ⟨active, seen'⟩), ds)) := by
  refine ⟨⟨?_, ?_⟩, fun e he => ?_, fun copy hcopy => ?_, fun hactive seen hseen => ?_⟩
  · rintro rfl
    exact refused_of_expandCall h
  · rintro ⟨e, he⟩
    rw [expandCall_of_refused he] at h
    cases h
    rfl
  · have hds := h
    rw [expandCall_of_refused he] at hds
    cases hds
    exact ⟨rfl, Error.kind_locate e _, position?_locate, leavesOnly_of_refused he⟩
  · rcases expandCall_eq_some h with
      ⟨rfl, -⟩ | ⟨mixin, values, expanded, -, hmixin, harity, hvalues, hexpanded, rfl⟩
    · cases hcopy
    · cases hcopy
      obtain ⟨c, hc, hfirst⟩ := (selectMixin_eq_some_iff.mp hmixin).isFirst_accepts harity
      obtain ⟨bound, hbound, hinstance⟩ := instantiate_bindsParameters mixin values
      rw [hinstance] at hexpanded
      exact ⟨c, mixin, values, bound, hc, hfirst, Evaluation.mapM_eq_done hvalues, hbound,
        hexpanded⟩
  · obtain ⟨seen', -, hrun⟩ := Stacked.expandCall_follows (n := n)
      (fun scope r hnodup => Stacked.expand_follows n scope r hnodup) hactive scope source dest
      call seen hseen
    refine ⟨seen', ?_⟩
    rw [hrun, map_eq_pure_bind]
    exact (Reporting.bind_of_some h rfl).trans (by rw [List.append_nil])

/-- A call with one argument passes over a plain rule set with its selector, which
    takes none, and leaves the second parameter of the definition behind it to its
    default. -/
theorem expandCall_contract_with_default :
    let plain : RuleSet :=
      { selectors := [⟨".m"⟩], params := none, items := [], container := .empty, position := none }
    let definition : RuleSet :=
      { selectors := [⟨".m"⟩]
        params := some (.ofList [("a", none), ("b", some (.literal "2px" none))])
        items := [.declaration { property := "w", values := [.var "a" none, .var "b" none] }]
        container := .empty, position := none }
    let scope : Scope := (Scope.root .builtin).child
      { vars := .ofList [("c", .literal "red" none)]
        body := [.ruleSet plain, .ruleSet definition] }
    let call : MixinCall := { selector := ⟨".m"⟩, arguments := [.var "c" none] }
    let copy : RuleSet :=
      { definition with
        params := none
        items := [.declaration
          { property := "w", values := [.literal "red" none, .literal "2px" none] }]
        container :=
          { vars := .ofList [("a", .literal "red" none), ("b", .literal "2px" none)], body := [] } }
    expandCall 4 (expand 4) [] scope .empty .empty call = some (some copy, [])
      ∧ (∀ e, ¬ Refused 4 [] scope .empty .empty call e)
      ∧ ∃ c mixin values bound,
        IsFirst (·.Has ⟨".m"⟩) (.empty :: scope.frames) c
        ∧ IsFirst (fun r => ⟨".m"⟩ ∈ r.selectors ∧ r.accepts 1 = true) c.childRuleSets mixin
        ∧ List.Forall₂ (fun a v => a.eval 4 (scope.child .empty) = .done v)
            call.arguments values
        ∧ BindsParameters mixin values bound
        ∧ expand 4 [⟨".m"⟩] (scope.child .empty)
            { mixin with params := none, container := bound } = some (copy, []) := by
  intro plain definition scope call copy
  have h : expandCall 4 (expand 4) [] scope .empty .empty call = some (some copy, []) := by rfl
  obtain ⟨hfails, -, hexpands, -⟩ := expandCall_contract h
  have haccepted : ∀ e, ¬ Refused 4 [] scope .empty .empty call e :=
    fun e he => nomatch hfails.mpr ⟨e, he⟩
  exact ⟨h, haccepted, hexpands copy rfl⟩

end Transform

end Less
