import Less.Proofs.LazyEager
import Less.Proofs.Placement
import Less.Proofs.Splicing
import Less.Proofs.Tame

/-! # Scopes that agree

    What an expression or a rule set becomes depends on the scope through what
    is looked up there: the variables it names, the rule sets its accessors read
    and its mixin calls expand.  Two scopes may differ in other variables and
    other selectors, and nothing of that shows.

    * `Difference`: the names and selectors in which two scopes may differ,
      together with the rule sets that may be met, the selectors that accessors
      may read and the calls that may be made.  It carries the proof that none of
      them leads to a difference.
    * `Agree D left right`: the scopes agree outside `D`.  They still do inside
      a container, where the names the container has make no difference any more
      (`Agree.child`).
    * Evaluation is the same in both (`eval_same`), and so is the expansion of a
      rule set (`expand_agrees`), by induction on the depth of calls.

    Computations are compared by `Reporting.Agrees R`: both give nothing, or
    both give results related by `R` with the same diagnostics. -/

namespace Less

/-! ## Computations that agree -/

/-- Steps that are the same at every member are the same on the list. -/
theorem mapM_congr_of_mem {m : Type → Type} [Monad m] [LawfulMonad m] {α β : Type} {f g : α → m β}
    {as : List α} (h : ∀ a ∈ as, f a = g a) : as.mapM f = as.mapM g := by
  induction as with
  | nil => rfl
  | cons a as ih =>
      rw [List.mapM_cons, List.mapM_cons, h a List.mem_cons_self,
        ih fun b hb => h b (List.mem_cons_of_mem a hb)]

namespace Reporting

variable {α β γ δ : Type}

/-- Neither computation has a result, or both do, related by `R`, with the same
    diagnostics. -/
def Agrees (R : α → β → Prop) (x : Reporting α) (y : Reporting β) : Prop :=
  (x = none ∧ y = none) ∨ ∃ a b ds, x = some (a, ds) ∧ y = some (b, ds) ∧ R a b

theorem Agrees.pure {R : α → β → Prop} {a : α} {b : β} (h : R a b) :
    Agrees R (pure a : Reporting α) (pure b : Reporting β) :=
  Or.inr ⟨a, b, [], rfl, rfl, h⟩

/-- A computation agrees with itself as far as its results do. -/
theorem Agrees.refl {R : α → α → Prop} {x : Reporting α}
    (h : ∀ a ds, x = some (a, ds) → R a a) : Agrees R x x := by
  cases x with
  | none => exact Or.inl ⟨rfl, rfl⟩
  | some r => exact Or.inr ⟨r.1, r.1, r.2, rfl, rfl, h r.1 r.2 rfl⟩

theorem Agrees.imp {R Q : α → β → Prop} {x : Reporting α} {y : Reporting β} (h : Agrees R x y)
    (hRQ : ∀ a b, R a b → Q a b) : Agrees Q x y := by
  rcases h with h | ⟨a, b, ds, hx, hy, hab⟩
  · exact Or.inl h
  · exact Or.inr ⟨a, b, ds, hx, hy, hRQ a b hab⟩

theorem Agrees.bind {R : α → β → Prop} {Q : γ → δ → Prop} {x : Reporting α} {y : Reporting β}
    {f : α → Reporting γ} {g : β → Reporting δ} (h : Agrees R x y)
    (hfg : ∀ a b, R a b → Agrees Q (f a) (g b)) : Agrees Q (x >>= f) (y >>= g) := by
  rcases h with ⟨rfl, rfl⟩ | ⟨a, b, ds, rfl, rfl, hab⟩
  · exact Or.inl ⟨rfl, rfl⟩
  · rcases hfg a b hab with ⟨hf, hg⟩ | ⟨c, d, es, hf, hg, hcd⟩
    · refine Or.inl ⟨?_, ?_⟩
      · show Reporting.bind (some (a, ds)) f = none
        simp only [Reporting.bind, hf]
        rfl
      · show Reporting.bind (some (b, ds)) g = none
        simp only [Reporting.bind, hg]
        rfl
    · exact Or.inr ⟨c, d, ds ++ es, bind_of_some rfl hf, bind_of_some rfl hg, hcd⟩

theorem Agrees.map {R : α → β → Prop} {Q : γ → δ → Prop} {x : Reporting α} {y : Reporting β}
    {f : α → γ} {g : β → δ} (h : Agrees R x y) (hfg : ∀ a b, R a b → Q (f a) (g b)) :
    Agrees Q (f <$> x) (g <$> y) := by
  rw [map_eq_pure_bind, map_eq_pure_bind]
  exact h.bind fun a b hab => .pure (hfg a b hab)

/-- Computations that agree on equal results are equal. -/
theorem Agrees.eq {R : α → α → Prop} {x y : Reporting α} (h : Agrees R x y)
    (hR : ∀ a b, R a b → a = b) : x = y := by
  rcases h with ⟨rfl, rfl⟩ | ⟨a, b, ds, rfl, rfl, hab⟩
  · rfl
  · rw [hR a b hab]

end Reporting

/-! ## What an expression looks up -/

namespace Expr

mutual

/-- The selectors that the accessors in an expression read. -/
def targets : Expr → List Selector
  | access target _ _ => [target]
  | list items _ => targetsOf items
  | call _ arguments _ => targetsOf arguments
  | binary _ left right _ => left.targets ++ right.targets
  | constant _ _ => []
  | literal _ _ => []
  | var _ _ => []

/-- The selectors that the accessors in expressions read. -/
def targetsOf : List Expr → List Selector
  | [] => []
  | e :: es => e.targets ++ targetsOf es

end

theorem mem_targetsOf {s : Selector} {es : List Expr} :
    s ∈ targetsOf es ↔ ∃ e ∈ es, s ∈ e.targets := by
  induction es with
  | nil => simp [targetsOf]
  | cons e es ih => simp only [targetsOf, List.mem_append, ih, List.exists_mem_cons_iff]

mutual

/-- Without accessors no selector is read. -/
theorem targets_of_isAccessFree : ∀ e : Expr, e.isAccessFree = true → e.targets = []
  | constant _ _, _ => rfl
  | literal _ _, _ => rfl
  | var _ _, _ => rfl
  | access _ _ _, h => nomatch h
  | list items p, h => targetsOf_of_isAccessFree items (isAccessFree_list.mp h)
  | call _ arguments p, h => targetsOf_of_isAccessFree arguments (isAccessFree_call.mp h)
  | binary op left right p, h => by
      rw [targets, targets_of_isAccessFree left (isAccessFree_binary.mp h).1,
        targets_of_isAccessFree right (isAccessFree_binary.mp h).2]
      rfl

theorem targetsOf_of_isAccessFree : ∀ es : List Expr, (∀ e ∈ es, e.isAccessFree = true) →
    targetsOf es = []
  | [], _ => rfl
  | e :: es, h => by
      rw [targetsOf, targets_of_isAccessFree e (h e List.mem_cons_self),
        targetsOf_of_isAccessFree es fun e' he' => h e' (List.mem_cons_of_mem e he')]
      rfl

end

/-- The expression names no variable of `names` and reads `targets` only. -/
structure Avoids (names : String → Prop) (targets : Selector → Prop) (e : Expr) : Prop where
  names : ∀ name ∈ e.varNames, ¬ names name
  targets : ∀ s ∈ e.targets, targets s

namespace Avoids

variable {names names' : String → Prop} {ts : Selector → Prop}

theorem mono {e : Expr} (h : e.Avoids names ts) (hsub : ∀ name, names' name → names name) :
    e.Avoids names' ts :=
  ⟨fun name hname hin => h.names name hname (hsub name hin), h.targets⟩

theorem list {items : List Expr} {p : Option Position} (h : (Expr.list items p).Avoids names ts) :
    ∀ item ∈ items, item.Avoids names ts :=
  fun item hitem =>
    ⟨fun name hname => h.names name (mem_varNamesOf.mpr ⟨item, hitem, hname⟩),
      fun s hs => h.targets s (mem_targetsOf.mpr ⟨item, hitem, hs⟩)⟩

theorem call {f : String} {arguments : List Expr} {p : Option Position}
    (h : (Expr.call f arguments p).Avoids names ts) : ∀ a ∈ arguments, a.Avoids names ts :=
  fun a ha =>
    ⟨fun name hname => h.names name (mem_varNamesOf.mpr ⟨a, ha, hname⟩),
      fun s hs => h.targets s (mem_targetsOf.mpr ⟨a, ha, hs⟩)⟩

theorem left {op : Operator} {l r : Expr} {p : Option Position}
    (h : (Expr.binary op l r p).Avoids names ts) : l.Avoids names ts :=
  ⟨fun name hname => h.names name (List.mem_append_left _ hname),
    fun s hs => h.targets s (List.mem_append_left _ hs)⟩

theorem right {op : Operator} {l r : Expr} {p : Option Position}
    (h : (Expr.binary op l r p).Avoids names ts) : r.Avoids names ts :=
  ⟨fun name hname => h.names name (List.mem_append_right _ hname),
    fun s hs => h.targets s (List.mem_append_right _ hs)⟩

end Avoids

/-- Nothing is looked up in a value. -/
theorem varNames_targets_of_isValue {functions : Registry} {k : Nat} {v : Expr}
    (h : IsValue functions k v) : v.varNames = [] ∧ v.targets = [] := by
  induction h with
  | constant v p => exact ⟨rfl, rfl⟩
  | literal s p => exact ⟨rfl, rfl⟩
  | call p _ _ ih =>
      refine ⟨List.eq_nil_iff_forall_not_mem.mpr fun name hname => ?_,
        List.eq_nil_iff_forall_not_mem.mpr fun s hs => ?_⟩
      · obtain ⟨a, ha, hname⟩ := mem_varNamesOf.mp hname
        rw [(ih a ha).1] at hname
        exact absurd hname List.not_mem_nil
      · obtain ⟨a, ha, hs⟩ := mem_targetsOf.mp hs
        rw [(ih a ha).2] at hs
        exact absurd hs List.not_mem_nil
  | binary p _ _ _ ihl ihr =>
      rw [varNames, targets, ihl.1, ihl.2, ihr.1, ihr.2]
      exact ⟨rfl, rfl⟩

theorem avoids_of_isValue {functions : Registry} {k : Nat} {v : Expr} (h : IsValue functions k v)
    (names : String → Prop) (targets : Selector → Prop) : v.Avoids names targets := by
  obtain ⟨hnames, htargets⟩ := varNames_targets_of_isValue h
  refine ⟨fun name hname => ?_, fun s hs => ?_⟩
  · rw [hnames] at hname
    exact absurd hname List.not_mem_nil
  · rw [htargets] at hs
    exact absurd hs List.not_mem_nil

end Expr

/-! ## Differences -/

/-- Every copy of the rule set that is made with so many arguments has the
    variable. -/
def RuleSet.Binds (r : RuleSet) (count : Nat) (name : String) : Prop :=
  ∀ arguments : List Expr, arguments.length = count →
    ((Transform.instantiate r arguments).container.getVar? name).isSome = true

/-- What two scopes may differ in, and what may be met where they are used:
    neither an accessor that reads one of the `targets` nor one of the `calls`
    leads to a name or a selector in which they differ. -/
structure Difference where
  /-- Names of variables that may have different values. -/
  names : String → Prop
  /-- Selectors that may have different rule sets. -/
  selectors : Selector → Prop
  /-- Rule sets that may be found. -/
  pool : RuleSet → Prop
  /-- Selectors that accessors may read. -/
  targets : Selector → Prop
  /-- Calls that may be made. -/
  calls : MixinCall → Prop
  children : ∀ {r : RuleSet}, pool r → ∀ child ∈ r.container.childRuleSets, pool child
  targetSame : ∀ {s : Selector}, targets s → ¬ selectors s
  targetReads : ∀ {s : Selector} {r : RuleSet}, targets s → pool r → s ∈ r.selectors →
    (∀ v ∈ r.container.values,
      v.Avoids (fun x => names x ∧ r.container.getVar? x = none) targets)
    ∧ ∀ d ∈ r.declarations, ∀ v ∈ d.values,
      v.Avoids (fun x => names x ∧ r.container.getVar? x = none) targets
  callSame : ∀ {c : MixinCall}, calls c → ¬ selectors c.selector
  callReads : ∀ {c : MixinCall} {r : RuleSet}, calls c → pool r → c.selector ∈ r.selectors →
    (∀ e ∈ (Element.ruleSet r).exprs,
      e.Avoids (fun x => names x ∧ ¬ r.Binds c.arguments.length x) targets)
    ∧ ∀ c', .mixin c' ∈ r.items → calls c'

namespace Difference

variable {D : Difference}

/-- Inside a container the names it has make no difference. -/
def inside (D : Difference) (c : Container) : Difference :=
  { D with
    names := fun x => D.names x ∧ c.getVar? x = none
    targetReads := fun hs hr hmem =>
      ⟨fun v hv => ((D.targetReads hs hr hmem).1 v hv).mono fun _ h => ⟨h.1.1, h.2⟩,
        fun d hd v hv => ((D.targetReads hs hr hmem).2 d hd v hv).mono fun _ h => ⟨h.1.1, h.2⟩⟩
    callReads := fun hc hr hmem =>
      ⟨fun e he => ((D.callReads hc hr hmem).1 e he).mono fun _ h => ⟨h.1.1, h.2⟩,
        (D.callReads hc hr hmem).2⟩ }

/-- The expression does not look at the difference. -/
abbrev Clear (D : Difference) (e : Expr) : Prop :=
  e.Avoids D.names D.targets

theorem Clear.inside {e : Expr} (h : D.Clear e) (c : Container) : (D.inside c).Clear e :=
  h.mono fun _ h => h.1

end Difference

/-- The values of the container do not look at a difference beyond its own
    names, and its rule sets may be found. -/
structure Container.Fits (D : Difference) (c : Container) : Prop where
  values : ∀ v ∈ c.values, (D.inside c).Clear v
  ruleSets : ∀ r ∈ c.childRuleSets, D.pool r

/-- A rule set that may be expanded: its expressions do not look at a difference
    beyond its own names, and it makes calls that may be made. -/
structure RuleSet.Fits (D : Difference) (r : RuleSet) : Prop where
  container : r.container.Fits D
  items : ∀ item ∈ r.items, ∀ e ∈ item.exprs, (D.inside r.container).Clear e
  calls : ∀ c, .mixin c ∈ r.items → D.calls c

/-- **The scopes agree outside the difference**, and variables outside it lead to
    no difference. -/
structure Agree (D : Difference) (left right : Scope) : Prop where
  builtin : left.functions = .builtin
  functions : left.functions = right.functions
  resolving : left.resolving = right.resolving
  vars : ∀ {name}, ¬ D.names name → left.getVar? name = right.getVar? name
  ruleSets : ∀ {s}, ¬ D.selectors s → left.ruleSets s = right.ruleSets s
  values : ∀ {name v}, ¬ D.names name → left.getVar? name = some v → D.Clear v
  pool : ∀ {s r}, r ∈ left.ruleSets s → D.pool r

/-! ## Lookup inside a container -/

namespace Scope

/-- Inside a container, its own rule sets hide those around it. -/
theorem ruleSets_child (scope : Scope) (c : Container) (s : Selector) :
    (scope.child c).ruleSets s =
      if c.ruleSets s = [] then scope.ruleSets s else c.ruleSets s := by
  show ruleSetsIn (c :: scope.frames) s = _
  rw [ruleSetsIn]
  split
  · rename_i h
    rw [if_pos h]
    rfl
  · rename_i h
    rw [if_neg h]

end Scope

/-- Behind a resolved part, its rule sets hide those of the sheet. -/
theorem Transform.ruleSets_scopeBehind (functions : Registry) (sheet : Sheet) (part : Container)
    (s : Selector) : (scopeBehind functions sheet part).ruleSets s =
      if part.ruleSets s = [] then sheet.container.ruleSets s else part.ruleSets s := by
  rw [scopeBehind, Scope.ruleSets_child, Scope.ruleSets_child]
  congr 1
  split
  · rename_i hnil
    exact hnil.symm
  · rfl

theorem Container.mem_ruleSets {c : Container} {s : Selector} {r : RuleSet} :
    r ∈ c.ruleSets s ↔ r ∈ c.childRuleSets ∧ s ∈ r.selectors := by
  rw [Container.mem_childRuleSets]
  exact Transform.mem_ruleSetsAmong

/-- A rule set that is found has the selector. -/
theorem Scope.mem_selectors_of_mem_ruleSets {scope : Scope} {s : Selector} {r : RuleSet}
    (h : r ∈ scope.ruleSets s) : s ∈ r.selectors := by
  have hall : ∀ frames : List Container, r ∈ ruleSetsIn frames s → s ∈ r.selectors := by
    intro frames
    induction frames with
    | nil => exact fun h => absurd h List.not_mem_nil
    | cons c outer ih =>
        intro h
        rw [ruleSetsIn] at h
        split at h
        · exact ih h
        · exact (Container.mem_ruleSets.mp h).2
  exact hall scope.frames h

namespace Agree

variable {D : Difference} {left right : Scope}

theorem enter (h : Agree D left right) (name : String) :
    Agree D (left.enter name) (right.enter name) :=
  { h with
    resolving := by
      show name :: left.resolving = name :: right.resolving
      rw [h.resolving] }

/-- **Inside the same container, scopes that agree still do.** -/
theorem child (h : Agree D left right) {c : Container} (hc : c.Fits D) :
    Agree (D.inside c) (left.child c) (right.child c) where
  builtin := h.builtin
  functions := h.functions
  resolving := h.resolving
  vars {name} hname := by
    rw [Expr.getVar?_child, Expr.getVar?_child]
    cases hget : c.getVar? name with
    | some v => rfl
    | none =>
        have hout : ¬ D.names name := fun hin => hname ⟨hin, hget⟩
        rw [h.vars hout]
  ruleSets {s} hs := by
    rw [Scope.ruleSets_child, Scope.ruleSets_child, h.ruleSets hs]
  values {name v} hname hv := by
    rw [Expr.getVar?_child] at hv
    cases hget : c.getVar? name with
    | some w =>
        rw [hget] at hv
        cases hv
        exact hc.values v (List.mem_map_of_mem (Bindings.mem_of_get? hget))
    | none =>
        rw [hget] at hv
        have hout : ¬ D.names name := fun hin => hname ⟨hin, hget⟩
        exact (h.values hout hv).inside c
  pool {s r} hr := by
    rw [Scope.ruleSets_child] at hr
    split at hr
    · exact h.pool hr
    · exact hc.ruleSets r (Container.mem_ruleSets.mp hr).1

end Agree

/-! ## Evaluation -/

namespace Expr

open Evaluation

variable {D : Difference}

/-- An accessor reads the one rule set that is found. -/
theorem ruleSets_of_target {scope : Scope} {s : Selector} {r : RuleSet}
    (h : target scope s = .ok r) : scope.ruleSets s = [r] := by
  rw [target] at h
  split at h
  · cases h
  · rename_i r' hfound
    cases h
    exact hfound
  · cases h

/-- An accessor that may be followed finds a rule set that may be found, the
    same one in both scopes. -/
theorem target_same {left right : Scope} (h : Agree D left right) {s : Selector}
    (hs : D.targets s) : target left s = target right s
      ∧ ∀ r, target left s = .ok r → D.pool r ∧ s ∈ r.selectors := by
  refine ⟨by rw [target, target, h.ruleSets (D.targetSame hs)], fun r hr => ?_⟩
  have hmem : r ∈ left.ruleSets s := by rw [ruleSets_of_target hr]; exact List.mem_cons_self
  exact ⟨h.pool hmem, Scope.mem_selectors_of_mem_ruleSets hmem⟩

/-- **AN EXPRESSION THAT DOES NOT LOOK AT THE DIFFERENCE HAS THE SAME VALUE.** -/
theorem eval_same : ∀ {n : Nat} {D : Difference} {left right : Scope} {e : Expr},
    Agree D left right → D.Clear e → eval n left e = eval n right e := by
  intro n
  induction n with
  | zero => intro D left right e _ _; rfl
  | succ n ih =>
      intro D left right e h he
      cases e with
      | constant value p => rfl
      | literal s p => rfl
      | var name p =>
          have hname : ¬ D.names name := he.names name (List.mem_singleton.mpr rfl)
          rw [eval, eval, Scope.isResolving, Scope.isResolving, h.resolving, h.vars hname]
          split
          · rfl
          · split
            · rfl
            · rename_i value hvalue
              rw [← h.vars hname] at hvalue
              rw [ih (h.enter name) (h.values hname hvalue)]
      | list items p =>
          rw [eval, eval, mapM_congr_of_mem fun item hitem => ih h (he.list item hitem)]
      | call name arguments p =>
          rw [eval, eval, invoke, invoke, h.functions,
            mapM_congr_of_mem fun a ha => ih h (he.call a (List.mem_of_mem_filter ha))]
      | access s member p =>
          have hs : D.targets s := he.targets s (List.mem_singleton.mpr rfl)
          obtain ⟨hsame, hfound⟩ := target_same h hs
          rw [eval, eval, ← hsame]
          cases htarget : target left s with
          | error err => rfl
          | ok r =>
              obtain ⟨hpool, hmem⟩ := hfound r htarget
              obtain ⟨hvalues, hdeclarations⟩ := D.targetReads hs hpool hmem
              have hinner := h.child (c := r.container) ⟨hvalues, D.children hpool⟩
              refine congrArg (locate p) ?_
              cases member with
              | var name =>
                  cases hvalue : r.container.getVar? name with
                  | none => simp only [Evaluation.ofExcept, done_bind, hvalue]
                  | some value =>
                      simp only [Evaluation.ofExcept, done_bind, hvalue]
                      exact ih hinner
                        (hvalues value (List.mem_map_of_mem (Bindings.mem_of_get? hvalue)))
              | property name =>
                  cases hd : r.declaration? name with
                  | none => simp only [Evaluation.ofExcept, done_bind, hd]
                  | some d =>
                      have hmem : d ∈ r.declarations :=
                        List.mem_reverse.mp (List.mem_of_find?_eq_some hd)
                      simp only [Evaluation.ofExcept, done_bind, hd]
                      rw [mapM_congr_of_mem fun v hv => ih hinner (hdeclarations d hmem v hv)]
      | binary op l r p =>
          rw [eval, eval, ih h he.left, ih h he.right]

end Expr

/-! ## Containers that are built -/

theorem Bindings.get?_eq_none_iff {α : Type} {b : Bindings α} {name : String} :
    b.get? name = none ↔ name ∉ b.names := by
  constructor
  · intro h hmem
    obtain ⟨entry, hentry, rfl⟩ := List.mem_map.mp hmem
    rw [Bindings.get?_of_mem hentry] at h
    cases h
  · intro h
    cases hget : b.get? name with
    | none => rfl
    | some v => exact absurd (List.mem_map_of_mem (Bindings.mem_of_get? hget)) h

namespace Transform

open Reporting Less.Expr

variable {n : Nat} {active : List Selector} {D : Difference} {left right scope : Scope}
    {source dest : Container} {ds : List Error}

/-- The container is built from the source: it fits, and it has the names of the
    source. -/
structure Built (D : Difference) (source dest : Container) : Prop where
  fits : dest.Fits D
  names : ∀ {name}, dest.getVar? name = none → source.getVar? name = none

/-- Resolved variables keep their names. -/
theorem names_resolveVariables {c : Container} {vars : Bindings Expr}
    (h : resolveVariables n scope c = some (vars, ds)) : vars.names = c.vars.names := by
  have hnames : List.Forall₂ Eq (c.vars.entries.map Prod.fst) (vars.entries.map Prod.fst) := by
    rw [List.forall₂_map_left_iff, List.forall₂_map_right_iff]
    exact (resolveVariables_eq_some h).imp fun source result hstep => hstep.1.symm
  rw [List.forall₂_eq_eq_eq] at hnames
  exact hnames.symm

/-- A container starts with its variables resolved. -/
theorem built_of_resolveVariables {c : Container} {vars : Bindings Expr} {body : List Element}
    (hf : scope.functions = .builtin) (hc : c.Fits D) (hbody : ∀ r, .ruleSet r ∈ body → D.pool r)
    (h : resolveVariables n scope c = some (vars, ds)) : Built D c { vars, body } := by
  have hnames : ∀ {name}, vars.get? name = none ↔ c.vars.get? name = none := by
    intro name
    rw [Bindings.get?_eq_none_iff, Bindings.get?_eq_none_iff, names_resolveVariables h]
  refine ⟨⟨fun v hv => ?_, fun r hr => hbody r (Container.mem_childRuleSets.mp hr)⟩,
    fun hnone => hnames.mp hnone⟩
  obtain ⟨entry, hentry, rfl⟩ := List.mem_map.mp hv
  obtain ⟨source, hsource, -, es, hes, -⟩ :=
    exists_of_forall₂ (resolveVariables_eq_some h) hentry
  rcases resolve_eq_some hes with ⟨hdone, -⟩ | ⟨err, -, hraw, -⟩
  · exact avoids_of_isValue (eval_isValue (Scope.functions_child hf c) hdone) _ _
  · -- a variable that failed stays as it was
    rw [hraw]
    exact (hc.values source.2 (List.mem_map_of_mem hsource)).mono
      fun name hname => ⟨hname.1, hnames.mp hname.2⟩

/-- A container that takes over a copy has the names of both. -/
theorem getVar?_absorb_eq_none {copy : RuleSet} {name : String}
    (h : (absorb dest copy).getVar? name = none) :
    dest.getVar? name = none ∧ copy.container.getVar? name = none := by
  rw [getVar?_absorb, Option.or_eq_none_iff] at h
  exact ⟨h.2, h.1⟩

theorem childRuleSets_absorb (dest : Container) (copy : RuleSet) :
    (absorb dest copy).childRuleSets = dest.childRuleSets ++ copy.container.childRuleSets := by
  show (dest.body ++ copy.container.childRuleSets.map Element.ruleSet).filterMap _ = _
  rw [List.filterMap_append, List.filterMap_map]
  congr 1
  exact List.filterMap_some

/-- A container that takes over a fitting copy fits. -/
theorem fits_absorb {copy : RuleSet} (hdest : dest.Fits D)
    (hcopy : copy.container.Fits (D.inside dest)) : (absorb dest copy).Fits D := by
  constructor
  · intro v hv
    rcases mem_values_absorb hv with hv | hv
    · exact (hdest.values v hv).mono fun name h => ⟨h.1, (getVar?_absorb_eq_none h.2).1⟩
    · exact (hcopy.values v hv).mono fun name h =>
        ⟨⟨h.1, (getVar?_absorb_eq_none h.2).1⟩, (getVar?_absorb_eq_none h.2).2⟩
  · intro r hr
    rw [childRuleSets_absorb] at hr
    exact (List.mem_append.mp hr).elim (hdest.ruleSets r) (hcopy.ruleSets r)

theorem Built.absorb {copy : RuleSet} (h : Built D source dest)
    (hcopy : copy.container.Fits (D.inside dest)) : Built D source (absorb dest copy) :=
  ⟨fits_absorb h.fits hcopy, fun hnone => h.names (getVar?_absorb_eq_none hnone).1⟩

/-- The copy that a call expands may be expanded: its arguments are values. -/
theorem fits_instantiate {c : MixinCall} {mixin : RuleSet} {arguments : List Expr} {k : Nat}
    (hc : D.calls c) (hpool : D.pool mixin) (hs : c.selector ∈ mixin.selectors)
    (hlength : arguments.length = c.arguments.length)
    (harguments : ∀ a ∈ arguments, IsValue .builtin k a) :
    (instantiate mixin arguments).Fits D := by
  obtain ⟨hexprs, hcalls⟩ := D.callReads hc hpool hs
  -- a name that the copy lacks is not bound by so many arguments
  have hclear : ∀ {e : Expr}, e ∈ (Element.ruleSet mixin).exprs →
      (D.inside (instantiate mixin arguments).container).Clear e := by
    intro e he
    refine (hexprs e he).mono fun name h => ⟨h.1, fun hbinds => ?_⟩
    have hsome := hbinds arguments hlength
    rw [h.2] at hsome
    cases hsome
  have hitems : (instantiate mixin arguments).items = mixin.items := by
    rw [instantiate]
    split <;> rfl
  have hbody : (instantiate mixin arguments).container.body = mixin.container.body := by
    rw [instantiate]
    split
    · exact bindParameters_body _ _ _
    · rfl
  have hvalues : ∀ v ∈ (instantiate mixin arguments).container.values,
      v ∈ (Element.ruleSet mixin).exprs ∨ v ∈ arguments := by
    intro v hv
    rw [instantiate] at hv
    split at hv
    · rename_i params hparams
      have hdefaults : mixin.defaults = params.entries.filterMap Prod.snd := by
        rw [RuleSet.defaults, hparams]
      rcases mem_values_bindParameters hv with hv | hv | hv
      · exact Or.inl (mem_ruleSet_exprs.mpr (Or.inr (Or.inr hv)))
      · exact Or.inr hv
      · exact Or.inl (mem_ruleSet_exprs.mpr (Or.inl (hdefaults ▸ hv)))
    · exact Or.inl (mem_ruleSet_exprs.mpr (Or.inr (Or.inr hv)))
  refine ⟨⟨fun v hv => ?_, fun r hr => ?_⟩, fun item hitem e he => ?_, fun c' hc' => ?_⟩
  · rcases hvalues v hv with hv | hv
    · exact hclear hv
    · exact avoids_of_isValue (harguments v hv) _ _
  · rw [Container.childRuleSets, hbody] at hr
    exact D.children hpool r hr
  · rw [hitems] at hitem
    exact hclear (mem_ruleSet_exprs.mpr (Or.inr (Or.inl ⟨item, hitem, he⟩)))
  · rw [hitems] at hc'
    exact hcalls c' hc'

/-! ## Expressions, variables, declarations -/

theorem resolve_same (h : Agree D left right) {e : Expr} (he : D.Clear e) (p : Option Position) :
    resolve n left p e = resolve n right p e := by
  rw [resolve, resolve, eval_same h he]

theorem resolveVariables_same (h : Agree D left right) {c : Container} (hc : c.Fits D) :
    resolveVariables n left c = resolveVariables n right c := by
  rw [resolveVariables, resolveVariables]
  refine congrArg (· >>= _) (mapM_congr_of_mem fun entry hentry => ?_)
  exact congrArg (· >>= _)
    (resolve_same (h.child hc) (hc.values entry.2 (List.mem_map_of_mem hentry)) _)

theorem resolveDeclaration_same (h : Agree D left right) {d : Declaration}
    (hd : ∀ v ∈ d.values, D.Clear v) :
    resolveDeclaration n left d = resolveDeclaration n right d := by
  rw [resolveDeclaration, resolveDeclaration,
    mapM_congr_of_mem fun v hv => resolve_same h (hd v hv) d.position]

/-! ## Mixin calls -/

/-- A call gives the same copy if it finds the same rule sets and its arguments
    do not look at the difference. -/
theorem prepareCall_same {a b : Container} {call : MixinCall}
    (hfound : (left.child source).ruleSets call.selector =
      (right.child source).ruleSets call.selector)
    (h : Agree D (left.child a) (right.child b)) (harguments : ∀ e ∈ call.arguments, D.Clear e) :
    prepareCall n active left source a call = prepareCall n active right source b call := by
  rw [prepareCall, prepareCall, hfound,
    mapM_congr_of_mem fun e he => eval_same h (harguments e he)]

/-- The expander gives the same where scopes agree, and a container that fits. -/
def Respects (expand : Expander) : Prop :=
  ∀ (D : Difference) (left right : Scope) (active : List Selector) (r : RuleSet),
    Agree D left right → r.Fits D →
      Agrees (fun x y => x = y ∧ x.container.Fits D) (expand active left r) (expand active right r)

/-- A call that may be made is expanded to the same copy. -/
theorem expandCall_agrees {expand : Expander} (hexpand : Respects expand) {a b : Container}
    {call : MixinCall}
    (hfound : (left.child source).ruleSets call.selector =
      (right.child source).ruleSets call.selector)
    (hpool : ∀ r ∈ (left.child source).ruleSets call.selector, D.pool r)
    (h : Agree D (left.child a) (right.child b)) (hcall : D.calls call)
    (harguments : ∀ e ∈ call.arguments, D.Clear e) :
    Agrees (fun x y => x = y ∧ ∀ copy, x = some copy → copy.container.Fits D)
      (expandCall n expand active left source a call)
      (expandCall n expand active right source b call) := by
  rw [expandCall, expandCall, ← prepareCall_same hfound h harguments]
  refine Agrees.bind (R := fun x y => x = y ∧ ∀ copy, x = some copy → copy.Fits D)
    (.refl fun copy es hcopy => ⟨rfl, fun mixin hmixin => ?_⟩) ?_
  · rcases prepareCall_eq_some hcopy with
      ⟨hnone, -⟩ | ⟨mixin', arguments, -, hselect, -, heval, hsome, -⟩
    · rw [hnone] at hmixin
      cases hmixin
    · rw [hsome] at hmixin
      cases hmixin
      have hmem := mem_of_selectMixin hselect
      refine fits_instantiate hcall (hpool mixin' hmem)
        (Scope.mem_selectors_of_mem_ruleSets hmem) ?_
        (IsValue.of_mapM heval fun e v he => eval_isValue h.builtin he)
      exact (List.Forall₂.length_eq (Evaluation.mapM_eq_done heval)).symm
  · rintro copy _ ⟨rfl, hcopy⟩
    cases copy with
    | none => exact .pure ⟨rfl, nofun⟩
    | some mixin =>
        refine (hexpand D _ _ _ mixin h (hcopy mixin rfl)).map ?_
        rintro x _ ⟨rfl, hx⟩
        refine ⟨rfl, ?_⟩
        rintro copy ⟨⟩
        exact hx

/-! ## Items -/

/-- **The items of two rule sets go in step.**  If calls agree on containers
    related by `J`, and taking over the same copy keeps `J`, then the same
    declarations wait in the end, and the containers are related by `J`. -/
theorem gather_agrees {callL callR : Container → MixinCall → Reporting (Option RuleSet)}
    {J : Container → Container → Prop} :
    ∀ {items : List Item},
      (∀ c, .mixin c ∈ items → ∀ a b, J a b →
        Agrees (fun x y => x = y ∧ ∀ copy, x = some copy → J (absorb a copy) (absorb b copy))
          (callL a c) (callR b c)) →
      ∀ {a b : Container}, J a b →
        Agrees (fun x y => x.1 = y.1 ∧ (∀ d, .source d ∈ x.1 → .declaration d ∈ items)
            ∧ J x.2 y.2)
          (gather callL items a) (gather callR items b) := by
  intro items
  induction items with
  | nil =>
      intro _ a b hab
      exact .pure ⟨rfl, fun d hd => absurd hd List.not_mem_nil, hab⟩
  | cons item items ih =>
      intro hcall a b hab
      have ih := @ih fun c hc => hcall c (List.mem_cons_of_mem _ hc)
      cases item with
      | declaration d =>
          rw [gather, gather]
          refine (ih hab).bind ?_
          rintro ⟨pending, a'⟩ ⟨_, b'⟩ ⟨rfl, hsource, hab'⟩
          refine .pure ⟨rfl, fun d' hd' => ?_, hab'⟩
          rcases List.mem_cons.mp hd' with heq | hd'
          · cases heq
            exact List.mem_cons_self
          · exact List.mem_cons_of_mem _ (hsource d' hd')
      | mixin c =>
          rw [gather, gather]
          refine (hcall c List.mem_cons_self a b hab).bind ?_
          rintro copy _ ⟨rfl, hcopy⟩
          cases copy with
          | none =>
              exact (ih hab).imp fun x y h =>
                ⟨h.1, fun d hd => List.mem_cons_of_mem _ (h.2.1 d hd), h.2.2⟩
          | some copy =>
              refine (ih (hcopy copy rfl)).bind ?_
              rintro ⟨pending, a'⟩ ⟨_, b'⟩ ⟨rfl, hsource, hab'⟩
              refine .pure ⟨rfl, fun d hd => ?_, hab'⟩
              rcases List.mem_append.mp hd with hd | hd
              · obtain ⟨_, _, heq⟩ := List.mem_map.mp hd
                cases heq
              · exact List.mem_cons_of_mem _ (hsource d hd)

theorem settle_same (h : Agree D left right) {p : Pending}
    (hp : ∀ d, p = .source d → ∀ v ∈ d.values, D.Clear v) :
    settle n left p = settle n right p := by
  cases p with
  | source d => rw [settle, settle, resolveDeclaration_same h (hp d rfl)]
  | resolved d => rfl

/-- Items are resolved alike into the same container. -/
theorem resolveItems_agrees {expand : Expander} (hexpand : Respects expand)
    (h : Agree D left right) {items : List Item} (hsource : source.Fits D)
    (hdest : Built D source dest)
    (hitems : ∀ item ∈ items, ∀ e ∈ item.exprs, (D.inside source).Clear e)
    (hcalls : ∀ c, .mixin c ∈ items → D.calls c) :
    Agrees (fun x y => x = y ∧ x.2.Fits D) (resolveItems n expand active left items source dest)
      (resolveItems n expand active right items source dest) := by
  have hclear : ∀ {dest : Container}, Built D source dest → ∀ item ∈ items, ∀ e ∈ item.exprs,
      (D.inside dest).Clear e :=
    fun hdest item hitem e he =>
      (hitems item hitem e he).mono fun name hname => ⟨hname.1, hdest.names hname.2⟩
  have hinner := h.child hsource
  rw [resolveItems, resolveItems]
  split
  · refine Agrees.bind (gather_agrees (J := fun a b => a = b ∧ Built D source a)
      (fun c hc a b hab => ?_) ⟨rfl, hdest⟩) ?_
    · obtain ⟨rfl, ha⟩ := hab
      refine (expandCall_agrees (D := D.inside a) hexpand
        (hinner.ruleSets (D.callSame (hcalls c hc))) (fun r hr => hinner.pool hr)
        (h.child ha.fits) (hcalls c hc) fun e he => hclear ha _ hc e he).imp ?_
      rintro x _ ⟨rfl, hx⟩
      exact ⟨rfl, fun copy hcopy => ⟨rfl, ha.absorb (hx copy hcopy)⟩⟩
    · rintro ⟨pending, final⟩ ⟨_, _⟩ ⟨rfl, hpending, rfl, hfinal⟩
      have hsettle : pending.mapM (settle n (left.child final)) =
          pending.mapM (settle n (right.child final)) := by
        refine mapM_congr_of_mem fun p hp => settle_same (h.child hfinal.fits) ?_
        rintro d rfl v hv
        exact hclear hfinal _ (hpending d hp) v hv
      show Agrees _ (pending.mapM (settle n (left.child final)) >>= _) _
      rw [hsettle]
      exact Agrees.bind (R := Eq) (.refl fun _ _ _ => rfl) fun x y hxy =>
        .pure ⟨by rw [hxy], hfinal.fits⟩
  · have hsame : (items.filterMap Item.declaration?).mapM
          (fun d => Item.declaration <$> resolveDeclaration n (left.child source) d) =
        (items.filterMap Item.declaration?).mapM
          (fun d => Item.declaration <$> resolveDeclaration n (right.child source) d) := by
      refine mapM_congr_of_mem fun d hd => ?_
      obtain ⟨item, hitem, heq⟩ := List.mem_filterMap.mp hd
      cases item with
      | mixin c => cases heq
      | declaration d' =>
          cases heq
          rw [resolveDeclaration_same hinner fun v hv => hitems _ hitem v hv]
    rw [hsame]
    exact Agrees.bind (R := Eq) (.refl fun _ _ _ => rfl) fun x y hxy =>
      .pure ⟨by rw [hxy], hdest.fits⟩

/-! ## Rule sets -/

/-- **A RULE SET THAT DOES NOT LOOK AT THE DIFFERENCE IS EXPANDED ALIKE**, by
    induction on the depth of calls. -/
theorem expand_agrees : ∀ n : Nat, Respects (expand n)
  | 0, _, _, _, _, _, _, _ => Or.inl ⟨rfl, rfl⟩
  | n + 1, D, left, right, active, r, h, hr => by
      rw [expand, expand, ← resolveVariables_same h hr.container]
      refine Agrees.bind (R := fun x y => x = y ∧ Built D r.container { vars := x, body := _ })
        (.refl fun vars es hvars => ⟨rfl, built_of_resolveVariables h.builtin hr.container
          (fun x hx => hr.container.ruleSets x (Container.mem_childRuleSets.mpr hx)) hvars⟩)
        ?_
      rintro vars _ ⟨rfl, hvars⟩
      refine (resolveItems_agrees (expand_agrees n) h hr.container hvars hr.items hr.calls).bind ?_
      rintro ⟨items, container⟩ _ ⟨rfl, hx⟩
      exact .pure ⟨rfl, hx⟩

end Transform

end Less
