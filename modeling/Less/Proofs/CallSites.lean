import Less.Proofs.Agreement

/-! # Calls one after the other

    A mixin call leaves the variables of its copy, bound parameters among them,
    and the nested rule sets of its copy in the container that is being built.
    A later call of the same rule set evaluates its arguments in that container
    and expands its mixin inside it, so it may see them: an argument of one call
    fills a parameter of another one that has neither an argument nor a default
    (`argument_fills_later_parameter`).

    **Nothing else passes from one call to the next** (`later_call_same`).  If
    whatever the later calls lead to names no variable of the first copy without
    binding it, and calls no nested rule set of that copy, then the later calls
    give the same copies and the same diagnostics as without the first call.

    The two runs differ in what the first copy has (`leftBehind`), which is a
    `Difference` closed under the calls that the later ones lead to (`Leads`), and
    they go in step from there. -/

namespace Less

namespace Expr

/-- The expression has no accessor and names no variable of `names`. -/
def Ignores (names : String → Prop) (e : Expr) : Prop :=
  e.isAccessFree = true ∧ ∀ name ∈ e.varNames, ¬ names name

theorem Ignores.avoids {names : String → Prop} {e : Expr} (h : e.Ignores names) :
    e.Avoids names fun _ => False := by
  refine ⟨h.2, fun s hs => ?_⟩
  rw [targets_of_isAccessFree e h.1] at hs
  exact absurd hs List.not_mem_nil

end Expr

namespace Transform

open Reporting Less.Expr

/-! ## What a call leads to -/

/-- The second call is made, directly or through other mixins, when the first one
    is expanded with the given rule sets around. -/
inductive Leads (rules : RuleSet → Prop) (first : MixinCall) : MixinCall → Prop where
  | refl : Leads rules first first
  | step {c c' : MixinCall} {r : RuleSet} (before : Leads rules first c) (hr : rules r)
      (hs : c.selector ∈ r.selectors) (hc : .mixin c' ∈ r.items) : Leads rules first c'

/-- The rule set stands somewhere in one of the containers. -/
def Occurs (frames : List Container) (r : RuleSet) : Prop :=
  ∃ frame ∈ frames, r ∈ frame.allRuleSets

theorem Occurs.child {frames : List Container} {r : RuleSet} (h : Occurs frames r) :
    ∀ child ∈ r.container.childRuleSets, Occurs frames child := by
  obtain ⟨frame, hframe, hr⟩ := h
  intro child hchild
  refine ⟨frame, hframe, Container.mem_allRuleSets.mpr ?_⟩
  exact Container.elements_subset (Container.mem_allRuleSets.mp hr)
    (Container.mem_elements_of_mem (Container.mem_childRuleSets.mp hchild))

theorem occurs_of_mem_childRuleSets {frames : List Container} {frame : Container} {r : RuleSet}
    (hframe : frame ∈ frames) (hr : r ∈ frame.childRuleSets) : Occurs frames r :=
  ⟨frame, hframe, Container.mem_allRuleSets.mpr
    (Container.mem_elements_of_mem (Container.mem_childRuleSets.mp hr))⟩

theorem ruleSets_absorb (dest : Container) (copy : RuleSet) (s : Selector) :
    (absorb dest copy).ruleSets s = dest.ruleSets s ++ copy.container.ruleSets s := by
  rw [Container.ruleSets, childRuleSets_absorb, List.flatMap_append]
  rfl

/-! ## What a copy leaves behind -/

/-- A call passes a copy by: it does not call one of its nested rule sets, and no
    rule set with its selector has accessors or names a variable of the copy
    without binding it. -/
def PassesBy (rules : RuleSet → Prop) (copy : RuleSet) (c : MixinCall) : Prop :=
  copy.container.ruleSets c.selector = []
    ∧ ∀ r, rules r → c.selector ∈ r.selectors → ∀ e ∈ (Element.ruleSet r).exprs,
        e.Ignores fun x => copy.container.getVar? x ≠ none ∧ ¬ r.Binds c.arguments.length x

/-- What a copy leaves behind makes no difference to calls that lead to calls
    which pass it by. -/
def leftBehind (frames : List Container) (copy : RuleSet) (calls : MixinCall → Prop)
    (h : ∀ c, calls c → ∀ c', Leads (Occurs frames) c c' → PassesBy (Occurs frames) copy c') :
    Difference where
  names := fun x => copy.container.getVar? x ≠ none
  selectors := fun s => copy.container.ruleSets s ≠ []
  pool := Occurs frames
  targets := fun _ => False
  calls := fun c' => ∃ c, calls c ∧ Leads (Occurs frames) c c'
  children := fun hr => hr.child
  targetSame := nofun
  targetReads := nofun
  callSame := fun ⟨c, hc, hleads⟩ hne => hne (h c hc _ hleads).1
  callReads := fun ⟨c, hc, hleads⟩ hr hs =>
    ⟨fun e he => ((h c hc _ hleads).2 _ hr hs e he).avoids,
      fun _ hc' => ⟨c, hc, hleads.step hr hs hc'⟩⟩

variable {n : Nat} {active : List Selector} {scope : Scope} {source dest a b : Container}
    {copy : RuleSet} {D : Difference}

/-- The two containers that are being built differ in `D`, but for the names of
    copies that both took over. -/
def InStep (D : Difference) (scope : Scope) (a b : Container) : Prop :=
  (∀ s, ¬ D.selectors s → a.ruleSets s = b.ruleSets s)
    ∧ ∃ shared : Container, Agree (D.inside shared) (scope.child a) (scope.child b)

/-- A variable that both containers take over is the same afterwards. -/
theorem getVar?_child_absorb (scope : Scope) (dest : Container) (copy : RuleSet) (name : String) :
    (scope.child (absorb dest copy)).getVar? name =
      (copy.container.getVar? name).or ((scope.child dest).getVar? name) := by
  rw [getVar?_child, getVar?_child, getVar?_absorb, Option.or_assoc]

/-- **Containers stay in step when both take over the same copy.** -/
theorem agree_absorb {shared : Container} (hsame : ∀ s, ¬ D.selectors s → a.ruleSets s = b.ruleSets s)
    (h : Agree (D.inside shared) (scope.child a) (scope.child b))
    (hcopy : copy.container.Fits (D.inside shared)) :
    Agree (D.inside (absorb shared copy)) (scope.child (absorb a copy))
      (scope.child (absorb b copy)) where
  builtin := h.builtin
  functions := rfl
  resolving := rfl
  vars {name} hname := by
    rw [getVar?_child_absorb, getVar?_child_absorb]
    cases hget : copy.container.getVar? name with
    | some v => rfl
    | none =>
        have hout : ¬ (D.inside shared).names name := by
          intro hin
          refine hname ⟨hin.1, ?_⟩
          rw [getVar?_absorb, hget]
          exact hin.2
        rw [h.vars hout]
  ruleSets {s} hs := by
    rw [Scope.ruleSets_child, Scope.ruleSets_child, ruleSets_absorb, ruleSets_absorb, hsame s hs]
  values {name v} hname hv := by
    rw [getVar?_child_absorb] at hv
    cases hget : copy.container.getVar? name with
    | some w =>
        rw [hget] at hv
        cases hv
        refine (hcopy.values v (List.mem_map_of_mem (Bindings.mem_of_get? hget))).mono ?_
        intro x hx
        obtain ⟨hshared, hown⟩ := getVar?_absorb_eq_none hx.2
        exact ⟨⟨hx.1, hshared⟩, hown⟩
    | none =>
        rw [hget] at hv
        have hout : ¬ (D.inside shared).names name := by
          intro hin
          refine hname ⟨hin.1, ?_⟩
          rw [getVar?_absorb, hget]
          exact hin.2
        exact (h.values hout hv).mono fun x hx => ⟨hx.1, (getVar?_absorb_eq_none hx.2).1⟩
  pool {s r} hr := by
    rw [Scope.ruleSets_child, ruleSets_absorb] at hr
    split at hr
    · rename_i hnil
      have hr' : r ∈ (scope.child a).ruleSets s := by
        rw [Scope.ruleSets_child, if_pos (List.append_eq_nil_iff.mp hnil).1]
        exact hr
      exact h.pool hr'
    · rcases List.mem_append.mp hr with hr | hr
      · have hr' : r ∈ (scope.child a).ruleSets s := by
          rw [Scope.ruleSets_child, if_neg (List.ne_nil_of_mem hr)]
          exact hr
        exact h.pool hr'
      · exact hcopy.ruleSets r (Container.mem_ruleSets.mp hr).1

/-- A container with a copy taken over and the one without it are in step. -/
theorem inStep_leftBehind {calls : MixinCall → Prop} (hf : scope.functions = .builtin)
    (h : ∀ c, calls c → ∀ c', Leads (Occurs (source :: absorb dest copy :: scope.frames)) c c' →
      PassesBy (Occurs (source :: absorb dest copy :: scope.frames)) copy c')
    (hvalues : ∀ x v, copy.container.getVar? x = none → (scope.child dest).getVar? x = some v →
      v.Ignores fun x => copy.container.getVar? x ≠ none) :
    InStep (leftBehind (source :: absorb dest copy :: scope.frames) copy calls h) scope
      (absorb dest copy) dest := by
  have hsame : ∀ s, ¬ copy.container.ruleSets s ≠ [] →
      (absorb dest copy).ruleSets s = dest.ruleSets s := by
    intro s hs
    rw [ruleSets_absorb, not_not.mp hs, List.append_nil]
  have hnone : ∀ {x}, ¬ (copy.container.getVar? x ≠ none ∧ Container.empty.getVar? x = none) →
      copy.container.getVar? x = none := by
    intro x hx
    by_contra hsome
    exact hx ⟨hsome, rfl⟩
  have hlookup : ∀ {x}, copy.container.getVar? x = none →
      (scope.child (absorb dest copy)).getVar? x = (scope.child dest).getVar? x := by
    intro x hx
    rw [getVar?_child_absorb, hx]
    rfl
  refine ⟨hsame, .empty, hf, rfl, rfl, fun hx => hlookup (hnone hx), fun {s} hs => ?_,
    fun {x v} hx hv => ?_, fun {s r} hr => ?_⟩
  · rw [Scope.ruleSets_child, Scope.ruleSets_child, hsame s hs]
  · rw [hlookup (hnone hx)] at hv
    exact (hvalues x v (hnone hx) hv).avoids.mono fun y hy => hy.1
  · obtain ⟨frame, hframe, hr⟩ := Scope.exists_frame_of_mem_ruleSets hr
    exact occurs_of_mem_childRuleSets (List.mem_cons_of_mem source hframe) hr

/-! ## Later calls -/

/-- A call that may be made gives the same copy in containers that are in step. -/
theorem expandCall_inStep {c : MixinCall} (hc : D.calls c)
    (hargs : ∀ e ∈ c.arguments, D.Clear e)
    (hpool : ∀ r ∈ (scope.child source).ruleSets c.selector, D.pool r) (hab : InStep D scope a b) :
    Agrees (fun x y => x = y ∧ ∀ copy, x = some copy →
        InStep D scope (absorb a copy) (absorb b copy))
      (expandCall n (expand n) active scope source a c)
      (expandCall n (expand n) active scope source b c) := by
  obtain ⟨hsame, shared, hagree⟩ := hab
  refine (expandCall_agrees (D := D.inside shared) (expand_agrees n) rfl hpool hagree hc
    fun e he => (hargs e he).inside shared).imp ?_
  rintro x _ ⟨rfl, hx⟩
  refine ⟨rfl, fun copy hcopy => ⟨fun s hs => ?_, absorb shared copy,
    agree_absorb hsame hagree (hx copy hcopy)⟩⟩
  rw [ruleSets_absorb, ruleSets_absorb, hsame s hs]

/-- **WHAT A CALL LEAVES BEHIND IS ALL THAT LATER CALLS SEE OF IT.**  Let `copy`
    be what a call of a rule set expanded to, and take the items behind it up to a
    later call `last`.  Suppose that the arguments of these calls, and the values
    visible to them, have no accessors and name no variable of the copy, and that
    all calls they lead to pass the copy by.  Then the items behind the first call,
    and the later call after them, give the same with the first call and without
    it: the same declarations, the same expanded copy, the same diagnostics. -/
theorem later_call_same (hf : scope.functions = .builtin) {first last : MixinCall}
    {items : List Item} {es : List Error}
    (hfirst : expandCall n (expand n) active scope source dest first = some (some copy, es))
    (hargs : ∀ c, .mixin c ∈ items ++ [.mixin last] → ∀ e ∈ c.arguments,
      e.Ignores fun x => copy.container.getVar? x ≠ none)
    (hvalues : ∀ x v, copy.container.getVar? x = none → (scope.child dest).getVar? x = some v →
      v.Ignores fun x => copy.container.getVar? x ≠ none)
    (hcalls : ∀ c, .mixin c ∈ items ++ [.mixin last] →
      ∀ c', Leads (Occurs (source :: absorb dest copy :: scope.frames)) c c' →
        PassesBy (Occurs (source :: absorb dest copy :: scope.frames)) copy c') :
    let call := expandCall n (expand n) active scope source
    (gather call (.mixin first :: items) dest = none ∧ gather call items dest = none)
      ∨ ∃ rest built built' ds,
        gather call (.mixin first :: items) dest =
            some ((copy.declarations.map .resolved ++ rest, built), es ++ ds)
        ∧ gather call items dest = some ((rest, built'), ds)
        ∧ call built last = call built' last := by
  intro call
  have hpool : ∀ (c : MixinCall), ∀ r ∈ (scope.child source).ruleSets c.selector,
      Occurs (source :: absorb dest copy :: scope.frames) r := by
    intro c r hr
    obtain ⟨frame, hframe, hr⟩ := Scope.exists_frame_of_mem_ruleSets hr
    refine occurs_of_mem_childRuleSets ?_ hr
    rcases List.mem_cons.mp hframe with rfl | hframe
    · exact List.mem_cons_self
    · exact List.mem_cons_of_mem _ (List.mem_cons_of_mem _ hframe)
  have hstep : ∀ c, .mixin c ∈ items ++ [.mixin last] → ∀ a b,
      InStep (leftBehind _ copy _ hcalls) scope a b →
      Agrees (fun x y => x = y ∧ ∀ copy', x = some copy' →
          InStep (leftBehind _ copy _ hcalls) scope (absorb a copy') (absorb b copy'))
        (call a c) (call b c) :=
    fun c hc a b hab => expandCall_inStep ⟨c, hc, .refl⟩ (fun e he => (hargs c hc e he).avoids)
      (hpool c) hab
  -- the run behind the first call, from the container with the copy and from the one without it
  have hrun := gather_agrees (fun c hc => hstep c (List.mem_append_left _ hc))
    (inStep_leftBehind hf hcalls hvalues)
  rcases hrun with ⟨hleft, hright⟩ | ⟨⟨rest, built⟩, ⟨rest', built'⟩, ds, hleft, hright, hrest, -, h⟩
  · refine Or.inl ⟨?_, hright⟩
    rw [gather, show call dest first = _ from hfirst]
    show Reporting.bind _ _ = none
    simp only [Reporting.bind]
    rw [show (gather call items (absorb dest copy)) = none from hleft]
    rfl
  · cases show rest = rest' from hrest
    refine Or.inr ⟨rest, built, built', ds, ?_, hright, ?_⟩
    · rw [gather]
      refine bind_of_some hfirst ?_
      exact (bind_of_some hleft rfl).trans (by rw [List.append_nil])
    · exact (hstep last (List.mem_append_right _ List.mem_cons_self) built built' h).eq
        fun _ _ h => h.1

/-- A call whose argument sets `a`, and a later one whose mixin reads a parameter
    with a default and a variable of the sheet. -/
theorem later_call_same_with_default :
    let m : RuleSet :=
      { selectors := [⟨".m"⟩], params := some (.ofList [("a", none)]), items := []
        container := .empty, position := none }
    let h : RuleSet :=
      { selectors := [⟨".h"⟩], params := some (.ofList [("b", some (.literal "1px" none))])
        items := [.declaration { property := "h", values := [.var "b" none, .var "c" none] }]
        container := .empty, position := none }
    let sheet : Container :=
      { vars := .ofList [("c", .literal "red" none)], body := [.ruleSet m, .ruleSet h] }
    let scope : Scope := (Scope.root .builtin).child sheet
    let first : MixinCall := { selector := ⟨".m"⟩, arguments := [.literal "blue" none] }
    let last : MixinCall := { selector := ⟨".h"⟩, arguments := [] }
    let copy : RuleSet :=
      { m with params := none
               container := { vars := .ofList [("a", .literal "blue" none)], body := [] } }
    let call := expandCall 5 (expand 5) [] scope .empty
    call .empty first = some (some copy, [])
      ∧ ((gather call [.mixin first] .empty = none ∧ gather call [] .empty = none)
        ∨ ∃ rest built built' ds,
          gather call [.mixin first] .empty = some ((rest, built), ds)
          ∧ gather call [] .empty = some ((rest, built'), ds)
          ∧ call built last = call built' last) := by
  intro m h sheet scope first last copy call
  have hfirst : call .empty first = some (some copy, []) := by rfl
  refine ⟨hfirst, ?_⟩
  have hframes : ∀ r, Occurs [.empty, absorb .empty copy, sheet] r → r = m ∨ r = h := by
    rintro r ⟨frame, hframe, hr⟩
    simp only [List.mem_cons, List.not_mem_nil, or_false] at hframe
    rcases hframe with rfl | rfl | rfl
    · exact absurd hr List.not_mem_nil
    · exact absurd hr List.not_mem_nil
    · have hall : sheet.allRuleSets = [m, h] := rfl
      rw [hall] at hr
      simpa using hr
  refine later_call_same rfl hfirst ?_ ?_ ?_
  · intro c hc e he
    cases List.mem_singleton.mp hc
    exact absurd he List.not_mem_nil
  · intro x v _ hv
    obtain ⟨frame, hframe, hentry⟩ := Scope.exists_frame_of_getVar? hv
    rcases List.mem_cons.mp hframe with rfl | hframe
    · exact absurd hentry List.not_mem_nil
    · cases List.mem_singleton.mp hframe
      cases List.mem_singleton.mp hentry
      exact ⟨rfl, fun name hname => absurd hname List.not_mem_nil⟩
  · intro c hc c' hleads
    cases List.mem_singleton.mp hc
    have hlast : c' = last := by
      induction hleads with
      | refl => rfl
      | step before hr hs hc ih =>
          rw [ih] at hs
          rcases hframes _ hr with rfl | rfl
          · exact absurd hs (by decide)
          · exact absurd hc (by simp [h])
    subst hlast
    refine ⟨rfl, fun r hr hs e he => ?_⟩
    rcases hframes r hr with rfl | rfl
    · exact absurd hs (by decide)
    · have hexprs : (Element.ruleSet h).exprs =
          [.literal "1px" none, .var "b" none, .var "c" none] := rfl
      rw [hexprs] at he
      simp only [List.mem_cons, List.not_mem_nil, or_false] at he
      rcases he with rfl | rfl | rfl
      · exact ⟨rfl, fun x hx => absurd hx List.not_mem_nil⟩
      · refine ⟨rfl, fun x hx => ?_⟩
        cases List.mem_singleton.mp hx
        exact fun hin => hin.1 rfl
      · refine ⟨rfl, fun x hx => ?_⟩
        cases List.mem_singleton.mp hx
        exact fun hin => hin.1 rfl

/-- **An argument of one call fills a parameter of a later one**: without the
    first call, the parameter `a` of the second mixin is the variable of the sheet;
    after the first call it is the argument of that call. -/
theorem argument_fills_later_parameter :
    let mixin (name property : String) : RuleSet :=
      { selectors := [⟨name⟩], params := some (.ofList [("a", none)])
        items := [.declaration { property, values := [.var "a" none] }]
        container := .empty, position := none }
    let scope : Scope := (Scope.root .builtin).child
      { vars := .ofList [("a", .literal "red" none)]
        body := [.ruleSet (mixin ".m" "w"), .ruleSet (mixin ".h" "h")] }
    let caller (calls : List MixinCall) : RuleSet :=
      { selectors := [⟨".x"⟩], params := none, items := calls.map .mixin
        container := .empty, position := none }
    let first : MixinCall := { selector := ⟨".m"⟩, arguments := [.literal "blue" none] }
    let last : MixinCall := { selector := ⟨".h"⟩, arguments := [] }
    let written (property value : String) : Item :=
      .declaration { property, values := [.literal value none] }
    (expand 6 [] scope (caller [last])).map (fun x => (x.1.items, x.2))
        = some ([written "h" "red"], [])
      ∧ (expand 6 [] scope (caller [first, last])).map (fun x => (x.1.items, x.2))
        = some ([written "w" "blue", written "h" "blue"], []) := by
  intro mixin scope caller first last written
  exact ⟨rfl, rfl⟩

end Transform

end Less
