import Less.Proofs.Agreement

/-! # Rule sets by selector

    A container that is built step by step can be kept with an **index**: for each
    selector the places, in the body, of the rule sets that list it.  Adding an
    element notes its place under each of its selectors, behind the places noted
    before (`Indexed.perform`); nothing is ever noted again or taken back.

    After any steps the index is the one of the body alone (`index_ofSteps`), the
    places of a selector are those of the rule sets that list it, **each as often as
    it lists it** (`placesIn_indexOf`), and what is found through the index is what a
    search of the body finds (`ruleSets_ofSteps`).

    So the index is exact for a selector as long as no rule set lists it twice
    (`ruleSets_exact`).  One that does is found twice, and an accessor takes it for
    two (`repeated_selector_is_ambiguous`). -/

namespace Less

/-! ## Containers built step by step -/

/-- A step in building a container. -/
inductive BuildStep where
  | variable (name : String) (value : Expr)
  | element (e : Element)

/-- The container after a step. -/
def Container.perform (c : Container) : BuildStep → Container
  | .variable name value => c.setVariable name value
  | .element e => c.add e

/-- The container that steps build. -/
def Container.ofSteps (steps : List BuildStep) : Container :=
  steps.foldl perform .empty

/-- How often the rule sets of a container list a selector. -/
def Container.occurrences (c : Container) (s : Selector) : Nat :=
  (c.childRuleSets.flatMap RuleSet.selectors).count s

/-- The selectors by which an element can be found. -/
def Element.selectors : Element → List Selector
  | .ruleSet r => r.selectors
  | .media _ | .page _ | .keyframes _ => []

/-! ## The index -/

/-- For each selector the places of the rule sets that list it, the selectors in the
    order in which they were first listed. -/
abbrev SelectorIndex := Bindings (List Nat)

/-- The places noted under a selector. -/
def placesIn (index : SelectorIndex) (s : Selector) : List Nat :=
  (index.get? s.text).getD []

/-- Notes a place under a selector. -/
def note (place : Nat) (index : SelectorIndex) (s : Selector) : SelectorIndex :=
  index.set s.text (placesIn index s ++ [place])

/-- Notes the place of an element under each of its selectors. -/
def noteElement (index : SelectorIndex) (place : Nat) (e : Element) : SelectorIndex :=
  e.selectors.foldl (note place) index

/-- A container kept with its index. -/
structure Indexed where
  container : Container := .empty
  index : SelectorIndex := .empty

namespace Indexed

/-- The container and its index after a step. -/
def perform (x : Indexed) : BuildStep → Indexed
  | .variable name value => { x with container := x.container.setVariable name value }
  | .element e =>
      { container := x.container.add e
        index := noteElement x.index x.container.body.length e }

/-- The container that steps build, with its index. -/
def ofSteps (steps : List BuildStep) : Indexed :=
  steps.foldl perform {}

/-- The rule sets at the places noted under a selector. -/
def ruleSets (x : Indexed) (s : Selector) : List RuleSet :=
  (placesIn x.index s).filterMap fun place => x.container.body[place]?.bind Element.ruleSet?

end Indexed

theorem placesIn_note (place : Nat) (index : SelectorIndex) (s t : Selector) :
    placesIn (note place index s) t = placesIn index t ++ if s = t then [place] else [] := by
  rw [placesIn, note, Bindings.get?_set]
  by_cases h : s = t
  · subst h
    rw [if_pos rfl, if_pos rfl]
    rfl
  · have htext : ¬ t.text = s.text := fun heq => h (by cases s; cases t; cases heq; rfl)
    rw [if_neg htext, if_neg h, List.append_nil]
    rfl

/-- **The place of an element is noted under a selector as often as the element
    lists it.** -/
theorem placesIn_noteElement (index : SelectorIndex) (place : Nat) (e : Element) (s : Selector) :
    placesIn (noteElement index place e) s =
      placesIn index s ++ List.replicate (e.selectors.count s) place := by
  rw [noteElement]
  induction e.selectors generalizing index with
  | nil => rw [List.foldl_nil, List.count_nil, List.replicate_zero, List.append_nil]
  | cons t ts ih =>
      rw [List.foldl_cons, ih, placesIn_note, List.append_assoc, List.count_cons]
      by_cases h : t = s
      · rw [if_pos h, if_pos (beq_iff_eq.mpr h), List.replicate_succ]
        rfl
      · rw [if_neg h, if_neg fun heq => h (beq_iff_eq.mp heq)]
        rfl

/-! ## The index of a body -/

/-- The index of elements whose first one stands at a place. -/
def indexFrom (index : SelectorIndex) : Nat → List Element → SelectorIndex
  | _, [] => index
  | place, e :: es => indexFrom (noteElement index place e) (place + 1) es

/-- The index of a body. -/
def indexOf (body : List Element) : SelectorIndex :=
  indexFrom .empty 0 body

/-- The places of the rule sets that list a selector, if the first element stands at
    a given place. -/
def placesFrom (s : Selector) : Nat → List Element → List Nat
  | _, [] => []
  | place, e :: es => List.replicate (e.selectors.count s) place ++ placesFrom s (place + 1) es

theorem placesIn_indexFrom (index : SelectorIndex) (place : Nat) (es : List Element)
    (s : Selector) :
    placesIn (indexFrom index place es) s = placesIn index s ++ placesFrom s place es := by
  induction es generalizing index place with
  | nil => exact (List.append_nil _).symm
  | cons e es ih =>
      rw [indexFrom, ih, placesIn_noteElement, placesFrom, List.append_assoc]

/-- **The places of a selector in the index of a body.** -/
theorem placesIn_indexOf (body : List Element) (s : Selector) :
    placesIn (indexOf body) s = placesFrom s 0 body :=
  placesIn_indexFrom .empty 0 body s

/-- The rule sets at the places of a selector are those that a search finds. -/
theorem filterMap_placesFrom (front rest : List Element) (s : Selector) :
    (placesFrom s front.length rest).filterMap
        (fun place => (front ++ rest)[place]?.bind Element.ruleSet?) =
      Transform.ruleSetsAmong rest s := by
  induction rest generalizing front with
  | nil => rfl
  | cons e rest ih =>
      have hfound : (front ++ e :: rest)[front.length]?.bind Element.ruleSet? = e.ruleSet? := by
        rw [List.getElem?_append_right (Nat.le_refl _), Nat.sub_self]
        rfl
      have hrest := ih (front ++ [e])
      rw [List.length_append, List.length_singleton, List.append_assoc, List.singleton_append]
        at hrest
      rw [placesFrom, List.filterMap_append, hrest, List.filterMap_replicate, hfound]
      cases e with
      | ruleSet r => rfl
      | media | page | keyframes => rfl

/-! ## Building keeps the index -/

/-- The element that a step adds. -/
def BuildStep.element? : BuildStep → Option Element
  | .variable _ _ => none
  | .element e => some e

theorem Container.body_foldl (c : Container) (steps : List BuildStep) :
    (steps.foldl perform c).body = c.body ++ steps.filterMap BuildStep.element? := by
  induction steps generalizing c with
  | nil => exact (List.append_nil _).symm
  | cons step steps ih =>
      rw [List.foldl_cons, ih]
      match step with
      | .variable name value => rfl
      | .element e => exact List.append_assoc c.body [e] _

namespace Indexed

theorem container_foldl (x : Indexed) (steps : List BuildStep) :
    (steps.foldl perform x).container = steps.foldl Container.perform x.container := by
  induction steps generalizing x with
  | nil => rfl
  | cons step steps ih =>
      rw [List.foldl_cons, ih, List.foldl_cons]
      match step with
      | .variable name value => rfl
      | .element e => rfl

/-- The container of the steps is built as it is without an index. -/
theorem container_ofSteps (steps : List BuildStep) :
    (ofSteps steps).container = Container.ofSteps steps :=
  container_foldl {} steps

/-- **Steps note the elements they add behind those that are there**, whatever the
    index is. -/
theorem index_foldl (x : Indexed) (steps : List BuildStep) :
    (steps.foldl perform x).index =
      indexFrom x.index x.container.body.length (steps.filterMap BuildStep.element?) := by
  induction steps generalizing x with
  | nil => rfl
  | cons step steps ih =>
      rw [List.foldl_cons, ih]
      match step with
      | .variable name value => rfl
      | .element e =>
          show indexFrom (noteElement x.index x.container.body.length e)
            (x.container.body ++ [e]).length _ = _
          rw [List.length_append]
          rfl

/-- **After any steps the index is the one of the body.** -/
theorem index_ofSteps (steps : List BuildStep) :
    (ofSteps steps).index = indexOf (Container.ofSteps steps).body := by
  rw [Container.ofSteps, Container.body_foldl]
  exact index_foldl {} steps

/-- **What is found through the index is what a search of the body finds.** -/
theorem ruleSets_ofSteps (steps : List BuildStep) (s : Selector) :
    (ofSteps steps).ruleSets s = (Container.ofSteps steps).ruleSets s := by
  rw [ruleSets, index_ofSteps, container_ofSteps, placesIn_indexOf, Transform.ruleSets_eq_among]
  exact filterMap_placesFrom [] _ s

end Indexed

/-! ## Selectors that are listed more than once -/

/-- Rule sets that stand once for each time they list a selector stand as often as they
    list it. -/
theorem length_flatMap_replicate_count (rs : List RuleSet) (s : Selector) :
    (rs.flatMap fun r => List.replicate (r.selectors.count s) r).length =
      (rs.flatMap RuleSet.selectors).count s := by
  induction rs with
  | nil => rfl
  | cons r rs ih =>
      rw [List.flatMap_cons, List.length_append, List.length_replicate, ih, List.flatMap_cons,
        List.count_append]

theorem Container.length_ruleSets (c : Container) (s : Selector) :
    (c.ruleSets s).length = c.occurrences s :=
  length_flatMap_replicate_count c.childRuleSets s

/-- A selector that is listed is listed at least once. -/
theorem ite_mem_le_count (ss : List Selector) (s : Selector) :
    (if s ∈ ss then 1 else 0) ≤ ss.count s := by
  split
  · rename_i hs
    exact List.count_pos_iff.mpr hs
  · exact Nat.zero_le _

theorem countP_mem_le_count (rs : List RuleSet) (s : Selector) :
    rs.countP (s ∈ ·.selectors) ≤ (rs.flatMap RuleSet.selectors).count s := by
  induction rs with
  | nil => exact Nat.le_refl 0
  | cons r rs ih =>
      simp only [List.countP_cons, List.flatMap_cons, List.count_append, decide_eq_true_eq]
      have hr := ite_mem_le_count r.selectors s
      omega

/-- Rule sets that stand once for each time they list a selector stand once each
    exactly if none of them lists it twice. -/
theorem flatMap_replicate_count_eq_filter {rs : List RuleSet} {s : Selector} :
    (rs.flatMap fun r => List.replicate (r.selectors.count s) r) =
        rs.filter (s ∈ ·.selectors) ↔
      ∀ r ∈ rs, r.selectors.count s ≤ 1 := by
  constructor
  · intro h
    have hlength : (rs.flatMap RuleSet.selectors).count s = rs.countP (s ∈ ·.selectors) := by
      rw [List.countP_eq_length_filter, ← h, length_flatMap_replicate_count]
    clear h
    induction rs with
    | nil => exact nofun
    | cons r rs ih =>
        simp only [List.countP_cons, List.flatMap_cons, List.count_append, decide_eq_true_eq]
          at hlength
        -- no rule set falls short on the left, so none exceeds the right
        have hr := ite_mem_le_count r.selectors s
        have hrs := countP_mem_le_count rs s
        have hone : (if s ∈ r.selectors then 1 else 0) ≤ 1 := by split <;> omega
        exact List.forall_mem_cons.mpr ⟨by omega, ih (by omega)⟩
  · intro h
    induction rs with
    | nil => rfl
    | cons r rs ih =>
        obtain ⟨hr, hrs⟩ := List.forall_mem_cons.mp h
        rw [List.flatMap_cons, ih hrs, List.filter_cons]
        by_cases hs : s ∈ r.selectors
        · have hone : r.selectors.count s = 1 := Nat.le_antisymm hr (List.count_pos_iff.mpr hs)
          rw [hone, if_pos (decide_eq_true hs)]
          rfl
        · rw [List.count_eq_zero.mpr hs, if_neg (by simpa using hs)]
          rfl

/-- The target of an accessor from inside a container: the container decides if one
    of its rule sets lists the selector, and its surroundings otherwise. -/
theorem target_child_ambiguous_iff (scope : Scope) (c : Container) (s : Selector) (k : Nat) :
    Expr.target (scope.child c) s = .error (.ambiguousTarget s.text k) ↔
      (2 ≤ c.occurrences s ∧ k = c.occurrences s) ∨
        (c.occurrences s = 0 ∧ Expr.target scope s = .error (.ambiguousTarget s.text k)) := by
  rw [← Container.length_ruleSets, Expr.target, Scope.ruleSets_child]
  rcases c.ruleSets s with _ | ⟨r, _ | ⟨r', more⟩⟩
  · simp [Expr.target]
  · simp
  · simp only [reduceCtorEq, if_false, List.length_cons]
    constructor
    · intro h
      cases h
      exact Or.inl ⟨by omega, rfl⟩
    · rintro (⟨-, rfl⟩ | ⟨h, -⟩)
      · rfl
      · cases h

/-- **THE INDEX FINDS A RULE SET AS OFTEN AS IT LISTS THE SELECTOR.**  For a
    container built by any steps:

    * the index kept beside it finds what a search of its body finds: its rule sets
      in the order of the body, each once for each time it lists the selector;
    * these are precisely the rule sets that list the selector, each exactly once, if
      and only if none of them lists it twice;
    * an accessor from inside the container is ambiguous if and only if its rule sets
      list the selector at least twice, or do not list it and the accessor is
      ambiguous around the container. -/
theorem ruleSets_exact (steps : List BuildStep) (s : Selector) :
    ((Indexed.ofSteps steps).container = Container.ofSteps steps ∧
      (Indexed.ofSteps steps).ruleSets s = (Container.ofSteps steps).ruleSets s ∧
      (Indexed.ofSteps steps).ruleSets s = (Container.ofSteps steps).childRuleSets.flatMap
        fun r => List.replicate (r.selectors.count s) r) ∧
    ((Indexed.ofSteps steps).ruleSets s =
        (Container.ofSteps steps).childRuleSets.filter (s ∈ ·.selectors) ↔
      ∀ r ∈ (Container.ofSteps steps).childRuleSets, r.selectors.count s ≤ 1) ∧
    ∀ (scope : Scope) (k : Nat),
      Expr.target (scope.child (Container.ofSteps steps)) s =
          .error (.ambiguousTarget s.text k) ↔
        (2 ≤ (Container.ofSteps steps).occurrences s ∧
          k = (Container.ofSteps steps).occurrences s) ∨
        ((Container.ofSteps steps).occurrences s = 0 ∧
          Expr.target scope s = .error (.ambiguousTarget s.text k)) := by
  have hfound := Indexed.ruleSets_ofSteps steps s
  refine ⟨⟨Indexed.container_ofSteps steps, hfound, hfound⟩, ?_, fun scope k => ?_⟩
  · rw [hfound]
    exact flatMap_replicate_count_eq_filter
  · exact target_child_ambiguous_iff scope _ s k

/-- A container with one rule set that lists `.a` twice: it is found twice, and an
    accessor on `.a` is refused as ambiguous, as if there were two. -/
theorem repeated_selector_is_ambiguous :
    let r : RuleSet :=
      { selectors := [⟨".a"⟩, ⟨".a"⟩], params := none, items := [], container := .empty
        position := none }
    let steps : List BuildStep := [.element (.ruleSet r)]
    (Container.ofSteps steps).childRuleSets = [r] ∧
      (Indexed.ofSteps steps).ruleSets ⟨".a"⟩ = [r, r] ∧
      Expr.target ((Scope.root .builtin).child (Container.ofSteps steps)) ⟨".a"⟩ =
        .error (.ambiguousTarget ".a" 2) :=
  ⟨rfl, rfl, rfl⟩

end Less
