import Less.Proofs.Dependency
import Less.Proofs.Steps

/-! # Variables evaluated where they are used, and beforehand

    The declarations of a rule set are evaluated in the container of the rule
    set, where a variable is evaluated each time it is used, or, if there are
    mixin calls, in a container whose variables were evaluated beforehand.
    Without accessors this makes no difference: both evaluations fail with the
    same error, or give values that are written alike.

    The two evaluations go in step (`eval_in_step`).  They part only at a
    variable of the container: one evaluates its expression again, while other
    variables are being resolved, the other one evaluates the value found
    beforehand, while nothing was.  The first finds the same value, since its
    expression uses none of the variables being resolved: each of them uses the
    variable at hand, so that it would use itself (`not_uses_resolving`).  The
    second finds the value without its separators (`eval_of_isValue`).  So the
    values are compared by their compact forms (`Alike`). -/

namespace Less

namespace Expr

open Evaluation

/-! ## Values that differ in separators -/

/-- The expressions are the same but for separators among arguments. -/
def Alike (v w : Expr) : Prop :=
  v.compact = w.compact

theorem Alike.refl (v : Expr) : Alike v v :=
  rfl

theorem Alike.text_eq {v w : Expr} (h : Alike v w) : v.text = w.text := by
  rw [← text_compact v, ← text_compact w, h]

theorem Alike.position_eq {v w : Expr} (h : Alike v w) : v.position = w.position := by
  rw [← position_compact v, ← position_compact w, h]

theorem Alike.constant?_eq {v w : Expr} (h : Alike v w) : v.constant? = w.constant? := by
  rw [← constant?_compact v, ← constant?_compact w, h]

theorem map_compact_eq {vs ws : List Expr} (h : List.Forall₂ Alike vs ws) :
    vs.map compact = ws.map compact := by
  rw [← List.forall₂_eq_eq_eq, List.forall₂_map_left_iff, List.forall₂_map_right_iff]
  exact h

theorem textOfAll_eq_of_alike {vs ws : List Expr} (h : List.Forall₂ Alike vs ws) :
    textOfAll vs = textOfAll ws := by
  rw [← textOfAll_map_compact vs, ← textOfAll_map_compact ws, map_compact_eq h]

/-- What is dropped from compact arguments was dropped before. -/
theorem compactAll_eq_filter (es : List Expr) :
    compactAll es = (es.map compact).filter fun e => !e.isSeparator := by
  rw [compactAll_eq, List.filter_map]
  congr 1
  refine List.filter_congr fun e _ => ?_
  rw [Function.comp_apply, isSeparator_compact]

theorem alike_call {name : String} {vs ws : List Expr} (p : Option Position)
    (h : List.Forall₂ Alike vs ws) : Alike (call name vs p) (call name ws p) := by
  show call name (compactAll vs) p = call name (compactAll ws) p
  rw [compactAll_eq_filter, compactAll_eq_filter, map_compact_eq h]

theorem compact_withPosition (p : Option Position) (v : Expr) :
    (v.withPosition p).compact = v.compact.withPosition p := by
  cases v <;> rfl

theorem Alike.withPosition {v w : Expr} (h : Alike v w) (p : Option Position) :
    Alike (v.withPosition p) (w.withPosition p) := by
  show (v.withPosition p).compact = (w.withPosition p).compact
  rw [compact_withPosition, compact_withPosition, h]

/-! ## Steps on values that differ in separators -/

/-- A built-in function does not see separators inside its arguments; an
    unknown one passes them on. -/
theorem refines_call (name : String) {vs ws : List Expr} (h : List.Forall₂ Alike vs ws) :
    Refines Alike (ofExcept (Registry.builtin.call name vs))
      (ofExcept (Registry.builtin.call name ws)) := by
  rw [Registry.call, Registry.call]
  split
  · rename_i f hf
    have hplain := Function.plain_of_builtin hf
    rw [← hplain.compact name vs, ← hplain.compact name ws, map_compact_eq h]
    exact Refines.refl Alike.refl _
  · exact ⟨_, rfl, alike_call none h⟩

theorem refines_applyTo (op : Operator) {l l' r r' : Expr} (hl : Alike l l') (hr : Alike r r')
    (p : Option Position) :
    Refines Alike (ofExcept (applyTo op l r p)) (ofExcept (applyTo op l' r' p)) := by
  rw [applyTo.eq_def, applyTo.eq_def, hl.constant?_eq, hr.constant?_eq, hl.position_eq]
  split
  · exact Refines.refl Alike.refl _
  · refine ⟨_, rfl, ?_⟩
    show binary op l.compact r.compact p = binary op l'.compact r'.compact p
    rw [show l.compact = l'.compact from hl, show r.compact = r'.compact from hr]

theorem refines_pieces (p : Option Position) : ∀ {vs ws : List Expr}, List.Forall₂ Alike vs ws →
    Refines Alike
      (match vs with
        | [v] => (pure v : Evaluation Expr)
        | vs => pure (literal (textOfAll vs) p))
      (match ws with
        | [w] => (pure w : Evaluation Expr)
        | ws => pure (literal (textOfAll ws) p))
  | [], [], _ => ⟨_, rfl, Alike.refl _⟩
  | [_], [w], .cons hvw _ => ⟨w, rfl, hvw⟩
  | _ :: _ :: _, _ :: _ :: _, h => by
      refine ⟨_, rfl, ?_⟩
      rw [textOfAll_eq_of_alike h]
      exact Alike.refl _

/-- A value evaluates, anywhere, like the expression it is the value of. -/
theorem refines_value {inner other : Scope} {k n : Nat} {e v : Expr}
    (hinner : inner.functions = .builtin) (hother : other.functions = .builtin)
    (hv : eval k inner e = .done v) : Refines Alike (eval n inner e) (eval n other v) := by
  by_cases hn : eval n inner e = .exhausted
  · rw [hn]
    exact trivial
  · have hdone : eval n inner e = .done v := by
      rw [eval_agree hn (by rw [hv]; exact done_ne_exhausted v), hv]
    rw [hdone]
    exact ⟨v.compact, eval_of_isValue (eval_isValue hinner hdone) hother, (compact_compact v).symm⟩

/-! ## The two containers -/

/-- The variables of `dest` are those of `source`, evaluated inside it. -/
structure Settles (outer : Scope) (source dest : Container) : Prop where
  none : ∀ {name}, source.getVar? name = none → dest.getVar? name = none
  some : ∀ {name value}, source.getVar? name = some value →
    ∃ n v, eval n (outer.child source) value = .done v ∧ dest.getVar? name = some v

/-- Every variable being resolved is an outer one, and uses whatever the
    expression at hand uses. -/
def Entered (outer : Scope) (source : Container) (names : List String) (e : Expr) : Prop :=
  ∀ name ∈ names, source.getVar? name = none
    ∧ ∃ value, (outer.child source).getVar? name = some value
      ∧ ∀ other, Uses (outer.child source).getVar? e other →
          Uses (outer.child source).getVar? value other

variable {outer : Scope} {source dest : Container}

theorem Entered.part {names : List String} {e part : Expr} (h : Entered outer source names e)
    (hsub : part.varNames ⊆ e.varNames) : Entered outer source names part := by
  intro name hname
  obtain ⟨hnone, value, hvalue, huses⟩ := h name hname
  exact ⟨hnone, value, hvalue, fun other hother => huses other (hother.of_part hsub)⟩

theorem getVar?_child (scope : Scope) (c : Container) (name : String) :
    (scope.child c).getVar? name = (c.getVar? name).or (scope.getVar? name) := by
  show (List.findSome? _ (c :: scope.frames)) = _
  rw [List.findSome?_cons]
  cases c.getVar? name with
  | none => rfl
  | some value => rfl

/-- An outer variable is entered like any other. -/
theorem Entered.enter {names : List String} {name : String} {value : Expr} {p : Option Position}
    (h : Entered outer source names (var name p)) (hnone : source.getVar? name = none)
    (hvalue : (outer.child source).getVar? name = some value) :
    Entered outer source (name :: names) value := by
  intro other hother
  rcases List.mem_cons.mp hother with rfl | hother
  · exact ⟨hnone, value, hvalue, fun _ huses => huses⟩
  · obtain ⟨hnone', value', hvalue', huses⟩ := h other hother
    exact ⟨hnone', value', hvalue', fun last hlast => huses last (hlast.of_value p hvalue)⟩

/-- **The value of a variable of the container uses nothing that is being
    resolved**: all of that uses the variable itself. -/
theorem not_uses_resolving {names : List String} {name : String} {value v : Expr}
    {p : Option Position} {n : Nat} (h : Entered outer source names (var name p))
    (hvalue : source.getVar? name = some value)
    (hv : eval n (outer.child source) value = .done v) :
    ∀ other ∈ name :: names, ¬ Uses (outer.child source).getVar? value other := by
  have hget : (outer.child source).getVar? name = some value := by
    rw [getVar?_child, hvalue]
    rfl
  have hself : ¬ Uses (outer.child source).getVar? value name := not_uses_self hget rfl hv
  intro other hother huses
  rcases List.mem_cons.mp hother with rfl | hother
  · exact hself huses
  · obtain ⟨-, value', hvalue', hall⟩ := h other hother
    have hback : Uses (outer.child source).getVar? value' name :=
      hall name (.here (List.mem_singleton.mpr rfl))
    exact hself (huses.trans hvalue' hback)

/-- **THE TWO EVALUATIONS GO IN STEP**, whatever outer variables are being
    resolved. -/
theorem eval_in_step (hf : outer.functions = .builtin) (hscope : (outer.child source).AccessFree)
    (hsettles : Settles outer source dest) :
    ∀ {n : Nat} {names : List String} {e : Expr}, e.isAccessFree = true →
      Entered outer source names e →
      Refines Alike (eval n ((outer.child source).withResolving names) e)
        (eval n ((outer.child dest).withResolving names) e) := by
  intro n
  induction n with
  | zero => intro names e _ _; exact trivial
  | succ n ih =>
      intro names e he hentered
      cases e with
      | constant value p => exact ⟨_, rfl, Alike.refl _⟩
      | literal s p => exact ⟨_, rfl, Alike.refl _⟩
      | access target member p => cases he
      | var name p =>
          rw [eval, eval]
          cases hres : names.contains name with
          | true =>
              have hleft : ((outer.child source).withResolving names).isResolving name = true :=
                hres
              have hright : ((outer.child dest).withResolving names).isResolving name = true := hres
              rw [if_pos hleft, if_pos hright]
              exact Refines.refl Alike.refl _
          | false =>
              have hleft : ((outer.child source).withResolving names).isResolving name = false :=
                hres
              have hright : ((outer.child dest).withResolving names).isResolving name = false :=
                hres
              rw [hleft, hright, if_neg Bool.false_ne_true, if_neg Bool.false_ne_true]
              have hgetl : ((outer.child source).withResolving names).getVar? name =
                  (source.getVar? name).or (outer.getVar? name) := getVar?_child outer source name
              have hgetr : ((outer.child dest).withResolving names).getVar? name =
                  (dest.getVar? name).or (outer.getVar? name) := getVar?_child outer dest name
              cases hsource : source.getVar? name with
              | none =>
                  rw [hgetl, hgetr, hsource, hsettles.none hsource]
                  cases houter : outer.getVar? name with
                  | none => exact Refines.refl Alike.refl _
                  | some value =>
                      have hvalue : (outer.child source).getVar? name = some value := by
                        rw [getVar?_child, hsource, houter]
                        rfl
                      exact (ih (hscope.of_getVar? hvalue) (hentered.enter hsource hvalue)).locate p
              | some value =>
                  obtain ⟨k, v, hv, hdest⟩ := hsettles.some hsource
                  have hvalue : (outer.child source).getVar? name = some value := by
                    rw [getVar?_child, hsource]
                    rfl
                  rw [hgetl, hgetr, hsource, hdest]
                  -- the expression still has the value found beforehand
                  have hagain :
                      eval k ((outer.child source).withResolving (name :: names)) value = .done v :=
                    eval_withResolving hscope (hscope.of_getVar? hvalue) hv
                      (not_uses_resolving hentered hsource hv)
                  have hstep :
                      Refines Alike (eval n ((outer.child source).withResolving (name :: names)) value)
                        (eval n ((outer.child dest).withResolving (name :: names)) v) :=
                    refines_value hf hf hagain
                  exact hstep.locate p
      | list items p =>
          rw [eval, eval]
          refine Refines.bind (Refines.mapM fun item hitem => ?_) fun vs ws h => refines_pieces p h
          exact ih (isAccessFree_list.mp he item hitem)
            (hentered.part fun x hx => mem_varNamesOf.mpr ⟨item, hitem, hx⟩)
      | call name arguments p =>
          rw [eval, eval, invoke, invoke]
          refine Refines.locate (Refines.bind (R := Alike) ?_ ?_) p
          swap
          · intro v w hvw
            exact ⟨_, rfl, hvw.withPosition p⟩
          have hfl : ((outer.child source).withResolving names).functions = .builtin := hf
          have hfr : ((outer.child dest).withResolving names).functions = .builtin := hf
          rw [hfl, hfr]
          refine Refines.bind (Refines.mapM fun a ha => ?_) fun vs ws h => refines_call name h
          exact ih (isAccessFree_call.mp he a (List.mem_of_mem_filter ha))
            (hentered.part fun x hx => mem_varNamesOf.mpr ⟨a, List.mem_of_mem_filter ha, hx⟩)
      | binary op left right p =>
          rw [eval, eval]
          have hsides := isAccessFree_binary.mp he
          refine Refines.bind (ih hsides.1 (hentered.part fun x hx => List.mem_append_left _ hx)) ?_
          intro l l' hl
          refine Refines.bind
            (ih hsides.2 (hentered.part fun x hx => List.mem_append_right _ hx)) ?_
          intro r r' hr
          exact refines_applyTo op hl hr p

/-- Both evaluations give values that are written alike, at the same position,
    or both fail with the same error at the same position. -/
def SameOutcome : Evaluation Expr → Evaluation Expr → Prop
  | .done v, .done w => v.text = w.text ∧ v.position = w.position
  | .failed e, .failed e' => e.kind = e'.kind ∧ e.position? = e'.position?
  | _, _ => False

theorem SameOutcome.of_refines {x y : Evaluation Expr} (h : Refines Alike x y)
    (hx : x ≠ .exhausted) :
    SameOutcome x y := by
  cases x with
  | exhausted => exact absurd rfl hx
  | failed e =>
      have hy : y = .failed e := h
      rw [hy]
      exact ⟨rfl, rfl⟩
  | done v =>
      obtain ⟨w, hy, hvw⟩ := h
      rw [hy]
      exact ⟨hvw.text_eq, hvw.position_eq⟩

end Expr

namespace Transform

open Less.Expr Evaluation Reporting

variable {n : Nat} {outer : Scope} {source : Container} {vars : Bindings Expr} {ds : List Error}

/-- Variables that evaluate without error are set to their values. -/
theorem settles_of_resolveVariables (h : resolveVariables n outer source = some (vars, ds))
    (hvalues : ∀ entry ∈ source.vars.entries, ∃ n v, eval n (outer.child source) entry.2 = .done v)
    (body : List Element) : Settles outer source { vars, body } := by
  have hall := resolveVariables_eq_some h
  constructor
  · intro name hnone
    cases hvar : vars.get? name with
    | none => exact hvar
    | some v =>
        -- every name of the result stems from the source
        obtain ⟨entry, hentry, hname, -⟩ := exists_of_forall₂ hall (Bindings.mem_of_get? hvar)
        have hsome : source.getVar? name = some entry.2 := by
          have heq : entry = (name, entry.2) := by rw [show name = entry.1 from hname]
          exact Bindings.get?_of_mem (heq ▸ hentry)
        rw [hnone] at hsome
        cases hsome
  · intro name value hsome
    have hentry := Bindings.mem_of_get? hsome
    obtain ⟨k, v, hv⟩ := hvalues _ hentry
    obtain ⟨result, hresult, hname, es, hes, -⟩ := exists_image_of_forall₂ hall hentry
    refine ⟨k, v, hv, ?_⟩
    have hv' : result.2 = v := by
      rcases resolve_eq_some hes with ⟨hdone, -⟩ | ⟨e, hfailed, -, -⟩
      · have hagree := eval_agree (n := n) (m := k) (by rw [hdone]; exact done_ne_exhausted _)
          (by rw [hv]; exact done_ne_exhausted v)
        rw [hdone, hv] at hagree
        cases hagree
        rfl
      · have hagree := eval_agree (n := n) (m := k) (by rw [hfailed]; exact failed_ne_exhausted e)
          (by rw [hv]; exact done_ne_exhausted v)
        rw [hfailed, hv] at hagree
        cases hagree
    have heq : result = (name, v) := by
      rw [← hv', ← show result.1 = name from hname]
    exact Bindings.get?_of_mem (heq ▸ hresult)

/-- **VARIABLES MAY BE EVALUATED BEFOREHAND.**  Take a container whose
    variables evaluate without error.  Its variables can be resolved, and every
    expression evaluates alike against the container and against any container
    with the resolved variables: in the end both give values that are written
    alike, or both fail with the same error. -/
theorem eval_same_with_resolved_variables (outer : Scope) (source : Container)
    (hfunctions : outer.functions = .builtin) (hresolving : outer.resolving = [])
    (houter : ∀ frame ∈ outer.frames, ∀ v ∈ frame.values, v.isAccessFree = true)
    (hsource : ∀ v ∈ source.values, v.isAccessFree = true)
    (hvalues : ∀ entry ∈ source.vars.entries,
      ∃ n v, eval n (outer.child source) entry.2 = .done v) :
    ∃ k vars ds, (∀ m, k ≤ m → resolveVariables m outer source = some (vars, ds)) ∧
      ∀ body e, e.isAccessFree = true →
        ∃ j, ∀ m, j ≤ m →
          SameOutcome (eval m (outer.child source) e) (eval m (outer.child { vars, body }) e) := by
  have hscope : (outer.child source).AccessFree := Scope.AccessFree.child houter hsource
  have hf : outer.functions.AccessFree := hfunctions ▸ Registry.builtin_accessFree
  obtain ⟨k, vars, ds, hvars, -⟩ := resolveVariables_converges hf houter hsource
  refine ⟨k, vars, ds, hvars, fun body e he => ?_⟩
  have hsettles := settles_of_resolveVariables (hvars k (Nat.le_refl k)) hvalues body
  obtain ⟨j, hj⟩ := eval_ends hscope he
  refine ⟨j, fun m hm => SameOutcome.of_refines ?_ ?_⟩
  · -- nothing is being resolved at the start
    have hsame : ∀ c : Container, (outer.child c).withResolving [] = outer.child c := by
      intro c
      rw [← hresolving]
      rfl
    have hentered : Entered outer source [] e := fun _ hname => absurd hname List.not_mem_nil
    have hstep := eval_in_step hfunctions hscope hsettles (n := m) he hentered
    rwa [hsame, hsame] at hstep
  · rw [eval_eq_of_le hm hj]
    exact hj

/-- A variable whose value goes through an outer variable back into the
    container, and out again. -/
theorem eval_same_through_outer_variable :
    let outer : Scope := (Scope.root .builtin).child
      { vars := .ofList [("base", .literal "red" none), ("link", .var "inner" none)], body := [] }
    let source : Container :=
      { vars := .ofList [("inner", .var "base" none), ("top", .var "link" none)], body := [] }
    ∃ k vars ds, (∀ m, k ≤ m → resolveVariables m outer source = some (vars, ds)) ∧
      ∀ body, ∃ j, ∀ m, j ≤ m →
        SameOutcome (eval m (outer.child source) (.var "top" none))
          (eval m (outer.child { vars, body }) (.var "top" none)) := by
  intro outer source
  have hfree : ∀ frame ∈ source :: outer.frames, ∀ v ∈ frame.values, v.isAccessFree = true := by
    decide
  have hvalues : ∀ entry ∈ source.vars.entries,
      ∃ n v, eval n (outer.child source) entry.2 = .done v := by
    intro entry hentry
    have hred : eval 4 (outer.child source) entry.2 = .done (.literal "red" none) := by
      rcases List.mem_cons.mp hentry with rfl | hentry
      · rfl
      · cases List.mem_singleton.mp hentry
        rfl
    exact ⟨4, _, hred⟩
  obtain ⟨k, vars, ds, hvars, hsame⟩ := eval_same_with_resolved_variables outer source rfl rfl
    (fun frame hframe => hfree frame (List.mem_cons_of_mem source hframe))
    (hfree source List.mem_cons_self) hvalues
  exact ⟨k, vars, ds, hvars, fun body => hsame body (.var "top" none) rfl⟩

end Transform

end Less
