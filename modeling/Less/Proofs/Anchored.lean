import Less.Proofs.Refusal
import Less.Proofs.Tame
import Less.Proofs.Value

/-! # Positions of diagnostics

    A diagnostic gets its position from an expression, a declaration or a call.
    Not every expression has one: separators have none, and an operation has
    that of its left operand.  Relative to a set `S` of positions:

    * an expression is **anchored** if all its positions are in `S`, and what can
      be the source of an error has one (`Expr.Anchored`).  An operation
      without a position is allowed if its left operand is **inert**
      (`Expr.Inert`): it never becomes a constant, so that the operation is never
      carried out and cannot fail;
    * elements, containers and scopes are anchored if all expressions in them
      are, and everything else in them has a position in `S`.

    Evaluating an anchored expression gives an anchored value or an error with a
    position in `S` (`eval_anchored`); resolving an anchored sheet reports only
    diagnostics with positions in `S` (`transformSheet_anchored`). -/

namespace Less

/-- There is a position, and it is in `S`. -/
def Located (S : Position → Prop) (p : Option Position) : Prop :=
  ∃ q, p = some q ∧ S q

variable {S : Position → Prop}

theorem Located.forall {p : Option Position} (h : Located S p) : ∀ q, p = some q → S q := by
  obtain ⟨q, rfl, hS⟩ := h
  rintro q' ⟨⟩
  exact hS

theorem Located.locate {e : Error} (h : Located S e.position?) (p : Option Position) :
    Located S (e.locate p).position? := by
  obtain ⟨q, hq, hS⟩ := h
  exact ⟨q, Error.position?_locate_of_some hq p, hS⟩

/-- A cause takes the position it is given. -/
theorem located_locate {e : Error} (h : ∀ p, (e.locate p).position? = p) {p : Option Position}
    (hp : Located S p) : Located S (e.locate p).position? := by
  rw [h p]
  exact hp

theorem Error.IsArithmetic.position?_locate {e : Error} (h : e.IsArithmetic) (p : Option Position) :
    (e.locate p).position? = p := by
  rcases h with ⟨left, right, rfl⟩ | rfl <;> cases p <;> rfl

/-! ## Expressions -/

namespace Expr

/-- The expression denotes no constant, however it is evaluated: it starts with
    a literal that is no color. -/
inductive Inert : Expr → Prop where
  | literal {s : String} {p : Option Position} (hs : Color.keyword? (trimText s) = none) :
      Inert (literal s p)
  | binary {op : Operator} {left right : Expr} {p : Option Position} (hleft : Inert left) :
      Inert (binary op left right p)

theorem Inert.constant?_eq_none {e : Expr} (h : e.Inert) : e.constant? = none := by
  cases h with
  | literal hs => rw [constant?, hs]; rfl
  | binary _ => rfl

/-- All positions are in `S`, and an expression that may be the source of an
    error has a position. -/
inductive Anchored (S : Position → Prop) : Expr → Prop where
  | constant {v : Value} {p : Option Position} (hp : ∀ q, p = some q → S q) :
      Anchored S (constant v p)
  | literal {s : String} {p : Option Position} (hp : ∀ q, p = some q → S q) :
      Anchored S (literal s p)
  | var {name : String} {p : Option Position} (hp : Located S p) : Anchored S (var name p)
  | list {items : List Expr} {p : Option Position} (hp : Located S p)
      (hitems : ∀ e ∈ items, Anchored S e) : Anchored S (list items p)
  | call {name : String} {arguments : List Expr} {p : Option Position} (hp : Located S p)
      (harguments : ∀ e ∈ arguments, Anchored S e) : Anchored S (call name arguments p)
  | access {target : Selector} {member : Member} {p : Option Position} (hp : Located S p) :
      Anchored S (access target member p)
  | binary {op : Operator} {left right : Expr} {p : Option Position} (hp : ∀ q, p = some q → S q)
      (hinert : p = none → left.Inert) (hleft : Anchored S left) (hright : Anchored S right) :
      Anchored S (binary op left right p)

theorem Anchored.position {e : Expr} (h : e.Anchored S) : ∀ q, e.position = some q → S q := by
  cases h with
  | constant hp | literal hp | binary hp => exact hp
  | var hp | list hp | call hp | access hp => exact Located.forall hp

/-! ## Calls and operations -/

/-- A value of a call stands at the call. -/
theorem anchored_of_call {name : String} {arguments : List Expr} {v : Expr} {p : Option Position}
    (h : Registry.builtin.call name arguments = .ok v) (hp : Located S p)
    (harguments : ∀ a ∈ arguments, a.Anchored S) : (v.withPosition p).Anchored S := by
  rw [Registry.call] at h
  split at h
  · rename_i f hf
    have hatom := (Function.plain_of_builtin hf).atomic name arguments v h
    cases v with
    | constant v q => exact .constant (Located.forall hp)
    | literal s q => exact .literal (Located.forall hp)
    | var | list | call | access | binary => cases hatom
  · cases h
    exact .call hp harguments

/-- A refusal has the position of an argument, or gets that of the call. -/
theorem located_of_call {name : String} {arguments : List Expr} {e : Error} {p : Option Position}
    (h : Registry.builtin.call name arguments = .error e) (hp : Located S p)
    (harguments : ∀ a ∈ arguments, a.Anchored S) : Located S (e.locate p).position? := by
  rw [Registry.call] at h
  split at h
  · rename_i f hf
    obtain ⟨text, place, rfl, hplace⟩ := Function.refuses_of_builtin hf name arguments e h
    cases place with
    | none => exact located_locate (Error.position?_function_locate text) hp
    | some q =>
        obtain ⟨a, ha, hq⟩ := hplace.resolve_left (by simp)
        exact ⟨q, rfl, (harguments a ha).position q hq⟩
  · cases h

/-- **An operation on anchored values** gives an anchored value, or fails at the
    left operand or at the operation. -/
theorem meets_applyTo {op : Operator} {left right : Expr} {p : Option Position}
    (hp : ∀ q, p = some q → S q) (hinert : p = none → left.Inert) (hleft : left.Anchored S)
    (hright : right.Anchored S) :
    (Evaluation.ofExcept (applyTo op left right p)).Meets
      (fun v => v.Anchored S ∧ (left.Inert → v.Inert)) (fun e => Located S e.position?) := by
  rw [applyTo.eq_def]
  split
  · rename_i a b ha hb
    have hconstant : ¬ left.Inert := fun h => by rw [h.constant?_eq_none] at ha; cases ha
    split
    · exact ⟨.constant hp, fun h => absurd h hconstant⟩
    · rename_i e he
      refine located_locate (Value.error_of_apply he).position?_locate ?_
      cases hl : left.position with
      | some q => exact ⟨q, rfl, hleft.position q hl⟩
      | none =>
          cases hq : p with
          | some q => exact ⟨q, rfl, hp q hq⟩
          | none => exact absurd (hinert hq) hconstant
  · exact ⟨.binary hp hinert hleft hright, .binary⟩

/-- Pieces put together: one is left as it is, several become one literal. -/
theorem meets_pieces {values : List Expr} {glue : List Expr → String} {p : Option Position}
    {P : Error → Prop} (hp : Located S p) (hvalues : ∀ v ∈ values, v.Anchored S) :
    (match values with
      | [value] => (pure value : Evaluation Expr)
      | values => pure (Expr.literal (glue values) p)).Meets (fun v : Expr => v.Anchored S) P := by
  match values with
  | [value] => exact hvalues value List.mem_cons_self
  | [] | _ :: _ :: _ => exact .literal hp.forall

end Expr

/-! ## Elements, containers and scopes -/

/-- Where a declaration or a call was read. -/
def Item.position : Item → Option Position
  | declaration d => d.position
  | mixin c => c.position

/-- Where an element was read. -/
def Element.position : Element → Option Position
  | ruleSet r => r.position
  | media m => m.position
  | page p => p.position
  | keyframes k => k.position

/-- The declaration or call has a position, and its expressions are anchored. -/
structure Item.Anchored (S : Position → Prop) (i : Item) : Prop where
  position : Located S i.position
  exprs : ∀ e ∈ i.exprs, e.Anchored S

/-- The element has a position, and all that stands in it is anchored. -/
inductive Element.Anchored (S : Position → Prop) : Element → Prop where
  | intro {e : Element} (position : Located S e.position) (items : ∀ i ∈ e.items, i.Anchored S)
      (defaults : ∀ x ∈ e.defaults, x.Anchored S)
      (values : ∀ v ∈ e.container.values, v.Anchored S)
      (body : ∀ o ∈ e.container.body, Anchored S o) : Anchored S e

/-- All that stands in the container is anchored. -/
structure Container.Anchored (S : Position → Prop) (c : Container) : Prop where
  values : ∀ v ∈ c.values, v.Anchored S
  body : ∀ e ∈ c.body, e.Anchored S

/-- The functions are the built-in ones, and all containers are anchored. -/
structure Scope.Anchored (S : Position → Prop) (scope : Scope) : Prop where
  functions : scope.functions = .builtin
  frames : ∀ frame ∈ scope.frames, frame.Anchored S

namespace Element.Anchored

variable {e : Element}

theorem position (h : e.Anchored S) : Located S e.position := by
  obtain ⟨hposition, -, -, -, -⟩ := h
  exact hposition

theorem items (h : e.Anchored S) : ∀ i ∈ e.items, i.Anchored S := by
  obtain ⟨-, hitems, -, -, -⟩ := h
  exact hitems

theorem defaults (h : e.Anchored S) : ∀ x ∈ e.defaults, x.Anchored S := by
  obtain ⟨-, -, hdefaults, -, -⟩ := h
  exact hdefaults

theorem container (h : e.Anchored S) : e.container.Anchored S := by
  obtain ⟨-, -, -, hvalues, hbody⟩ := h
  exact ⟨hvalues, hbody⟩

end Element.Anchored

/-- A rule set that is found in the scope is anchored. -/
theorem Scope.Anchored.of_mem_ruleSets {scope : Scope} (h : scope.Anchored S) {s : Selector}
    {r : RuleSet} (hr : r ∈ scope.ruleSets s) : (Element.ruleSet r).Anchored S := by
  obtain ⟨frame, hframe, hr⟩ := Scope.exists_frame_of_mem_ruleSets hr
  exact (h.frames frame hframe).body _ (Container.mem_childRuleSets.mp hr)

/-- The value of a variable of the scope is anchored. -/
theorem Scope.Anchored.of_getVar? {scope : Scope} (h : scope.Anchored S) {name : String}
    {value : Expr} (hvalue : scope.getVar? name = some value) : value.Anchored S := by
  obtain ⟨frame, hframe, hentry⟩ := Scope.exists_frame_of_getVar? hvalue
  exact (h.frames frame hframe).values value (List.mem_map_of_mem hentry)

theorem Scope.Anchored.enter {scope : Scope} (h : scope.Anchored S) (name : String) :
    (scope.enter name).Anchored S :=
  ⟨h.functions, h.frames⟩

theorem Scope.Anchored.child {scope : Scope} (h : scope.Anchored S) {c : Container}
    (hc : c.Anchored S) : (scope.child c).Anchored S := by
  refine ⟨h.functions, fun frame hframe => ?_⟩
  rcases List.mem_cons.mp hframe with rfl | hframe
  · exact hc
  · exact h.frames frame hframe

theorem RuleSet.declaration_mem_items {r : RuleSet} {d : Declaration} (h : d ∈ r.declarations) :
    Item.declaration d ∈ r.items := by
  obtain ⟨item, hitem, hd⟩ := List.mem_filterMap.mp h
  cases item with
  | mixin c => cases hd
  | declaration d' => cases hd; exact hitem

/-! ## Evaluation -/

namespace Expr

/-- The target of an accessor is found, or the error takes the position of the
    accessor. -/
theorem meets_target {scope : Scope} (hscope : scope.Anchored S) (s : Selector)
    {p : Option Position} (hp : Located S p) :
    (Evaluation.ofExcept (target scope s)).Meets (fun r => (Element.ruleSet r).Anchored S)
      (fun e => Located S (e.locate p).position?) := by
  rw [target]
  split
  · exact located_locate (fun p => by cases p <;> rfl) hp
  · rename_i r hr
    exact hscope.of_mem_ruleSets (s := s) (by rw [hr]; exact List.mem_cons_self)
  · exact located_locate (fun p => by cases p <;> rfl) hp

/-- The outcome is an anchored value, or an error with a position in `S`. -/
abbrev EndsIn (S : Position → Prop) (x : Evaluation Expr) : Prop :=
  x.Meets (fun v => v.Anchored S) fun err => Located S err.position?

section Parts

variable {n : Nat} {scope : Scope} {p : Option Position}

theorem eval_list_anchored {items : List Expr} (hp : Located S p)
    (hitems : ∀ e ∈ items, EndsIn S (eval n scope e)) :
    EndsIn S (eval (n + 1) scope (list items p)) := by
  rw [eval]
  exact (Evaluation.Meets.mapM hitems).bind fun values hvalues => meets_pieces hp hvalues

theorem eval_call_anchored {name : String} {arguments : List Expr}
    (hfunctions : scope.functions = .builtin) (hp : Located S p)
    (harguments : ∀ a ∈ arguments, EndsIn S (eval n scope a)) :
    EndsIn S (eval (n + 1) scope (call name arguments p)) := by
  rw [eval]
  refine Evaluation.Meets.locate (R := fun err => Located S (err.locate p).position?) ?_ fun _ => id
  have hvalues : ((arguments.filter fun a => !a.isSeparator).mapM (eval n scope)).Meets
      (fun vs => ∀ v ∈ vs, v.Anchored S) (fun err => Located S (err.locate p).position?) :=
    .mapM fun a ha => (harguments a (List.mem_filter.mp ha).1).imp (fun _ => id)
      fun err herr => herr.locate p
  refine Evaluation.Meets.bind (Q := fun v => (v.withPosition p).Anchored S) ?_ fun v hv => hv
  refine hvalues.bind fun vs hvs => ?_
  rw [hfunctions]
  exact .ofExcept (fun v hv => anchored_of_call hv hp hvs)
    fun err herr => located_of_call herr hp hvs

/-- An operation starts with its left operand, and is as inert. -/
theorem eval_binary_anchored {op : Operator} {left right : Expr} (hp : ∀ q, p = some q → S q)
    (hinert : p = none → left.Inert)
    (hleft : (eval n scope left).Meets (fun v => v.Anchored S ∧ (left.Inert → v.Inert))
      (fun err => Located S err.position?))
    (hright : EndsIn S (eval n scope right)) :
    (eval (n + 1) scope (binary op left right p)).Meets
      (fun v => v.Anchored S ∧ ((binary op left right p).Inert → v.Inert))
      (fun err => Located S err.position?) := by
  rw [eval]
  refine hleft.bind fun l hl => hright.bind fun r hr => ?_
  refine (meets_applyTo hp (fun hnone => hl.2 (hinert hnone)) hl.1 hr).imp
    (fun v hv => ⟨hv.1, fun h => ?_⟩) fun _ => id
  cases h with
  | binary hleft => exact hv.2 (hl.2 hleft)

end Parts

/-- **EVALUATION KEEPS ANCHORS.**  An anchored expression has an anchored value,
    an inert one an inert value, and every error has a position in `S`. -/
theorem eval_anchored : ∀ {n : Nat} {scope : Scope} {e : Expr}, scope.Anchored S → e.Anchored S →
    (eval n scope e).Meets (fun v => v.Anchored S ∧ (e.Inert → v.Inert))
      (fun err => Located S err.position?) := by
  intro n
  induction n with
  | zero => intro scope e _ _; exact trivial
  | succ n ih =>
      intro scope e hscope he
      have hplain : ∀ {scope : Scope} {e : Expr}, scope.Anchored S → e.Anchored S →
          EndsIn S (eval n scope e) :=
        fun hscope he => (ih hscope he).imp (fun _ hv => hv.1) fun _ herr => herr
      cases he with
      | constant hp => exact ⟨.constant hp, id⟩
      | literal hp => exact ⟨.literal hp, id⟩
      | @var name p hp =>
          rw [eval]
          split
          · exact located_locate (fun p => by cases p <;> rfl) hp
          · split
            · exact located_locate (fun p => by cases p <;> rfl) hp
            · rename_i value hvalue
              refine ((hplain (hscope.enter name) (hscope.of_getVar? hvalue)).imp
                (fun v hv => ⟨hv, fun h => by cases h⟩) fun _ => id).locate
                fun err herr => herr.locate p
      | list hp hitems =>
          exact (eval_list_anchored hp fun e he => hplain hscope (hitems e he)).imp
            (fun v hv => ⟨hv, fun h => by cases h⟩) fun _ => id
      | call hp harguments =>
          exact (eval_call_anchored hscope.functions hp fun a ha =>
            hplain hscope (harguments a ha)).imp (fun v hv => ⟨hv, fun h => by cases h⟩) fun _ => id
      | @access selector member p hp =>
          rw [eval]
          refine Evaluation.Meets.locate (R := fun err => Located S (err.locate p).position?) ?_
            fun _ => id
          refine (meets_target hscope selector hp).bind fun r hr => ?_
          have hinner := hscope.child hr.container
          have hmissing := located_locate (S := S)
            (e := .undefinedMember selector.text member.label) (fun p => by cases p <;> rfl) hp
          have hlate : ∀ {e : Expr}, e.Anchored S → (eval n (scope.child r.container) e).Meets
              (fun v => v.Anchored S) (fun err => Located S (err.locate p).position?) :=
            fun he => (hplain hinner he).imp (fun _ => id) fun err herr => herr.locate p
          cases member with
          | var name =>
              simp only
              split
              · exact hmissing
              · rename_i value hvalue
                have hmem : value ∈ r.container.values :=
                  List.mem_map_of_mem (Bindings.mem_of_get? hvalue)
                exact (hlate (hr.container.values value hmem)).imp
                  (fun v hv => ⟨hv, fun h => by cases h⟩) fun _ => id
          | property name =>
              simp only
              split
              · exact hmissing
              · rename_i d hd
                have hmem : d ∈ r.declarations :=
                  List.mem_reverse.mp (List.mem_of_find?_eq_some hd)
                have hitem := hr.items _ (RuleSet.declaration_mem_items hmem)
                refine (Evaluation.Meets.mapM fun v hv => hlate (hitem.exprs v hv)).bind
                  fun values hvalues => ?_
                exact (meets_pieces hp hvalues).imp
                  (fun v hv => ⟨hv, fun h => by cases h⟩) fun _ => id
      | binary hp hinert hleft hright =>
          exact eval_binary_anchored hp hinert (ih hscope hleft) (hplain hscope hright)

end Expr

end Less
