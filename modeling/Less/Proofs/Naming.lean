import Less.Proofs.Dependency
import Less.Proofs.Refusal

/-! # An expression and a variable that stands for it

    A variable is evaluated as its expression is, with its name among those being
    resolved.  The check for cycles looks at names, and names are taken along into
    the rule sets that accessors read, where a variable of the same name may be
    another one.  So there are two outcomes for the name of an expression that has a
    value.  If the evaluation of the expression comes across no variable of that name
    (`Reaches`), the name has the same value; if it does, wherever that is, the name
    is refused as a cycle.

    Without accessors the name is not reached, since no variable with a value uses
    itself.  With accessors it may be, although there is no cycle: a rule set that
    has a variable of the same name is enough. -/

namespace Less

namespace Evaluation

variable {α β : Type} {name : String} {P Q : Prop}

/-! ## A second run of an evaluation -/

/-- The outcome of repeating what gave `a`: a cycle at the name if it is reached,
    and otherwise the same. -/
def Replays (name : String) (reached : Prop) (a : α) (x : Evaluation α) : Prop :=
  (¬ reached ∧ x = done a) ∨ (reached ∧ ∃ e, x = failed e ∧ e.kind = .cyclicVariable name)

theorem Replays.of_iff {a : α} {x : Evaluation α} (hPQ : P ↔ Q) (h : Replays name P a x) :
    Replays name Q a x := by
  rw [propext hPQ] at h
  exact h

/-- The first step that reaches the name decides. -/
theorem Replays.bind {a : α} {b : β} {x : Evaluation α} {f : α → Evaluation β}
    (hx : Replays name P a x) (hf : Replays name Q b (f a)) :
    Replays name (P ∨ Q) b (x >>= f) := by
  rcases hx with ⟨hP, rfl⟩ | ⟨hP, e, rfl, he⟩
  · rcases hf with ⟨hQ, hb⟩ | ⟨hQ, e, he, hkind⟩
    · exact Or.inl ⟨not_or.mpr ⟨hP, hQ⟩, hb⟩
    · exact Or.inr ⟨Or.inr hQ, e, he, hkind⟩
  · exact Or.inr ⟨Or.inl hP, e, rfl, he⟩

/-- A last step that evaluates nothing reaches nothing. -/
theorem Replays.bind_of_done {a : α} {b : β} {x : Evaluation α} {f : α → Evaluation β}
    (hx : Replays name P a x) (hf : f a = done b) : Replays name P b (x >>= f) :=
  (hx.bind (Q := False) (Or.inl ⟨not_false, hf⟩)).of_iff (iff_of_eq (or_false P))

theorem Replays.locate {a : α} {x : Evaluation α} (h : Replays name P a x) (p : Option Position) :
    Replays name P a (x.locate p) := by
  rcases h with ⟨hP, rfl⟩ | ⟨hP, e, rfl, he⟩
  · exact Or.inl ⟨hP, rfl⟩
  · exact Or.inr ⟨hP, e.locate p, rfl, (e.kind_locate p).trans he⟩

/-- The first item that reaches the name decides. -/
theorem Replays.mapM {R : α → Prop} {f : α → Evaluation β} {as : List α} {bs : List β}
    (h : List.Forall₂ (fun a b => Replays name (R a) b (f a)) as bs) :
    Replays name (∃ a ∈ as, R a) bs (as.mapM f) := by
  induction h with
  | nil => exact Or.inl ⟨by simp, rfl⟩
  | @cons a b as bs hb _ ih =>
      rw [List.mapM_cons]
      have hrest : Replays name (∃ a ∈ as, R a) (b :: bs)
          (as.mapM f >>= fun rest => pure (b :: rest)) := ih.bind_of_done rfl
      exact (hb.bind hrest).of_iff (List.exists_mem_cons_iff R a as).symm

end Evaluation

namespace Expr

open Evaluation

variable {name : String}

/-! ## What an evaluation comes across -/

/-- **The evaluation comes across a variable of that name**, in the expression, in
    the value of a variable or in what an accessor reads. -/
inductive Reaches (name : String) : Scope → Expr → Prop where
  | here {scope : Scope} {p : Option Position} : Reaches name scope (var name p)
  | value {scope : Scope} {other : String} {e : Expr} {p : Option Position}
      (hvalue : scope.getVar? other = some e) (h : Reaches name (scope.enter other) e) :
      Reaches name scope (var other p)
  | item {scope : Scope} {items : List Expr} {p : Option Position} {e : Expr} (he : e ∈ items)
      (h : Reaches name scope e) : Reaches name scope (list items p)
  | argument {scope : Scope} {f : String} {arguments : List Expr} {p : Option Position} {e : Expr}
      (he : e ∈ arguments) (h : Reaches name scope e) : Reaches name scope (call f arguments p)
  | left {scope : Scope} {op : Operator} {l r : Expr} {p : Option Position}
      (h : Reaches name scope l) : Reaches name scope (binary op l r p)
  | right {scope : Scope} {op : Operator} {l r : Expr} {p : Option Position}
      (h : Reaches name scope r) : Reaches name scope (binary op l r p)
  | readVar {scope : Scope} {s : Selector} {other : String} {p : Option Position} {r : RuleSet}
      {e : Expr} (htarget : target scope s = .ok r) (he : r.container.getVar? other = some e)
      (h : Reaches name (scope.child r.container) e) : Reaches name scope (access s (.var other) p)
  | readProperty {scope : Scope} {s : Selector} {other : String} {p : Option Position} {r : RuleSet}
      {d : Declaration} {e : Expr} (htarget : target scope s = .ok r)
      (hd : r.declaration? other = some d) (he : e ∈ d.values)
      (h : Reaches name (scope.child r.container) e) :
      Reaches name scope (access s (.property other) p)

variable {scope : Scope} {p : Option Position}

theorem reaches_var_iff {other : String} {e : Expr} (hother : other ≠ name)
    (hvalue : scope.getVar? other = some e) :
    Reaches name (scope.enter other) e ↔ Reaches name scope (var other p) := by
  refine ⟨.value hvalue, fun h => ?_⟩
  cases h with
  | here => exact absurd rfl hother
  | value hvalue' h =>
      rw [hvalue] at hvalue'
      cases hvalue'
      exact h

theorem reaches_list_iff {items : List Expr} :
    (∃ e ∈ items, Reaches name scope e) ↔ Reaches name scope (list items p) := by
  constructor
  · rintro ⟨e, he, h⟩
    exact .item he h
  · intro h
    cases h with
    | item he h => exact ⟨_, he, h⟩

theorem not_reaches_of_isSeparator {e : Expr} (h : e.isSeparator = true) :
    ¬ Reaches name scope e := by
  cases e with
  | literal s q => nofun
  | constant | var | list | call | access | binary => cases h

/-- The separators among the arguments reach nothing. -/
theorem reaches_call_iff {f : String} {arguments : List Expr} :
    (∃ e ∈ arguments.filter fun a => !a.isSeparator, Reaches name scope e) ↔
      Reaches name scope (call f arguments p) := by
  constructor
  · rintro ⟨e, he, h⟩
    exact .argument (List.mem_of_mem_filter he) h
  · intro h
    cases h with
    | @argument _ _ _ _ e he h =>
        have hkept : e.isSeparator = false :=
          Bool.eq_false_iff.mpr fun hs => not_reaches_of_isSeparator hs h
        exact ⟨e, List.mem_filter.mpr ⟨he, by rw [hkept]; rfl⟩, h⟩

theorem reaches_binary_iff {op : Operator} {l r : Expr} :
    Reaches name scope l ∨ Reaches name scope r ↔ Reaches name scope (binary op l r p) := by
  constructor
  · rintro (h | h)
    · exact .left h
    · exact .right h
  · intro h
    cases h with
    | left h => exact Or.inl h
    | right h => exact Or.inr h

theorem reaches_variable_iff {s : Selector} {other : String} {r : RuleSet} {e : Expr}
    (htarget : target scope s = .ok r) (he : r.container.getVar? other = some e) :
    Reaches name (scope.child r.container) e ↔ Reaches name scope (access s (.var other) p) := by
  refine ⟨.readVar htarget he, fun h => ?_⟩
  cases h with
  | readVar htarget' he' h =>
      rw [htarget] at htarget'
      cases htarget'
      rw [he] at he'
      cases he'
      exact h

theorem reaches_property_iff {s : Selector} {other : String} {r : RuleSet} {d : Declaration}
    (htarget : target scope s = .ok r) (hd : r.declaration? other = some d) :
    (∃ e ∈ d.values, Reaches name (scope.child r.container) e) ↔
      Reaches name scope (access s (.property other) p) := by
  constructor
  · rintro ⟨e, he, h⟩
    exact .readProperty htarget hd he h
  · intro h
    cases h with
    | readProperty htarget' hd' he h =>
        rw [htarget] at htarget'
        cases htarget'
        rw [hd] at hd'
        cases hd'
        exact ⟨_, he, h⟩

/-! ## Evaluation with one more name being resolved -/

/-- **One more name being resolved** turns a value into a cycle if the evaluation
    reaches that name, and changes nothing otherwise. -/
theorem eval_replays : ∀ {n : Nat} {scope : Scope} {e v : Expr} {names : List String},
    eval n scope e = .done v → (∀ x, x ∈ names ↔ x = name ∨ x ∈ scope.resolving) →
      Replays name (Reaches name scope e) v (eval n (scope.withResolving names) e) := by
  intro n
  induction n with
  | zero => intro scope e v names h; cases h
  | succ n ih =>
      intro scope e v names h hnames
      have hlist : ∀ {inner : Scope} {es values : List Expr},
          inner.resolving = scope.resolving → es.mapM (eval n inner) = .done values →
          Replays name (∃ e ∈ es, Reaches name inner e) values
            (es.mapM (eval n (inner.withResolving names))) := by
        intro inner es values hinner hvalues
        refine Replays.mapM ((mapM_eq_done hvalues).imp fun e v hv => ih hv ?_)
        rw [hinner]
        exact hnames
      cases e with
      | constant value q =>
          cases h
          exact Or.inl ⟨nofun, rfl⟩
      | literal s q =>
          cases h
          exact Or.inl ⟨nofun, rfl⟩
      | var other q =>
          rw [eval] at h
          split at h
          · cases h
          · rename_i hfree
            split at h
            · cases h
            · rename_i e hvalue
              by_cases hother : other = name
              · have hmet : (scope.withResolving names).isResolving other = true :=
                  List.contains_iff_mem.mpr ((hnames other).mpr (Or.inl hother))
                rw [eval, hmet, if_pos rfl]
                subst hother
                exact Or.inr ⟨.here, _, rfl, Error.kind_locate _ q⟩
              · have hfree' : (scope.withResolving names).isResolving other = false := by
                  rw [Bool.eq_false_iff]
                  intro hmem
                  rcases (hnames other).mp (List.contains_iff_mem.mp hmem) with heq | hmem
                  · exact hother heq
                  · exact hfree (List.contains_iff_mem.mpr hmem)
                have hget : (scope.withResolving names).getVar? other = some e := hvalue
                have hinner : Replays name (Reaches name (scope.enter other) e) v
                    (eval n ((scope.enter other).withResolving (other :: names)) e) := by
                  refine ih (locate_eq_done h) fun x => ?_
                  show x ∈ other :: names ↔ x = name ∨ x ∈ other :: scope.resolving
                  rw [List.mem_cons, List.mem_cons, hnames]
                  tauto
                rw [eval, hfree', if_neg Bool.false_ne_true, hget]
                exact (hinner.locate q).of_iff (reaches_var_iff hother hvalue)
      | list items q =>
          rw [eval] at h ⊢
          obtain ⟨values, hvalues, h⟩ := bind_eq_done h
          exact ((hlist rfl hvalues).bind_of_done h).of_iff reaches_list_iff
      | call f arguments q =>
          rw [eval] at h ⊢
          obtain ⟨result, hresult, h⟩ := bind_eq_done (locate_eq_done h)
          obtain ⟨values, hvalues, hcall⟩ := bind_eq_done hresult
          have hinvoke : Replays name
              (∃ a ∈ arguments.filter fun a => !a.isSeparator, Reaches name scope a) result
              (invoke (eval n (scope.withResolving names)) scope.functions f arguments) :=
            (hlist rfl hvalues).bind_of_done hcall
          exact ((hinvoke.bind_of_done h).locate q).of_iff reaches_call_iff
      | access s member q =>
          rw [eval] at h ⊢
          obtain ⟨r, hr, h⟩ := bind_eq_done (locate_eq_done h)
          have htarget : target scope s = .ok r := ofExcept_eq_done hr
          have htarget' : target (scope.withResolving names) s = .ok r := htarget
          rw [htarget']
          cases member with
          | var other =>
              simp only at h
              split at h
              · cases h
              · rename_i e he
                simp only [Evaluation.ofExcept, done_bind, he]
                have hinner : Replays name (Reaches name (scope.child r.container) e) v
                    (eval n ((scope.child r.container).withResolving names) e) := ih h hnames
                exact (hinner.locate q).of_iff (reaches_variable_iff htarget he)
          | property other =>
              simp only at h
              split at h
              · cases h
              · rename_i d hd
                obtain ⟨values, hvalues, h⟩ := bind_eq_done h
                simp only [Evaluation.ofExcept, done_bind, hd]
                have hinner :
                    Replays name (∃ e ∈ d.values, Reaches name (scope.child r.container) e) values
                      (d.values.mapM (eval n ((scope.child r.container).withResolving names))) :=
                  hlist rfl hvalues
                exact ((hinner.bind_of_done h).locate q).of_iff (reaches_property_iff htarget hd)
      | binary op l r q =>
          rw [eval] at h ⊢
          obtain ⟨lv, hl, h⟩ := bind_eq_done h
          obtain ⟨rv, hr, h⟩ := bind_eq_done h
          exact ((ih hl hnames).bind ((ih hr hnames).bind_of_done h)).of_iff reaches_binary_iff

/-- Without accessors, what an evaluation reaches is used by the expression. -/
theorem Reaches.uses {e : Expr} (h : Reaches name scope e) (hscope : scope.AccessFree)
    (he : e.isAccessFree = true) : Uses scope.getVar? e name := by
  induction h with
  | here => exact .here (List.mem_singleton.mpr rfl)
  | value hvalue _ ih => exact .of_value _ hvalue (ih hscope (hscope.of_getVar? hvalue))
  | item hitem _ ih =>
      exact (ih hscope (isAccessFree_list.mp he _ hitem)).of_part
        fun x hx => mem_varNamesOf.mpr ⟨_, hitem, hx⟩
  | argument ha _ ih =>
      exact (ih hscope (isAccessFree_call.mp he _ ha)).of_part
        fun x hx => mem_varNamesOf.mpr ⟨_, ha, hx⟩
  | left _ ih =>
      exact (ih hscope (isAccessFree_binary.mp he).1).of_part fun x hx => List.mem_append_left _ hx
  | right _ ih =>
      exact (ih hscope (isAccessFree_binary.mp he).2).of_part fun x hx => List.mem_append_right _ hx
  | readVar | readProperty => cases he

/-- **A NAME HAS THE VALUE OF ITS EXPRESSION** exactly if the evaluation of the
    expression does not come across the name, as it never does without accessors;
    otherwise the name is refused as a cycle. -/
theorem eval_name_of_value {n : Nat} {e v : Expr} (hresolving : scope.resolving = [])
    (hvalue : scope.getVar? name = some e) (h : eval n scope e = .done v) (p : Option Position) :
    (¬ Reaches name scope e → ∀ m, n < m → eval m scope (var name p) = .done v)
      ∧ (Reaches name scope e → ∃ err, err.kind = .cyclicVariable name
        ∧ ∀ m, n < m → eval m scope (var name p) = .failed err)
      ∧ (scope.AccessFree → e.isAccessFree = true → ¬ Reaches name scope e) := by
  have hreplays : Replays name (Reaches name scope e) v (eval n (scope.enter name) e) := by
    refine eval_replays h fun x => ?_
    show x ∈ name :: scope.resolving ↔ _
    exact List.mem_cons
  have hvar : eval (n + 1) scope (var name p) = (eval n (scope.enter name) e).locate p := by
    have hfree : scope.isResolving name = false := by
      rw [Scope.isResolving, hresolving]
      rfl
    rw [eval, hfree, if_neg Bool.false_ne_true, hvalue]
  refine ⟨fun hnot m hm => ?_, fun hreached => ?_, fun hscope he hreached => ?_⟩
  · rcases hreplays with ⟨-, hdone⟩ | ⟨hreached, -⟩
    · rw [hdone] at hvar
      rw [eval_eq_of_le (Nat.succ_le_of_lt hm) (by rw [hvar]; exact done_ne_exhausted v), hvar]
      rfl
    · exact absurd hreached hnot
  · rcases hreplays with ⟨hnot, -⟩ | ⟨-, err, hfailed, hkind⟩
    · exact absurd hreached hnot
    · rw [hfailed] at hvar
      refine ⟨err.locate p, (err.kind_locate p).trans hkind, fun m hm => ?_⟩
      rw [eval_eq_of_le (Nat.succ_le_of_lt hm) (by rw [hvar]; exact failed_ne_exhausted _), hvar]
      rfl
  · exact not_uses_self hvalue rfl h (hreached.uses hscope he)

/-- A variable that stands for an accessor has the value that the accessor reads,
    through another variable of the rule set. -/
theorem eval_name_of_value_read :
    let box : RuleSet :=
      { selectors := [⟨".box"⟩], params := none, items := []
        container :=
          { vars := .ofList [("d", .var "e" none), ("e", .literal "red" none)], body := [] }
        position := none }
    let read : Expr := .access ⟨".box"⟩ (.var "d") none
    let scope := (Scope.root .builtin).child
      { vars := .ofList [("c", read)], body := [.ruleSet box] }
    scope.resolving = [] ∧ scope.getVar? "c" = some read
      ∧ eval 3 scope read = .done (.literal "red" none) ∧ ¬ Reaches "c" scope read
      ∧ ∀ m, 3 < m → eval m scope (.var "c" none) = .done (.literal "red" none) := by
  intro box read scope
  have h : eval 3 scope read = .done (.literal "red" none) := by rfl
  have hnot : ¬ Reaches "c" scope read := by
    rw [← reaches_variable_iff (r := box) rfl rfl, ← reaches_var_iff (by decide) rfl]
    nofun
  exact ⟨rfl, rfl, h, hnot, (eval_name_of_value rfl rfl h none).1 hnot⟩

/-- A rule set with a variable of the same name makes the name a cycle: the accessor
    has the value `red`, and the variable that stands for it has none. -/
theorem eval_name_refused_by_other :
    let box : RuleSet :=
      { selectors := [⟨".box"⟩], params := none, items := []
        container :=
          { vars := .ofList [("c", .literal "red" none), ("d", .var "c" none)], body := [] }
        position := none }
    let read : Expr := .access ⟨".box"⟩ (.var "d") none
    let scope := (Scope.root .builtin).child
      { vars := .ofList [("c", read)], body := [.ruleSet box] }
    scope.resolving = [] ∧ scope.getVar? "c" = some read
      ∧ eval 3 scope read = .done (.literal "red" none)
      ∧ ∀ m v, eval m scope (.var "c" none) ≠ .done v := by
  intro box read scope
  refine ⟨rfl, rfl, rfl, fun m v h => ?_⟩
  have hfailed : eval 4 scope (.var "c" none) = .failed (.cyclicVariable "c") := by rfl
  have hagree : eval 4 scope (.var "c" none) = eval m scope (.var "c" none) :=
    eval_agree (by rw [hfailed]; exact failed_ne_exhausted _) (by rw [h]; exact done_ne_exhausted v)
  rw [hfailed, h] at hagree
  cases hagree

end Expr

end Less
