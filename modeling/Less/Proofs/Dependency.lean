import Less.Proofs.AccessFree

/-! # Which variables an expression uses

    `Uses lookup e name`: the value of `e` depends on the variable `name`,
    because it stands in `e` or in the value of a variable that `e` uses.

    An evaluation that gives a value has evaluated everything the expression
    uses, within smaller bounds (`done_of_uses`).  So no variable that has a
    value uses itself (`not_uses_self`), and a value does not depend on the
    names that were being resolved as long as the expression uses none of them
    (`eval_withResolving`): the check for cycles never fires without a cycle. -/

namespace Less

/-- The scope with other names being resolved. -/
def Scope.withResolving (scope : Scope) (names : List String) : Scope :=
  { scope with resolving := names }

namespace Expr

open Evaluation

mutual

/-- The variables that stand in an expression. -/
def varNames : Expr → List String
  | var name _ => [name]
  | list items _ => varNamesOf items
  | call _ arguments _ => varNamesOf arguments
  | binary _ left right _ => left.varNames ++ right.varNames
  | constant _ _ => []
  | literal _ _ => []
  | access _ _ _ => []

/-- The variables that stand in expressions. -/
def varNamesOf : List Expr → List String
  | [] => []
  | e :: es => e.varNames ++ varNamesOf es

end

theorem mem_varNamesOf {name : String} {es : List Expr} :
    name ∈ varNamesOf es ↔ ∃ e ∈ es, name ∈ e.varNames := by
  induction es with
  | nil => simp [varNamesOf]
  | cons e es ih => simp only [varNamesOf, List.mem_append, ih, List.exists_mem_cons_iff]

/-- No variable stands in a separator. -/
theorem not_isSeparator_of_mem_varNames {name : String} {e : Expr} (h : name ∈ e.varNames) :
    e.isSeparator = false := by
  cases e with
  | literal s p => exact absurd h List.not_mem_nil
  | constant | var | list | call | access | binary => rfl

/-! ## Use -/

/-- The variable stands in the expression or in the value of a variable that
    the expression uses. -/
inductive Uses (lookup : String → Option Expr) : Expr → String → Prop where
  | here {e : Expr} {name : String} (h : name ∈ e.varNames) : Uses lookup e name
  | there {e value : Expr} {other name : String} (h : other ∈ e.varNames)
      (hvalue : lookup other = some value) (hrest : Uses lookup value name) : Uses lookup e name

variable {lookup : String → Option Expr}

/-- An expression uses what its parts use. -/
theorem Uses.of_part {e whole : Expr} {name : String} (hsub : e.varNames ⊆ whole.varNames)
    (h : Uses lookup e name) : Uses lookup whole name := by
  cases h with
  | here h => exact .here (hsub h)
  | there h hvalue hrest => exact .there (hsub h) hvalue hrest

theorem Uses.trans {e value : Expr} {other name : String} (h : Uses lookup e other)
    (hvalue : lookup other = some value) (hrest : Uses lookup value name) : Uses lookup e name := by
  induction h with
  | here h => exact .there h hvalue hrest
  | there h hinner _ ih => exact .there h hinner (ih hvalue)

/-- A variable uses what its value uses. -/
theorem Uses.of_value {value : Expr} {other name : String} (p : Option Position)
    (hvalue : lookup other = some value) (h : Uses lookup value name) :
    Uses lookup (var other p) name :=
  .there (List.mem_singleton.mpr rfl) hvalue h

/-! ## What was evaluated on the way to a value -/

/-- Every variable that stands in an expression with a value was evaluated. -/
theorem done_of_mem_varNames : ∀ {n : Nat} {scope : Scope} {e v : Expr}, eval n scope e = .done v →
    ∀ name ∈ e.varNames, scope.isResolving name = false ∧
      ∃ value m w, scope.getVar? name = some value ∧ m < n
        ∧ eval m (scope.enter name) value = .done w := by
  intro n
  induction n with
  | zero => intro scope e v h; cases h
  | succ n ih =>
      intro scope e v h name hname
      -- a part of the expression was evaluated within the bound `n`
      have hpart : ∀ {part w : Expr}, eval n scope part = .done w → name ∈ part.varNames →
          scope.isResolving name = false ∧ ∃ value m w, scope.getVar? name = some value
            ∧ m < n + 1 ∧ eval m (scope.enter name) value = .done w := by
        intro part w hw hmem
        obtain ⟨hres, value, m, w', hvalue, hm, hw'⟩ := ih hw name hmem
        exact ⟨hres, value, m, w', hvalue, Nat.lt_succ_of_lt hm, hw'⟩
      cases e with
      | constant | literal | access => exact absurd hname List.not_mem_nil
      | var other p =>
          have heq : name = other := List.mem_singleton.mp hname
          subst heq
          rw [eval] at h
          split at h
          · cases h
          · rename_i hres
            split at h
            · cases h
            · rename_i value hvalue
              exact ⟨Bool.not_eq_true _ ▸ hres, value, n, v, hvalue, Nat.lt_succ_self n,
                locate_eq_done h⟩
      | list items p =>
          rw [eval] at h
          obtain ⟨values, hvalues, -⟩ := bind_eq_done h
          obtain ⟨item, hitem, hmem⟩ := mem_varNamesOf.mp hname
          obtain ⟨w, -, hw⟩ := exists_image_of_forall₂ (mapM_eq_done hvalues) hitem
          exact hpart hw hmem
      | call f arguments p =>
          rw [eval] at h
          obtain ⟨result, hresult, -⟩ := bind_eq_done (locate_eq_done h)
          obtain ⟨values, hvalues, -⟩ := bind_eq_done hresult
          obtain ⟨a, ha, hmem⟩ := mem_varNamesOf.mp hname
          -- the argument was not dropped, since no variable stands in a separator
          have hkept : a ∈ arguments.filter fun a => !a.isSeparator :=
            List.mem_filter.mpr ⟨ha, by rw [not_isSeparator_of_mem_varNames hmem]; rfl⟩
          obtain ⟨w, -, hw⟩ := exists_image_of_forall₂ (mapM_eq_done hvalues) hkept
          exact hpart hw hmem
      | binary op left right p =>
          rw [eval] at h
          obtain ⟨l, hl, h⟩ := bind_eq_done h
          obtain ⟨r, hr, -⟩ := bind_eq_done h
          rcases List.mem_append.mp hname with hmem | hmem
          · exact hpart hl hmem
          · exact hpart hr hmem

/-- **Everything an expression with a value uses was evaluated**, within a
    smaller bound, and was not being resolved. -/
theorem done_of_uses {e : Expr} {name : String} (h : Uses lookup e name) :
    ∀ {n : Nat} {scope : Scope} {v : Expr}, scope.getVar? = lookup → eval n scope e = .done v →
      scope.isResolving name = false ∧ ∃ value m inner w, lookup name = some value ∧ m < n ∧
        inner.getVar? = lookup ∧ eval m inner value = .done w := by
  induction h with
  | @here e name hmem =>
      intro n scope v hlookup hv
      obtain ⟨hres, value, m, w, hvalue, hm, hw⟩ := done_of_mem_varNames hv name hmem
      rw [hlookup] at hvalue
      exact ⟨hres, value, m, scope.enter name, w, hvalue, hm, hlookup, hw⟩
  | @there e value other name hmem hvalue _ ih =>
      intro n scope v hlookup hv
      obtain ⟨-, value', m, w, hvalue', hm, hw⟩ := done_of_mem_varNames hv other hmem
      rw [hlookup, hvalue] at hvalue'
      cases hvalue'
      have hinner : (scope.enter other).getVar? = lookup := hlookup
      obtain ⟨hres, last, k, inner, w', hlast, hk, hinner', hw'⟩ := ih hinner hw
      refine ⟨?_, last, k, inner, w', hlast, Nat.lt_trans hk hm, hinner', hw'⟩
      -- what is not being resolved after `other` was entered was not before
      rw [Scope.isResolving, Scope.enter, List.contains_cons, Bool.or_eq_false_iff] at hres
      exact hres.2

/-- **No variable that has a value uses itself.** -/
theorem not_uses_self {name : String} {value : Expr} (hvalue : lookup name = some value) :
    ∀ {n : Nat} {scope : Scope} {w : Expr}, scope.getVar? = lookup → eval n scope value = .done w →
      ¬ Uses lookup value name := by
  intro n
  induction n using Nat.strong_induction_on with
  | _ n ih =>
      intro scope w hlookup hw huses
      -- its expression would have been evaluated within ever smaller bounds
      obtain ⟨-, value', m, inner, w', hvalue', hm, hinner, hw'⟩ := done_of_uses huses hlookup hw
      rw [hvalue] at hvalue'
      cases hvalue'
      exact ih m hm hinner hw' huses

/-! ## Names being resolved -/

/-- **A value does not depend on the names being resolved**, as long as the
    expression uses none of them. -/
theorem eval_withResolving : ∀ {n : Nat} {scope : Scope} {e v : Expr} {names : List String},
    scope.AccessFree → e.isAccessFree = true → eval n scope e = .done v →
    (∀ name ∈ names, ¬ Uses scope.getVar? e name) →
      eval n (scope.withResolving names) e = .done v := by
  intro n
  induction n with
  | zero => intro scope e v names _ _ h; cases h
  | succ n ih =>
      intro scope e v names hscope he h hunused
      have hpart : ∀ {part w : Expr}, part.isAccessFree = true → part.varNames ⊆ e.varNames →
          eval n scope part = .done w → eval n (scope.withResolving names) part = .done w := by
        intro part w hpart hsub hw
        exact ih hscope hpart hw fun name hname huses => hunused name hname (huses.of_part hsub)
      cases e with
      | constant value p => exact h
      | literal s p => exact h
      | access target member p => cases he
      | var name p =>
          rw [eval] at h ⊢
          split at h
          · cases h
          · rename_i hres
            split at h
            · cases h
            · rename_i value hvalue
              have hfree : (scope.withResolving names).isResolving name = false := by
                rw [Bool.eq_false_iff]
                intro hmem
                exact hunused name (List.contains_iff_mem.mp hmem)
                  (.here (List.mem_singleton.mpr rfl))
              have hget : (scope.withResolving names).getVar? name = some value := hvalue
              have hinner : (scope.enter name).AccessFree := hscope
              have hlookup : (scope.enter name).getVar? = scope.getVar? := rfl
              have hv : eval n (scope.enter name) value = .done v := locate_eq_done h
              rw [hfree, if_neg Bool.false_ne_true, hget]
              -- inside, `name` is being resolved too, and its value does not use it
              have hdone :
                  eval n ((scope.enter name).withResolving (name :: names)) value = .done v := by
                refine ih hinner (hscope.of_getVar? hvalue) hv fun other hother huses => ?_
                rcases List.mem_cons.mp hother with rfl | hother
                · exact not_uses_self hvalue hlookup hv huses
                · exact hunused other hother (huses.of_value p hvalue)
              show (eval n ((scope.enter name).withResolving (name :: names)) value).locate p
                = .done v
              rw [hdone]
              rfl
      | list items p =>
          rw [eval] at h ⊢
          obtain ⟨values, hvalues, h⟩ := bind_eq_done h
          rw [mapM_congr hvalues fun item hitem w hw =>
            hpart (isAccessFree_list.mp he item hitem)
              (fun x hx => mem_varNamesOf.mpr ⟨item, hitem, hx⟩) hw]
          exact h
      | call f arguments p =>
          rw [eval] at h ⊢
          obtain ⟨result, hresult, h⟩ := bind_eq_done (locate_eq_done h)
          obtain ⟨values, hvalues, hcall⟩ := bind_eq_done hresult
          have hvalues' : (arguments.filter fun a => !a.isSeparator).mapM
              (eval n (scope.withResolving names)) = .done values :=
            mapM_congr hvalues fun a ha w hw =>
              hpart (isAccessFree_call.mp he a (List.mem_of_mem_filter ha))
                (fun x hx => mem_varNamesOf.mpr ⟨a, List.mem_of_mem_filter ha, hx⟩) hw
          rw [invoke, hvalues', done_bind]
          show locate p (ofExcept (scope.functions.call f values) >>= _) = .done v
          rw [hcall, done_bind, h]
          rfl
      | binary op left right p =>
          rw [eval] at h ⊢
          obtain ⟨l, hl, h⟩ := bind_eq_done h
          obtain ⟨r, hr, h⟩ := bind_eq_done h
          have hsides := isAccessFree_binary.mp he
          rw [hpart hsides.1 (fun x hx => List.mem_append_left _ hx) hl, done_bind,
            hpart hsides.2 (fun x hx => List.mem_append_right _ hx) hr, done_bind]
          exact h

end Expr

end Less
