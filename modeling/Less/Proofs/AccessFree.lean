import Less.Function.Builtin
import Less.Proofs.Bound
import Less.Proofs.Contents
import Less.Proofs.Value

/-! # Evaluation without accessors

    An accessor may lead an evaluation around in circles.  Nothing else can:
    the evaluation of an expression free of accessors, in a scope whose
    variables are free of accessors, ends (`eval_ends`).

    An expression ends if the variables it is built from do
    (`ends_of_vars_end`), which is an induction on the expression.  A variable
    ends because its name is added to those being resolved, and there are
    finitely many names in a scope: the measure is the number of names that are
    not being resolved (`card_sdiff_cons_lt`).

    Accessors are not made up on the way either, unless a function does
    (`eval_isAccessFree`). -/

namespace Less

namespace Expr

/-! ## Accessors in expressions -/

theorem isAccessFree_list {items : List Expr} {p : Option Position} :
    (list items p).isAccessFree = true ↔ ∀ e ∈ items, e.isAccessFree = true := by
  show everyOf isNoAccess items = true ↔ _
  rw [everyOf_eq_all, List.all_eq_true]
  rfl

theorem isAccessFree_call {name : String} {arguments : List Expr} {p : Option Position} :
    (call name arguments p).isAccessFree = true ↔ ∀ e ∈ arguments, e.isAccessFree = true := by
  show everyOf isNoAccess arguments = true ↔ _
  rw [everyOf_eq_all, List.all_eq_true]
  rfl

theorem isAccessFree_binary {op : Operator} {left right : Expr} {p : Option Position} :
    (binary op left right p).isAccessFree = true ↔
      left.isAccessFree = true ∧ right.isAccessFree = true := by
  show (left.every isNoAccess && right.every isNoAccess) = true ↔ _
  rw [Bool.and_eq_true]
  rfl

theorem isAccessFree_withPosition (p : Option Position) (e : Expr) :
    (e.withPosition p).isAccessFree = e.isAccessFree := by
  cases e <;> rfl

theorem isAccessFree_of_isAtom {e : Expr} (h : e.isAtom = true) : e.isAccessFree = true := by
  cases e with
  | constant v p => rfl
  | literal s p => rfl
  | var | list | call | access | binary => cases h

end Expr

/-- The values of all variables of the scope are free of accessors. -/
def Scope.AccessFree (scope : Scope) : Prop :=
  ∀ frame ∈ scope.frames, ∀ v ∈ frame.values, v.isAccessFree = true

/-- The names of all variables of the scope. -/
def Scope.names (scope : Scope) : List String :=
  scope.frames.flatMap fun frame => frame.vars.names

/-- A variable that is found stands in one of the containers. -/
theorem Scope.exists_frame_of_getVar? {scope : Scope} {name : String} {value : Expr}
    (h : scope.getVar? name = some value) :
    ∃ frame ∈ scope.frames, (name, value) ∈ frame.vars.entries := by
  obtain ⟨frame, hframe, hvalue⟩ := List.exists_of_findSome?_eq_some h
  exact ⟨frame, hframe, Bindings.mem_of_get? hvalue⟩

theorem Scope.AccessFree.of_getVar? {scope : Scope} (h : scope.AccessFree) {name : String}
    {value : Expr} (hvalue : scope.getVar? name = some value) : value.isAccessFree = true := by
  obtain ⟨frame, hframe, hentry⟩ := Scope.exists_frame_of_getVar? hvalue
  exact h frame hframe value (List.mem_map_of_mem hentry)

theorem Scope.mem_names_of_getVar? {scope : Scope} {name : String} {value : Expr}
    (h : scope.getVar? name = some value) : name ∈ scope.names := by
  obtain ⟨frame, hframe, hentry⟩ := Scope.exists_frame_of_getVar? h
  exact List.mem_flatMap.mpr ⟨frame, hframe, List.mem_map_of_mem hentry⟩

theorem Scope.AccessFree.child {scope : Scope} (h : scope.AccessFree) {c : Container}
    (hc : ∀ v ∈ c.values, v.isAccessFree = true) : (scope.child c).AccessFree := by
  intro frame hframe
  rcases List.mem_cons.mp hframe with rfl | hframe
  · exact hc
  · exact h frame hframe

namespace Expr

open Evaluation

/-! ## Evaluation ends -/

/-- Some bound suffices for the evaluation. -/
def Ends (scope : Scope) (e : Expr) : Prop :=
  ∃ n, eval n scope e ≠ .exhausted

/-- One bound suffices for several evaluations, and for what follows them. -/
theorem exists_bound_of_ends {scope : Scope} : ∀ {es : List Expr}, (∀ e ∈ es, Ends scope e) →
    ∃ n, ∀ m, n ≤ m → ∀ e ∈ es, eval m scope e ≠ .exhausted
  | [], _ => ⟨0, fun _ _ e he => absurd he List.not_mem_nil⟩
  | e :: es, h => by
      obtain ⟨n, hn⟩ := h e List.mem_cons_self
      obtain ⟨k, hk⟩ := exists_bound_of_ends fun e' he' => h e' (List.mem_cons_of_mem e he')
      refine ⟨max n k, fun m hm e' he' => ?_⟩
      rcases List.mem_cons.mp he' with rfl | he'
      · rw [eval_eq_of_le (by omega : n ≤ m) hn]
        exact hn
      · exact hk m (by omega) e' he'

/-- A list of evaluations that end ends. -/
theorem mapM_ne_exhausted {f : Expr → Evaluation Expr} {es : List Expr}
    (h : ∀ e ∈ es, f e ≠ .exhausted) : es.mapM f ≠ .exhausted := by
  induction es with
  | nil => exact nofun
  | cons e es ih =>
      rw [List.mapM_cons]
      have ih := ih fun e' he' => h e' (List.mem_cons_of_mem e he')
      cases he : f e with
      | exhausted => exact absurd he (h e List.mem_cons_self)
      | failed err => exact nofun
      | done v =>
          rw [done_bind]
          cases hes : es.mapM f with
          | exhausted => exact absurd hes ih
          | failed err => exact nofun
          | done vs => exact nofun

/-- A step after one that ends ends if it ends on every value. -/
theorem bind_ne_exhausted {α β : Type} {x : Evaluation α} {f : α → Evaluation β}
    (hx : x ≠ .exhausted) (hf : ∀ a, f a ≠ .exhausted) : (x >>= f) ≠ .exhausted := by
  cases x with
  | exhausted => exact absurd rfl hx
  | failed e => exact nofun
  | done a => exact hf a

theorem ofExcept_ne_exhausted {α : Type} (x : Except Error α) : ofExcept x ≠ .exhausted := by
  cases x <;> exact nofun

theorem locate_ne_exhausted {α : Type} {x : Evaluation α} (h : x ≠ .exhausted)
    (p : Option Position) :
    x.locate p ≠ .exhausted :=
  fun hx => h (locate_eq_exhausted.mp hx)

mutual

/-- **An expression without accessors ends if its variables do.** -/
theorem ends_of_vars_end {scope : Scope}
    (hvars : ∀ name value, scope.isResolving name = false → scope.getVar? name = some value →
      Ends (scope.enter name) value) :
    ∀ e : Expr, e.isAccessFree = true → Ends scope e
  | constant v p, _ => ⟨1, nofun⟩
  | literal s p, _ => ⟨1, nofun⟩
  | access target member p, h => nomatch h
  | var name p, _ => by
      cases hres : scope.isResolving name with
      | true => exact ⟨1, by rw [eval, if_pos hres]; exact nofun⟩
      | false =>
          cases hget : scope.getVar? name with
          | none => exact ⟨1, by rw [eval, hres, if_neg Bool.false_ne_true, hget]; exact nofun⟩
          | some value =>
              obtain ⟨n, hn⟩ := hvars name value hres hget
              refine ⟨n + 1, ?_⟩
              rw [eval, hres, if_neg Bool.false_ne_true, hget]
              exact locate_ne_exhausted hn p
  | list items p, h => by
      obtain ⟨n, hn⟩ := exists_bound_of_ends
        (all_end_of_vars_end hvars items (isAccessFree_list.mp h))
      refine ⟨n + 1, ?_⟩
      rw [eval]
      refine bind_ne_exhausted (mapM_ne_exhausted (hn n (Nat.le_refl n))) fun values => ?_
      split <;> exact nofun
  | call name arguments p, h => by
      obtain ⟨n, hn⟩ := exists_bound_of_ends
        (all_end_of_vars_end hvars arguments (isAccessFree_call.mp h))
      refine ⟨n + 1, ?_⟩
      rw [eval]
      have hvalues : (arguments.filter fun a => !a.isSeparator).mapM (eval n scope) ≠ .exhausted :=
        mapM_ne_exhausted fun e he => hn n (Nat.le_refl n) e (List.mem_of_mem_filter he)
      refine locate_ne_exhausted (bind_ne_exhausted ?_ ?_) p
      · exact bind_ne_exhausted hvalues fun values => ofExcept_ne_exhausted _
      · exact nofun
  | binary op left right p, h => by
      have hsides := isAccessFree_binary.mp h
      obtain ⟨n, hn⟩ := ends_of_vars_end hvars left hsides.1
      obtain ⟨k, hk⟩ := ends_of_vars_end hvars right hsides.2
      refine ⟨max n k + 1, ?_⟩
      rw [eval]
      refine bind_ne_exhausted ?_ fun l => bind_ne_exhausted ?_ fun r => ofExcept_ne_exhausted _
      · rw [eval_eq_of_le (Nat.le_max_left n k) hn]
        exact hn
      · rw [eval_eq_of_le (Nat.le_max_right n k) hk]
        exact hk

theorem all_end_of_vars_end {scope : Scope}
    (hvars : ∀ name value, scope.isResolving name = false → scope.getVar? name = some value →
      Ends (scope.enter name) value) :
    ∀ es : List Expr, (∀ e ∈ es, e.isAccessFree = true) → ∀ e ∈ es, Ends scope e
  | [], _ => fun e he => absurd he List.not_mem_nil
  | e :: es, h => by
      intro e' he'
      rcases List.mem_cons.mp he' with heq | he'
      · rw [heq]
        exact ends_of_vars_end hvars e (h e List.mem_cons_self)
      · exact all_end_of_vars_end hvars es (fun x hx => h x (List.mem_cons_of_mem e hx)) e' he'

end

/-- **EVALUATION WITHOUT ACCESSORS ENDS.** -/
theorem eval_ends {scope : Scope} {e : Expr} (hscope : scope.AccessFree)
    (he : e.isAccessFree = true) :
    Ends scope e := by
  -- the names that are not being resolved become fewer with every variable entered
  induction hleft : (scope.names.toFinset \ scope.resolving.toFinset).card
    using Nat.strong_induction_on generalizing scope e with
  | _ left ih =>
      refine ends_of_vars_end (fun name value hres hget => ?_) e he
      have hfree : name ∉ scope.resolving := by
        intro hmem
        rw [Scope.isResolving, List.contains_iff_mem.mpr hmem] at hres
        cases hres
      have hlt : ((scope.enter name).names.toFinset
          \ (scope.enter name).resolving.toFinset).card < left := by
        rw [← hleft]
        exact card_sdiff_cons_lt (Scope.mem_names_of_getVar? hget) hfree
      have hinner : (scope.enter name).AccessFree := hscope
      exact ih _ hlt hinner (hscope.of_getVar? hget) rfl

end Expr

/-! ## No accessors are made up -/

/-- The functions give no accessors if they are given none. -/
def Registry.AccessFree (functions : Registry) : Prop :=
  ∀ {name : String} {f : Function} {arguments : List Expr} {v : Expr},
    functions.get? name = some f →
    (∀ a ∈ arguments, a.isAccessFree = true) → f name arguments = .ok v → v.isAccessFree = true

theorem Registry.builtin_accessFree : Registry.builtin.AccessFree := by
  intro name f arguments v hf _ hv
  exact Expr.isAccessFree_of_isAtom ((Function.plain_of_builtin hf).atomic name arguments v hv)

theorem Registry.AccessFree.call {functions : Registry} (h : functions.AccessFree) {name : String}
    {arguments : List Expr} {v : Expr} (harguments : ∀ a ∈ arguments, a.isAccessFree = true)
    (hv : functions.call name arguments = .ok v) : v.isAccessFree = true := by
  rw [Registry.call] at hv
  split at hv
  · rename_i f hf
    exact h hf harguments hv
  · cases hv
    exact Expr.isAccessFree_call.mpr harguments

namespace Expr

open Evaluation

theorem isAccessFree_of_applyTo {op : Operator} {left right v : Expr} {p : Option Position}
    (hleft : left.isAccessFree = true) (hright : right.isAccessFree = true)
    (h : applyTo op left right p = .ok v) : v.isAccessFree = true := by
  rw [applyTo.eq_def] at h
  split at h
  · split at h
    · cases h
      rfl
    · cases h
  · cases h
    exact isAccessFree_binary.mpr ⟨hleft, hright⟩

/-- Values of items without accessors have none, if each evaluation keeps them out. -/
theorem isAccessFree_of_mapM {f : Expr → Evaluation Expr} {es values : List Expr}
    (h : es.mapM f = .done values)
    (hf : ∀ e ∈ es, ∀ v, f e = .done v → v.isAccessFree = true) :
    ∀ v ∈ values, v.isAccessFree = true := by
  intro v hv
  obtain ⟨e, he, hev⟩ := exists_of_forall₂ (mapM_eq_done h) hv
  exact hf e he v hev

/-- **Evaluation makes up no accessors.** -/
theorem eval_isAccessFree : ∀ {n : Nat} {scope : Scope} {e v : Expr}, scope.functions.AccessFree →
    scope.AccessFree → e.isAccessFree = true → eval n scope e = .done v →
      v.isAccessFree = true := by
  intro n
  induction n with
  | zero => intro scope e v _ _ _ h; cases h
  | succ n ih =>
      intro scope e v hf hscope he h
      cases e with
      | constant value p => cases h; rfl
      | literal s p => cases h; rfl
      | access target member p => cases he
      | var name p =>
          rw [eval] at h
          split at h
          · cases h
          · split at h
            · cases h
            · rename_i value hvalue
              have hf' : (scope.enter name).functions.AccessFree := hf
              exact ih hf' hscope (hscope.of_getVar? hvalue) (locate_eq_done h)
      | list items p =>
          rw [eval] at h
          obtain ⟨values, hvalues, h⟩ := bind_eq_done h
          have hall := isAccessFree_of_mapM hvalues fun e he' v hv =>
            ih hf hscope (isAccessFree_list.mp he e he') hv
          cases values with
          | nil =>
              cases h
              rfl
          | cons value rest =>
              cases rest with
              | nil =>
                  cases h
                  exact hall v List.mem_cons_self
              | cons =>
                  cases h
                  rfl
      | call name arguments p =>
          rw [eval] at h
          obtain ⟨w, hw, h⟩ := bind_eq_done (locate_eq_done h)
          cases h
          obtain ⟨values, hvalues, hcall⟩ := bind_eq_done hw
          have hall := isAccessFree_of_mapM hvalues fun e he' v hv =>
            ih hf hscope (isAccessFree_call.mp he e (List.mem_of_mem_filter he')) hv
          rw [isAccessFree_withPosition]
          exact hf.call hall (ofExcept_eq_done hcall)
      | binary op left right p =>
          rw [eval] at h
          obtain ⟨l, hl, h⟩ := bind_eq_done h
          obtain ⟨r, hr, h⟩ := bind_eq_done h
          have hsides := isAccessFree_binary.mp he
          exact isAccessFree_of_applyTo (ih hf hscope hsides.1 hl) (ih hf hscope hsides.2 hr)
            (ofExcept_eq_done h)

end Expr

namespace Transform

open Reporting

/-! ## Resolution of expressions ends -/

variable {scope : Scope}

/-- An attempt at evaluating expressions without accessors ends, and gives no
    accessors. -/
theorem attempt_converges {es : List Expr} (hf : scope.functions.AccessFree)
    (hscope : scope.AccessFree)
    (hes : ∀ e ∈ es, e.isAccessFree = true) :
    Converges (fun n => attempt (es.mapM (Expr.eval n scope))) fun result =>
      ∀ vs, result = .ok vs → ∀ v ∈ vs, v.isAccessFree = true := by
  obtain ⟨k, hk⟩ := Expr.exists_bound_of_ends fun e he => Expr.eval_ends hscope (hes e he)
  refine Converges.attempt (y := fun n => es.mapM (Expr.eval n scope)) (k := k)
    (Expr.mapM_ne_exhausted (hk k (Nat.le_refl k)))
    (fun m hm => Evaluation.Refines.mapM_eq (Expr.eval_mono hm scope) es) (fun e _ => nofun) ?_
  rintro vs hvs _ ⟨⟩
  exact Expr.isAccessFree_of_mapM hvs fun e he v hv =>
    Expr.eval_isAccessFree hf hscope (hes e he) hv

/-- An expression without accessors is resolved; one that fails stays as it is. -/
theorem resolve_converges {e : Expr} (p : Option Position) (hf : scope.functions.AccessFree)
    (hscope : scope.AccessFree) (he : e.isAccessFree = true) :
    Converges (fun n => resolve n scope p e) fun v => v.isAccessFree = true := by
  obtain ⟨k, hk⟩ := Expr.eval_ends hscope he
  have hattempt : Converges (fun n => attempt (Expr.eval n scope e)) fun result =>
      ∀ v, result = .ok v → v.isAccessFree = true := by
    refine Converges.attempt hk (fun m hm => Expr.eval_mono hm scope e) (fun e _ => nofun) ?_
    rintro v hv _ ⟨⟩
    exact Expr.eval_isAccessFree hf hscope he hv
  refine hattempt.bind fun result hresult => ?_
  cases result with
  | error err => exact .of_some (fun _ => rfl) he
  | ok v => exact .pure (hresult v rfl)

theorem resolveVariables_converges {c : Container} (hf : scope.functions.AccessFree)
    (hscope : scope.AccessFree) (hc : ∀ v ∈ c.values, v.isAccessFree = true) :
    Converges (fun n => resolveVariables n scope c) fun vars =>
      ∀ entry ∈ vars.entries, entry.2.isAccessFree = true := by
  have hentries : Converges (fun n => c.vars.entries.mapM fun entry : String × Expr => do
      return (entry.1, ← resolve n (scope.child c) entry.2.position entry.2)) fun entries =>
        ∀ entry ∈ entries, entry.2.isAccessFree = true := by
    refine Converges.mapM fun entry hentry => ?_
    have hvalue : entry.2.isAccessFree = true := hc _ (List.mem_map_of_mem hentry)
    have hresolved := resolve_converges entry.2.position
      (show (scope.child c).functions.AccessFree from hf)
      (hscope.child hc) hvalue
    exact hresolved.bind fun v hv => .pure hv
  refine hentries.bind fun entries hentries => .pure fun entry hentry => ?_
  exact hentries entry ((Bindings.mem_setAll hentry).resolve_left List.not_mem_nil)

theorem resolveDeclaration_converges {d : Declaration} (hf : scope.functions.AccessFree)
    (hscope : scope.AccessFree) (hd : ∀ v ∈ d.values, v.isAccessFree = true) :
    Converges (fun n => resolveDeclaration n scope d) fun result =>
      ∀ v ∈ result.values, v.isAccessFree = true := by
  have hvalues : Converges (fun n => d.values.mapM (resolve n scope d.position)) fun vs =>
      ∀ v ∈ vs, v.isAccessFree = true :=
    Converges.mapM fun e he => resolve_converges d.position hf hscope (hd e he)
  exact hvalues.bind fun vs hvs => .pure hvs

end Transform

end Less
