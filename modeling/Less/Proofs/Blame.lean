import Less.Proofs.Pieces
import Less.Proofs.Siblings
import Mathlib.Data.List.Pairwise
import Mathlib.Logic.Relation

/-! # Which piece a diagnostic is due to

    Resolving a sheet without mixin calls and accessors evaluates each of its pieces
    once.  A piece with a variable that the sheet does not define fails, and a piece that
    fails is reported once, at a position that stands **behind** it (`Expr.Behind`): in
    the piece itself, or in a definition of a variable that it leads to.  So each piece
    has a value or one diagnostic (`Account`), and the diagnostics of a run are those of
    its pieces, in their order (`transformSheet_accounts`).

    A variable that was resolved stands for its definition: its value has no positions
    but those behind the definition, and looks up no variables but those of the
    definition (`Stems`).  All scopes of a run are made of such variables
    (`Scope.Traced`).

    As no two pieces have a position in common, a place of the source is reported at most
    once for the piece it stands in, and once more for each piece that leads there
    (`Sheet.each_piece_reports_once`). -/

namespace Less

open Relation

variable {S T : Position → Prop} {defs : List (String × Expr)}

theorem Located.imp {p : Option Position} (h : Located T p) (hS : ∀ q, T q → S q) :
    Located S p := by
  obtain ⟨q, rfl, hq⟩ := h
  exact ⟨q, rfl, hS q hq⟩

theorem Located.of_toList {p : Option Position} (h : Located T p) (hS : ∀ q ∈ p.toList, S q) :
    Located S p := by
  obtain ⟨q, rfl, -⟩ := h
  exact ⟨q, rfl, hS q (List.mem_singleton_self q)⟩

namespace Expr

/-- Anchors depend on the positions of the expression only. -/
theorem Anchored.of_positions {e : Expr} (h : e.Anchored T) (hS : ∀ p ∈ e.positions, S p) :
    e.Anchored S := by
  have hsome : ∀ {p : Option Position}, (∀ q ∈ p.toList, S q) → ∀ q, p = some q → S q :=
    fun hall q hq => hall q (Option.mem_toList.mpr hq)
  have hparts : ∀ {es : List Expr}, (∀ q ∈ positionsOfAll es, S q) →
      ∀ x ∈ es, ∀ q ∈ x.positions, S q :=
    fun hall x hx q hq => hall q (mem_positionsOfAll.mpr ⟨x, hx, hq⟩)
  induction h with
  | constant => exact .constant (hsome hS)
  | literal => exact .literal (hsome hS)
  | var hp => exact .var (hp.of_toList hS)
  | access hp => exact .access (hp.of_toList hS)
  | list hp _ ih =>
      obtain ⟨hown, hitems⟩ := List.forall_mem_append.mp hS
      exact .list (hp.of_toList hown) fun x hx => ih x hx (hparts hitems x hx)
  | call hp _ ih =>
      obtain ⟨hown, harguments⟩ := List.forall_mem_append.mp hS
      exact .call (hp.of_toList hown) fun x hx => ih x hx (hparts harguments x hx)
  | binary _ hinert _ _ ihl ihr =>
      obtain ⟨hown, hsides⟩ := List.forall_mem_append.mp hS
      obtain ⟨hl, hr⟩ := List.forall_mem_append.mp hsides
      exact .binary (hsome hown) hinert (ihl hl) (ihr hr)

theorem Anchored.imp {e : Expr} (h : e.Anchored T) (hS : ∀ p, T p → S p) : e.Anchored S :=
  h.of_positions fun p hp => hS p (h.positions p hp)

/-! ## What stands behind an expression -/

/-- A variable of the expression has this definition. -/
def Refers (defs : List (String × Expr)) (e v : Expr) : Prop :=
  ∃ name ∈ e.varNames, (name, v) ∈ defs

/-- A variable of the expression, or of a definition that it leads to, has this
    definition. -/
abbrev Leads (defs : List (String × Expr)) : Expr → Expr → Prop :=
  TransGen (Refers defs)

/-- The position stands in the expression or in a definition that it leads to. -/
def Behind (defs : List (String × Expr)) (e : Expr) (p : Position) : Prop :=
  ∃ v, ReflTransGen (Refers defs) e v ∧ p ∈ v.positions

theorem behind_of_mem {e : Expr} {p : Position} (h : p ∈ e.positions) : e.Behind defs p :=
  ⟨e, .refl, h⟩

theorem Behind.of_refers {e v : Expr} {p : Position} (hv : e.Refers defs v)
    (h : v.Behind defs p) : e.Behind defs p := by
  obtain ⟨w, hw, hp⟩ := h
  exact ⟨w, .head hv hw, hp⟩

theorem Behind.mem_or_leads {e : Expr} {p : Position} (h : e.Behind defs p) :
    p ∈ e.positions ∨ ∃ v, Leads defs e v ∧ p ∈ v.positions := by
  obtain ⟨v, hv, hp⟩ := h
  rcases reflTransGen_iff_eq_or_transGen.mp hv with rfl | hv
  · exact Or.inl hp
  · exact Or.inr ⟨v, hv, hp⟩

theorem Leads.exists_name {e v : Expr} (h : Leads defs e v) : ∃ name, (name, v) ∈ defs := by
  obtain ⟨-, -, name, -, hv⟩ := TransGen.tail'_iff.mp h
  exact ⟨name, hv⟩

/-- Nothing but `S` is behind the expression: it is anchored in `S`, and so is all it
    leads to by variables. -/
structure Within (defs : List (String × Expr)) (S : Position → Prop) (e : Expr) : Prop where
  accessFree : e.isAccessFree = true
  anchored : e.Anchored S
  behind : ∀ v, e.Refers defs v → ∀ p, v.Behind defs p → S p

/-- An expression stays within what is behind it. -/
theorem within_self {e : Expr} (hfree : e.isAccessFree = true) (h : e.Anchored T) :
    e.Within defs (e.Behind defs) where
  accessFree := hfree
  anchored := h.of_positions fun _ => behind_of_mem
  behind _ hv _ hp := .of_refers hv hp

theorem Within.part {e part : Expr} (h : e.Within defs S) (hfree : part.isAccessFree = true)
    (hanchored : part.Anchored S) (hsub : part.varNames ⊆ e.varNames) : part.Within defs S where
  accessFree := hfree
  anchored := hanchored
  behind v := fun ⟨name, hname, hv⟩ => h.behind v ⟨name, hsub hname, hv⟩

end Expr

/-! ## Scopes of a run -/

/-- The variable has what stands behind a definition of its name. -/
def Stems (defs : List (String × Expr)) (entry : String × Expr) : Prop :=
  ∃ v, (entry.1, v) ∈ defs ∧ entry.2.Within defs (v.Behind defs)

/-- The functions are the built-in ones, and all variables stem from definitions. -/
structure Scope.Traced (defs : List (String × Expr)) (scope : Scope) : Prop where
  functions : scope.functions = .builtin
  vars : ∀ frame ∈ scope.frames, ∀ entry ∈ frame.vars.entries, Stems defs entry

namespace Scope.Traced

variable {scope : Scope}

theorem root : (Scope.root .builtin).Traced defs :=
  ⟨rfl, fun _ hframe => absurd hframe List.not_mem_nil⟩

theorem enter (h : scope.Traced defs) (name : String) : (scope.enter name).Traced defs :=
  ⟨h.functions, h.vars⟩

theorem child (h : scope.Traced defs) {c : Container}
    (hc : ∀ entry ∈ c.vars.entries, Stems defs entry) : (scope.child c).Traced defs :=
  ⟨h.functions, List.forall_mem_cons.mpr ⟨hc, h.vars⟩⟩

theorem stems (h : scope.Traced defs) {name : String} {value : Expr}
    (hvalue : scope.getVar? name = some value) : Stems defs (name, value) := by
  obtain ⟨frame, hframe, hentry⟩ := Scope.exists_frame_of_getVar? hvalue
  exact h.vars frame hframe (name, value) hentry

theorem accessFree (h : scope.Traced defs) : scope.AccessFree := by
  intro frame hframe v hv
  obtain ⟨entry, hentry, rfl⟩ := List.mem_map.mp hv
  obtain ⟨w, -, hw⟩ := h.vars frame hframe entry hentry
  exact hw.accessFree

end Scope.Traced

/-! ## Evaluation -/

namespace Expr

/-- **EVALUATION STAYS WITHIN WHAT IS BEHIND THE EXPRESSION.** -/
theorem eval_within : ∀ {n : Nat} {scope : Scope} {S : Position → Prop} {e : Expr},
    scope.Traced defs → e.Within defs S →
    (eval n scope e).Meets (fun v => v.Anchored S ∧ (e.Inert → v.Inert))
      (fun err => Located S err.position?) := by
  intro n
  induction n with
  | zero => intro scope S e _ _; exact trivial
  | succ n ih =>
      intro scope S e hscope he
      have hplain : ∀ {scope : Scope} {S : Position → Prop} {e : Expr}, scope.Traced defs →
          e.Within defs S → EndsIn S (eval n scope e) :=
        fun hscope he => (ih hscope he).imp (fun _ hv => hv.1) fun _ => id
      have hanchored := he.anchored
      cases hanchored with
      | constant hp => exact ⟨.constant hp, id⟩
      | literal hp => exact ⟨.literal hp, id⟩
      | access => exact absurd he.accessFree Bool.false_ne_true
      | @var name p hp =>
          rw [eval]
          split
          · exact located_locate (fun p => by cases p <;> rfl) hp
          · split
            · exact located_locate (fun p => by cases p <;> rfl) hp
            · rename_i value hvalue
              -- the value stands for a definition, and all behind that is behind the variable
              obtain ⟨v, hv, hwithin⟩ := hscope.stems hvalue
              have hbehind := he.behind v ⟨name, List.mem_singleton_self _, hv⟩
              have hmeets := (hplain (hscope.enter name) hwithin).imp
                (fun w (hw : w.Anchored _) => hw.imp hbehind) fun err herr => herr.imp hbehind
              exact (hmeets.imp (fun w hw => ⟨hw, fun h => by cases h⟩) fun _ => id).locate
                fun err herr => herr.locate p
      | @list items p hp hitems =>
          refine (eval_list_anchored hp fun x hx => hplain hscope ?_).imp
            (fun v hv => ⟨hv, fun h => by cases h⟩) fun _ => id
          exact he.part (isAccessFree_list.mp he.accessFree x hx) (hitems x hx)
            fun name hname => mem_varNamesOf.mpr ⟨x, hx, hname⟩
      | @call name arguments p hp harguments =>
          refine (eval_call_anchored hscope.functions hp fun a ha => hplain hscope ?_).imp
            (fun v hv => ⟨hv, fun h => by cases h⟩) fun _ => id
          exact he.part (isAccessFree_call.mp he.accessFree a ha) (harguments a ha)
            fun name hname => mem_varNamesOf.mpr ⟨a, ha, hname⟩
      | binary hp hinert hleft hright =>
          obtain ⟨hfreel, hfreer⟩ := isAccessFree_binary.mp he.accessFree
          exact eval_binary_anchored hp hinert
            (ih hscope (he.part hfreel hleft (List.subset_append_left _ _)))
            (hplain hscope (he.part hfreer hright (List.subset_append_right _ _)))

/-- A value looks up no variables, so that nothing but itself is behind it. -/
theorem within_of_eval {n : Nat} {scope : Scope} {e v : Expr} (hscope : scope.Traced defs)
    (he : e.Within defs S) (h : eval n scope e = .done v) : v.Within defs S where
  accessFree := by
    have hfunctions : scope.functions.AccessFree := by
      rw [hscope.functions]
      exact Registry.builtin_accessFree
    exact eval_isAccessFree hfunctions hscope.accessFree he.accessFree h
  anchored := by
    have hmeets := eval_within (n := n) hscope he
    rw [h] at hmeets
    exact hmeets.1
  behind w := by
    rintro ⟨name, hname, -⟩
    rw [(varNames_targets_of_isValue (eval_isValue hscope.functions h)).1] at hname
    exact absurd hname List.not_mem_nil

end Expr

/-! ## Diagnostics of pieces -/

namespace Reporting

variable {α β γ : Type} {R : γ → Option Error → Prop} {Q : α → Prop}

/-- A result satisfies `Q`, and the diagnostics are those of the pieces, in their order:
    each piece has one or none, which `R` relates to it. -/
def Accounts (R : γ → Option Error → Prop) (pieces : List γ) (Q : α → Prop) (x : Reporting α) :
    Prop :=
  ∀ a ds, x = some (a, ds) →
    Q a ∧ ∃ outcomes, List.Forall₂ R pieces outcomes ∧ ds = outcomes.filterMap id

theorem Accounts.pure {a : α} (ha : Q a) : Accounts R [] Q (pure a : Reporting α) := by
  intro a' ds h
  obtain ⟨rfl, rfl⟩ := pure_eq_some h
  exact ⟨ha, [], .nil, rfl⟩

theorem Accounts.bind {Q' : β → Prop} {first second : List γ} {x : Reporting α}
    {f : α → Reporting β} (hx : Accounts R first Q x) (hf : ∀ a, Q a → Accounts R second Q' (f a)) :
    Accounts R (first ++ second) Q' (x >>= f) := by
  intro b ds h
  obtain ⟨a, ds₁, ds₂, ha, hb, rfl⟩ := bind_eq_some h
  obtain ⟨hQ, outcomes₁, hall₁, rfl⟩ := hx a ds₁ ha
  obtain ⟨hQ', outcomes₂, hall₂, rfl⟩ := hf a hQ b ds₂ hb
  exact ⟨hQ', outcomes₁ ++ outcomes₂, List.rel_append hall₁ hall₂, List.filterMap_append.symm⟩

theorem Accounts.imp {Q' : α → Prop} {pieces : List γ} {x : Reporting α}
    (hx : Accounts R pieces Q x) (hQ : ∀ a, Q a → Q' a) : Accounts R pieces Q' x := by
  intro a ds h
  obtain ⟨ha, houtcomes⟩ := hx a ds h
  exact ⟨hQ a ha, houtcomes⟩

/-- A result is given that needs no more computation. -/
theorem Accounts.result {Q' : β → Prop} {pieces : List γ} {x : Reporting α} {f : α → β}
    (hx : Accounts R pieces Q x) (hf : ∀ a, Q a → Q' (f a)) :
    Accounts R pieces Q' (x >>= fun a => Pure.pure (f a)) := by
  rw [← List.append_nil pieces]
  exact hx.bind fun a ha => .pure (hf a ha)

theorem Accounts.map {Q' : β → Prop} {pieces : List γ} {x : Reporting α} {f : α → β}
    (hx : Accounts R pieces Q x) (hf : ∀ a, Q a → Q' (f a)) : Accounts R pieces Q' (f <$> x) := by
  rw [map_eq_pure_bind]
  exact hx.result hf

theorem Accounts.mapM {Q : β → Prop} {pieces : α → List γ} {f : α → Reporting β} {as : List α}
    (h : ∀ a ∈ as, Accounts R (pieces a) Q (f a)) :
    Accounts R (as.flatMap pieces) (fun bs => ∀ b ∈ bs, Q b) (as.mapM f) := by
  induction as with
  | nil => exact .pure fun b hb => absurd hb List.not_mem_nil
  | cons a as ih =>
      rw [List.mapM_cons, List.flatMap_cons]
      refine (h a List.mem_cons_self).bind fun b hb => ?_
      refine (ih fun a' ha' => h a' (List.mem_cons_of_mem a ha')).result fun bs hbs => ?_
      exact List.forall_mem_cons.mpr ⟨hb, hbs⟩

end Reporting

/-- What a piece comes to: a value and no diagnostic, which it has only if all its
    variables are defined, or one diagnostic at a position behind it. -/
inductive Account (defs : List (String × Expr)) (e : Expr) : Option Error → Prop where
  | value (h : ∀ name ∈ e.varNames, ∃ v, (name, v) ∈ defs) : Account defs e none
  | fault {d : Error} (h : Located (e.Behind defs) d.position?) : Account defs e (some d)

/-! ## Elements of a run -/

/-- The values of the container are anchored and without accessors, and its variables are
    among the definitions. -/
structure Container.Listed (T : Position → Prop) (defs : List (String × Expr)) (c : Container) :
    Prop where
  anchored : ∀ v ∈ c.values, v.Anchored T
  accessFree : ∀ v ∈ c.values, v.isAccessFree = true
  entries : c.vars.entries ⊆ defs

/-- The variables of a container are definitions themselves. -/
theorem Container.Listed.stems {c : Container} (h : c.Listed T defs) :
    ∀ entry ∈ c.vars.entries, Stems defs entry := by
  intro entry hentry
  have hvalue : entry.2 ∈ c.values := List.mem_map_of_mem hentry
  exact ⟨entry.2, h.entries hentry,
    Expr.within_self (h.accessFree _ hvalue) (h.anchored _ hvalue)⟩

/-- The element is anchored and has neither calls nor accessors, and its variables are
    among the definitions. -/
structure Element.Listed (T : Position → Prop) (defs : List (String × Expr)) (e : Element) :
    Prop where
  anchored : e.Anchored T
  selfContained : e.SelfContained
  definitions : e.definitions ⊆ defs

namespace Element.Listed

variable {e : Element}

theorem container (h : e.Listed T defs) (hdefinition : e.isDefinition = false) :
    e.container.Listed T defs where
  anchored := h.anchored.container.values
  accessFree := h.selfContained.values
  entries := List.Subset.trans (Element.entries_subset_definitions hdefinition) h.definitions

theorem nested {r : RuleSet} (h : (Element.ruleSet r).Listed T defs) (hmixin : r.isMixin = false)
    (he : e ∈ r.container.body.filter Element.isRuleSet) : e.Listed T defs where
  anchored := h.anchored.container.body e (List.mem_filter.mp he).1
  selfContained := h.selfContained.body e (List.mem_filter.mp he).1
  definitions :=
    List.Subset.trans (Element.definitions_subset_of_nested hmixin he) h.definitions

theorem inside {b : Element} (h : b.Listed T defs) (hblock : b.isBlock = true)
    (he : e ∈ b.container.body) : e.Listed T defs where
  anchored := h.anchored.container.body e he
  selfContained := h.selfContained.body e he
  definitions :=
    List.Subset.trans (Element.definitions_subset_of_isBlock hblock he) h.definitions

end Element.Listed

namespace Transform

open Reporting

variable {n : Nat} {scope : Scope}

/-! ## Expressions, variables, declarations -/

/-- A piece is evaluated once, and reported once if it fails. -/
theorem accounts_resolve (hscope : scope.Traced defs) (p : Option Position) {e : Expr}
    (hfree : e.isAccessFree = true) (he : e.Anchored T) :
    (resolve n scope p e).Accounts (Account defs) [e] (fun v => v.Within defs (e.Behind defs)) := by
  intro v ds h
  have hself : e.Within defs (e.Behind defs) := Expr.within_self hfree he
  rcases resolve_eq_some h with ⟨hdone, rfl⟩ | ⟨err, hfailed, rfl, rfl⟩
  · refine ⟨Expr.within_of_eval hscope hself hdone, [none], .cons (.value ?_) .nil, rfl⟩
    intro name hname
    obtain ⟨-, value, -, -, hvalue, -⟩ := Expr.done_of_mem_varNames hdone name hname
    obtain ⟨w, hw, -⟩ := hscope.stems hvalue
    exact ⟨w, hw⟩
  · have hmeets := Expr.eval_within (n := n) hscope hself
    rw [hfailed] at hmeets
    exact ⟨hself, [some (err.locate p)], .cons (.fault (Located.locate hmeets p)) .nil, rfl⟩

theorem accounts_resolveVariables (hscope : scope.Traced defs) {c : Container}
    (hc : c.Listed T defs) :
    (resolveVariables n scope c).Accounts (Account defs) c.values
      (fun vars => ∀ entry ∈ vars.entries, Stems defs entry) := by
  have hvalues : c.values = c.vars.entries.flatMap fun entry => [entry.2] := List.map_eq_flatMap
  rw [resolveVariables, hvalues]
  refine Accounts.result (Q := fun entries => ∀ entry ∈ entries, Stems defs entry)
    (.mapM fun entry hentry => ?_) fun entries hentries entry hentry => ?_
  · have hvalue : entry.2 ∈ c.values := List.mem_map_of_mem hentry
    exact (accounts_resolve (hscope.child hc.stems) entry.2.position (hc.accessFree _ hvalue)
      (hc.anchored _ hvalue)).result fun v hv => ⟨entry.2, hc.entries hentry, hv⟩
  · exact (Bindings.mem_setAll hentry).elim (fun h => absurd h List.not_mem_nil) (hentries entry)

theorem accounts_resolveDeclaration (hscope : scope.Traced defs) {d : Declaration}
    (hfree : ∀ v ∈ d.values, v.isAccessFree = true) (hd : ∀ v ∈ d.values, v.Anchored T) :
    (resolveDeclaration n scope d).Accounts (Account defs) d.values fun _ => True := by
  have hvalues : (d.values.mapM (resolve n scope d.position)).Accounts (Account defs)
      (d.values.flatMap fun v => [v]) fun vs => ∀ v ∈ vs, True :=
    .mapM fun v hv =>
      (accounts_resolve hscope d.position (hfree v hv) (hd v hv)).imp fun _ _ => trivial
  rw [List.flatMap_singleton'] at hvalues
  exact hvalues.result fun _ _ => trivial

/-! ## Rule sets and pages -/

/-- Items without calls leave the container as it is. -/
theorem accounts_resolveItems {expand : Expander} {active : List Selector} {e : Element}
    {dest : Container} (hscope : scope.Traced defs) (he : e.Listed T defs)
    (hdefinition : e.isDefinition = false) :
    (resolveItems n expand active scope e.items e.container dest).Accounts (Account defs)
      (piecesOfItems e.items) (fun x => x.2 = dest) := by
  rw [resolveItems, any_isMixin_of_no_calls he.selfContained.items, if_neg Bool.false_ne_true]
  refine (Accounts.mapM (Q := fun _ => True) fun d hd => ?_).result fun _ _ => rfl
  obtain ⟨item, hitem, heq⟩ := List.mem_filterMap.mp hd
  cases item with
  | mixin c => cases heq
  | declaration d' =>
      cases heq
      exact (accounts_resolveDeclaration (hscope.child (he.container hdefinition).stems)
        (he.selfContained.itemExprs hitem) (he.anchored.items _ hitem).exprs).map fun _ => id

/-- An expansion without calls resolves the variables and keeps the elements. -/
theorem accounts_expand {active : List Selector} {r : RuleSet} (hscope : scope.Traced defs)
    (hr : (Element.ruleSet r).Listed T defs) (hmixin : r.isMixin = false) :
    (expand n active scope r).Accounts (Account defs) (Element.ruleSet r).ownPieces
      (fun dest => (∀ entry ∈ dest.container.vars.entries, Stems defs entry)
        ∧ dest.container.body = r.container.body) := by
  cases n with
  | zero => exact nofun
  | succ n =>
      rw [expand]
      refine (accounts_resolveVariables hscope (hr.container hmixin)).bind fun vars hvars => ?_
      refine (accounts_resolveItems (e := .ruleSet r) hscope hr hmixin).result fun x hx => ?_
      rw [hx]
      exact ⟨hvars, rfl⟩

theorem accounts_transformRuleSet : ∀ {n : Nat} {scope : Scope} {r : RuleSet}, scope.Traced defs →
    (Element.ruleSet r).Listed T defs →
    (transformRuleSet n scope r).Accounts (Account defs) (Element.ruleSet r).pieces
      fun _ => True := by
  intro n
  induction n with
  | zero => intro scope r _ _; exact nofun
  | succ n ih =>
      intro scope r hscope hr
      rw [transformRuleSet]
      cases hmixin : r.isMixin with
      | true =>
          rw [if_pos rfl, Element.pieces_of_isDefinition (e := .ruleSet r) hmixin]
          exact .pure trivial
      | false =>
          rw [if_neg Bool.false_ne_true, Element.pieces_ruleSet hmixin]
          refine (accounts_expand hscope hr hmixin).bind fun dest hdest => ?_
          obtain ⟨hvars, hbody⟩ := hdest
          refine Accounts.result (Q := fun _ => True) ?_ fun _ _ => trivial
          -- the nested rule sets are those of the source, inside resolved variables
          rw [flatten, ← hbody, ← Container.pieces_children]
          refine (Accounts.mapM (Q := fun _ => True) fun child hchild => ?_).result
            fun _ _ => trivial
          have hmem := Container.mem_childRuleSets.mp (List.mem_filter.mp hchild).1
          rw [hbody] at hmem
          exact ih (hscope.child hvars) (hr.nested hmixin (List.mem_filter.mpr ⟨hmem, rfl⟩))

theorem accounts_transformPage {p : Page} (hscope : scope.Traced defs)
    (hp : (Element.page p).Listed T defs) :
    (transformPage n scope p).Accounts (Account defs) (Element.page p).pieces fun _ => True := by
  rw [transformPage, Element.pieces_page]
  refine (accounts_resolveVariables hscope (hp.container rfl)).bind fun vars hvars => ?_
  exact (accounts_resolveItems (e := .page p) hscope hp rfl).result fun _ _ => trivial

/-! ## Blocks -/

/-- The elements of a block are resolved one after the other; none of them sets a
    variable of the block. -/
theorem accounts_transformBody {transform : Scope → Element → Reporting (List Element)}
    {parent : Scope} (hparent : parent.Traced defs)
    (hstep : ∀ scope e, scope.Traced defs → e.Listed T defs →
      (transform scope e).Accounts (Account defs) e.pieces fun _ => True) :
    ∀ {es : List Element} {dest : Container}, (∀ e ∈ es, e.Listed T defs) →
      (∀ entry ∈ dest.vars.entries, Stems defs entry) →
      (transformBody transform parent es dest).Accounts (Account defs) (es.flatMap Element.pieces)
        fun _ => True := by
  intro es
  induction es with
  | nil => intro dest _ _; exact .pure trivial
  | cons e es ih =>
      intro dest hes hdest
      obtain ⟨he, hes⟩ := List.forall_mem_cons.mp hes
      rw [transformBody, List.flatMap_cons]
      exact (hstep _ e (hparent.child hdest) he).bind fun produced _ => ih hes hdest

theorem accounts_transformContainer {transform : Scope → Element → Reporting (List Element)}
    {parent : Scope} {c : Container} (hscope : scope.Traced defs) (hparent : parent.Traced defs)
    (hc : c.Listed T defs) (hbody : ∀ e ∈ c.body, e.Listed T defs)
    (hstep : ∀ scope e, scope.Traced defs → e.Listed T defs →
      (transform scope e).Accounts (Account defs) e.pieces fun _ => True) :
    (transformContainer n transform scope parent c).Accounts (Account defs) c.pieces
      fun _ => True := by
  rw [transformContainer]
  exact (accounts_resolveVariables hscope hc).bind fun vars hvars =>
    accounts_transformBody hparent hstep hbody hvars

theorem accounts_transformElement : ∀ {n : Nat} {scope : Scope} {e : Element}, scope.Traced defs →
    e.Listed T defs →
    (transformElement n scope e).Accounts (Account defs) e.pieces fun _ => True := by
  intro n
  induction n with
  | zero => intro scope e _ _; exact nofun
  | succ n ih =>
      intro scope e hscope he
      cases e with
      | ruleSet r => exact (accounts_transformRuleSet hscope he).result fun _ _ => trivial
      | page p => exact (accounts_transformPage hscope he).result fun _ _ => trivial
      | media m =>
          rw [transformElement, Element.pieces_of_isBlock rfl]
          exact (accounts_transformContainer hscope hscope (he.container rfl)
            (fun o ho => he.inside rfl ho) fun _ _ => ih).result fun _ _ => trivial
      | keyframes k =>
          rw [transformElement, Element.pieces_of_isBlock rfl]
          exact (accounts_transformContainer hscope hscope (he.container rfl)
            (fun o ho => he.inside rfl ho) fun _ _ => ih).result fun _ _ => trivial

/-- **DIAGNOSTICS ARE THOSE OF THE PIECES.**  The resolution of a sheet without calls and
    accessors accounts for each of its pieces, in their order. -/
theorem transformSheet_accounts {sheet result : Sheet} {ds : List Error}
    (hvars : sheet.container.Listed T sheet.container.definitions)
    (hbody : ∀ e ∈ sheet.container.body, e.Listed T sheet.container.definitions)
    (h : transformSheet n .builtin sheet = some (result, ds)) :
    ∃ outcomes, List.Forall₂ (Account sheet.container.definitions) sheet.container.pieces outcomes
      ∧ ds = outcomes.filterMap id := by
  obtain ⟨container, hcontainer, -⟩ := transformSheet_eq_some h
  exact (accounts_transformContainer .root (Scope.Traced.root.child hvars.stems) hvars hbody
    (fun _ _ => accounts_transformElement) container ds hcontainer).2

end Transform

/-! ## How often a place is reported -/

section Counts

variable {α β : Type} {R : α → β → Prop} {as : List α} {bs : List β}

/-- What counts on the right counts on the left, in one way or in another. -/
theorem countP_le_add_of_forall₂ {p r : α → Bool} {q : β → Bool} (h : List.Forall₂ R as bs)
    (hq : ∀ a b, R a b → q b = true → p a = true ∨ r a = true) :
    bs.countP q ≤ as.countP p + as.countP r := by
  induction h with
  | nil => exact Nat.zero_le _
  | @cons a b as bs hab _ ih =>
      rw [List.countP_cons, List.countP_cons, List.countP_cons]
      by_cases hb : q b = true
      · rw [if_pos hb]
        rcases hq a b hab hb with ha | ha
        · rw [if_pos ha]
          omega
        · rw [if_pos ha]
          omega
      · rw [if_neg hb]
        omega

theorem pairwise_of_forall₂ {P : α → α → Prop} {D : β → β → Prop} (h : List.Forall₂ R as bs)
    (hP : as.Pairwise P) (hD : ∀ {a a' b b'}, R a b → R a' b' → P a a' → D b b') :
    bs.Pairwise D := by
  induction h with
  | nil => exact .nil
  | @cons a b as bs hab has ih =>
      obtain ⟨ha, htail⟩ := List.pairwise_cons.mp hP
      refine .cons (fun b' hb' => ?_) (ih htail)
      obtain ⟨a', ha', hab'⟩ := exists_of_forall₂ has hb'
      exact hD hab hab' (ha a' ha')

end Counts

/-- The pieces that are reported, with their diagnostics. -/
theorem exists_faulty {pieces : List Expr} {outcomes : List (Option Error)}
    (h : List.Forall₂ (Account defs) pieces outcomes) :
    ∃ faulty, faulty.Sublist pieces
      ∧ List.Forall₂ (fun e d => Located (e.Behind defs) d.position?) faulty
        (outcomes.filterMap id) := by
  induction h with
  | nil => exact ⟨[], .refl _, .nil⟩
  | @cons e o pieces outcomes he _ ih =>
      obtain ⟨faulty, hsub, hfaulty⟩ := ih
      cases he with
      | value => exact ⟨faulty, hsub.cons e, hfaulty⟩
      | fault hd => exact ⟨e :: faulty, hsub.cons_cons e, .cons hd hfaulty⟩

/-- Pieces with a position in common are the same. -/
theorem eq_of_mem_positions {pieces : List Expr}
    (h : pieces.Pairwise fun e f => e.positions.Disjoint f.positions) {e f : Expr} {p : Position}
    (he : e ∈ pieces) (hf : f ∈ pieces) (hpe : p ∈ e.positions) (hpf : p ∈ f.positions) :
    e = f := by
  have : Std.Symm fun e f : Expr => e.positions.Disjoint f.positions :=
    ⟨fun _ _ hdisjoint => hdisjoint.symm⟩
  by_contra hne
  exact h.forall he hf hne hpe hpf

/-- At most one of the pieces has the position. -/
theorem countP_mem_positions_le {pieces : List Expr}
    (h : pieces.Pairwise fun e f => e.positions.Disjoint f.positions) (p : Position) :
    pieces.countP (fun e => p ∈ e.positions) ≤ 1 := by
  induction h with
  | nil => exact Nat.zero_le 1
  | @cons e es he _ ih =>
      rw [List.countP_cons]
      by_cases hp : p ∈ e.positions
      · have hnone : es.countP (fun f => p ∈ f.positions) = 0 :=
          List.countP_eq_zero.mpr fun f hf hpf => he f hf hp (of_decide_eq_true hpf)
        rw [hnone, if_pos (decide_eq_true hp)]
      · rw [if_neg fun h => hp (of_decide_eq_true h)]
        exact ih

open Classical in
/-- **A PLACE IS REPORTED ONCE FOR ITS PIECE, AND ONCE FOR EACH PIECE THAT LEADS TO IT.** -/
theorem exists_users {c : Container} {outcomes : List (Option Error)}
    (hapart : c.pieces.Pairwise fun e f => e.positions.Disjoint f.positions)
    (hall : List.Forall₂ (Account c.definitions) c.pieces outcomes) {e : Expr} {p : Position}
    (he : e ∈ c.pieces) (hp : p ∈ e.positions) :
    ∃ users : List Expr, users.Sublist c.pieces ∧ (∀ f ∈ users, f.Leads c.definitions e) ∧
      (outcomes.filterMap id).countP (fun d => d.position? = some p) ≤ users.length + 1 := by
  obtain ⟨faulty, hsub, hfaulty⟩ := exists_faulty hall
  have hcount : (outcomes.filterMap id).countP (fun d => d.position? = some p) ≤
      faulty.countP (fun f => p ∈ f.positions) +
        faulty.countP (fun f => f.Leads c.definitions e) := by
    refine countP_le_add_of_forall₂ hfaulty fun f d hblames hd => ?_
    obtain ⟨q, hq, hbehind⟩ := hblames
    cases hq.symm.trans (of_decide_eq_true hd)
    rcases hbehind.mem_or_leads with hmem | ⟨v, hv, hpv⟩
    · exact Or.inl (decide_eq_true hmem)
    · obtain ⟨name, hname⟩ := Expr.Leads.exists_name hv
      have hpiece : v ∈ c.pieces := c.values_definitions_subset _ hname
      rw [eq_of_mem_positions hapart hpiece he hpv hp] at hv
      exact Or.inr (decide_eq_true hv)
  refine ⟨faulty.filter fun f => f.Leads c.definitions e, List.filter_sublist.trans hsub,
    fun f hf => of_decide_eq_true (List.mem_filter.mp hf).2, ?_⟩
  rw [← List.countP_eq_length_filter]
  have hown := countP_mem_positions_le (hapart.sublist hsub) p
  omega

/-- Diagnostics with the same position point into a definition that a piece leads to. -/
theorem pairwise_apart {c : Container} {outcomes : List (Option Error)}
    (hapart : c.pieces.Pairwise fun e f => e.positions.Disjoint f.positions)
    (hall : List.Forall₂ (Account c.definitions) c.pieces outcomes) :
    (outcomes.filterMap id).Pairwise fun d d' => d.position? = d'.position? →
      ∃ f ∈ c.pieces, ∃ v, f.Leads c.definitions v ∧ Located (· ∈ v.positions) d.position? := by
  obtain ⟨faulty, hsub, hfaulty⟩ := exists_faulty hall
  have hpieces := (List.forall₂_and_left faulty _).mpr
    ⟨fun f hf => (hsub.subset hf : f ∈ c.pieces), hfaulty⟩
  refine pairwise_of_forall₂ hpieces (hapart.sublist hsub) ?_
  rintro f f' d d' ⟨hf, q, hq, hbehind⟩ ⟨hf', q', hq', hbehind'⟩ hdisjoint hsame
  cases hq.symm.trans (hsame.trans hq')
  rcases hbehind.mem_or_leads with hmem | ⟨v, hv, hp⟩
  · rcases hbehind'.mem_or_leads with hmem' | ⟨v, hv, hp⟩
    · exact absurd hmem' (hdisjoint hmem)
    · exact ⟨f', hf', v, hv, q, hq, hp⟩
  · exact ⟨f, hf, v, hv, q, hq, hp⟩

namespace Sheet

open Transform

/-- A sheet that was read is anchored. -/
theorem anchored_of_parse {source : List Char} {sheet : Sheet}
    (hparse : Sheet.parse source = .ok sheet) :
    sheet.container.Anchored (Position.IsIn source) := by
  have hsound := Sheet.sound_parse source
  rw [hparse] at hsound
  cases hsound with
  | result h => exact h

/-- **EACH PIECE IS REPORTED AT MOST ONCE.**  A sheet that was read and has neither mixin
    calls nor accessors has a result from some bound on.

    * Its diagnostics are those of its pieces, in their order.  A piece has one diagnostic
      or none, and has one if a variable stands in it that the sheet does not define; it
      points into the piece or into a definition that the piece leads to.
    * A place in a piece is reported at most once for that piece, and once for each piece
      that leads to it.
    * So two diagnostics with the same position point into a definition that is used. -/
theorem each_piece_reports_once {source : List Char} {sheet : Sheet}
    (hparse : Sheet.parse source = .ok sheet)
    (hexprs : ∀ e ∈ sheet.container.exprs, e.isAccessFree = true)
    (hcalls : ∀ e ∈ sheet.container.elements, ∀ item ∈ e.items, item.isMixin = false) :
    (∃ k result ds, ∀ m, k ≤ m → transformSheet m .builtin sheet = some (result, ds))
      ∧ ∀ n result ds, transformSheet n .builtin sheet = some (result, ds) →
        (∃ outcomes, List.Forall₂ (Account sheet.container.definitions) sheet.container.pieces
            outcomes ∧ ds = outcomes.filterMap id)
        ∧ (∀ e ∈ sheet.container.pieces, ∀ p ∈ e.positions,
            ∃ users : List Expr, users.Sublist sheet.container.pieces
              ∧ (∀ f ∈ users, f.Leads sheet.container.definitions e)
              ∧ ds.countP (fun d => d.position? = some p) ≤ users.length + 1)
        ∧ ds.Pairwise fun d d' => d.position? = d'.position? →
            ∃ f ∈ sheet.container.pieces, ∃ v, f.Leads sheet.container.definitions v
              ∧ Located (· ∈ v.positions) d.position? := by
  refine ⟨transformSheet_ends_of_no_calls Registry.builtin_accessFree hexprs hcalls, ?_⟩
  intro n result ds hrun
  have hanchored := anchored_of_parse hparse
  have hvars : sheet.container.Listed (Position.IsIn source) sheet.container.definitions :=
    ⟨hanchored.values, fun v hv => hexprs v (List.mem_append_left _ hv),
      List.subset_append_left _ _⟩
  have hbody : ∀ e ∈ sheet.container.body,
      e.Listed (Position.IsIn source) sheet.container.definitions := fun e he =>
    ⟨hanchored.body e he, Container.selfContained hexprs hcalls e he, fun entry hentry =>
      List.mem_append_right _ (List.mem_flatMap.mpr ⟨e, he, hentry⟩)⟩
  have hapart := Sheet.pieces_apart hparse
  obtain ⟨outcomes, hall, rfl⟩ := transformSheet_accounts hvars hbody hrun
  exact ⟨⟨outcomes, hall, rfl⟩, fun e he p hp => exists_users hapart hall he hp,
    pairwise_apart hapart hall⟩

/-- A text that can be read and resolved, with a property of the sheet that can be
    checked. -/
theorem exists_run (source : List Char) (n : Nat) (ds : List Error) (P : Sheet → Prop)
    [DecidablePred P]
    (h : ((Sheet.parse source).toOption.bind fun sheet =>
      (transformSheet n .builtin sheet).map fun run => (run.2, decide (P sheet))) =
        some (ds, true)) :
    ∃ sheet result, Sheet.parse source = .ok sheet ∧ P sheet
      ∧ transformSheet n .builtin sheet = some (result, ds) := by
  obtain ⟨sheet, hsheet, h⟩ := Option.bind_eq_some_iff.mp h
  obtain ⟨⟨result, ds'⟩, hrun, h⟩ := Option.map_eq_some_iff.mp h
  obtain ⟨rfl, hP⟩ := Prod.mk.inj h
  exact ⟨sheet, result, Parse.eq_ok_of_toOption hsheet, of_decide_eq_true hP, hrun⟩

/-- In `@a:@nope;.x{w:@a;h:@a}` the place of `@nope` is reported three times, so that two
    pieces lead to it. -/
theorem each_piece_reports_once_of_two_uses :
    ∃ sheet result e, Sheet.parse "@a:@nope;.x{w:@a;h:@a}".toList = .ok sheet
      ∧ (∀ e ∈ sheet.container.exprs, e.isAccessFree = true)
      ∧ (∀ e ∈ sheet.container.elements, ∀ item ∈ e.items, item.isMixin = false)
      ∧ transformSheet 9 .builtin sheet =
          some (result, List.replicate 3 (.located ⟨1, 3⟩ (.undefinedVariable "nope")))
      ∧ e ∈ sheet.container.pieces ∧ ⟨1, 3⟩ ∈ e.positions
      ∧ ∃ users : List Expr, users.Sublist sheet.container.pieces
        ∧ (∀ f ∈ users, f.Leads sheet.container.definitions e) ∧ 2 ≤ users.length := by
  obtain ⟨sheet, result, hparse, ⟨hexprs, hcalls, e, he, hp⟩, hrun⟩ :=
    exists_run "@a:@nope;.x{w:@a;h:@a}".toList 9
      (List.replicate 3 (.located ⟨1, 3⟩ (.undefinedVariable "nope")))
      (fun sheet => (∀ e ∈ sheet.container.exprs, e.isAccessFree = true)
        ∧ (∀ e ∈ sheet.container.elements, ∀ item ∈ e.items, item.isMixin = false)
        ∧ ∃ e ∈ sheet.container.pieces, ⟨1, 3⟩ ∈ e.positions) (by decide +kernel)
  obtain ⟨users, hsub, hleads, hcount⟩ :=
    ((each_piece_reports_once hparse hexprs hcalls).2 9 result _ hrun).2.1 e he ⟨1, 3⟩ hp
  exact ⟨sheet, result, e, hparse, hexprs, hcalls, hrun, he, hp, users, hsub, hleads,
    Nat.le_of_succ_le_succ hcount⟩

/-- In `@a:@nope;.x{w:@a}` the variable that is not defined stands at one place, and is
    reported there twice: for the definition, and for the declaration that uses it. -/
theorem definition_is_reported_again :
    ∃ sheet result d, Sheet.parse "@a:@nope;.x{w:@a}".toList = .ok sheet
      ∧ (∀ e ∈ sheet.container.exprs, e.isAccessFree = true)
      ∧ (∀ e ∈ sheet.container.elements, ∀ item ∈ e.items, item.isMixin = false)
      ∧ transformSheet 9 .builtin sheet = some (result, [d, d])
      ∧ d = .located ⟨1, 3⟩ (.undefinedVariable "nope")
      ∧ ¬ [d, d].Pairwise fun d d' => d ≠ d' := by
  obtain ⟨sheet, result, hparse, ⟨hexprs, hcalls⟩, hrun⟩ :=
    exists_run "@a:@nope;.x{w:@a}".toList 9
      (List.replicate 2 (.located ⟨1, 3⟩ (.undefinedVariable "nope")))
      (fun sheet => (∀ e ∈ sheet.container.exprs, e.isAccessFree = true)
        ∧ ∀ e ∈ sheet.container.elements, ∀ item ∈ e.items, item.isMixin = false)
      (by decide +kernel)
  refine ⟨sheet, result, _, hparse, hexprs, hcalls, hrun, rfl, fun hdistinct => ?_⟩
  exact (List.pairwise_cons.mp hdistinct).1 _ (List.mem_singleton_self _) rfl

end Sheet

end Less
