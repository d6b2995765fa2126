import Less.Reporting
import Mathlib.Data.Finset.Card
import Mathlib.Data.List.Forall2

/-! # Outcomes of steps put together

    What an outcome of several steps says about the steps.

    * A composition that gives a value gave a value at every step
      (`bind_eq_done`, `mapM_eq_done`, `bind_eq_some`, `mapM_eq_some`); the
      diagnostics of a computation are those of its steps, so a computation
      without diagnostics is made of steps without diagnostics.
    * `Evaluation.Refines R x y` compares two evaluations: unless the bound was
      too small for `x`, both fail with the same error or both give values
      related by `R`.  `Reporting.Le x y` says that `y` gives whatever `x`
      gives.  Both pass through compositions, so that a statement about one
      step becomes one about a whole run.
    * `Meets Q P x`: a value of `x` satisfies `Q` and an error or a diagnostic
      `P`. -/

namespace Less

variable {α β γ δ : Type}

/-- Whatever stands in the second of two related lists stems from the first. -/
theorem exists_of_forall₂ {R : α → β → Prop} {as : List α} {bs : List β} (h : List.Forall₂ R as bs)
    {b : β}
    (hb : b ∈ bs) : ∃ a ∈ as, R a b := by
  induction h with
  | nil => exact absurd hb List.not_mem_nil
  | cons hab _ ih =>
      rcases List.mem_cons.mp hb with rfl | hb
      · exact ⟨_, List.mem_cons_self, hab⟩
      · obtain ⟨a, ha, hab⟩ := ih hb
        exact ⟨a, List.mem_cons_of_mem _ ha, hab⟩

/-- Whatever stands in the first of two related lists has a counterpart. -/
theorem exists_image_of_forall₂ {R : α → β → Prop} {as : List α} {bs : List β}
    (h : List.Forall₂ R as bs) {a : α} (ha : a ∈ as) : ∃ b ∈ bs, R a b := by
  obtain ⟨b, hb, hab⟩ := exists_of_forall₂ h.flip ha
  exact ⟨b, hb, hab⟩

/-- Fewer names are left once a name that was left is taken. -/
theorem card_sdiff_cons_lt {α : Type} [DecidableEq α] {names taken : List α} {name : α}
    (hname : name ∈ names) (hfree : name ∉ taken) :
    (names.toFinset \ (name :: taken).toFinset).card < (names.toFinset \ taken.toFinset).card := by
  refine Finset.card_lt_card ⟨fun x hx => ?_, fun h => ?_⟩
  · simp only [Finset.mem_sdiff, List.mem_toFinset, List.mem_cons, not_or] at hx ⊢
    exact ⟨hx.1, hx.2.2⟩
  · have hmem : name ∈ names.toFinset \ taken.toFinset := by
      simp only [Finset.mem_sdiff, List.mem_toFinset]
      exact ⟨hname, hfree⟩
    have hself := h hmem
    simp at hself

namespace Evaluation

theorem done_ne_exhausted (a : α) : done a ≠ exhausted :=
  nofun

theorem failed_ne_exhausted (e : Error) : (failed e : Evaluation α) ≠ exhausted :=
  nofun

/-- A composition that gives a value gave one at its first step. -/
theorem bind_eq_done {x : Evaluation α} {f : α → Evaluation β} {b : β}
    (h : (x >>= f) = done b) : ∃ a, x = done a ∧ f a = done b := by
  cases x with
  | exhausted => cases h
  | failed e => cases h
  | done a => exact ⟨a, rfl, h⟩

/-- Values come from values one by one. -/
theorem mapM_eq_done {f : α → Evaluation β} {as : List α} {bs : List β}
    (h : as.mapM f = done bs) : List.Forall₂ (fun a b => f a = done b) as bs := by
  induction as generalizing bs with
  | nil =>
      rw [List.mapM_nil] at h
      cases h
      exact .nil
  | cons a as ih =>
      rw [List.mapM_cons] at h
      obtain ⟨b, hb, h⟩ := bind_eq_done h
      obtain ⟨rest, hrest, h⟩ := bind_eq_done h
      cases h
      exact .cons hb (ih hrest)

/-- Conversely, values at every item are the values of the list. -/
theorem mapM_of_forall₂ {f : α → Evaluation β} {as : List α} {bs : List β}
    (h : List.Forall₂ (fun a b => f a = done b) as bs) : as.mapM f = done bs := by
  induction h with
  | nil => rfl
  | cons hb _ ih => rw [List.mapM_cons, hb, done_bind, ih, done_bind]; rfl

/-- A list has the same values under a second evaluation that agrees with the
    first one on its items. -/
theorem mapM_congr {f g : α → Evaluation β} {as : List α} {bs : List β} (h : as.mapM f = done bs)
    (hfg : ∀ a ∈ as, ∀ b, f a = done b → g a = done b) : as.mapM g = done bs := by
  induction as generalizing bs with
  | nil => exact h
  | cons a as ih =>
      rw [List.mapM_cons] at h ⊢
      obtain ⟨b, hb, h⟩ := bind_eq_done h
      obtain ⟨rest, hrest, h⟩ := bind_eq_done h
      rw [hfg a List.mem_cons_self b hb, done_bind,
        ih hrest fun a' ha' => hfg a' (List.mem_cons_of_mem a ha'), done_bind]
      exact h

/-- A position changes no value. -/
theorem locate_eq_done {p : Option Position} {x : Evaluation α} {a : α}
    (h : locate p x = done a) : x = done a := by
  cases x with
  | exhausted => cases h
  | failed e => cases h
  | done b => exact h

/-- A position does not decide whether the bound was too small. -/
theorem locate_eq_exhausted {p : Option Position} {x : Evaluation α} :
    locate p x = exhausted ↔ x = exhausted := by
  cases x with
  | exhausted => exact Iff.rfl
  | failed e => exact ⟨nofun, nofun⟩
  | done b => exact Iff.rfl

theorem ofExcept_eq_done {x : Except Error α} {a : α} (h : ofExcept x = done a) : x = .ok a := by
  cases x with
  | ok b => cases h; rfl
  | error e => cases h

/-! ## Comparing evaluations -/

/-- Unless the bound was too small for the first outcome, the second one is
    the same error, or a value related to the first one's. -/
def Refines (R : α → β → Prop) : Evaluation α → Evaluation β → Prop
  | exhausted, _ => True
  | failed e, y => y = failed e
  | done a, y => ∃ b, y = done b ∧ R a b

theorem Refines.refl {R : α → α → Prop} (hR : ∀ a, R a a) (x : Evaluation α) : Refines R x x := by
  cases x with
  | exhausted => exact trivial
  | failed e => rfl
  | done a => exact ⟨a, rfl, hR a⟩

theorem Refines.bind {R : α → β → Prop} {Q : γ → δ → Prop} {x : Evaluation α} {y : Evaluation β}
    {f : α → Evaluation γ} {g : β → Evaluation δ}
    (hx : Refines R x y) (hf : ∀ a b, R a b → Refines Q (f a) (g b)) :
    Refines Q (x >>= f) (y >>= g) := by
  cases x with
  | exhausted => exact trivial
  | failed e =>
      have hy : y = failed e := hx
      rw [hy]
      rfl
  | done a =>
      obtain ⟨b, hy, hab⟩ := hx
      rw [hy]
      exact hf a b hab

theorem Refines.mapM {R : γ → δ → Prop} {f : α → Evaluation γ} {g : α → Evaluation δ} {as : List α}
    (h : ∀ a ∈ as, Refines R (f a) (g a)) :
    Refines (List.Forall₂ R) (as.mapM f) (as.mapM g) := by
  induction as with
  | nil => exact ⟨[], rfl, .nil⟩
  | cons a as ih =>
      rw [List.mapM_cons, List.mapM_cons]
      refine Refines.bind (h a List.mem_cons_self) fun c d hcd => ?_
      refine Refines.bind (ih fun b hb => h b (List.mem_cons_of_mem a hb)) fun cs ds hcds => ?_
      exact ⟨d :: ds, rfl, .cons hcd hcds⟩

theorem Refines.locate {R : α → β → Prop} {x : Evaluation α} {y : Evaluation β}
    (h : Refines R x y) (p : Option Position) : Refines R (x.locate p) (y.locate p) := by
  cases x with
  | exhausted => exact trivial
  | failed e =>
      have hy : y = failed e := h
      rw [hy]
      rfl
  | done a =>
      obtain ⟨b, hy, hab⟩ := h
      rw [hy]
      exact ⟨b, rfl, hab⟩

theorem Refines.bind_eq {x y : Evaluation α} {f g : α → Evaluation β} (hx : Refines Eq x y)
    (hf : ∀ a, Refines Eq (f a) (g a)) : Refines Eq (x >>= f) (y >>= g) := by
  refine Refines.bind hx fun a b hab => ?_
  subst hab
  exact hf a

theorem Refines.mapM_eq {f g : α → Evaluation β} (h : ∀ a, Refines Eq (f a) (g a)) (as : List α) :
    Refines Eq (as.mapM f) (as.mapM g) := by
  have hall : Refines (List.Forall₂ Eq) (as.mapM f) (as.mapM g) := Refines.mapM fun a _ => h a
  rw [List.forall₂_eq_eq_eq] at hall
  exact hall

/-- Refinement by equality: within the larger bound the outcome is the same. -/
theorem Refines.eq_of_ne {x y : Evaluation α} (h : Refines Eq x y) (hx : x ≠ exhausted) :
    y = x := by
  cases x with
  | exhausted => exact absurd rfl hx
  | failed e => exact h
  | done a =>
      obtain ⟨b, hy, hab⟩ := h
      rw [hy, hab]

/-! ## What an outcome satisfies -/

/-- A value satisfies `Q` and an error `P`. -/
def Meets (Q : α → Prop) (P : Error → Prop) : Evaluation α → Prop
  | exhausted => True
  | failed e => P e
  | done a => Q a

variable {P R : Error → Prop} {Q : α → Prop}

theorem Meets.bind {Q' : β → Prop} {x : Evaluation α} {f : α → Evaluation β} (hx : Meets Q P x)
    (hf : ∀ a, Q a → Meets Q' P (f a)) : Meets Q' P (x >>= f) := by
  cases x with
  | exhausted => exact trivial
  | failed e => exact hx
  | done a => exact hf a hx

theorem Meets.mapM {Q : β → Prop} {f : α → Evaluation β} {as : List α}
    (h : ∀ a ∈ as, Meets Q P (f a)) : Meets (fun bs => ∀ b ∈ bs, Q b) P (as.mapM f) := by
  induction as with
  | nil => exact fun b hb => absurd hb List.not_mem_nil
  | cons a as ih =>
      rw [List.mapM_cons]
      refine (h a List.mem_cons_self).bind fun b hb => ?_
      refine (ih fun a' ha' => h a' (List.mem_cons_of_mem a ha')).bind fun bs hbs => ?_
      exact List.forall_mem_cons.mpr ⟨hb, hbs⟩

theorem Meets.locate {x : Evaluation α} {p : Option Position} (hx : Meets Q R x)
    (hP : ∀ e, R e → P (e.locate p)) : Meets Q P (x.locate p) := by
  cases x with
  | exhausted => exact trivial
  | failed e => exact hP e hx
  | done a => exact hx

theorem Meets.ofExcept {x : Except Error α} (hQ : ∀ a, x = .ok a → Q a)
    (hP : ∀ e, x = .error e → P e) : Meets Q P (ofExcept x) := by
  cases x with
  | ok a => exact hQ a rfl
  | error e => exact hP e rfl

theorem Meets.imp {Q' : α → Prop} {x : Evaluation α} (hx : Meets Q P x) (hQ : ∀ a, Q a → Q' a)
    (hP : ∀ e, P e → R e) : Meets Q' R x := by
  cases x with
  | exhausted => exact trivial
  | failed e => exact hP e hx
  | done a => exact hQ a hx

end Evaluation

namespace Reporting

/-- A composition that gives a result gave one at both steps, and its
    diagnostics are those of the steps in order. -/
theorem bind_eq_some {x : Reporting α} {f : α → Reporting β} {b : β} {ds : List Error}
    (h : (x >>= f) = some (b, ds)) :
    ∃ a first second, x = some (a, first) ∧ f a = some (b, second) ∧ ds = first ++ second := by
  have h' : Reporting.bind x f = some (b, ds) := h
  cases x with
  | none => cases h'
  | some r =>
      obtain ⟨a, first⟩ := r
      cases hf : f a with
      | none => simp only [Reporting.bind, hf] at h'; cases h'
      | some s =>
          obtain ⟨b', second⟩ := s
          simp only [Reporting.bind, hf] at h'
          cases h'
          exact ⟨a, first, second, rfl, hf, rfl⟩

/-- Two steps that give a result give it together. -/
theorem bind_of_some {x : Reporting α} {f : α → Reporting β} {a : α} {b : β}
    {first second : List Error} (hx : x = some (a, first)) (hf : f a = some (b, second)) :
    (x >>= f) = some (b, first ++ second) := by
  show Reporting.bind x f = some (b, first ++ second)
  simp only [Reporting.bind, hx, hf]
  rfl

/-- What follows a computation matters only at its result. -/
theorem bind_congr_of_some {x : Reporting α} {f g : α → Reporting β}
    (h : ∀ a ds, x = some (a, ds) → f a = g a) : (x >>= f) = (x >>= g) := by
  show Reporting.bind x f = Reporting.bind x g
  cases x with
  | none => rfl
  | some r => simp only [Reporting.bind, h r.1 r.2 rfl]

theorem pure_eq_some {a b : α} {ds : List Error} (h : (pure a : Reporting α) = some (b, ds)) :
    b = a ∧ ds = [] := by
  cases h
  exact ⟨rfl, rfl⟩

theorem map_eq_some {x : Reporting α} {f : α → β} {b : β} {ds : List Error}
    (h : (f <$> x) = some (b, ds)) : ∃ a, x = some (a, ds) ∧ b = f a := by
  rw [map_eq_pure_bind] at h
  obtain ⟨a, first, second, hx, hp, rfl⟩ := bind_eq_some h
  obtain ⟨rfl, rfl⟩ := pure_eq_some hp
  exact ⟨a, by rw [hx, List.append_nil], rfl⟩

/-- Results come from results one by one, and every diagnostic of an item is
    one of the whole. -/
theorem mapM_eq_some {f : α → Reporting β} {as : List α} {bs : List β} {ds : List Error}
    (h : as.mapM f = some (bs, ds)) :
    List.Forall₂ (fun a b => ∃ es, f a = some (b, es) ∧ es ⊆ ds) as bs := by
  induction as generalizing bs ds with
  | nil =>
      rw [List.mapM_nil] at h
      cases h
      exact .nil
  | cons a as ih =>
      rw [List.mapM_cons] at h
      obtain ⟨b, first, later, hb, hlater, rfl⟩ := bind_eq_some h
      obtain ⟨rest, second, third, hrest, hpure, rfl⟩ := bind_eq_some hlater
      cases hpure
      refine .cons ⟨first, hb, List.subset_append_left _ _⟩ ?_
      refine (ih hrest).imp fun _ _ ⟨es, hes, hsub⟩ => ⟨es, hes, fun e he => ?_⟩
      rw [List.append_nil]
      exact List.mem_append_right first (hsub he)

/-- A list of computations has a result if each of them has, and its diagnostics
    are theirs in order. -/
theorem mapM_eq_some_iff {f : α → Reporting β} {as : List α} {bs : List β} {ds : List Error} :
    as.mapM f = some (bs, ds) ↔
      ∃ parts : List (β × List Error), List.Forall₂ (fun a part => f a = some part) as parts
        ∧ bs = parts.map Prod.fst ∧ ds = parts.flatMap Prod.snd := by
  constructor
  · intro h
    induction as generalizing bs ds with
    | nil =>
        rw [List.mapM_nil] at h
        cases h
        exact ⟨[], .nil, rfl, rfl⟩
    | cons a as ih =>
        rw [List.mapM_cons] at h
        obtain ⟨b, first, later, hb, hlater, rfl⟩ := bind_eq_some h
        obtain ⟨rest, second, third, hrest, hpure, rfl⟩ := bind_eq_some hlater
        cases hpure
        obtain ⟨parts, hparts, rfl, rfl⟩ := ih hrest
        exact ⟨(b, first) :: parts, .cons hb hparts, rfl, by rw [List.append_nil]; rfl⟩
  · rintro ⟨parts, hparts, rfl, rfl⟩
    induction hparts with
    | nil => rfl
    | cons ha _ ih =>
        rw [List.mapM_cons]
        refine (bind_of_some ha (bind_of_some ih rfl)).trans ?_
        rw [List.append_nil]
        rfl

/-- An attempted evaluation gives its value or its error and reports nothing. -/
theorem attempt_eq_some {x : Evaluation α} {r : Except Error α} {ds : List Error}
    (h : attempt x = some (r, ds)) :
    ds = [] ∧ ((∃ e, x = .failed e ∧ r = .error e) ∨ ∃ a, x = .done a ∧ r = .ok a) := by
  cases x with
  | exhausted => cases h
  | failed e => cases h; exact ⟨rfl, Or.inl ⟨e, rfl, rfl⟩⟩
  | done a => cases h; exact ⟨rfl, Or.inr ⟨a, rfl, rfl⟩⟩

/-! ## Comparing computations -/

/-- The second computation gives whatever the first one gives. -/
def Le (x y : Reporting α) : Prop :=
  ∀ r, x = some r → y = some r

theorem Le.refl (x : Reporting α) : Le x x :=
  fun _ h => h

theorem Le.exhausted (y : Reporting α) : Le (exhausted : Reporting α) y :=
  fun _ h => nomatch h

theorem Le.bind {x y : Reporting α} {f g : α → Reporting β}
    (hx : Le x y) (hf : ∀ a, Le (f a) (g a)) : Le (x >>= f) (y >>= g) := by
  rintro ⟨b, ds⟩ h
  obtain ⟨a, first, second, ha, hb, rfl⟩ := bind_eq_some h
  exact bind_of_some (hx _ ha) (hf a _ hb)

theorem Le.map {x y : Reporting α} (f : α → β) (h : Le x y) : Le (f <$> x) (f <$> y) := by
  rw [map_eq_pure_bind, map_eq_pure_bind]
  exact Le.bind h fun a => Le.refl _

theorem Le.mapM {f g : α → Reporting β} (h : ∀ a, Le (f a) (g a)) (as : List α) :
    Le (as.mapM f) (as.mapM g) := by
  induction as with
  | nil => exact Le.refl _
  | cons a as ih =>
      rw [List.mapM_cons, List.mapM_cons]
      exact Le.bind (h a) fun b => Le.bind ih fun bs => Le.refl _

theorem Le.attempt {x y : Evaluation α} (h : Evaluation.Refines Eq x y) :
    Le (attempt x) (attempt y) := by
  intro r hr
  cases hx : x with
  | exhausted => rw [hx] at hr; cases hr
  | failed e =>
      rw [h.eq_of_ne (by rw [hx]; exact nofun)]
      exact hr
  | done a =>
      rw [h.eq_of_ne (by rw [hx]; exact nofun)]
      exact hr

/-! ## Computations within a large enough bound -/

/-- From some bound on there is a result, always the same one, and it satisfies
    `P`. -/
def Converges (x : Nat → Reporting α) (P : α → Prop) : Prop :=
  ∃ k a ds, (∀ m, k ≤ m → x m = some (a, ds)) ∧ P a

variable {x : Nat → Reporting α} {P : α → Prop} {Q : β → Prop}

theorem Converges.of_some {a : α} {ds : List Error} (h : ∀ m, x m = some (a, ds)) (ha : P a) :
    Converges x P :=
  ⟨0, a, ds, fun m _ => h m, ha⟩

theorem Converges.pure {a : α} (ha : P a) : Converges (fun _ => (pure a : Reporting α)) P :=
  .of_some (fun _ => rfl) ha

theorem Converges.imp {P Q : α → Prop} (hx : Converges x P) (h : ∀ a, P a → Q a) : Converges x Q := by
  obtain ⟨k, a, ds, hx, ha⟩ := hx
  exact ⟨k, a, ds, hx, h a ha⟩

/-- A computation that passes a smaller bound on converges with its body. -/
theorem Converges.of_succ (h : Converges (fun n => x (n + 1)) P) : Converges x P := by
  obtain ⟨k, a, ds, hx, ha⟩ := h
  refine ⟨k + 1, a, ds, fun m hm => ?_, ha⟩
  obtain ⟨j, rfl⟩ : ∃ j, m = j + 1 := ⟨m - 1, by omega⟩
  exact hx j (by omega)

theorem Converges.bind {f : Nat → α → Reporting β} (hx : Converges x P)
    (hf : ∀ a, P a → Converges (fun n => f n a) Q) : Converges (fun n => x n >>= f n) Q := by
  obtain ⟨k, a, first, hx, ha⟩ := hx
  obtain ⟨j, b, second, hf, hb⟩ := hf a ha
  exact ⟨max k j, b, first ++ second,
    fun m hm => bind_of_some (hx m (by omega)) (hf m (by omega)), hb⟩

theorem Converges.map {f : α → β} (hx : Converges x P) (hf : ∀ a, P a → Q (f a)) :
    Converges (fun n => f <$> x n) Q := by
  simp only [map_eq_pure_bind]
  exact hx.bind fun a ha => .pure (hf a ha)

/-- A list of computations that converge converges. -/
theorem Converges.mapM {f : Nat → α → Reporting β} {as : List α}
    (h : ∀ a ∈ as, Converges (fun n => f n a) Q) :
    Converges (fun n => as.mapM (f n)) fun bs => ∀ b ∈ bs, Q b := by
  induction as with
  | nil => exact .of_some (fun _ => rfl) fun b hb => absurd hb List.not_mem_nil
  | cons a as ih =>
      simp only [List.mapM_cons]
      refine (h a List.mem_cons_self).bind fun b hb => ?_
      refine (ih fun a' ha' => h a' (List.mem_cons_of_mem a ha')).bind fun bs hbs => ?_
      exact .pure (List.forall_mem_cons.mpr ⟨hb, hbs⟩)

/-- An evaluation that ends within some bound, and keeps its outcome within
    larger ones, can be attempted. -/
theorem Converges.attempt {y : Nat → Evaluation α} {P : Except Error α → Prop} {k : Nat}
    (hends : y k ≠ .exhausted) (hmono : ∀ m, k ≤ m → Evaluation.Refines Eq (y k) (y m))
    (hfailed : ∀ e, y k = .failed e → P (.error e)) (hdone : ∀ a, y k = .done a → P (.ok a)) :
    Converges (fun n => attempt (y n)) P := by
  have hsame : ∀ m, k ≤ m → Reporting.attempt (y m) = Reporting.attempt (y k) := fun m hm => by
    rw [(hmono m hm).eq_of_ne hends]
  cases houtcome : y k with
  | exhausted => exact absurd houtcome hends
  | failed e =>
      rw [houtcome] at hsame
      exact ⟨k, .error e, [], hsame, hfailed e houtcome⟩
  | done a =>
      rw [houtcome] at hsame
      exact ⟨k, .ok a, [], hsame, hdone a houtcome⟩

/-! ## What a computation satisfies -/

/-- A result satisfies `Q` and every diagnostic `D`. -/
def Meets (Q : α → Prop) (D : Error → Prop) (x : Reporting α) : Prop :=
  ∀ a ds, x = some (a, ds) → Q a ∧ ∀ d ∈ ds, D d

variable {D : Error → Prop} {Q : α → Prop}

theorem Meets.pure {a : α} (ha : Q a) : Meets Q D (pure a : Reporting α) := by
  rintro a' ds ⟨⟩
  exact ⟨ha, fun d hd => absurd hd List.not_mem_nil⟩

theorem Meets.bind {Q' : β → Prop} {x : Reporting α} {f : α → Reporting β} (hx : Meets Q D x)
    (hf : ∀ a, Q a → Meets Q' D (f a)) : Meets Q' D (x >>= f) := by
  intro b ds h
  obtain ⟨a, first, second, ha, hb, rfl⟩ := bind_eq_some h
  obtain ⟨hQ, hfirst⟩ := hx a first ha
  obtain ⟨hQ', hsecond⟩ := hf a hQ b second hb
  exact ⟨hQ', fun d hd => (List.mem_append.mp hd).elim (hfirst d) (hsecond d)⟩

theorem Meets.map {Q' : β → Prop} {x : Reporting α} {f : α → β} (hx : Meets Q D x)
    (hf : ∀ a, Q a → Q' (f a)) : Meets Q' D (f <$> x) := by
  rw [map_eq_pure_bind]
  exact hx.bind fun a ha => .pure (hf a ha)

theorem Meets.mapM {Q : β → Prop} {f : α → Reporting β} {as : List α}
    (h : ∀ a ∈ as, Meets Q D (f a)) : Meets (fun bs => ∀ b ∈ bs, Q b) D (as.mapM f) := by
  induction as with
  | nil => exact .pure fun b hb => absurd hb List.not_mem_nil
  | cons a as ih =>
      rw [List.mapM_cons]
      refine (h a List.mem_cons_self).bind fun b hb => ?_
      refine (ih fun a' ha' => h a' (List.mem_cons_of_mem a ha')).bind fun bs hbs => ?_
      exact .pure (List.forall_mem_cons.mpr ⟨hb, hbs⟩)

/-- A diagnostic is reported, and a result given after it. -/
theorem Meets.report {e : Error} {a : α} (he : D e) (ha : Q a) :
    Meets Q D (do report e; return a) := by
  rintro a' ds ⟨⟩
  exact ⟨ha, fun d hd => List.mem_singleton.mp hd ▸ he⟩

theorem Meets.attempt {P : Error → Prop} {x : Evaluation α} (hx : x.Meets Q P) :
    Meets (fun r => match r with | .ok a => Q a | .error e => P e) D (attempt x) := by
  intro r ds h
  obtain ⟨rfl, ⟨e, rfl, rfl⟩ | ⟨a, rfl, rfl⟩⟩ := attempt_eq_some h
  · exact ⟨hx, fun d hd => absurd hd List.not_mem_nil⟩
  · exact ⟨hx, fun d hd => absurd hd List.not_mem_nil⟩

end Reporting

end Less
