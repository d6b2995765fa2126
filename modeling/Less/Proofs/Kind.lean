import Less.Eval
import Less.Proofs.Refusal

/-! # Static kinds of arithmetic

    A constant is of the **kind** of numbers with a unit, of numbers without one, or of
    colors.  What kind an operation has follows from the kinds of its operands
    (`Kind.combine?`), so that a tree of operations over constants has a kind, or none,
    before it is evaluated (`Expr.kind?`).

    The kind tells what evaluation does.  A tree with a kind evaluates to a constant of
    that kind, unless it divides by zero; a tree without one is refused
    (`eval_by_kind`).  One step of arithmetic keeps the kinds
    (`Value.apply_of_kind`, `Value.apply_of_no_kind`) and the opacity
    (`Value.alpha_of_apply`), and an induction on the tree does the rest. -/

namespace Less

/-! ## Kinds -/

/-- What a constant is, without its value. -/
inductive Kind where
  | number (unit : Option String)
  | color
deriving DecidableEq, Repr

/-- The kind of a constant. -/
def Value.kind : Value → Kind
  | number n => .number n.unit
  | color _ => .color

/-- The kind of an operation by the kinds of its operands.  Numbers want equal units, or
    at most one; a color goes with a color and with a number without unit, which may
    stand on the left of a product only. -/
def Kind.combine? (op : Operator) : Kind → Kind → Option Kind
  | number none, number w => some (number w)
  | number (some u), number none => some (number (some u))
  | number (some u), number (some w) => if u = w then some (number (some u)) else none
  | color, number none => some color
  | color, color => some color
  | number none, color => if op = .multiply then some color else none
  | color, number (some _) => none
  | number (some _), color => none

/-- The color a constant is. -/
def Value.color? : Value → Option Color
  | number _ => none
  | color c => some c

/-- The unit of a constant. -/
def Value.unit? : Value → Option String
  | number n => n.unit
  | color _ => none

/-! ## Trees of operations over constants -/

namespace Expr

/-- **A tree of operations over constants.** -/
inductive IsArithmetic : Expr → Prop where
  | constant (value : Value) (p : Option Position) : IsArithmetic (constant value p)
  | binary (op : Operator) {left right : Expr} (p : Option Position)
      (hleft : IsArithmetic left) (hright : IsArithmetic right) :
      IsArithmetic (binary op left right p)

/-- The kind of a tree, if it has one. -/
def kind? : Expr → Option Kind
  | constant value _ => some value.kind
  | binary op left right _ => do Kind.combine? op (← left.kind?) (← right.kind?)
  | _ => none

/-- The constants of a tree, from the left. -/
def leaves : Expr → List Value
  | constant value _ => [value]
  | binary _ left right _ => left.leaves ++ right.leaves
  | _ => []

/-- The leftmost color of a tree. -/
def leftmostColor? (e : Expr) : Option Color :=
  e.leaves.findSome? Value.color?

theorem kind?_binary_eq_some {op : Operator} {left right : Expr} {p : Option Position}
    {k : Kind} (h : (binary op left right p).kind? = some k) :
    ∃ a b, left.kind? = some a ∧ right.kind? = some b ∧ Kind.combine? op a b = some k := by
  rw [kind?] at h
  obtain ⟨a, ha, h⟩ := Option.bind_eq_some_iff.mp h
  obtain ⟨b, hb, h⟩ := Option.bind_eq_some_iff.mp h
  exact ⟨a, b, ha, hb, h⟩

theorem leftmostColor?_binary (op : Operator) (left right : Expr) (p : Option Position) :
    (binary op left right p).leftmostColor? =
      left.leftmostColor?.or right.leftmostColor? := by
  rw [leftmostColor?, leaves, List.findSome?_append]
  rfl

end Expr

/-! ## One operation -/

/-- What gives a number are numbers, each with the unit of the result or with none. -/
theorem Kind.combine?_eq_number {op : Operator} {a b : Kind} {u : Option String}
    (h : Kind.combine? op a b = some (.number u)) :
    ∃ v w, a = .number v ∧ b = .number w ∧ (v = none ∨ v = u) ∧ (w = none ∨ w = u) := by
  match a, b with
  | .number none, .number w =>
      cases h
      exact ⟨none, u, rfl, rfl, Or.inl rfl, Or.inr rfl⟩
  | .number (some v), .number none =>
      cases h
      exact ⟨some v, none, rfl, rfl, Or.inr rfl, Or.inl rfl⟩
  | .number (some v), .number (some w) =>
      rw [Kind.combine?] at h
      split at h
      · rename_i heq
        cases h
        exact ⟨some v, some w, rfl, rfl, Or.inr rfl, Or.inr (heq ▸ rfl)⟩
      · cases h
  | .number none, .color =>
      rw [Kind.combine?] at h
      split at h <;> cases h
  | .color, .number none | .color, .color => cases h
  | .color, .number (some _) | .number (some _), .color => cases h

/-- Numbers whose kinds go together have compatible units, and the other way round. -/
theorem Number.combine?_kind (op : Operator) (a b : Number) :
    Kind.combine? op (.number a.unit) (.number b.unit) =
      if a.isCompatible b then some (.number (a.unit.or b.unit)) else none := by
  rw [Number.isCompatible]
  cases a.unit with
  | none => rfl
  | some u =>
      cases b.unit with
      | none => rfl
      | some w =>
          rw [Kind.combine?]
          by_cases heq : u = w
          · rw [if_pos heq, if_pos (beq_iff_eq.mpr heq)]
            rfl
          · rw [if_neg heq, if_neg (by rwa [beq_iff_eq])]

/-- **Where kinds go together**, an operation gives a constant of the kind they make,
    unless it divides by zero. -/
theorem Value.apply_of_kind {op : Operator} {a b : Value} {k : Kind}
    (h : Kind.combine? op a.kind b.kind = some k) :
    Value.apply op a b = .error .divisionByZero ∨
      ∃ v, Value.apply op a b = .ok v ∧ v.kind = k := by
  cases a with
  | number a =>
      cases b with
      | number b =>
          rw [Value.kind, Value.kind, Number.combine?_kind] at h
          split at h
          · rename_i hcompatible
            cases h
            rw [Value.apply, Number.apply, hcompatible]
            by_cases hzero : op = .divide ∧ b.value == 0.0
            · left
              rw [if_neg (by decide), if_pos hzero]
              rfl
            · right
              rw [if_neg (by decide), if_neg hzero]
              exact ⟨_, rfl, rfl⟩
          · cases h
      | color c =>
          obtain ⟨x, unit⟩ := a
          cases unit with
          | some u => cases h
          | none =>
              rw [Value.kind, Value.kind, Kind.combine?] at h
              split at h
              · rename_i hop
                cases h
                right
                rw [Value.apply, if_pos ⟨hop, rfl⟩]
                exact ⟨_, rfl, rfl⟩
              · cases h
  | color c =>
      cases b with
      | number b =>
          obtain ⟨x, unit⟩ := b
          cases unit with
          | some u => cases h
          | none =>
              cases h
              have hunit : (!Number.isUnitless ⟨x, none⟩) = false := rfl
              rw [Value.apply, hunit, if_neg Bool.false_ne_true]
              by_cases hzero : op = .divide ∧ x == 0.0
              · left
                rw [if_pos hzero]
              · right
                rw [if_neg hzero]
                exact ⟨_, rfl, rfl⟩
      | color d =>
          cases h
          rw [Value.apply]
          by_cases hzero : op = .divide ∧ d.channels.hasZero
          · left
            rw [if_pos hzero]
          · right
            rw [if_neg hzero]
            exact ⟨_, rfl, rfl⟩

/-- **Where kinds do not go together**, an operation is refused. -/
theorem Value.apply_of_no_kind {op : Operator} {a b : Value}
    (h : Kind.combine? op a.kind b.kind = none) :
    ∃ left right, Value.apply op a b = .error (.unitMismatch left right) := by
  cases a with
  | number a =>
      cases b with
      | number b =>
          rw [Value.kind, Value.kind, Number.combine?_kind] at h
          split at h
          · cases h
          · rename_i hcompatible
            rw [Value.apply, Number.apply, if_pos (by simpa using hcompatible)]
            exact ⟨_, _, rfl⟩
      | color c =>
          have hrefused : ¬(op = .multiply ∧ a.isUnitless = true) := by
            rintro ⟨rfl, hunit⟩
            rw [Number.isUnitless, Option.isNone_iff_eq_none] at hunit
            rw [Value.kind, Value.kind, hunit] at h
            cases h
          rw [Value.apply, if_neg hrefused]
          exact ⟨_, _, rfl⟩
  | color c =>
      cases b with
      | number b =>
          obtain ⟨x, unit⟩ := b
          cases unit with
          | none => cases h
          | some u => exact ⟨_, _, rfl⟩
      | color d => cases h

/-- **The opacity of a result** is that of the color on the left, or else of the color on
    the right. -/
theorem Value.alpha_of_apply {op : Operator} {a b : Value} {c : Color}
    (h : Value.apply op a b = .ok (.color c)) :
    ∃ d, a.color?.or b.color? = some d ∧ c.alpha = d.alpha := by
  cases a with
  | number a =>
      cases b with
      | number b =>
          rw [Value.apply] at h
          cases hab : Number.apply op a b with
          | error e => rw [hab] at h; cases h
          | ok n => rw [hab] at h; cases h
      | color d =>
          rw [Value.apply] at h
          split at h
          · cases h
            exact ⟨d, rfl, rfl⟩
          · cases h
  | color d =>
      refine ⟨d, rfl, ?_⟩
      cases b with
      | number b =>
          rw [Value.apply] at h
          split at h
          · cases h
          · split at h
            · cases h
            · cases h
              rfl
      | color d' =>
          rw [Value.apply] at h
          split at h
          · cases h
          · cases h
            rfl

/-! ## Trees -/

namespace Expr

/-- **The leaves of a number** are numbers, with its unit or without one. -/
theorem leaf_of_number : ∀ {e : Expr} {u : Option String}, e.kind? = some (.number u) →
    ∀ v ∈ e.leaves, v.color? = none ∧ (v.unit? = none ∨ v.unit? = u)
  | constant (.number n) p, _, h => by
      cases h
      exact List.forall_mem_singleton.mpr ⟨rfl, Or.inr rfl⟩
  | binary op left right p, u, h => by
      obtain ⟨a, b, ha, hb, hab⟩ := kind?_binary_eq_some h
      obtain ⟨v, w, rfl, rfl, hv, hw⟩ := Kind.combine?_eq_number hab
      rw [leaves, List.forall_mem_append]
      constructor
      · intro x hx
        obtain ⟨hcolor, hunit⟩ := leaf_of_number ha x hx
        exact ⟨hcolor, hunit.elim Or.inl fun h => by rw [h]; exact hv⟩
      · intro x hx
        obtain ⟨hcolor, hunit⟩ := leaf_of_number hb x hx
        exact ⟨hcolor, hunit.elim Or.inl fun h => by rw [h]; exact hw⟩

/-- A number has no leftmost color. -/
theorem leftmostColor?_of_number {e : Expr} {u : Option String}
    (h : e.kind? = some (.number u)) : e.leftmostColor? = none :=
  List.findSome?_eq_none_iff.mpr fun v hv => (leaf_of_number h v hv).1

/-- What an evaluation comes to by the kind of a tree. -/
inductive Fits (e : Expr) : Evaluation Expr → Prop where
  /-- A constant of the kind of the tree, and with the opacity of its leftmost color. -/
  | value {v : Value} {p : Option Position} (hkind : e.kind? = some v.kind)
      (halpha : ∀ c, v = .color c →
        ∃ leaf, e.leftmostColor? = some leaf ∧ c.alpha = leaf.alpha) :
      Fits e (.done (constant v p))
  | divisionByZero {err : Error} (herr : err.kind = .divisionByZero) : Fits e (.failed err)
  /-- Only a tree without a kind is refused. -/
  | unitMismatch {err : Error} {l r : String} (hkind : e.kind? = none)
      (herr : err.kind = .unitMismatch l r) : Fits e (.failed err)

theorem kind?_binary_of_left {op : Operator} {left right : Expr} {p : Option Position}
    (h : left.kind? = none) : (binary op left right p).kind? = none := by
  rw [kind?, h]
  rfl

theorem kind?_binary_of_right {op : Operator} {left right : Expr} {p : Option Position}
    (h : right.kind? = none) : (binary op left right p).kind? = none := by
  rw [kind?, h]
  cases left.kind? <;> rfl

/-- An operation on constants fits the tree it is the root of. -/
theorem fits_applyTo {op : Operator} {left right : Expr} {p p₁ p₂ : Option Position}
    {a b : Value} (ha : Fits left (.done (constant a p₁)))
    (hb : Fits right (.done (constant b p₂))) :
    Fits (binary op left right p)
      (.ofExcept (applyTo op (constant a p₁) (constant b p₂) p)) := by
  obtain ⟨hka, hca⟩ : left.kind? = some a.kind ∧ ∀ c, a = .color c →
      ∃ leaf, left.leftmostColor? = some leaf ∧ c.alpha = leaf.alpha := by
    cases ha with
    | value hkind halpha => exact ⟨hkind, halpha⟩
  obtain ⟨hkb, hcb⟩ : right.kind? = some b.kind ∧ ∀ c, b = .color c →
      ∃ leaf, right.leftmostColor? = some leaf ∧ c.alpha = leaf.alpha := by
    cases hb with
    | value hkind halpha => exact ⟨hkind, halpha⟩
  have hkind : (binary op left right p).kind? = Kind.combine? op a.kind b.kind := by
    rw [kind?, hka, hkb]
    rfl
  rw [applyTo]
  simp only [constant?]
  cases hop : Kind.combine? op a.kind b.kind with
  | none =>
      obtain ⟨l, r, happly⟩ := Value.apply_of_no_kind hop
      rw [happly]
      exact .unitMismatch (hkind.trans hop) (Error.kind_locate _ _)
  | some k =>
      rcases Value.apply_of_kind hop with happly | ⟨v, happly, rfl⟩
      · rw [happly]
        exact .divisionByZero (Error.kind_locate _ _)
      · rw [happly]
        refine .value (hkind.trans hop) ?_
        rintro c rfl
        obtain ⟨d, hd, halpha⟩ := Value.alpha_of_apply happly
        rw [leftmostColor?_binary, halpha]
        cases a with
        | color d' =>
            cases hd
            obtain ⟨leaf, hleaf, hd⟩ := hca d rfl
            exact ⟨leaf, by rw [hleaf]; rfl, hd⟩
        | number n =>
            -- a number on the left has no colors, so the leftmost one is on the right
            rw [leftmostColor?_of_number hka]
            cases b with
            | color d' =>
                cases hd
                exact hcb d rfl
            | number m => cases hd

/-- The number of operations one inside the other, and one more. -/
def height : Expr → Nat
  | binary _ left right _ => max left.height right.height + 1
  | _ => 1

/-- **Evaluation of a tree** comes to the same within every bound above its height and in
    every scope, and that fits the kind of the tree. -/
theorem exists_eval_fits {e : Expr} (he : e.IsArithmetic) :
    ∃ outcome, (∀ n, e.height ≤ n → ∀ scope, eval n scope e = outcome) ∧ Fits e outcome := by
  induction he with
  | constant value p =>
      refine ⟨.done (constant value p), fun n hn scope => ?_, .value rfl ?_⟩
      · obtain ⟨n, rfl⟩ := Nat.exists_eq_succ_of_ne_zero (Nat.ne_zero_of_lt hn)
        rfl
      · rintro c rfl
        exact ⟨c, rfl, rfl⟩
  | @binary op left right p _ _ ihl ihr =>
      obtain ⟨x, hx, hfx⟩ := ihl
      obtain ⟨y, hy, hfy⟩ := ihr
      refine ⟨x >>= fun l => y >>= fun r => .ofExcept (applyTo op l r p),
        fun n hn scope => ?_, ?_⟩
      · rw [height] at hn
        obtain ⟨n, rfl⟩ := Nat.exists_eq_succ_of_ne_zero (Nat.ne_zero_of_lt hn)
        rw [eval, hx n (by omega), hy n (by omega)]
      -- the first operand that fails decides
      · cases hfx with
        | divisionByZero herr => exact .divisionByZero herr
        | unitMismatch hkind herr => exact .unitMismatch (kind?_binary_of_left hkind) herr
        | value hka hca =>
            cases hfy with
            | divisionByZero herr => exact .divisionByZero herr
            | unitMismatch hkind herr => exact .unitMismatch (kind?_binary_of_right hkind) herr
            | value hkb hcb => exact fits_applyTo (.value hka hca) (.value hkb hcb)

/-- **THE KIND OF A TREE TELLS HOW IT EVALUATES.**  A tree of operations over constants has
    one outcome in all scopes.  If it has a kind, that is a constant of this kind, unit
    included, or a division by zero.  If it has none, that is a mismatch or a division
    by zero.  A color has the opacity of the leftmost color of the tree.  So a tree of
    numbers that evaluates has one unit at most, however it is grouped. -/
theorem eval_by_kind {e : Expr} (he : e.IsArithmetic) :
    ∃ outcome, (∀ n, e.height ≤ n → ∀ scope, eval n scope e = outcome)
      ∧ (∀ k, e.kind? = some k →
          (∃ v p, outcome = .done (constant v p) ∧ v.kind = k)
            ∨ ∃ err, outcome = .failed err ∧ err.kind = .divisionByZero)
      ∧ (e.kind? = none → ∃ err, outcome = .failed err
          ∧ (err.kind = .divisionByZero ∨ ∃ l r, err.kind = .unitMismatch l r))
      ∧ (∀ c p, outcome = .done (constant (.color c) p) →
          ∃ leaf, e.leftmostColor? = some leaf ∧ c.alpha = leaf.alpha)
      ∧ ((∀ v ∈ e.leaves, v.color? = none) → ∀ x, outcome = .done x →
          ∀ v ∈ e.leaves, ∀ w ∈ e.leaves, ∀ s t, v.unit? = some s → w.unit? = some t → s = t) := by
  obtain ⟨outcome, heval, hfits⟩ := exists_eval_fits he
  refine ⟨outcome, heval, ?_⟩
  cases hfits with
  | @value v p hkind halpha =>
      refine ⟨fun k hk => Or.inl ⟨v, p, rfl, ?_⟩, fun hnone => ?_, ?_, ?_⟩
      · rw [hkind] at hk
        exact Option.some.inj hk
      · rw [hkind] at hnone
        cases hnone
      · rintro c q ⟨⟩
        exact halpha c rfl
      · rintro hnumbers x ⟨⟩
        cases v with
        | color c =>
            obtain ⟨leaf, hleaf, -⟩ := halpha c rfl
            rw [leftmostColor?, List.findSome?_eq_none_iff.mpr hnumbers] at hleaf
            cases hleaf
        | number n =>
            have hunit : ∀ v ∈ e.leaves, ∀ s, v.unit? = some s → n.unit = some s := by
              intro v hv s hs
              rcases (leaf_of_number hkind v hv).2 with h | h
              · rw [hs] at h
                cases h
              · rw [← h, hs]
            intro v hv w hw s t hs ht
            have heq := (hunit v hv s hs).symm.trans (hunit w hw t ht)
            exact Option.some.inj heq
  | @divisionByZero err herr =>
      exact ⟨fun k _ => Or.inr ⟨err, rfl, herr⟩, fun _ => ⟨err, rfl, Or.inl herr⟩, nofun, nofun⟩
  | @unitMismatch err l r hkind herr =>
      refine ⟨fun k hk => ?_, fun _ => ⟨err, rfl, Or.inr ⟨l, r, herr⟩⟩, nofun, nofun⟩
      rw [hkind] at hk
      cases hk

/-- A translucent color scaled from the left and shifted by an opaque one is a color, and
    has the opacity of the translucent one; without a product in between, it has no
    kind. -/
theorem eval_by_kind_of_scaled_color :
    let glass : Expr := constant (.color ⟨16, 32, 48, 0.5⟩) none
    let white : Expr := constant (.color ⟨255, 255, 255, 1.0⟩) none
    let two : Expr := constant (.number ⟨2.0, none⟩) none
    let scaled : Expr := binary .subtract (binary .multiply two glass none) white none
    let shifted : Expr := binary .subtract (binary .add two glass none) white none
    scaled.IsArithmetic ∧ shifted.IsArithmetic ∧ scaled.kind? = some .color ∧ shifted.kind? = none
      ∧ (∀ c p, (∀ scope, eval 3 scope scaled = .done (constant (.color c) p)) → c.alpha = 0.5)
      ∧ ∃ err, ∀ scope, eval 3 scope shifted = .failed err := by
  intro glass white two scaled shifted
  have hscaled : scaled.IsArithmetic :=
    .binary _ _ (.binary _ _ (.constant _ _) (.constant _ _)) (.constant _ _)
  have hshifted : shifted.IsArithmetic :=
    .binary _ _ (.binary _ _ (.constant _ _) (.constant _ _)) (.constant _ _)
  obtain ⟨x, hx, -, -, halpha, -⟩ := eval_by_kind hscaled
  obtain ⟨y, hy, -, hrefused, -⟩ := eval_by_kind hshifted
  refine ⟨hscaled, hshifted, rfl, rfl, fun c p h => ?_, ?_⟩
  · obtain ⟨leaf, hleaf, heq⟩ :=
      halpha c p ((hx 3 (Nat.le_refl 3) (Scope.root .builtin)).symm.trans (h _))
    cases hleaf
    exact heq
  · obtain ⟨err, rfl, -⟩ := hrefused rfl
    exact ⟨err, hy 3 (Nat.le_refl 3)⟩

end Expr

end Less
