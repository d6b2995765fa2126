import Less.Eval
import Less.Proofs.Kind
import Less.Proofs.Word

/-! # Operations written without parentheses

    An operation on words stays an operation when it is evaluated, and it is written
    with its operator between its operands and with no parentheses.  So its text has
    the words and the operators of the tree in their order, and nothing of its shape.

    The text is read as the one tree with these words and operators in this order that
    is **grouped** by the precedence of its operators (`Expr.isGrouped`): no left
    operand has a lower precedence than the operator, no right operand a lower or equal
    one.  `Expr.regroup` computes it from the tree that was written.  Each tree that is
    grouped already comes back as it was, and no other tree does. -/

namespace Less

theorem Operator.precedence_lt_three (op : Operator) : op.precedence < 3 := by
  cases op <;> decide

namespace Expr

/-- **A tree of operations on words**, none of which names a color. -/
inductive IsWordTree : Expr → Prop where
  | word {w : String} (p : Option Position) (hw : Parse.isWord w.toList = true)
      (hcolor : Color.keyword? w = none) : IsWordTree (literal w p)
  | binary (op : Operator) {left right : Expr} (p : Option Position) (hleft : IsWordTree left)
      (hright : IsWordTree right) : IsWordTree (binary op left right p)

/-- **Grouped by precedence**: no operand needs parentheses. -/
def isGrouped : Expr → Bool
  | binary op left right _ =>
      op.precedence ≤ left.precedence && op.precedence < right.precedence
        && left.isGrouped && right.isGrouped
  | _ => true

/-- An operator and its right operand behind a grouped tree: what they are put behind is
    the part of the tree that binds at least as tightly as the operator. -/
def push (op : Operator) (right : Expr) : Expr → Expr
  | binary op' l r p =>
      if op'.precedence < op.precedence then binary op' l (push op right r) none
      else binary op (binary op' l r p) right none
  | e => binary op e right none

/-- An operator and the words and operators of its right operand behind a grouped
    tree. -/
def follow (left : Expr) (op : Operator) : Expr → Expr
  | binary op' l r _ => follow (follow left op l) op' r
  | e => push op e.withoutPositions left

/-- **The words and operators of a tree, grouped by precedence.** -/
def regroup : Expr → Expr
  | binary op left right _ => follow left.regroup op right
  | e => e.withoutPositions

/-! ## The text of an operation -/

/-- An operator between two texts. -/
def infixText (op : Operator) (left right : String) : String :=
  left ++ " " ++ String.singleton op.symbol ++ " " ++ right

variable {op op' : Operator} {l r t e : Expr} {p : Option Position}

theorem text_binary : (binary op l r p).text = infixText op l.text r.text := by
  rw [text, infixText]

theorem infixText_assoc (op op' : Operator) (a b c : String) :
    infixText op' (infixText op a b) c = infixText op a (infixText op' b c) := by
  simp only [infixText, String.append_assoc]

theorem text_push : (push op r t).text = infixText op t.text r.text := by
  fun_induction push op r t with
  | case1 op' l r' p h ih => rw [text_binary, ih, text_binary, infixText_assoc]
  | case2 => rw [text_binary]
  | case3 => rw [text_binary]

theorem isSeparator_withoutPositions (e : Expr) :
    e.withoutPositions.isSeparator = e.isSeparator := by
  cases e <;> rfl

mutual

/-- **The text of an expression does not depend on its positions.** -/
theorem text_withoutPositions : ∀ e : Expr, e.withoutPositions.text = e.text
  | constant _ _ | literal _ _ | var _ _ | access _ _ _ => rfl
  | list items _ => by
      rw [withoutPositions, text, text, textOfAll_withoutPositions items]
  | call name arguments _ => by
      rw [withoutPositions, text, text, argumentTexts_withoutPositions arguments]
  | binary op left right _ => by
      rw [withoutPositions, text_binary, text_binary, text_withoutPositions left,
        text_withoutPositions right]

theorem textOfAll_withoutPositions :
    ∀ es : List Expr, textOfAll (exprsWithoutPositions es) = textOfAll es
  | [] => rfl
  | e :: es => by
      rw [exprsWithoutPositions, textOfAll, textOfAll, text_withoutPositions e,
        textOfAll_withoutPositions es]

theorem argumentTexts_withoutPositions :
    ∀ es : List Expr, argumentTexts (exprsWithoutPositions es) = argumentTexts es
  | [] => rfl
  | e :: es => by
      rw [exprsWithoutPositions, argumentTexts, argumentTexts, isSeparator_withoutPositions,
        text_withoutPositions e, argumentTexts_withoutPositions es]

end

theorem IsWordTree.text_follow (he : e.IsWordTree) :
    ∀ t op, (follow t op e).text = infixText op t.text e.text := by
  induction he with
  | word => exact fun t op => text_push
  | binary op' p _ _ ihl ihr =>
      intro t op
      rw [follow, ihr, ihl, text_binary, infixText_assoc]

/-- **Regrouping does not change the text.** -/
theorem IsWordTree.text_regroup (he : e.IsWordTree) : e.regroup.text = e.text := by
  induction he with
  | word => rfl
  | binary op p _ hr ihl _ => rw [regroup, hr.text_follow, ihl, text_binary]

/-! ## Regrouped trees are grouped -/

theorem isGrouped_binary : (binary op l r p).isGrouped = true ↔
    op.precedence ≤ l.precedence ∧ op.precedence < r.precedence
      ∧ l.isGrouped = true ∧ r.isGrouped = true := by
  simp only [isGrouped, Bool.and_eq_true, decide_eq_true_eq, and_assoc]

theorem precedence_of_leaf (h : ∀ op l r p, e ≠ binary op l r p) : e.precedence = 3 := by
  cases e with
  | binary op l r p => exact absurd rfl (h op l r p)
  | constant | literal | var | list | call | access => rfl

/-- What is no operation binds more tightly than every operator. -/
theorem precedence_le_of_leaf (op : Operator) (h : ∀ op l r p, e ≠ binary op l r p) :
    op.precedence ≤ e.precedence := by
  rw [precedence_of_leaf h]
  exact Nat.le_of_lt op.precedence_lt_three

theorem precedence_push : (push op r t).precedence = min op.precedence t.precedence := by
  fun_induction push op r t with
  | case1 op' l b p h ih =>
      rw [precedence, precedence]
      omega
  | case2 op' l b p h =>
      rw [precedence, precedence]
      omega
  | case3 t h =>
      exact (Nat.min_eq_left (precedence_le_of_leaf op (h · · · · ·))).symm

theorem isGrouped_push (ht : t.isGrouped = true) (hr : r.isGrouped = true)
    (hlt : op.precedence < r.precedence) : (push op r t).isGrouped = true := by
  fun_induction push op r t with
  | case1 op' l b p h ih =>
      obtain ⟨hle, hb, hl, hgrouped⟩ := isGrouped_binary.mp ht
      refine isGrouped_binary.mpr ⟨hle, ?_, hl, ih hgrouped⟩
      rw [precedence_push]
      omega
  | case2 op' l b p h => exact isGrouped_binary.mpr ⟨Nat.not_lt.mp h, hlt, ht, hr⟩
  | case3 t h =>
      exact isGrouped_binary.mpr ⟨precedence_le_of_leaf op (h · · · · ·), hlt, ht, hr⟩

theorem IsWordTree.isGrouped_follow (he : e.IsWordTree) :
    ∀ {t : Expr} (op : Operator), t.isGrouped = true → (follow t op e).isGrouped = true := by
  induction he with
  | word p => exact fun op ht => isGrouped_push ht rfl op.precedence_lt_three
  | binary op' p _ _ ihl ihr => exact fun op ht => ihr op' (ihl op ht)

/-- **What is regrouped is grouped.** -/
theorem IsWordTree.isGrouped_regroup (he : e.IsWordTree) : e.regroup.isGrouped = true := by
  induction he with
  | word => rfl
  | binary op p _ hr ihl _ => exact hr.isGrouped_follow op ihl

/-! ## Grouped trees are left as they are -/

theorem push_of_le (h : op.precedence ≤ t.precedence) : push op r t = binary op t r none := by
  fun_cases push op r t with
  | case1 op' l b p hlt => exact absurd h (Nat.not_le.mpr hlt)
  | case2 => rfl
  | case3 => rfl

/-- An operator that binds more tightly takes the right operand of the one before. -/
theorem push_push (hlt : op.precedence < op'.precedence) (hle : op'.precedence ≤ l.precedence) :
    push op' r (push op l t) = push op (binary op' l r none) t := by
  fun_induction push op l t with
  | case1 o a b p h ih => rw [push, if_pos (Nat.lt_trans h hlt), ih, push, if_pos h]
  | case2 o a b p h => rw [push, if_pos hlt, push_of_le hle, push, if_neg h]
  | case3 t h =>
      rw [push, if_pos hlt, push_of_le hle, push_of_le (precedence_le_of_leaf op (h · · · · ·))]

theorem precedence_withoutPositions (e : Expr) : e.withoutPositions.precedence = e.precedence := by
  cases e <;> rfl

theorem isGrouped_withoutPositions (e : Expr) : e.withoutPositions.isGrouped = e.isGrouped := by
  fun_induction isGrouped e with
  | case1 op l r p ihl ihr =>
      rw [withoutPositions, isGrouped, precedence_withoutPositions, precedence_withoutPositions,
        ihl, ihr]
  | case2 e h =>
      cases e with
      | binary op l r p => exact absurd rfl (h op l r p)
      | constant | literal | var | list | call | access => rfl

/-- What follows an operator and binds more tightly is its right operand. -/
theorem IsWordTree.follow_of_isGrouped (he : e.IsWordTree) :
    ∀ {t : Expr} {op : Operator}, e.isGrouped = true → op.precedence < e.precedence →
      follow t op e = push op e.withoutPositions t := by
  induction he with
  | word => exact fun _ _ => rfl
  | @binary op' l r p _ _ ihl ihr =>
      intro t op hgrouped hlt
      obtain ⟨hle, hr, hgl, hgr⟩ := isGrouped_binary.mp hgrouped
      rw [follow, ihl hgl (Nat.lt_of_lt_of_le hlt hle), ihr hgr hr, withoutPositions]
      refine push_push hlt ?_
      rw [precedence_withoutPositions]
      exact hle

/-- **A grouped tree is regrouped to itself.** -/
theorem IsWordTree.regroup_of_isGrouped (he : e.IsWordTree) (hgrouped : e.isGrouped = true) :
    e.regroup = e.withoutPositions := by
  induction he with
  | word => rfl
  | binary op p _ hr ihl _ =>
      obtain ⟨hle, hlt, hgl, hgr⟩ := isGrouped_binary.mp hgrouped
      rw [regroup, ihl hgl, hr.follow_of_isGrouped hgr hlt, withoutPositions]
      refine push_of_le ?_
      rw [precedence_withoutPositions]
      exact hle

/-- **A tree is regrouped to itself exactly if it is grouped.** -/
theorem IsWordTree.regroup_eq_iff (he : e.IsWordTree) :
    e.regroup = e.withoutPositions ↔ e.isGrouped = true := by
  refine ⟨fun h => ?_, he.regroup_of_isGrouped⟩
  rw [← isGrouped_withoutPositions, ← h]
  exact he.isGrouped_regroup

theorem withoutPositions_push :
    (push op r t).withoutPositions = push op r.withoutPositions t.withoutPositions := by
  fun_induction push op r t with
  | case1 op' l b p h ih => rw [withoutPositions, ih, withoutPositions, push, if_pos h]
  | case2 op' l b p h => rw [withoutPositions, withoutPositions, push, if_neg h]
  | case3 t h =>
      refine (push_of_le ?_).symm
      rw [precedence_withoutPositions]
      exact precedence_le_of_leaf op (h · · · · ·)

theorem IsWordTree.withoutPositions_follow (he : e.IsWordTree) :
    ∀ t op, (follow t op e).withoutPositions = follow t.withoutPositions op e := by
  induction he with
  | word => exact fun t op => withoutPositions_push
  | binary op' p _ _ ihl ihr =>
      intro t op
      rw [follow, ihr, ihl, follow]

/-- A regrouped tree has no positions. -/
theorem IsWordTree.withoutPositions_regroup (he : e.IsWordTree) :
    e.regroup.withoutPositions = e.regroup := by
  induction he with
  | word => rfl
  | binary op p _ hr ihl _ => rw [regroup, hr.withoutPositions_follow, ihl]

/-- Regrouping keeps the words. -/
theorem IsWordTree.push {r t : Expr} (hr : r.IsWordTree) (ht : t.IsWordTree) :
    (push op r t).IsWordTree := by
  induction ht with
  | word p hw hcolor => exact .binary op none (.word p hw hcolor) hr
  | binary op' p hl hb ihl ihb =>
      rw [Expr.push]
      split
      · exact .binary op' none hl ihb
      · exact .binary op none (.binary op' p hl hb) hr

theorem IsWordTree.follow (he : e.IsWordTree) :
    ∀ {t : Expr} (op : Operator), t.IsWordTree → (follow t op e).IsWordTree := by
  induction he with
  | word p hw hcolor => exact fun op ht => IsWordTree.push (.word none hw hcolor) ht
  | binary op' p _ _ ihl ihr => exact fun op ht => ihr op' (ihl op ht)

theorem IsWordTree.regroup (he : e.IsWordTree) : e.regroup.IsWordTree := by
  induction he with
  | word p hw hcolor => exact .word none hw hcolor
  | binary op p _ hr ihl _ => exact hr.follow op ihl

/-! ## Evaluation -/

/-- An operation on words is not computed: what is no constant stays as it is. -/
theorem IsWordTree.constant?_eq_none (he : e.IsWordTree) : e.constant? = none := by
  cases he with
  | @word w p hw hcolor =>
      have htrim : trimText w = w := by
        rw [trimText, Text.trim_of_tight (Parse.tight_of_isWord hw), String.ofList_toList]
      rw [constant?, htrim, hcolor]
      rfl
  | binary => rfl

theorem IsWordTree.eval (he : e.IsWordTree) :
    ∀ n, e.height ≤ n → ∀ scope, eval n scope e = .done e := by
  induction he with
  | word p hw hcolor =>
      intro n hn scope
      obtain ⟨n, rfl⟩ := Nat.exists_eq_succ_of_ne_zero (Nat.ne_zero_of_lt hn)
      rfl
  | @binary op left right p hl hr ihl ihr =>
      intro n hn scope
      rw [height] at hn
      obtain ⟨n, rfl⟩ := Nat.exists_eq_succ_of_ne_zero (Nat.ne_zero_of_lt hn)
      have happly : applyTo op left right p = .ok (.binary op left right p) := by
        rw [applyTo, hl.constant?_eq_none]
      rw [Expr.eval, ihl n (by omega), ihr n (by omega)]
      exact congrArg Evaluation.ofExcept happly

end Expr

namespace Parse

open Cursor Less.Expr

variable {stops rest : List Char} {depth : Nat} {gap : Bool} {e : Expr}

/-! ## Grouped trees are read as they are written -/

theorem toList_text_binary (op : Operator) (left right : Expr) (p : Option Position) :
    (binary op left right p).text.toList =
      left.text.toList ++ ' ' :: op.symbol :: ' ' :: right.text.toList := by
  rw [text_binary, infixText]
  simp

/-- **The text of a grouped tree spells it**, by induction on the tree. -/
theorem readsAs_of_isGrouped (hstops : IsStops stops) (he : e.IsWordTree) :
    e.isGrouped = true → ∀ (gap : Bool) (depth : Nat) {rest : List Char}, EndsWord rest →
      ReadsAs stops depth depth (gapText gap ++ e.text.toList) rest
        (Spells e.precedence gap e) := by
  induction he with
  | @word w p hw _ =>
      intro _ gap depth rest hrest
      refine (readsAs_word hstops hw hrest gap depth).imp ?_
      rintro ts ⟨q, rfl⟩
      exact spells_word w p q
  | @binary op left right p _ _ ihl ihr =>
      intro hgrouped gap depth rest hrest
      obtain ⟨hle, hlt, hgl, hgr⟩ := isGrouped_binary.mp hgrouped
      rw [toList_text_binary, ← List.append_assoc]
      have hspace : EndsWord (' ' :: op.symbol :: ' ' :: (right.text.toList ++ rest)) :=
        ⟨rfl, by simp⟩
      have hleft := (ihl hgl gap depth hspace).imp fun _ h => h.of_le hle
      have hright := (ihr hgr true depth hrest).imp fun _ h => h.of_le hlt
      exact readsAs_operation hstops hleft hright p

/-- **AN OPERATION ON WORDS COMES BACK GROUPED BY PRECEDENCE.**  Evaluation leaves it as
    it is.  Its text up to a semicolon is read as one item, the tree regrouped: grouped
    by precedence, with the same text.  It is the tree that was written, up to
    positions, if and only if no operand needs parentheses. -/
theorem value_of_text (hstops : IsStops stops) (hend : ';' ∈ stops) (he : e.IsWordTree)
    (rest : List Char) (p : Position) :
    (∀ n, e.height ≤ n → ∀ scope, eval n scope e = .done e)
      ∧ Gives (Cursor.value ⟨e.text.toList ++ ';' :: rest, p⟩ stops) (';' :: rest)
        fun value => value.important = false ∧ ∃ item : Expr, value.items = [item]
          ∧ item.withoutPositions = e.regroup ∧ item.isGrouped = true ∧ item.text = e.text
          ∧ (item.withoutPositions = e.withoutPositions ↔ e.isGrouped = true) := by
  refine ⟨he.eval, ?_⟩
  have hspells : ReadsAs stops 0 0 e.regroup.text.toList (';' :: rest)
      (Spells e.regroup.precedence false e.regroup) :=
    readsAs_of_isGrouped hstops he.regroup he.isGrouped_regroup false 0 ⟨rfl, by simp⟩
  rw [he.text_regroup] at hspells
  obtain ⟨value, q, hread, himportant, item, hitems, hitem⟩ := value_of_readsAs
    (hspells.imp fun _ h => h.of_le (precedence_bounds e.regroup).1)
    (endsValue_semicolon hend rest) p
  refine ⟨value, q, hread, himportant, item, hitems, ?_, ?_, ?_, ?_⟩
  · rw [hitem, he.withoutPositions_regroup]
  · rw [← isGrouped_withoutPositions, hitem, isGrouped_withoutPositions]
    exact he.isGrouped_regroup
  · rw [← text_withoutPositions, hitem, text_withoutPositions, he.text_regroup]
  · rw [hitem, he.withoutPositions_regroup, he.regroup_eq_iff]

/-- A product with a sum on its left comes back as a sum with a product on its right. -/
theorem value_of_text_of_product :
    let word (w : String) : Expr := .literal w none
    let sum := binary .add (word "größe") (word "-b") none
    let e := binary .multiply sum (word "c_1") none
    IsStops statementStops ∧ ';' ∈ statementStops ∧ e.IsWordTree ∧ e.isGrouped = false
      ∧ e.text = "größe + -b * c_1"
      ∧ Gives (Cursor.value ⟨e.text.toList ++ [';'], .start⟩ statementStops) [';']
        fun value => value.items.map withoutPositions =
          [binary .add (word "größe") (binary .multiply (word "-b") (word "c_1") none) none] := by
  intro word sum e
  have he : e.IsWordTree := .binary _ _
    (.binary _ _ (.word _ (by decide +kernel) (by decide +kernel))
      (.word _ (by decide +kernel) (by decide +kernel)))
    (.word _ (by decide +kernel) (by decide +kernel))
  have hstops : IsStops statementStops := fun c hc => List.mem_append_left _ hc
  refine ⟨hstops, by decide, he, rfl, rfl, ?_⟩
  obtain ⟨value, p, hread, -, item, hitems, hitem, -⟩ :=
    (value_of_text hstops (by decide) he [] .start).2
  refine ⟨value, p, hread, ?_⟩
  show value.items.map withoutPositions = _
  rw [hitems, List.map_singleton, hitem]
  rfl

/-- **Parentheses are lost**: a product with a sum on its left is left as it is by
    evaluation, and its text is read as another tree. -/
theorem product_of_sum_is_read_as_sum :
    let word (w : String) : Expr := .literal w none
    let e := binary .multiply (binary .add (word "a") (word "b") none) (word "c") none
    let read := binary .add (word "a") (binary .multiply (word "b") (word "c") none) none
    e.IsWordTree ∧ (∀ scope, eval 3 scope e = .done e) ∧ e.text = "a + b * c" ∧ read ≠ e
      ∧ Gives (Cursor.value ⟨"a + b * c;".toList, .start⟩ statementStops) [';']
        fun value => value.items.map withoutPositions = [read] := by
  intro word e read
  have he : e.IsWordTree := .binary _ _
    (.binary _ _ (.word _ (by decide +kernel) (by decide +kernel))
      (.word _ (by decide +kernel) (by decide +kernel)))
    (.word _ (by decide +kernel) (by decide +kernel))
  refine ⟨he, he.eval 3 (Nat.le_refl 3), rfl, fun h => ?_, _, _, rfl, rfl⟩
  injection h with hop
  cases hop

end Parse

end Less
