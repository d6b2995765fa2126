import Less.Css
import Less.Proofs.Identifier

/-! # Simple sheets and how they are written

    Two sheets are the same **up to positions** if they are equal without their
    positions (`Sheet.withoutPositions`).

    A sheet is **simple** if it holds rule sets and media blocks only, with
    identifiers for selectors, properties and values (`Sheet.IsSimple`).  A
    written form of it has the marks of the language with gaps between them
    (`Written`), whatever the gaps are: the pretty and the minified form differ
    in their gaps, and in the semicolon after the last declaration. -/

namespace Less

/-! ## Without positions -/

mutual

/-- An expression without its positions. -/
def Expr.withoutPositions : Expr → Expr
  | .constant v _ => .constant v none
  | .literal s _ => .literal s none
  | .var name _ => .var name none
  | .list items _ => .list (exprsWithoutPositions items) none
  | .call name arguments _ => .call name (exprsWithoutPositions arguments) none
  | .access target member _ => .access target member none
  | .binary op left right _ => .binary op left.withoutPositions right.withoutPositions none

/-- Expressions without their positions. -/
def exprsWithoutPositions : List Expr → List Expr
  | [] => []
  | e :: es => e.withoutPositions :: exprsWithoutPositions es

end

/-- A declaration without positions. -/
def Declaration.withoutPositions (d : Declaration) : Declaration :=
  { d with values := d.values.map Expr.withoutPositions, position := none }

/-- A declaration or a call without positions. -/
def Item.withoutPositions : Item → Item
  | declaration d => declaration d.withoutPositions
  | mixin c =>
      mixin { c with arguments := c.arguments.map Expr.withoutPositions, position := none }

/-- The same names bound to other values. -/
def Bindings.mapValues {α β : Type} (f : α → β) (b : Bindings α) : Bindings β where
  entries := b.entries.map fun entry => (entry.1, f entry.2)
  nodup := by
    rw [List.map_map]
    exact b.nodup

/-- Variables without positions. -/
def varsWithoutPositions (vars : Bindings Expr) : Bindings Expr :=
  vars.mapValues Expr.withoutPositions

mutual

/-- An element without the positions in it. -/
def Element.withoutPositions : Element → Element
  | .ruleSet ⟨selectors, params, items, ⟨vars, body⟩, _⟩ =>
      .ruleSet ⟨selectors, params.map (·.mapValues (·.map Expr.withoutPositions)),
        items.map Item.withoutPositions,
        ⟨varsWithoutPositions vars, elementsWithoutPositions body⟩, none⟩
  | .media ⟨mediums, ⟨vars, body⟩, _⟩ =>
      .media ⟨mediums, ⟨varsWithoutPositions vars, elementsWithoutPositions body⟩, none⟩
  | .page ⟨pseudo, items, ⟨vars, body⟩, _⟩ =>
      .page ⟨pseudo, items.map Item.withoutPositions,
        ⟨varsWithoutPositions vars, elementsWithoutPositions body⟩, none⟩
  | .keyframes ⟨keyword, name, ⟨vars, body⟩, _⟩ =>
      .keyframes ⟨keyword, name,
        ⟨varsWithoutPositions vars, elementsWithoutPositions body⟩, none⟩

/-- Elements without the positions in them. -/
def elementsWithoutPositions : List Element → List Element
  | [] => []
  | e :: es => e.withoutPositions :: elementsWithoutPositions es

end

/-- A sheet without the positions in it. -/
def Sheet.withoutPositions (sheet : Sheet) : Sheet :=
  { sheet with container :=
      ⟨varsWithoutPositions sheet.container.vars, elementsWithoutPositions sheet.container.body⟩ }

theorem elementsWithoutPositions_eq_map (es : List Element) :
    elementsWithoutPositions es = es.map Element.withoutPositions := by
  induction es with
  | nil => rfl
  | cons e es ih => rw [elementsWithoutPositions, ih, List.map_cons]

theorem Element.ruleSet_withoutPositions (r : RuleSet) :
    (Element.ruleSet r).withoutPositions =
      .ruleSet ⟨r.selectors, r.params.map (·.mapValues (·.map Expr.withoutPositions)),
        r.items.map Item.withoutPositions,
        ⟨varsWithoutPositions r.container.vars, elementsWithoutPositions r.container.body⟩,
        none⟩ := by
  obtain ⟨selectors, params, items, ⟨vars, body⟩, p⟩ := r
  rw [Element.withoutPositions]

theorem Element.media_withoutPositions (m : Media) :
    (Element.media m).withoutPositions = .media ⟨m.mediums,
      ⟨varsWithoutPositions m.container.vars, elementsWithoutPositions m.container.body⟩,
      none⟩ := by
  obtain ⟨mediums, ⟨vars, body⟩, p⟩ := m
  rw [Element.withoutPositions]

/-! ## Simple sheets -/

open Parse Text

/-- Words as the values of a declaration have them: literals with single spaces
    between them. -/
def literalsOf (words : List String) : List Expr :=
  (words.intersperse " ").map fun s => .literal s none

/-- Words, each with a space before it. -/
def spacedWords (words : List String) : List Char :=
  words.flatMap fun w => ' ' :: w.toList

theorem length_le_spacedWords (words : List String) :
    words.length ≤ (spacedWords words).length := by
  induction words with
  | nil => exact Nat.le_refl 0
  | cons w words ih =>
      rw [spacedWords, List.flatMap_cons, List.length_append, List.length_cons, List.length_cons]
      have : words.length ≤ (words.flatMap fun w => ' ' :: w.toList).length := ih
      omega

/-- The literals of words: the first, and the others with spaces before them. -/
theorem literalsOf_cons (w : String) (words : List String) : literalsOf (w :: words) =
    .literal w none :: words.flatMap fun w => [.literal " " none, .literal w none] := by
  induction words generalizing w with
  | nil => rfl
  | cons v words ih =>
      have h := ih v
      rw [literalsOf] at h
      rw [literalsOf, List.intersperse_cons_cons, List.map_cons, List.map_cons, h]
      rfl

/-- Expressions that are literals up to positions are written as these. -/
theorem textOfAll_of_literals {values : List Expr} {texts : List String}
    (h : values.map Expr.withoutPositions = texts.map fun s => .literal s none) :
    (Expr.textOfAll values).toList = texts.flatMap String.toList := by
  induction values generalizing texts with
  | nil =>
      cases texts with
      | nil => rfl
      | cons s texts => cases h
  | cons e values ih =>
      cases texts with
      | nil => cases h
      | cons s texts =>
          rw [List.map_cons, List.map_cons, List.cons.injEq] at h
          have htext : e.text = s := by
            cases e with
            | literal s' p => cases h.1; rfl
            | _ => cases h.1
          rw [Expr.textOfAll, String.toList_append, ih h.2, htext, List.flatMap_cons]

/-- **The value of a simple declaration** is written as its words with single
    spaces between them. -/
theorem Declaration.valueText_eq {d : Declaration} {w : String} {words : List String}
    (h : d.values.map Expr.withoutPositions = literalsOf (w :: words)) :
    d.valueText.toList = w.toList ++ spacedWords words := by
  have htexts : ∀ (w : String) (words : List String),
      ((w :: words).intersperse " ").flatMap String.toList = w.toList ++ spacedWords words := by
    intro w words
    induction words generalizing w with
    | nil => rfl
    | cons v words ih =>
        rw [List.intersperse_cons_cons, List.flatMap_cons, List.flatMap_cons, ih v]
        rfl
  rw [Declaration.valueText, textOfAll_of_literals h, htexts]

/-- The property is an identifier, and so are the words of the value. -/
structure Declaration.IsSimple (d : Declaration) : Prop where
  property : isIdentifier d.property.toList = true
  values : ∃ words : List String, words ≠ [] ∧ (∀ w ∈ words, isIdentifier w.toList = true) ∧
    d.values.map Expr.withoutPositions = literalsOf words

/-- A rule set with selectors and simple declarations, and nothing else. -/
structure RuleSet.IsSimple (r : RuleSet) : Prop where
  selectors_ne_nil : r.selectors ≠ []
  selectors : ∀ s ∈ r.selectors, isSimpleSelector s.text.toList = true
  params : r.params = none
  items_ne_nil : r.items ≠ []
  items : ∀ i ∈ r.items, ∃ d, i = .declaration d ∧ d.IsSimple
  container : r.container = .empty

/-- Elements of one kind are the values of that kind. -/
theorem eq_map_filterMap {α β : Type} (f : α → Option β) (g : β → α) (hf : ∀ b, f (g b) = some b)
    {P : β → Prop} {as : List α} (h : ∀ a ∈ as, ∃ b, a = g b ∧ P b) :
    as = (as.filterMap f).map g ∧ ∀ b ∈ as.filterMap f, P b := by
  induction as with
  | nil => exact ⟨rfl, nofun⟩
  | cons a as ih =>
      obtain ⟨⟨b, rfl, hb⟩, has⟩ := List.forall_mem_cons.mp h
      obtain ⟨heq, hall⟩ := ih has
      rw [List.filterMap_cons_some (hf b), List.map_cons, ← heq]
      exact ⟨rfl, List.forall_mem_cons.mpr ⟨hb, hall⟩⟩

/-- The items of a simple rule set are its declarations. -/
theorem RuleSet.IsSimple.items_eq {r : RuleSet} (hr : r.IsSimple) :
    r.items = r.declarations.map .declaration ∧ ∀ d ∈ r.declarations, d.IsSimple :=
  eq_map_filterMap Item.declaration? .declaration (fun _ => rfl) hr.items

theorem RuleSet.IsSimple.declarations_ne_nil {r : RuleSet} (hr : r.IsSimple) :
    r.declarations ≠ [] := by
  intro hnil
  have hitems := hr.items_eq.1
  rw [hnil] at hitems
  exact hr.items_ne_nil hitems

theorem RuleSet.IsSimple.isMixin_eq {r : RuleSet} (hr : r.IsSimple) : r.isMixin = false := by
  rw [RuleSet.isMixin, hr.params]
  rfl

/-- A media block with identifiers that holds simple rule sets, and nothing
    else. -/
structure Media.IsSimple (m : Media) : Prop where
  mediums_ne_nil : m.mediums ≠ []
  mediums : ∀ s ∈ m.mediums, isIdentifier s.toList = true
  vars : m.container.vars = .empty
  body_ne_nil : m.container.body ≠ []
  body : ∀ e ∈ m.container.body, ∃ r, e = .ruleSet r ∧ r.IsSimple

/-- The elements of a simple media block are its rule sets. -/
theorem Media.IsSimple.body_eq {m : Media} (hm : m.IsSimple) :
    m.container.body = m.container.childRuleSets.map .ruleSet ∧
      ∀ r ∈ m.container.childRuleSets, r.IsSimple :=
  eq_map_filterMap Element.ruleSet? .ruleSet (fun _ => rfl) hm.body

theorem Media.IsSimple.childRuleSets_ne_nil {m : Media} (hm : m.IsSimple) :
    m.container.childRuleSets ≠ [] := by
  intro hnil
  have hbody := hm.body_eq.1
  rw [hnil] at hbody
  exact hm.body_ne_nil hbody

/-- A simple rule set or a simple media block. -/
inductive Element.IsSimple : Element → Prop where
  | ruleSet {r : RuleSet} (hr : r.IsSimple) : IsSimple (.ruleSet r)
  | media {m : Media} (hm : m.IsSimple) : IsSimple (.media m)

/-- Simple elements, and nothing else. -/
structure Sheet.IsSimple (sheet : Sheet) : Prop where
  charset : sheet.charset = none
  imports : sheet.imports = []
  vars : sheet.container.vars = .empty
  body : ∀ e ∈ sheet.container.body, e.IsSimple

/-! ## Written forms -/

namespace Written

/-- `!important`, if the declaration is, with a gap before it. -/
def importance (d : Declaration) (g : List Char) : List Char :=
  if d.important then g ++ "!important".toList else []

/-- A declaration up to its end. -/
inductive Declared (d : Declaration) : List Char → Prop where
  | intro {g g' : List Char} (hg : Gap g) (hg' : Gap g') :
      Declared d (d.property.toList ++ ':' :: (g ++ (d.valueText.toList ++ importance d g')))

/-- Declarations up to the closing brace; the semicolon of the last one may be
    missing. -/
inductive Declarations : List Declaration → List Char → Prop where
  | done {g : List Char} (hg : Gap g) : Declarations [] (g ++ ['}'])
  | last {d : Declaration} {g cs : List Char} (hg : Gap g) (hd : Declared d cs) :
      Declarations [d] (g ++ (cs ++ ['}']))
  | next {d : Declaration} {ds : List Declaration} {g cs rest : List Char} (hg : Gap g)
      (hd : Declared d cs) (hds : Declarations ds rest) :
      Declarations (d :: ds) (g ++ (cs ++ ';' :: rest))

/-- A rule set. -/
inductive Rule (r : RuleSet) : List Char → Prop where
  | intro {g g' cs : List Char} (hg : Gap g) (hg' : Gap g') (hds : Declarations r.declarations cs) :
      Rule r (joined g (r.selectors.map fun s => s.text.toList) ++ (g' ++ '{' :: cs))

/-- Rule sets up to the closing brace around them. -/
inductive Rules : List RuleSet → List Char → Prop where
  | done {g : List Char} (hg : Gap g) : Rules [] (g ++ ['}'])
  | next {r : RuleSet} {rs : List RuleSet} {g cs rest : List Char} (hg : Gap g) (hr : Rule r cs)
      (hrs : Rules rs rest) : Rules (r :: rs) (g ++ (cs ++ rest))

/-- A rule set or a media block. -/
inductive Block : Element → List Char → Prop where
  | ruleSet {r : RuleSet} {cs : List Char} (hr : Rule r cs) : Block (.ruleSet r) cs
  | media {m : Media} {g g' cs : List Char} (hg : Gap g) (hg' : Gap g')
      (hrs : Rules m.container.childRuleSets cs) :
      Block (.media m)
        ("@media ".toList ++ (joined g (m.mediums.map String.toList) ++ (g' ++ '{' :: cs)))

/-- Elements up to the end of the text. -/
inductive Blocks : List Element → List Char → Prop where
  | done {g : List Char} (hg : Gap g) : Blocks [] g
  | next {e : Element} {es : List Element} {g cs rest : List Char} (hg : Gap g) (he : Block e cs)
      (hes : Blocks es rest) : Blocks (e :: es) (g ++ (cs ++ rest))

end Written

end Less
