import Less.Proofs.InOrder
import Mathlib.Data.List.Flatten

/-! # The pieces of a sheet

    Resolving a sheet without mixin calls evaluates the values of its variables and the
    pieces of its declarations, at any depth, except those in the definitions of mixins
    and in the rule sets of pages.  These are the **pieces** of the sheet
    (`Container.pieces`), in the order in which they are evaluated; the variables among
    them are its **definitions** (`Container.definitions`).

    Reading a sheet gives every piece positions of its own: **no two pieces of a sheet
    have a position in common** (`Sheet.pieces_apart`).  Each reader of a block leaves
    the pieces it reads spread over the text it passes (`Spans`); a block keeps them in
    another order, and leaves out those of variables that are set again
    (`pieces_ofEntries`). -/

namespace Less

/-! ## Pieces -/

/-- The pieces of the declarations among the items. -/
def piecesOfItems (items : List Item) : List Expr :=
  (items.filterMap Item.declaration?).flatMap Declaration.values

theorem piecesOfItems_append (items more : List Item) :
    piecesOfItems (items ++ more) = piecesOfItems items ++ piecesOfItems more := by
  rw [piecesOfItems, List.filterMap_append, List.flatMap_append]
  rfl

/-- The element is a rule set. -/
def Element.isRuleSet : Element → Bool
  | .ruleSet _ => true
  | .media _ | .page _ | .keyframes _ => false

mutual

/-- The element and the elements inside it that are resolved: the nested rule sets of a
    rule set, and all elements of a block.  Those of a page are not, and the definition
    of a mixin is not resolved itself. -/
def Element.resolved : Element → List Element
  | .ruleSet ⟨selectors, params, items, c, p⟩ =>
      if (Element.ruleSet ⟨selectors, params, items, c, p⟩).isDefinition then []
      else .ruleSet ⟨selectors, params, items, c, p⟩ :: c.resolvedAmong Element.isRuleSet
  | .media ⟨mediums, c, p⟩ => .media ⟨mediums, c, p⟩ :: c.resolvedAmong fun _ => true
  | .page p => [.page p]
  | .keyframes ⟨keyword, name, c, p⟩ =>
      .keyframes ⟨keyword, name, c, p⟩ :: c.resolvedAmong fun _ => true

/-- The elements that are resolved with the chosen elements of a container. -/
def Container.resolvedAmong (chosen : Element → Bool) : Container → List Element
  | ⟨_, body⟩ => resolvedOf chosen body

/-- The elements that are resolved with the chosen ones. -/
def resolvedOf (chosen : Element → Bool) : List Element → List Element
  | [] => []
  | e :: es => (if chosen e then e.resolved else []) ++ resolvedOf chosen es

end

theorem Container.resolvedAmong_eq (chosen : Element → Bool) (c : Container) :
    c.resolvedAmong chosen = (c.body.filter chosen).flatMap Element.resolved := by
  obtain ⟨vars, body⟩ := c
  rw [resolvedAmong]
  induction body with
  | nil => rw [resolvedOf]; rfl
  | cons e es ih =>
      rw [resolvedOf, ih, List.filter_cons]
      cases chosen e with
      | true => rfl
      | false => rfl

namespace Element

theorem resolved_of_isDefinition {e : Element} (h : e.isDefinition = true) : e.resolved = [] := by
  cases e with
  | ruleSet r =>
      cases r
      rw [resolved, if_pos h]
  | media | page | keyframes => cases h

theorem resolved_ruleSet {r : RuleSet} (h : r.isMixin = false) :
    (ruleSet r).resolved = ruleSet r :: r.container.resolvedAmong isRuleSet := by
  cases r
  rw [resolved, if_neg (by rw [isDefinition, h]; decide)]

theorem resolved_of_isBlock {e : Element} (h : e.isBlock = true) :
    e.resolved = e :: e.container.resolvedAmong fun _ => true := by
  cases e with
  | media m => cases m; rw [resolved]; rfl
  | keyframes k => cases k; rw [resolved]; rfl
  | ruleSet | page => cases h

/-- The expressions that are evaluated for an element outside the elements in it. -/
def ownPieces (e : Element) : List Expr :=
  e.container.values ++ piecesOfItems e.items

/-- The expressions that are evaluated for an element and the elements inside it. -/
def pieces (e : Element) : List Expr :=
  e.resolved.flatMap ownPieces

/-- The variables of an element and of the elements inside it. -/
def definitions (e : Element) : List (String × Expr) :=
  e.resolved.flatMap fun x => x.container.vars.entries

end Element

namespace Container

/-- The expressions that are evaluated for a container. -/
def pieces (c : Container) : List Expr :=
  c.values ++ c.body.flatMap Element.pieces

/-- The variables of a container and of the elements inside it. -/
def definitions (c : Container) : List (String × Expr) :=
  c.vars.entries ++ c.body.flatMap Element.definitions

end Container

namespace Element

/-- What a rule set and its nested rule sets have. -/
theorem flatMap_resolved_ruleSet {α : Type} (f : Element → List α) {r : RuleSet}
    (h : r.isMixin = false) :
    (ruleSet r).resolved.flatMap f = f (ruleSet r) ++
      (r.container.body.filter isRuleSet).flatMap fun e => e.resolved.flatMap f := by
  rw [resolved_ruleSet h, List.flatMap_cons, Container.resolvedAmong_eq, List.flatMap_assoc]

/-- What a block and its elements have. -/
theorem flatMap_resolved_of_isBlock {α : Type} (f : Element → List α) {e : Element}
    (h : e.isBlock = true) :
    e.resolved.flatMap f = f e ++ e.container.body.flatMap fun e => e.resolved.flatMap f := by
  rw [resolved_of_isBlock h, List.flatMap_cons, Container.resolvedAmong_eq, List.flatMap_assoc,
    List.filter_true]

theorem pieces_of_isDefinition {e : Element} (h : e.isDefinition = true) : e.pieces = [] := by
  rw [pieces, resolved_of_isDefinition h, List.flatMap_nil]

theorem pieces_ruleSet {r : RuleSet} (h : r.isMixin = false) :
    (ruleSet r).pieces =
      (ruleSet r).ownPieces ++ (r.container.body.filter isRuleSet).flatMap pieces :=
  flatMap_resolved_ruleSet ownPieces h

theorem pieces_page (p : Page) : (page p).pieces = (page p).ownPieces := by
  rw [pieces, resolved, List.flatMap_singleton]

/-- The pieces of a block are those of its container. -/
theorem pieces_of_isBlock {e : Element} (h : e.isBlock = true) : e.pieces = e.container.pieces := by
  have hitems : e.items = [] := by
    cases e with
    | media | keyframes => rfl
    | ruleSet | page => cases h
  rw [pieces, flatMap_resolved_of_isBlock ownPieces h, ownPieces, hitems]
  exact congrArg (· ++ _) (List.append_nil _)

/-- An element has no pieces but those of its items and its container. -/
theorem pieces_subperm (e : Element) :
    e.pieces.Subperm (piecesOfItems e.items ++ e.container.pieces) := by
  have hown : (e.ownPieces ++ e.container.body.flatMap pieces).Perm
      (piecesOfItems e.items ++ e.container.pieces) := by
    rw [ownPieces, Container.pieces, ← List.append_assoc]
    exact .append_right _ List.perm_append_comm
  refine List.Subperm.trans (List.Sublist.subperm ?_) hown.subperm
  cases e with
  | ruleSet r =>
      cases hmixin : r.isMixin with
      | true =>
          rw [pieces_of_isDefinition (e := ruleSet r) hmixin]
          exact List.nil_sublist _
      | false =>
          rw [pieces_ruleSet hmixin]
          exact (List.Sublist.refl _).append (List.filter_sublist.flatMap _)
  | page p =>
      rw [pieces_page]
      exact List.sublist_append_left _ _
  | media m =>
      rw [pieces_of_isBlock (e := media m) rfl]
      exact (List.sublist_append_left m.container.values []).append (List.Sublist.refl _)
  | keyframes k =>
      rw [pieces_of_isBlock (e := keyframes k) rfl]
      exact (List.sublist_append_left k.container.values []).append (List.Sublist.refl _)

/-- The variables of an element that is resolved are among its definitions. -/
theorem entries_subset_definitions {e : Element} (h : e.isDefinition = false) :
    e.container.vars.entries ⊆ e.definitions := by
  have hself : e ∈ e.resolved := by
    cases e with
    | ruleSet r => rw [resolved_ruleSet h]; exact List.mem_cons_self
    | page p => rw [resolved]; exact List.mem_cons_self
    | media m => rw [resolved_of_isBlock (e := media m) rfl]; exact List.mem_cons_self
    | keyframes k => rw [resolved_of_isBlock (e := keyframes k) rfl]; exact List.mem_cons_self
  exact fun entry hentry => List.mem_flatMap.mpr ⟨e, hself, hentry⟩

/-- The definitions of a nested rule set are among those of the rule set. -/
theorem definitions_subset_of_nested {r : RuleSet} (h : r.isMixin = false) {e : Element}
    (he : e ∈ r.container.body.filter isRuleSet) : e.definitions ⊆ (ruleSet r).definitions := by
  intro entry hentry
  rw [definitions, flatMap_resolved_ruleSet _ h]
  exact List.mem_append_right _ (List.mem_flatMap.mpr ⟨e, he, hentry⟩)

theorem definitions_subset_of_isBlock {b e : Element} (h : b.isBlock = true)
    (he : e ∈ b.container.body) : e.definitions ⊆ b.definitions := by
  intro entry hentry
  rw [definitions, flatMap_resolved_of_isBlock _ h]
  exact List.mem_append_right _ (List.mem_flatMap.mpr ⟨e, he, hentry⟩)

end Element

/-- The nested rule sets that are resolved have the pieces of all nested rule sets. -/
theorem Container.pieces_children (c : Container) :
    ((c.childRuleSets.filter fun child => !child.isMixin).flatMap
        fun child => (Element.ruleSet child).pieces) =
      (c.body.filter Element.isRuleSet).flatMap Element.pieces := by
  rw [childRuleSets]
  induction c.body with
  | nil => rfl
  | cons e es ih =>
      cases e with
      | media | page | keyframes => exact ih
      | ruleSet r =>
          show ((r :: es.filterMap Element.ruleSet?).filter _).flatMap _ =
            (Element.ruleSet r :: es.filter Element.isRuleSet).flatMap Element.pieces
          rw [List.flatMap_cons, List.filter_cons]
          cases hmixin : r.isMixin with
          | true =>
              rw [Element.pieces_of_isDefinition (e := .ruleSet r) hmixin]
              exact ih
          | false => exact congrArg (_ ++ ·) ih

namespace Container

/-- A variable that is set replaces the value it had, or is a new one. -/
theorem values_setVariable (c : Container) (name : String) (value : Expr) :
    (c.setVariable name value).values.Subperm (c.values ++ [value]) := by
  show ((Bindings.setEntry name value c.vars.entries).map Prod.snd).Subperm
    (c.vars.entries.map Prod.snd ++ [value])
  induction c.vars.entries with
  | nil => exact List.Subperm.refl _
  | cons entry entries ih =>
      rw [Bindings.setEntry]
      split
      · have hmoved : ([value] ++ entries.map Prod.snd).Perm (entries.map Prod.snd ++ [value]) :=
          List.perm_append_comm
        exact hmoved.subperm.trans (List.sublist_cons_self _ _).subperm
      · exact (List.subperm_cons entry.2).mpr ih

theorem pieces_setVariable (c : Container) (name : String) (value : Expr) :
    (c.setVariable name value).pieces.Subperm (c.pieces ++ [value]) := by
  have hmoved : (c.values ++ [value] ++ c.body.flatMap Element.pieces).Perm
      (c.pieces ++ [value]) := by
    rw [pieces, List.append_assoc, List.append_assoc]
    exact .append_left _ List.perm_append_comm
  refine List.Subperm.trans ?_ hmoved.subperm
  exact (List.subperm_append_right _).mpr (c.values_setVariable name value)

theorem pieces_add (c : Container) (e : Element) : (c.add e).pieces = c.pieces ++ e.pieces := by
  show c.values ++ (c.body ++ [e]).flatMap Element.pieces = _
  rw [List.flatMap_append, List.flatMap_singleton, ← List.append_assoc]
  rfl

end Container

/-- The value of a definition is a piece. -/
theorem Container.values_definitions_subset (c : Container) :
    ∀ entry ∈ c.definitions, entry.2 ∈ c.pieces := by
  intro entry hentry
  rcases List.mem_append.mp hentry with h | h
  · exact List.mem_append_left _ (List.mem_map_of_mem h)
  · obtain ⟨e, he, h⟩ := List.mem_flatMap.mp h
    obtain ⟨x, hx, h⟩ := List.mem_flatMap.mp h
    refine List.mem_append_right _ (List.mem_flatMap.mpr ⟨e, he, List.mem_flatMap.mpr ⟨x, hx, ?_⟩⟩)
    exact List.mem_append_left _ (List.mem_map_of_mem h)

namespace Parse

/-! ## Pieces of blocks -/

/-- The pieces of an entry of a block. -/
def Entry.pieces : Entry → List Expr
  | .variable _ value => [value]
  | .item i => piecesOfItems [i]
  | .element e => e.pieces

theorem Entry.pieces_declaration (d : Declaration) :
    (Entry.item (.declaration d)).pieces = d.values :=
  List.append_nil d.values

/-- The pieces of a block. -/
def Block.pieces (b : Block) : List Expr :=
  piecesOfItems b.items ++ b.container.pieces

theorem Block.pieces_add (b : Block) (entry : Entry) :
    (b.add entry).pieces.Subperm (b.pieces ++ entry.pieces) := by
  match entry with
  | .variable name value =>
      rw [Block.pieces, Block.pieces, List.append_assoc]
      exact (List.subperm_append_left _).mpr (b.container.pieces_setVariable name value)
  | .item i =>
      refine List.Perm.subperm ?_
      show (piecesOfItems (b.items ++ [i]) ++ b.container.pieces).Perm _
      rw [piecesOfItems_append, Block.pieces, List.append_assoc, List.append_assoc]
      exact .append_left _ List.perm_append_comm
  | .element e =>
      refine List.Perm.subperm (.of_eq ?_)
      show piecesOfItems b.items ++ (b.container.add e).pieces = _
      rw [Container.pieces_add, ← List.append_assoc]
      rfl

/-- **A block has no pieces but those of its entries.** -/
theorem pieces_ofEntries (entries : List Entry) :
    (Block.ofEntries entries).pieces.Subperm (entries.flatMap Entry.pieces) := by
  have hall : ∀ b : Block,
      (entries.foldl Block.add b).pieces.Subperm (b.pieces ++ entries.flatMap Entry.pieces) := by
    induction entries with
    | nil => exact fun b => (List.Perm.of_eq (List.append_nil _).symm).subperm
    | cons entry entries ih =>
        intro b
        refine (ih (b.add entry)).trans ?_
        rw [List.flatMap_cons, ← List.append_assoc]
        exact (List.subperm_append_right _).mpr (b.pieces_add entry)
  exact hall {}

/-! ## What readers pass -/

/-- The second place is on the text, and the expressions are spread between the two. -/
structure Spans (source : List Char) (a last : Cursor) (es : List Expr) : Prop where
  on : last.On source
  spread : Spread a.position last.position (es.map Expr.positions)

namespace Spans

variable {source : List Char} {a b c : Cursor} {es fs : List Expr}

theorem nil (h : b.On source ∧ a.position ≤ b.position) : Spans source a b [] :=
  ⟨h.1, .nil h.2⟩

theorem append (hes : Spans source a b es) (hfs : Spans source b c fs) :
    Spans source a c (es ++ fs) := by
  refine ⟨hfs.on, ?_⟩
  rw [List.map_append]
  exact hes.spread.append hfs.spread

/-- What is passed before and behind does not matter. -/
theorem widen (h : Spans source a b es) {first last : Cursor} (hfirst : first.position ≤ a.position)
    (hlast : last.On source ∧ b.position ≤ last.position) : Spans source first last es :=
  ⟨hlast.1, h.spread.widen hfirst hlast.2⟩

theorem from_earlier (h : Spans source a b es) {first : Cursor}
    (hfirst : first.position ≤ a.position) : Spans source first b es :=
  h.widen hfirst ⟨h.on, le_refl _⟩

theorem of_subperm (h : Spans source a b es) (hsub : fs.Subperm es) : Spans source a b fs := by
  refine ⟨h.on, h.spread.of_subperm ?_⟩
  obtain ⟨gs, hperm, hgs⟩ := hsub
  exact ⟨gs.map Expr.positions, hperm.map _, hgs.map _⟩

end Spans

namespace Cursor

variable {source : List Char} {c last : Cursor}

theorem spans_variableDefinition {v : String × Expr} (hc : c.On source)
    (h : c.variableDefinition = .ok (v, last)) : Spans source c last [v.2] := by
  rw [variableDefinition] at h
  obtain ⟨c₁, h₁, h⟩ := exists_of_bind_eq_ok h
  obtain ⟨c₂, h₂, h⟩ := exists_of_bind_eq_ok h
  obtain ⟨⟨value, c₃⟩, h₃, h⟩ := exists_of_bind_eq_ok h
  cases h
  obtain ⟨hon₁, hlt₁⟩ := forward_expect hc h₁
  obtain ⟨hon, hle⟩ := forward_to hon₁ fun _ hon => hon.name.skipTrivia
  obtain ⟨hon₂, hlt₂⟩ := forward_expect hon h₂
  obtain ⟨hon₃, hspread⟩ := spread_value hon₂ h₃
  have hend := forward_to hon₃ fun _ hon => hon.skip ';'
  have hstart : c.position < c₂.position := hlt₁.trans_le (hle.trans hlt₂.le)
  have hwide := hspread.widen hstart.le hend.2
  -- the start of the definition and the positions of its items
  have hinside : ∀ p ∈ (Expr.ofItems value.items c.position).positions,
      c.position ≤ p ∧ p < (c₃.skip ';').position :=
    Expr.forall_positions_ofItems ⟨le_refl _, hstart.trans_le (hspread.le.trans hend.2)⟩
      fun e he => hwide.inside e.positions (List.mem_map_of_mem he)
  exact ⟨hend.1, .single hwide.le hinside⟩

theorem spans_declaration {d : Declaration} (hc : c.On source)
    (h : c.declaration = .ok (d, last)) : Spans source c last d.values := by
  rw [declaration] at h
  simp only at h
  split at h
  · cases h
  · obtain ⟨c₁, h₁, h⟩ := exists_of_bind_eq_ok h
    obtain ⟨⟨value, c₂⟩, h₂, h⟩ := exists_of_bind_eq_ok h
    cases h
    obtain ⟨hon, hle⟩ := forward_to hc fun _ hon => (hon.takeWhile (!endsProperty ·)).skipTrivia
    obtain ⟨hon₁, hlt⟩ := forward_expect hon h₁
    obtain ⟨hon₂, hspread⟩ := spread_value hon₁ h₂
    exact Spans.widen ⟨hon₂, hspread⟩ (hle.trans hlt.le) (forward_to hon₂ fun _ hon => hon.skip ';')

/-! ## Rule sets -/

/-- The reader of blocks is sound on every text, and the pieces of a block are spread
    over it. -/
structure SpansBlock (source : List Char) (reader : BlockReader) : Prop where
  sound : ∀ source, SoundBlock source reader
  spans : ∀ {c last : Cursor} {b : Block}, c.On source → reader c = .ok (b, last) →
    Spans source c last b.pieces

variable {reader : BlockReader}

theorem spans_ruleSetBlock (hreader : SpansBlock source reader) {start : Position}
    {selectors : List Selector} {r : RuleSet} (hc : c.On source)
    (h : c.ruleSetBlock reader start selectors none = .ok (r, last)) :
    Spans source c last (Element.ruleSet r).pieces := by
  rw [ruleSetBlock] at h
  obtain ⟨c₁, h₁, h⟩ := exists_of_bind_eq_ok h
  obtain ⟨⟨b, c₂⟩, h₂, h⟩ := exists_of_bind_eq_ok h
  cases h
  obtain ⟨hon, hlt⟩ := forward_expect hc h₁
  exact ((hreader.spans hon h₂).of_subperm (Element.pieces_subperm _)).from_earlier hlt.le

/-- The definition of a mixin has no pieces. -/
theorem spans_mixinDefinition (hreader : SpansBlock source reader) {r : RuleSet} (hc : c.On source)
    (h : c.mixinDefinition reader = .ok (r, last)) :
    Spans source c last (Element.ruleSet r).pieces := by
  have hforward := forward hc (fun source hon => reads_mixinDefinition (hreader.sound source) hon) h
  have hdefinition : (Element.ruleSet r).isDefinition = true := by
    rw [mixinDefinition] at h
    obtain ⟨⟨⟨selector, params⟩, c₁⟩, -, h⟩ := exists_of_bind_eq_ok h
    obtain ⟨c₂, -, h⟩ := exists_of_bind_eq_ok h
    obtain ⟨⟨b, c₃⟩, -, h⟩ := exists_of_bind_eq_ok h
    cases h
    rfl
  rw [Element.pieces_of_isDefinition hdefinition]
  exact .nil hforward

theorem spans_ruleSet (hreader : SpansBlock source reader) {r : RuleSet} (hc : c.On source)
    (h : c.ruleSet reader = .ok (r, last)) : Spans source c last (Element.ruleSet r).pieces := by
  rw [ruleSet] at h
  obtain ⟨⟨head, c₁⟩, h₁, h⟩ := exists_of_bind_eq_ok h
  obtain ⟨hon, hle⟩ := forward hc (fun _ hon => reads_head hon) h₁
  simp only at h
  split at h
  · cases h
  · exact (spans_ruleSetBlock hreader hon h).from_earlier hle

/-! ## Blocks -/

/-- The entries are read up to the place, and their pieces are spread over the text. -/
abbrev SpansEntries (source : List Char) (c last : Cursor) (es : List Entry) : Prop :=
  Spans source c last (es.flatMap Entry.pieces)

/-- An entry is read, then those behind it. -/
theorem spans_next {α : Type} {x : Except Fault (Parsed α)} (entry : α → Entry)
    {rest : Cursor → Except Fault (Parsed (List Entry))} {es : List Entry}
    (h : (do
      let (a, after) ← x
      let (more, last) ← rest after
      return (entry a :: more, last)) = .ok (es, last))
    (hx : ∀ {a after}, x = .ok (a, after) → Spans source c after (entry a).pieces)
    (hrest : ∀ {after last more}, after.On source → rest after = .ok (more, last) →
      SpansEntries source after last more) : SpansEntries source c last es := by
  obtain ⟨⟨a, after⟩, ha, h⟩ := exists_of_bind_eq_ok h
  obtain ⟨⟨more, last'⟩, hmore, h⟩ := exists_of_bind_eq_ok h
  cases h
  exact (hx ha).append (hrest (hx ha).on hmore)

theorem spansBlock_of_entries {n : Nat}
    (h : ∀ {c last : Cursor} {es : List Entry}, c.On source → entries n true c = .ok (es, last) →
      SpansEntries source c last es) :
    SpansBlock source fun c => do
      let (inner, c) ← entries n true c
      return (.ofEntries inner, c) where
  sound source := fun c hc =>
    (reads_entries hc).bind fun _ hr => .result ⟨blockIn_ofEntries hr.1, hr.2⟩
  spans hc hb := by
    obtain ⟨⟨inner, last⟩, hinner, hb⟩ := exists_of_bind_eq_ok hb
    cases hb
    exact (h hc hinner).of_subperm (pieces_ofEntries inner)

/-- **The entries of a block are spread over it.** -/
theorem spans_entries : ∀ {n : Nat} {nested : Bool} {before last : Cursor} {es : List Entry},
    before.On source → entries n nested before = .ok (es, last) →
      SpansEntries source before last es := by
  intro n
  induction n with
  | zero => intro nested before last es _ h; cases h
  | succ n ih =>
      intro nested before last es hbefore h
      obtain ⟨hc, hle⟩ := forward_to hbefore fun _ hon => hon.skipTrivia
      have hblock := spansBlock_of_entries (n := n) fun hc h => ih hc h
      refine Spans.from_earlier ?_ hle
      rw [entries] at h
      simp only at h
      split at h
      · cases h
      · cases h
        exact .nil (forward_to hc fun _ hon => hon.advance)
      · split at h
        · exact spans_next (fun v : String × Expr => .variable v.1 v.2) h
            (fun ha => spans_variableDefinition hc ha) ih
        · cases h
      · split at h
        · split at h
          · exact spans_next (fun r => .element (.ruleSet r)) h
              (fun ha => spans_mixinDefinition hblock hc ha) ih
          · cases h
        · split at h
          · exact spans_next (fun call => .item (.mixin call)) h
              (fun ha => .nil (forward hc (fun _ hon => reads_mixinCall hon) ha)) ih
          · split at h
            · refine spans_next (fun d => .item (.declaration d)) h (fun ha => ?_) ih
              rw [Entry.pieces_declaration]
              exact spans_declaration hc ha
            · split at h
              · exact spans_next (fun r => .element (.ruleSet r)) h
                  (fun ha => spans_ruleSet hblock hc ha) ih
              · cases h
            · cases h

theorem spansBlock_block : SpansBlock source block where
  sound _ := soundBlock_block
  spans hc hb := by
    rw [block] at hb
    obtain ⟨⟨inner, last⟩, hinner, hb⟩ := exists_of_bind_eq_ok hb
    cases hb
    exact (spans_entries hc hinner).of_subperm (pieces_ofEntries inner)

/-! ## Pages, media and keyframes -/

theorem spans_page {p : Page} (hc : c.On source) (h : c.page = .ok (p, last)) :
    Spans source c last (Element.page p).pieces := by
  rw [page] at h
  obtain ⟨⟨head, c₁⟩, h₁, h⟩ := exists_of_bind_eq_ok h
  obtain ⟨c₂, h₂, h⟩ := exists_of_bind_eq_ok h
  obtain ⟨⟨inner, c₃⟩, h₃, h⟩ := exists_of_bind_eq_ok h
  cases h
  obtain ⟨hon, hle⟩ := forward_to hc fun _ hon => hon.atKeyword
  obtain ⟨hon₁, hle₁⟩ := forward hon (fun _ hon => reads_head hon) h₁
  obtain ⟨hon₂, hlt⟩ := forward_expect hon₁ h₂
  have hspans := (spans_entries hon₂ h₃).of_subperm (pieces_ofEntries inner)
  exact (hspans.of_subperm (Element.pieces_subperm _)).from_earlier
    (hle.trans (hle₁.trans hlt.le))

theorem spans_elementEntries : ∀ {n : Nat} {before last : Cursor} {es : List Entry},
    before.On source → elementEntries n before = .ok (es, last) →
      SpansEntries source before last es := by
  intro n
  induction n with
  | zero => intro before last es _ h; cases h
  | succ n ih =>
      intro before last es hbefore h
      obtain ⟨hc, hle⟩ := forward_to hbefore fun _ hon => hon.skipTrivia
      refine Spans.from_earlier ?_ hle
      rw [elementEntries] at h
      simp only at h
      split at h
      · cases h
      · cases h
        exact .nil (forward_to hc fun _ hon => hon.advance)
      · split at h
        · exact spans_next (fun v : String × Expr => .variable v.1 v.2) h
            (fun ha => spans_variableDefinition hc ha) ih
        · split at h
          · exact spans_next (fun p => .element (.page p)) h (fun ha => spans_page hc ha) ih
          · cases h
      · split at h
        · exact spans_next (fun r => .element (.ruleSet r)) h
            (fun ha => spans_mixinDefinition spansBlock_block hc ha) ih
        · split at h
          · cases h
          · exact spans_next (fun r => .element (.ruleSet r)) h
              (fun ha => spans_ruleSet spansBlock_block hc ha) ih

theorem spans_elementBlock {b : Container} (hc : c.On source)
    (h : c.elementBlock = .ok (b, last)) : Spans source c last b.pieces := by
  rw [elementBlock] at h
  obtain ⟨c₁, h₁, h⟩ := exists_of_bind_eq_ok h
  obtain ⟨⟨inner, c₂⟩, h₂, h⟩ := exists_of_bind_eq_ok h
  cases h
  obtain ⟨hon, hlt⟩ := forward_expect hc h₁
  have hspans := (spans_elementEntries hon h₂).of_subperm (pieces_ofEntries inner)
  exact (hspans.of_subperm (List.sublist_append_right _ _).subperm).from_earlier hlt.le

theorem spans_media {m : Media} (hc : c.On source) (h : c.media = .ok (m, last)) :
    Spans source c last (Element.media m).pieces := by
  rw [media] at h
  obtain ⟨⟨head, c₁⟩, h₁, h⟩ := exists_of_bind_eq_ok h
  obtain ⟨⟨b, c₂⟩, h₂, h⟩ := exists_of_bind_eq_ok h
  cases h
  obtain ⟨hon, hle⟩ := forward_to hc fun _ hon => hon.atKeyword
  obtain ⟨hon₁, hle₁⟩ := forward hon (fun _ hon => reads_head hon) h₁
  rw [Element.pieces_of_isBlock rfl]
  exact (spans_elementBlock hon₁ h₂).from_earlier (hle.trans hle₁)

theorem spans_keyframes {k : Keyframes} (hc : c.On source) (h : c.keyframes = .ok (k, last)) :
    Spans source c last (Element.keyframes k).pieces := by
  rw [keyframes] at h
  obtain ⟨⟨head, c₁⟩, h₁, h⟩ := exists_of_bind_eq_ok h
  obtain ⟨⟨b, c₂⟩, h₂, h⟩ := exists_of_bind_eq_ok h
  cases h
  obtain ⟨hon, hle⟩ := forward_to hc fun _ hon => hon.atKeyword
  obtain ⟨hon₁, hle₁⟩ := forward hon (fun _ hon => reads_head hon) h₁
  rw [Element.pieces_of_isBlock rfl]
  exact (spans_elementBlock hon₁ h₂).from_earlier (hle.trans hle₁)

theorem spans_atRuleSet {r : RuleSet} (hc : c.On source) (h : c.atRuleSet = .ok (r, last)) :
    Spans source c last (Element.ruleSet r).pieces := by
  rw [atRuleSet] at h
  obtain ⟨⟨head, c₁⟩, h₁, h⟩ := exists_of_bind_eq_ok h
  obtain ⟨hon, hle⟩ := forward_to hc fun _ hon => hon.atKeyword
  obtain ⟨hon₁, hle₁⟩ := forward hon (fun _ hon => reads_head hon) h₁
  exact (spans_ruleSetBlock spansBlock_block hon₁ h).from_earlier (hle.trans hle₁)

/-! ## Statements -/

end Cursor

/-- The pieces of a statement. -/
def Statement.pieces : Statement → List Expr
  | .charset _ | .cssImport _ | .fileImport _ _ _ => []
  | .variable _ value => [value]
  | .element e => e.pieces

namespace Cursor

/-- What is read is made into a statement. -/
theorem spans_as {α : Type} {x : Except Fault (Parsed α)} (statement : α → Statement)
    {s : Statement} (h : (do let (a, after) ← x; return (statement a, after)) = .ok (s, last))
    (hx : ∀ {a after}, x = .ok (a, after) → Spans source c after (statement a).pieces) :
    Spans source c last s.pieces := by
  obtain ⟨⟨a, after⟩, ha, h⟩ := exists_of_bind_eq_ok h
  cases h
  exact hx ha

theorem spans_importStatement {s : Statement} (hc : c.On source)
    (h : c.importStatement = .ok (s, last)) : Spans source c last s.pieces := by
  have hforward := forward hc (fun _ hon => reads_importStatement hon) h
  have hpieces : s.pieces = [] := by
    rw [importStatement] at h
    obtain ⟨⟨text, c₁⟩, -, h⟩ := exists_of_bind_eq_ok h
    obtain ⟨⟨options, rest⟩, -, h⟩ := exists_of_bind_eq_ok h
    simp only at h
    split at h
    · split at h
      · cases h
        rfl
      · cases h
        rfl
    · cases h
      rfl
  rw [hpieces]
  exact .nil hforward

theorem spans_atStatement {s : Statement} (hc : c.On source)
    (h : c.atStatement = .ok (s, last)) : Spans source c last s.pieces := by
  rw [atStatement] at h
  split at h
  · exact spans_as (fun v : String × Expr => .variable v.1 v.2) h
      fun ha => spans_variableDefinition hc ha
  · split at h
    · exact spans_importStatement hc h
    · split at h
      · refine spans_as (fun text => .charset (String.ofList (Text.trim text))) h fun ha => ?_
        obtain ⟨hon, hle⟩ := forward_to hc fun _ hon => hon.atKeyword
        have htext := forward hon (fun _ hon => reads_statementText hon) ha
        exact .nil ⟨htext.1, hle.trans htext.2⟩
      · split at h
        · exact spans_as (fun m => .element (.media m)) h fun ha => spans_media hc ha
        · split at h
          · exact spans_as (fun p => .element (.page p)) h fun ha => spans_page hc ha
          · split at h
            · exact spans_as (fun k => .element (.keyframes k)) h fun ha => spans_keyframes hc ha
            · split at h
              · exact spans_as (fun r => .element (.ruleSet r)) h fun ha => spans_atRuleSet hc ha
              · cases h

theorem spans_statement {s : Statement} (hc : c.On source) (h : c.statement = .ok (s, last)) :
    Spans source c last s.pieces := by
  rw [statement] at h
  split at h
  · exact spans_atStatement hc h
  · split at h
    · exact spans_as (fun r => .element (.ruleSet r)) h
        fun ha => spans_mixinDefinition spansBlock_block hc ha
    · split at h
      · cases h
      · exact spans_as (fun r => .element (.ruleSet r)) h
          fun ha => spans_ruleSet spansBlock_block hc ha

/-- **The statements of a text are spread over it.** -/
theorem spans_statementsFrom : ∀ {n : Nat} {c : Cursor}, c.On source →
    ∃ last, Spans source c last ((statementsFrom n c).1.flatMap Statement.pieces) := by
  intro n
  induction n with
  | zero => intro c hc; exact ⟨c, .nil ⟨hc, le_refl _⟩⟩
  | succ n ih =>
      intro before hbefore
      obtain ⟨hc, hle⟩ := forward_to hbefore fun _ hon => hon.skipTrivia
      have hnone : ∃ last, Spans source before last [] := ⟨before, .nil ⟨hbefore, le_refl _⟩⟩
      rw [statementsFrom]
      simp only
      split
      · exact hnone
      · split
        · exact hnone
        · rename_i s after hs
          have hstatement := spans_statement hc hs
          obtain ⟨last, hmore⟩ := ih hstatement.on
          exact ⟨last, (hstatement.append hmore).from_earlier hle⟩

end Cursor

end Parse

/-! ## Sheets -/

open Parse

theorem Sheet.pieces_perform (sheet : Sheet) (s : Statement) :
    (sheet.perform s).container.pieces.Subperm (sheet.container.pieces ++ s.pieces) := by
  match s with
  | .charset _ | .cssImport _ | .fileImport _ _ _ =>
      exact (List.Perm.of_eq (List.append_nil _).symm).subperm
  | .variable name value => exact sheet.container.pieces_setVariable name value
  | .element e => exact (List.Perm.of_eq (sheet.container.pieces_add e)).subperm

/-- A sheet has no pieces but those of its statements. -/
theorem Sheet.pieces_foldl_perform (ss : List Statement) (sheet : Sheet) :
    (ss.foldl Sheet.perform sheet).container.pieces.Subperm
      (sheet.container.pieces ++ ss.flatMap Statement.pieces) := by
  induction ss generalizing sheet with
  | nil => exact (List.Perm.of_eq (List.append_nil _).symm).subperm
  | cons s ss ih =>
      refine (ih (sheet.perform s)).trans ?_
      rw [List.flatMap_cons, ← List.append_assoc]
      exact (List.subperm_append_right _).mpr (sheet.pieces_perform s)

/-- **NO TWO PIECES OF A SHEET HAVE A POSITION IN COMMON.** -/
theorem Sheet.pieces_apart {source : List Char} {sheet : Sheet}
    (h : Sheet.parse source = .ok sheet) :
    sheet.container.pieces.Pairwise fun e f => e.positions.Disjoint f.positions := by
  obtain ⟨last, hspans⟩ :=
    Cursor.spans_statementsFrom (n := source.length + 1) (Cursor.On.ofText source)
  rw [Sheet.parse, statements] at h
  split at h
  · cases h
  · rename_i ss hss
    cases h
    rw [hss] at hspans
    have hsheet := hspans.of_subperm (Sheet.pieces_foldl_perform ss .empty)
    exact List.pairwise_map.mp hsheet.spread.apart

end Less
