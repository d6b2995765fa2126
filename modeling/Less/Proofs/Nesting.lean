import Less.Proofs.Spacing
import Less.Proofs.Steps

/-! # Selectors of nested rule sets

    A rule set reached through the rule sets `R₀, …, Rₙ` gets the selectors of
    all of them, combined.  The resolution combines **from the inside**: `Rₙ`
    with `Rₙ₋₁`, the result with `Rₙ₋₂`, and so on (`fromInside`).  So an `&`
    stands for the selector of the rule set around it as it is written, and not
    for the combined selector of that rule set, which would be combining **from
    the outside** (`fromOutside`): inside `.a` and `.b`, `.x &` becomes
    `.a .x .b` and not `.x .a .b` (`fromInside_ne_fromOutside`).

    The two ways agree where combining is associative (`combine_assoc`).  A
    selector without `&` is read as if it started with `& `
    (`combine_eq_substitute`); then `a (b c)` and `(a b) c` agree if `b` has an
    `&`, or if the only `&` of `c` is in front. -/

namespace Less

namespace Selector

open Less.Text

/-! ## Substitution for the parent -/

/-- The characters of a selector. -/
abbrev chars (s : Selector) : List Char :=
  s.text.toList

/-- The selector refers to its parent. -/
def HasParent (s : Selector) : Prop :=
  '&' ∈ s.chars

/-- The selector with its reference to the parent written out. -/
def explicit (cs : List Char) : List Char :=
  if cs.contains '&' then cs else '&' :: ' ' :: cs

/-- The only reference to the parent stands in front, or is left to be
    understood there. -/
def ParentInFront (s : Selector) : Prop :=
  ∃ rest, explicit s.chars = '&' :: rest ∧ '&' ∉ rest

/-- The text of a selector as `ofText` leaves it, and not empty. -/
structure Canonical (s : Selector) : Prop where
  tight : Tight s.chars
  squeezed : squeeze false s.chars = s.chars

/-- A selector is canonical unless its text is empty. -/
theorem canonical_ofText {s : String} (h : (ofText s).text ≠ "") : (ofText s).Canonical := by
  obtain ⟨hsqueezed, htight⟩ := tight_collapse s.toList
  have hchars : (ofText s).chars = collapse s.toList := String.toList_ofList
  refine ⟨?_, by rw [hchars]; exact hsqueezed⟩
  rw [hchars]
  refine htight fun hnil => h ?_
  rw [ofText, collapseText, hnil]

theorem chars_ofText {cs : List Char} (h : Tight cs) :
    (ofText (String.ofList cs)).chars = squeeze false cs := by
  show (String.ofList (collapse (String.ofList cs).toList)).toList = _
  rw [String.toList_ofList, String.toList_ofList, collapse_of_tight h]

theorem isBlank_ampersand : isBlank '&' = false := by decide

theorem contains_iff {cs : List Char} : cs.contains '&' = true ↔ '&' ∈ cs :=
  List.contains_iff_mem

theorem explicit_of_mem {cs : List Char} (h : '&' ∈ cs) : explicit cs = cs := by
  rw [explicit, if_pos (contains_iff.mpr h)]

theorem explicit_of_notMem {cs : List Char} (h : '&' ∉ cs) : explicit cs = '&' :: ' ' :: cs := by
  rw [explicit, if_neg fun hc => h (contains_iff.mp hc)]

theorem mem_explicit (cs : List Char) : '&' ∈ explicit cs := by
  by_cases h : '&' ∈ cs
  · rw [explicit_of_mem h]
    exact h
  · rw [explicit_of_notMem h]
    exact List.mem_cons_self

theorem tight_explicit {cs : List Char} (h : Tight cs) : Tight (explicit cs) := by
  by_cases hmem : '&' ∈ cs
  · rw [explicit_of_mem hmem]
    exact h
  · rw [explicit_of_notMem hmem]
    have hmark : Tight ['&'] := tight_of_no_blanks (by simp) (by simp [isBlank_ampersand])
    exact hmark.append [' '] h

variable {p q cs : List Char}

theorem substitute_append (p xs ys : List Char) :
    substitute p (xs ++ ys) = substitute p xs ++ substitute p ys :=
  List.flatMap_append

theorem substitute_cons_ampersand (p cs : List Char) :
    substitute p ('&' :: cs) = p ++ substitute p cs :=
  rfl

theorem substitute_cons_of_ne {c : Char} (hc : c ≠ '&') (p cs : List Char) :
    substitute p (c :: cs) = c :: substitute p cs := by
  show (if c = '&' then p else [c]) ++ substitute p cs = _
  rw [if_neg hc]
  rfl

theorem substitute_of_notMem (p : List Char) (h : '&' ∉ cs) : substitute p cs = cs := by
  induction cs with
  | nil => rfl
  | cons c cs ih =>
      rw [List.mem_cons, not_or] at h
      rw [substitute_cons_of_ne (Ne.symm h.1), ih h.2]

/-- Substituting twice is substituting what was substituted into. -/
theorem substitute_substitute (p q cs : List Char) :
    substitute p (substitute q cs) = substitute (substitute p q) cs := by
  induction cs with
  | nil => rfl
  | cons c cs ih =>
      by_cases hc : c = '&'
      · subst hc
        rw [substitute_cons_ampersand, substitute_cons_ampersand, substitute_append, ih]
      · rw [substitute_cons_of_ne hc, substitute_cons_of_ne hc, substitute_cons_of_ne hc, ih]

theorem mem_substitute : '&' ∈ substitute p cs ↔ '&' ∈ cs ∧ '&' ∈ p := by
  induction cs with
  | nil => simp [substitute]
  | cons c cs ih =>
      by_cases hc : c = '&'
      · subst hc
        rw [substitute_cons_ampersand, List.mem_append, ih]
        simp only [List.mem_cons, true_or, true_and]
        exact ⟨fun h => h.elim id And.right, Or.inl⟩
      · rw [substitute_cons_of_ne hc, List.mem_cons, List.mem_cons, ih]
        simp [Ne.symm hc]

theorem tight_substitute (hp : Tight p) (hcs : Tight cs) : Tight (substitute p cs) := by
  have hlast : ∀ (cs : List Char) (after : Bool),
      blankAfter after cs = false → blankAfter after (substitute p cs) = false := by
    intro cs
    induction cs with
    | nil => intro after h; exact h
    | cons c cs ih =>
        intro after h
        rw [Text.blankAfter] at h
        by_cases hc : c = '&'
        · subst hc
          rw [substitute_cons_ampersand, blankAfter_append, hp.blankAfter]
          rw [isBlank_ampersand] at h
          exact ih false h
        · rw [substitute_cons_of_ne hc]
          exact ih _ h
  obtain ⟨c, rest, rfl, hc⟩ := hcs.head
  refine ⟨?_, hlast _ _ hcs.last⟩
  by_cases heq : c = '&'
  · subst heq
    obtain ⟨d, ds, rfl, hd⟩ := hp.head
    exact ⟨d, ds ++ substitute (d :: ds) rest, rfl, hd⟩
  · exact ⟨c, substitute p rest, substitute_cons_of_ne heq p rest, hc⟩

/-- Substituting into a squeezed text is as good. -/
theorem squeeze_substitute_squeeze (hp : Tight p) (after : Bool) (cs : List Char) :
    squeeze after (substitute p (squeeze after cs)) = squeeze after (substitute p cs) := by
  induction cs generalizing after with
  | nil => rfl
  | cons c cs ih =>
      by_cases hc : isBlank c = true
      · have hne : c ≠ '&' := fun h => by rw [h, isBlank_ampersand] at hc; cases hc
        rw [substitute_cons_of_ne hne, squeeze, squeeze, if_pos hc, if_pos hc]
        by_cases ha : after = true
        · rw [if_pos ha, if_pos ha, ha, ih]
        · rw [if_neg ha, if_neg ha, substitute_cons_of_ne (by decide), squeeze,
            if_pos isBlank_space, if_neg ha, ih]
      · have hblank : isBlank c = false := Bool.eq_false_iff.mpr hc
        rw [squeeze_of_head hblank]
        by_cases heq : c = '&'
        · subst heq
          rw [substitute_cons_ampersand, substitute_cons_ampersand, squeeze_append, squeeze_append,
            hp.blankAfter, ih]
        · rw [substitute_cons_of_ne heq, substitute_cons_of_ne heq, squeeze_of_head hblank,
            squeeze_of_head hblank, ih]

/-- Substituting a squeezed text is as good. -/
theorem squeeze_substitute_of_squeeze (hq : Tight q) (after : Bool) (cs : List Char) :
    squeeze after (substitute (squeeze false q) cs) = squeeze after (substitute q cs) := by
  have hsame : ∀ after, squeeze after (squeeze false q) = squeeze after q := by
    intro after
    rw [hq.squeeze_eq false after, squeeze_squeeze]
  induction cs generalizing after with
  | nil => rfl
  | cons c cs ih =>
      by_cases hc : c = '&'
      · subst hc
        rw [substitute_cons_ampersand, substitute_cons_ampersand, squeeze_append, squeeze_append,
          hsame, hq.blankAfter, (tight_squeeze hq).blankAfter, ih]
      · rw [substitute_cons_of_ne hc, substitute_cons_of_ne hc, squeeze, squeeze, ih, ih]

/-! ## Combining -/

variable {a b c : Selector}

/-- **Combining is substituting for the parent**, where a selector without a
    reference to its parent has one in front. -/
theorem combine_eq_substitute (a c : Selector) :
    a.combine c = ofText (String.ofList (substitute a.chars (explicit c.chars))) := by
  rw [combine]
  by_cases h : '&' ∈ c.chars
  · rw [if_pos (contains_iff.mpr h), explicit_of_mem h]
  · rw [if_neg fun hc => h (contains_iff.mp hc), explicit_of_notMem h, substitute_cons_ampersand,
      substitute_cons_of_ne (by decide), substitute_of_notMem _ h]
    congr 1
    rw [← String.toList_inj, String.toList_ofList, String.toList_append, String.toList_append,
      List.append_assoc]
    rfl

theorem chars_combine (ha : a.Canonical) (hc : c.Canonical) :
    (a.combine c).chars = squeeze false (substitute a.chars (explicit c.chars)) := by
  rw [combine_eq_substitute, chars_ofText (tight_substitute ha.tight (tight_explicit hc.tight))]

theorem canonical_combine (ha : a.Canonical) (hc : c.Canonical) : (a.combine c).Canonical := by
  have htight := tight_substitute ha.tight (tight_explicit hc.tight)
  refine ⟨?_, ?_⟩
  · rw [chars_combine ha hc]
    exact tight_squeeze htight
  · rw [chars_combine ha hc, squeeze_squeeze]

/-- A combined selector refers to a parent if the outer one does. -/
theorem mem_chars_combine (ha : a.Canonical) (hc : c.Canonical) :
    '&' ∈ (a.combine c).chars ↔ '&' ∈ a.chars := by
  rw [chars_combine ha hc, mem_squeeze isBlank_ampersand, mem_substitute]
  exact ⟨And.right, fun h => ⟨mem_explicit _, h⟩⟩

theorem ext_chars {s t : Selector} (h : s.chars = t.chars) : s = t := by
  obtain ⟨s⟩ := s
  obtain ⟨t⟩ := t
  exact congrArg Selector.mk (String.toList_inj.mp h)

/-- **Combining is associative** if the selector in the middle refers to its
    parent, or the inner one does so in front only. -/
theorem combine_assoc (ha : a.Canonical) (hb : b.Canonical) (hc : c.Canonical)
    (h : b.HasParent ∨ c.ParentInFront) :
    a.combine (b.combine c) = (a.combine b).combine c := by
  apply ext_chars
  rw [chars_combine ha (canonical_combine hb hc), chars_combine (canonical_combine ha hb) hc,
    chars_combine ha hb,
    squeeze_substitute_of_squeeze (tight_substitute ha.tight (tight_explicit hb.tight))]
  by_cases hmem : '&' ∈ b.chars
  · -- the reference in `b` is the one that is left in `b c`
    rw [explicit_of_mem ((mem_chars_combine hb hc).mpr hmem), chars_combine hb hc,
      squeeze_substitute_squeeze ha.tight, substitute_substitute, explicit_of_mem hmem]
  · obtain ⟨rest, hrest, hfree⟩ := h.resolve_left hmem
    -- both sides are `a`, then `b`, then what follows the reference in `c`
    have hbc : '&' ∉ (b.combine c).chars := fun hbc => hmem ((mem_chars_combine hb hc).mp hbc)
    have hinner : substitute b.chars (explicit c.chars) = b.chars ++ rest := by
      rw [hrest, substitute_cons_ampersand, substitute_of_notMem _ hfree]
    have houter : substitute (substitute a.chars (explicit b.chars)) (explicit c.chars) =
        substitute a.chars (explicit b.chars) ++ rest := by
      rw [hrest, substitute_cons_ampersand, substitute_of_notMem _ hfree]
    have hb' : substitute a.chars (explicit b.chars) = a.chars ++ ' ' :: b.chars := by
      rw [explicit_of_notMem hmem, substitute_cons_ampersand, substitute_cons_of_ne (by decide),
        substitute_of_notMem _ hmem]
    have hbc' : substitute a.chars (explicit (b.combine c).chars) =
        a.chars ++ ' ' :: (b.combine c).chars := by
      rw [explicit_of_notMem hbc, substitute_cons_ampersand, substitute_cons_of_ne (by decide),
        substitute_of_notMem _ hbc]
    have hafter : ∀ cs : List Char, squeeze false (a.chars ++ ' ' :: cs) =
        squeeze false a.chars ++ ' ' :: squeeze true cs := by
      intro cs
      rw [squeeze_append, ha.tight.blankAfter, squeeze, if_pos isBlank_space]
      rfl
    have htight : Tight (b.chars ++ rest) := by
      rw [← hinner]
      exact tight_substitute hb.tight (tight_explicit hc.tight)
    rw [hbc', houter, hb', hafter, chars_combine hb hc, hinner,
      htight.squeeze_eq false true, squeeze_squeeze, List.append_assoc, List.cons_append, hafter]

/-- References in front stay in front. -/
theorem parentInFront_combine (ha : a.Canonical) (hc : c.Canonical) (hfa : a.ParentInFront)
    (hfc : c.ParentInFront) : (a.combine c).ParentInFront := by
  obtain ⟨rest, hrest, hfree⟩ := hfc
  have hchars : (a.combine c).chars = squeeze false (a.chars ++ rest) := by
    rw [chars_combine ha hc, hrest, substitute_cons_ampersand, substitute_of_notMem _ hfree]
  by_cases hmem : '&' ∈ a.chars
  · obtain ⟨front, hfront, hfree'⟩ := hfa
    rw [explicit_of_mem hmem] at hfront
    refine ⟨squeeze false (front ++ rest), ?_, ?_⟩
    · rw [explicit_of_mem ((mem_chars_combine ha hc).mpr hmem), hchars, hfront, List.cons_append,
        squeeze_of_head isBlank_ampersand]
    · rw [mem_squeeze isBlank_ampersand, List.mem_append]
      exact fun h => h.elim hfree' hfree
  · have hnone : '&' ∉ (a.combine c).chars := fun h => hmem ((mem_chars_combine ha hc).mp h)
    refine ⟨' ' :: (a.combine c).chars, explicit_of_notMem hnone, ?_⟩
    rw [List.mem_cons, not_or]
    exact ⟨by decide, hnone⟩

/-! ## Combining along a path -/

/-- Selectors along a path combined from the inside: each rule set with what was
    combined inside it. -/
def fromInside : List (List Selector) → List Selector
  | [] => []
  | [selectors] => selectors
  | selectors :: rest => combineAll selectors (fromInside rest)

/-- Selectors along a path combined from the outside: what was combined around
    a rule set with the rule set. -/
def fromOutside : List (List Selector) → List Selector
  | [] => []
  | selectors :: rest => rest.foldl combineAll selectors

/-- Along the path below the outermost rule set, all selectors refer to their
    parents down to some rule set, and below it only in front. -/
def Plain (path : List (List Selector)) : Prop :=
  path.tail.Pairwise fun outer inner =>
    (∀ s ∈ outer, s.HasParent) ∨ ∀ s ∈ inner, s.ParentInFront

theorem fromInside_cons (selectors : List Selector) {rest : List (List Selector)}
    (h : rest ≠ []) : fromInside (selectors :: rest) = combineAll selectors (fromInside rest) := by
  cases rest with
  | nil => exact absurd rfl h
  | cons first rest => rfl

theorem mem_combineAll {as cs : List Selector} {s : Selector} :
    s ∈ combineAll as cs ↔ ∃ a ∈ as, ∃ c ∈ cs, a.combine c = s := by
  simp only [combineAll, List.mem_flatMap, List.mem_map]

/-- What holds of all selectors of a path, and is kept by combining, holds of
    the combined ones. -/
theorem mem_fromInside {P : Selector → Prop} (hP : ∀ {a c}, P a → P c → P (a.combine c)) :
    ∀ {path : List (List Selector)}, (∀ selectors ∈ path, ∀ s ∈ selectors, P s) →
      ∀ s ∈ fromInside path, P s := by
  intro path
  induction path with
  | nil => intro _ s hs; exact absurd hs List.not_mem_nil
  | cons selectors rest ih =>
      intro h s hs
      have hrest := ih fun selectors' hs' => h selectors' (List.mem_cons_of_mem _ hs')
      cases rest with
      | nil => exact h selectors List.mem_cons_self s hs
      | cons first rest =>
          rw [fromInside_cons selectors (List.cons_ne_nil _ _)] at hs
          obtain ⟨a, ha, c, hc, rfl⟩ := mem_combineAll.mp hs
          exact hP (h selectors List.mem_cons_self a ha) (hrest c hc)

theorem combineAll_assoc {as bs cs : List Selector}
    (h : ∀ a ∈ as, ∀ b ∈ bs, ∀ c ∈ cs, a.combine (b.combine c) = (a.combine b).combine c) :
    combineAll as (combineAll bs cs) = combineAll (combineAll as bs) cs := by
  rw [combineAll, combineAll, combineAll, combineAll, List.flatMap_assoc]
  refine List.flatMap_congr fun a ha => ?_
  rw [List.map_flatMap, List.flatMap_map]
  refine List.flatMap_congr fun b hb => ?_
  rw [List.map_map]
  exact List.map_congr_left fun c hc => h a ha b hb c hc

/-- **The two ways of combining agree along a plain path.** -/
theorem fromInside_eq_fromOutside : ∀ {path : List (List Selector)},
    (∀ selectors ∈ path, ∀ s ∈ selectors, s.Canonical) → Plain path →
      fromInside path = fromOutside path
  | [], _, _ => rfl
  | outer :: rest, hcanonical, hplain => by
      induction rest generalizing outer with
      | nil => rfl
      | cons inner rest ih =>
          have houter := hcanonical outer List.mem_cons_self
          have hinner := hcanonical inner (by simp)
          have hbelow : ∀ selectors ∈ rest, ∀ s ∈ selectors, s.Canonical :=
            fun selectors hs => hcanonical selectors (by simp [hs])
          have hpairs : (inner :: rest).Pairwise _ := hplain
          rw [List.pairwise_cons] at hpairs
          by_cases hrest : rest = []
          · rw [hrest]
            rfl
          -- the two outermost rule sets may be combined first
          have hassoc : combineAll outer (combineAll inner (fromInside rest)) =
              combineAll (combineAll outer inner) (fromInside rest) := by
            refine combineAll_assoc fun a ha b hb c hc => ?_
            have hcc : c.Canonical := mem_fromInside canonical_combine hbelow c hc
            refine combine_assoc (houter a ha) (hinner b hb) hcc ?_
            by_cases hall : ∀ s ∈ inner, s.HasParent
            · exact Or.inl (hall b hb)
            · have hfront : ∀ selectors ∈ rest, ∀ s ∈ selectors,
                  s.Canonical ∧ s.ParentInFront := fun selectors hs s hs' =>
                ⟨hbelow selectors hs s hs', ((hpairs.1 selectors hs).resolve_left hall) s hs'⟩
              refine Or.inr (mem_fromInside (P := fun s => s.Canonical ∧ s.ParentInFront) ?_
                hfront c hc).2
              exact fun ⟨hx, hfx⟩ ⟨hy, hfy⟩ =>
                ⟨canonical_combine hx hy, parentInFront_combine hx hy hfx hfy⟩
          have hcombined : ∀ selectors ∈ combineAll outer inner :: rest, ∀ s ∈ selectors,
              s.Canonical := by
            intro selectors hs s hs'
            rcases List.mem_cons.mp hs with rfl | hs
            · obtain ⟨a, ha, b, hb, rfl⟩ := mem_combineAll.mp hs'
              exact canonical_combine (houter a ha) (hinner b hb)
            · exact hbelow selectors hs s hs'
          calc fromInside (outer :: inner :: rest)
              = combineAll outer (combineAll inner (fromInside rest)) := by
                rw [fromInside_cons outer (List.cons_ne_nil _ _), fromInside_cons inner hrest]
            _ = combineAll (combineAll outer inner) (fromInside rest) := hassoc
            _ = fromInside (combineAll outer inner :: rest) := (fromInside_cons _ hrest).symm
            _ = fromOutside (combineAll outer inner :: rest) := ih _ hcombined hpairs.2
            _ = fromOutside (outer :: inner :: rest) := rfl

end Selector

/-! ## Rule sets and their nesting -/

mutual

/-- The paths from a rule set to itself and to the rule sets nested in it, in
    the order in which they are written.  Definitions of mixins are passed by. -/
def RuleSet.paths : RuleSet → List (List RuleSet)
  | ⟨selectors, params, items, ⟨vars, body⟩, p⟩ =>
      [⟨selectors, params, items, ⟨vars, body⟩, p⟩] ::
        (pathsInto body).map (⟨selectors, params, items, ⟨vars, body⟩, p⟩ :: ·)

/-- The paths that start at the rule sets among elements. -/
def pathsInto : List Element → List (List RuleSet)
  | [] => []
  | .ruleSet r :: es => (if r.isMixin then [] else r.paths) ++ pathsInto es
  | .media _ :: es | .page _ :: es | .keyframes _ :: es => pathsInto es

end

theorem pathsInto_eq (es : List Element) : pathsInto es =
    ((es.filterMap Element.ruleSet?).filter fun r => !r.isMixin).flatMap RuleSet.paths := by
  induction es with
  | nil => rfl
  | cons e es ih =>
      cases e with
      | ruleSet r =>
          rw [pathsInto, ih, List.filterMap_cons_some (by rfl)]
          cases hr : r.isMixin with
          | true => rw [if_pos rfl, List.filter_cons_of_neg (by simp [hr]), List.nil_append]
          | false =>
              rw [if_neg (by simp), List.filter_cons_of_pos (by simp [hr]), List.flatMap_cons]
      | media m => rw [pathsInto, ih]; rfl
      | page p => rw [pathsInto, ih]; rfl
      | keyframes k => rw [pathsInto, ih]; rfl

/-- A path stays at the rule set or goes on through one nested in it. -/
theorem RuleSet.paths_eq (r : RuleSet) : r.paths = [r] ::
    ((r.container.childRuleSets.filter fun child => !child.isMixin).flatMap RuleSet.paths).map
      (r :: ·) := by
  obtain ⟨selectors, params, items, ⟨vars, body⟩, p⟩ := r
  rw [RuleSet.paths, pathsInto_eq]
  rfl

theorem RuleSet.ne_nil_of_mem_paths {r : RuleSet} {path : List RuleSet} (h : path ∈ r.paths) :
    path ≠ [] := by
  rw [RuleSet.paths_eq] at h
  rcases List.mem_cons.mp h with rfl | h
  · exact List.cons_ne_nil r []
  · obtain ⟨rest, -, rfl⟩ := List.mem_map.mp h
    exact List.cons_ne_nil r rest

namespace Transform

open Reporting Selector

variable {n : Nat} {scope : Scope} {ds : List Error}

/-- An expansion without calls keeps the selectors and the nested rule sets. -/
theorem expand_of_no_calls {active : List Selector} {r result : RuleSet}
    (hitems : ∀ item ∈ r.items, item.isMixin = false)
    (h : expand n active scope r = some (result, ds)) :
    result.selectors = r.selectors ∧ result.container.body = r.container.body := by
  cases n with
  | zero => cases h
  | succ n =>
      obtain ⟨vars, items, container, first, second, -, hresolve, rfl, -⟩ := expand_eq_some h
      refine ⟨rfl, ?_⟩
      rcases resolveItems_eq_some hresolve with ⟨hany, -⟩ | ⟨-, rfl, -⟩
      · obtain ⟨item, hitem, hmixin⟩ := List.any_eq_true.mp hany
        rw [hitems item hitem] at hmixin
        cases hmixin
      · rfl

/-- Without calls, an expansion has one declaration for each of the rule set's,
    resolved inside the rule set's own container, and no other items. -/
theorem items_of_no_calls {active : List Selector} {r result : RuleSet}
    (hitems : ∀ item ∈ r.items, item.isMixin = false)
    (h : expand (n + 1) active scope r = some (result, ds)) :
    List.Forall₂ (fun d item => ∃ d', item = .declaration d' ∧ ∃ es,
        resolveDeclaration n (scope.child r.container) d = some (d', es) ∧ es ⊆ ds)
      r.declarations result.items := by
  obtain ⟨vars, items, container, first, second, -, hresolve, rfl, rfl⟩ := expand_eq_some h
  rcases resolveItems_eq_some hresolve with ⟨hany, -⟩ | ⟨-, -, hmap⟩
  · rw [any_isMixin_of_no_calls hitems] at hany
    cases hany
  · refine (mapM_eq_some hmap).imp fun d item hitem => ?_
    obtain ⟨es, hes, hsub⟩ := hitem
    obtain ⟨d', hd', rfl⟩ := map_eq_some hes
    exact ⟨d', rfl, es, hd', fun e he => List.mem_append_right _ (hsub he)⟩

/-- Related lists are related by whatever follows at their members. -/
theorem forall₂_imp_of_mem {α β : Type} {R S : α → β → Prop} {as : List α} {bs : List β}
    (h : ∀ a ∈ as, ∀ b, R a b → S a b) (hR : List.Forall₂ R as bs) : List.Forall₂ S as bs := by
  induction hR with
  | nil => exact .nil
  | cons hab _ ih =>
      exact .cons (h _ List.mem_cons_self _ hab) (ih fun a ha => h a (List.mem_cons_of_mem _ ha))

/-- A relation between paths and rule sets goes through the lists of several
    rule sets. -/
theorem forall₂_flatMap {α β γ : Type} {R : α → β → Prop} {f : γ → List α} :
    ∀ {xs : List γ} {ys : List (List β)}, List.Forall₂ (fun x y => List.Forall₂ R (f x) y) xs ys →
      List.Forall₂ R (xs.flatMap f) ys.flatten
  | _, _, .nil => .nil
  | _, _, .cons h hs => by
      rw [List.flatMap_cons, List.flatten_cons]
      exact List.rel_append h (forall₂_flatMap hs)

/-- What comes out for a path: the expansion of the rule set at its end, under
    the selectors along the path combined from the inside. -/
structure Yields (path : List RuleSet) (x : RuleSet) : Prop where
  selectors : x.selectors = fromInside (path.map (·.selectors))
  expansion : ∃ n scope source dest ds, path.getLast? = some source ∧
    expand n [] scope source = some (dest, ds) ∧ x = { dest with selectors := x.selectors }

/-- One more rule set around a path adds its selectors. -/
theorem Yields.cons {path : List RuleSet} {x : RuleSet} (h : Yields path x) (hne : path ≠ [])
    (r : RuleSet) :
    Yields (r :: path) { x with selectors := combineAll r.selectors x.selectors } := by
  have hne' : path.map (·.selectors) ≠ [] := by simpa using hne
  obtain ⟨n, scope, source, dest, ds, hsource, hdest, hx⟩ := h.expansion
  refine ⟨?_, n, scope, source, dest, ds, ?_, hdest, ?_⟩
  · rw [List.map_cons, fromInside_cons _ hne', h.selectors]
  · rw [List.getLast?_cons_of_ne_nil hne, hsource]
  · rw [hx]

/-- **Rule sets come out in the order of their paths**, one for each. -/
theorem transformRuleSet_yields : ∀ {n : Nat} {scope : Scope} {r : RuleSet}
    {result : List RuleSet} {ds : List Error}, r.isMixin = false →
    (∀ path ∈ r.paths, ∀ s ∈ path, ∀ item ∈ s.items, item.isMixin = false) →
    transformRuleSet n scope r = some (result, ds) → List.Forall₂ Yields r.paths result := by
  intro n
  induction n with
  | zero => intro scope r result ds _ _ h; cases h
  | succ n ih =>
      intro scope r result ds hr hcalls h
      have hpaths := RuleSet.paths_eq r
      rcases transformRuleSet_eq_some h with
        ⟨hmixin, -⟩ | ⟨-, dest, nested, first, second, hdest, hnested, rfl, -⟩
      · rw [hr] at hmixin
        cases hmixin
      · have hitems : ∀ item ∈ r.items, item.isMixin = false :=
          hcalls [r] (by rw [hpaths]; exact List.mem_cons_self) r List.mem_cons_self
        obtain ⟨hselectors, hbody⟩ := expand_of_no_calls hitems hdest
        obtain ⟨produced, rfl, hproduced⟩ := flatten_eq_some hnested
        have hchildren : dest.container.childRuleSets = r.container.childRuleSets := by
          rw [Container.childRuleSets, hbody]
          rfl
        rw [hchildren] at hproduced
        rw [hpaths]
        refine .cons ⟨hselectors, n, scope, r, dest, first, rfl, hdest, by cases dest; rfl⟩ ?_
        -- below, the paths of each nested rule set get one more rule set in front
        have hbelow : List.Forall₂
            (fun child rs => List.Forall₂ (fun path x => path ≠ [] ∧ Yields path x) child.paths rs)
            (r.container.childRuleSets.filter fun child => !child.isMixin) produced := by
          refine forall₂_imp_of_mem (fun child hchild rs hrs => ?_) hproduced
          obtain ⟨es, hes, -⟩ := hrs
          have hplain : child.isMixin = false := by simpa using (List.mem_filter.mp hchild).2
          have hpath : ∀ path ∈ child.paths, r :: path ∈ r.paths := fun path hpath => by
            rw [hpaths]
            exact List.mem_cons_of_mem _ (List.mem_map_of_mem
              (List.mem_flatMap.mpr ⟨child, hchild, hpath⟩))
          refine forall₂_imp_of_mem (fun path hmem x hx => ⟨RuleSet.ne_nil_of_mem_paths hmem, hx⟩)
            (ih hplain ?_ hes)
          exact fun path hmem s hs => hcalls _ (hpath path hmem) s (List.mem_cons_of_mem r hs)
        rw [List.forall₂_map_left_iff, List.forall₂_map_right_iff, hselectors]
        exact (forall₂_flatMap hbelow).imp fun path x ⟨hne, hx⟩ => hx.cons hne r

/-- **Nested selectors are combined from the inside**: rule sets come out in the
    order of their paths. -/
theorem transformRuleSet_fromInside {n : Nat} {scope : Scope} {r : RuleSet}
    {result : List RuleSet} {ds : List Error} (hr : r.isMixin = false)
    (hcalls : ∀ path ∈ r.paths, ∀ s ∈ path, ∀ item ∈ s.items, item.isMixin = false)
    (h : transformRuleSet n scope r = some (result, ds)) :
    List.Forall₂ (fun path x => x.selectors = fromInside (path.map (·.selectors)))
      r.paths result :=
  (transformRuleSet_yields hr hcalls h).imp fun _ _ hx => hx.selectors

/-- The path of a rule set is one along which both ways of combining agree. -/
structure Straight (path : List RuleSet) : Prop where
  canonical : ∀ r ∈ path, ∀ s ∈ r.selectors, s.Canonical
  plain : Plain (path.map (·.selectors))

/-- **THE SELECTORS OF NESTED RULE SETS.**  Without calls, a rule set comes out
    as one rule set for each path into it, in the order of the paths.  Each has
    the selectors along its path combined from the inside, and along a straight
    path that is the same as combining them from the outside. -/
theorem transformRuleSet_selectors {n : Nat} {scope : Scope} {r : RuleSet}
    {result : List RuleSet} {ds : List Error} (hr : r.isMixin = false)
    (hcalls : ∀ path ∈ r.paths, ∀ s ∈ path, ∀ item ∈ s.items, item.isMixin = false)
    (h : transformRuleSet n scope r = some (result, ds)) :
    List.Forall₂ (fun path x =>
        x.selectors = fromInside (path.map (·.selectors)) ∧
        (Straight path → x.selectors = fromOutside (path.map (·.selectors))))
      r.paths result := by
  refine (transformRuleSet_fromInside hr hcalls h).imp fun path x hx => ⟨hx, fun hstraight => ?_⟩
  rw [hx]
  refine fromInside_eq_fromOutside (fun selectors hs => ?_) hstraight.plain
  obtain ⟨r, hr, rfl⟩ := List.mem_map.mp hs
  exact hstraight.canonical r hr

/-- A rule set with a selector and nested rule sets, and nothing else in it. -/
def nest (selector : String) (body : List RuleSet) : RuleSet :=
  ⟨[.ofText selector], none, [], ⟨.empty, body.map .ruleSet⟩, none⟩

/-- The rule set with `&:hover` inside `.b` inside `.a` gets the selector
    `.a .b:hover`, which is also what combining from the outside gives. -/
theorem transformRuleSet_selectors_of_hover :
    ∃ result ds, transformRuleSet 5 (Scope.root .empty)
        (nest ".a" [nest ".b" [nest "&:hover" []]]) = some (result, ds) ∧
      result.map (·.selectors) = [[⟨".a"⟩], [⟨".a .b"⟩], [⟨".a .b:hover"⟩]] ∧
      Straight [nest ".a" [nest ".b" [nest "&:hover" []]], nest ".b" [nest "&:hover" []],
        nest "&:hover" []] ∧
      List.Forall₂ (fun path x =>
          x.selectors = fromInside (path.map (·.selectors)) ∧
          (Straight path → x.selectors = fromOutside (path.map (·.selectors))))
        (nest ".a" [nest ".b" [nest "&:hover" []]]).paths result := by
  have hselectors : (transformRuleSet 5 (Scope.root .empty)
      (nest ".a" [nest ".b" [nest "&:hover" []]])).map (fun x => x.1.map (·.selectors)) =
      some [[⟨".a"⟩], [⟨".a .b"⟩], [⟨".a .b:hover"⟩]] := by decide +kernel
  obtain ⟨⟨result, ds⟩, hresult, heq⟩ := Option.map_eq_some_iff.mp hselectors
  have hcalls : ∀ path ∈ (nest ".a" [nest ".b" [nest "&:hover" []]]).paths, ∀ s ∈ path,
      s.items = [] := by decide +kernel
  refine ⟨result, ds, hresult, heq, ⟨?_, ?_⟩, transformRuleSet_selectors rfl ?_ hresult⟩
  · simp only [List.mem_cons, List.not_mem_nil, or_false, forall_eq_or_imp, forall_eq, nest]
    exact ⟨canonical_ofText (by decide), canonical_ofText (by decide),
      canonical_ofText (by decide)⟩
  · refine List.pairwise_pair.mpr (Or.inr fun s hs => ?_)
    rw [List.mem_singleton.mp hs]
    exact ⟨":hover".toList, by decide +kernel, by decide⟩
  · intro path hpath s hs item hitem
    rw [hcalls path hpath s hs] at hitem
    cases hitem

/-- **Combining from the outside is not what comes out**: inside `.b`, which is
    inside `.a` and leaves its parent to be understood, the `&` of `.x &` stands
    for `.b` alone. -/
theorem fromInside_ne_fromOutside :
    (transformRuleSet 5 (Scope.root .empty) (nest ".a" [nest ".b" [nest ".x &" []]])).map
        (fun x => x.1.map (·.selectors)) = some [[⟨".a"⟩], [⟨".a .b"⟩], [⟨".a .x .b"⟩]] ∧
    (nest ".a" [nest ".b" [nest ".x &" []]]).paths.map
        (fun path => fromOutside (path.map (·.selectors))) =
      [[⟨".a"⟩], [⟨".a .b"⟩], [⟨".x .a .b"⟩]] := by
  constructor <;> decide +kernel

end Transform

end Less
