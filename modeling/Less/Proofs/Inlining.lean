import Less.Import
import Less.Proofs.SelectorIndex

/-! # Imported sheets in place

    An imported file is read into a sheet of its own, which is then written behind the
    sheet that imports it.  **That is the same as performing the statements of the file
    right there** (`append_in_place`): the variables have the same values in the same
    order, the elements, the imports that are written out and the index of the
    selectors are the same.  A character set is the exception, as the first one stays;
    so the statements must not set one.

    Elements and imports are lists, and lists may be put together in any way.
    Variables are bound again on the way: a name that is bound again keeps its first
    place and takes its last value, whether the bindings come one by one or gathered
    before (`Bindings.setAll_entries_setAll`).  From that follows that sheets may be
    written behind each other in any grouping (`Sheet.append_assoc`), and that files
    may be split however deeply. -/

namespace Less

/-! ## Bindings on top of bindings -/

namespace Bindings

variable {α : Type}

theorem setEntry_setEntry (name : String) (v w : α) (entries : List (String × α)) :
    setEntry name w (setEntry name v entries) = setEntry name w entries := by
  induction entries with
  | nil => simp [setEntry]
  | cons entry rest ih =>
      obtain ⟨n, u⟩ := entry
      by_cases h : n = name
      · rw [setEntry, if_pos h, setEntry, if_pos h, setEntry, if_pos h]
      · rw [setEntry, if_neg h, setEntry, if_neg h, setEntry, if_neg h, ih]

/-- A name that is bound again takes the last value. -/
theorem set_set (b : Bindings α) (name : String) (v w : α) :
    (b.set name v).set name w = b.set name w :=
  ext_entries (setEntry_setEntry name v w b.entries)

/-- A name that is there may be bound before another one or behind it. -/
theorem setEntry_comm {name other : String} (hne : other ≠ name) (v w : α)
    {entries : List (String × α)} (h : name ∈ entries.map Prod.fst) :
    setEntry name v (setEntry other w entries) = setEntry other w (setEntry name v entries) := by
  induction entries with
  | nil => exact absurd h List.not_mem_nil
  | cons entry rest ih =>
      obtain ⟨n, u⟩ := entry
      by_cases hn : n = name
      · subst hn
        rw [setEntry, if_neg (Ne.symm hne), setEntry, if_pos rfl, setEntry, if_pos rfl, setEntry,
          if_neg (Ne.symm hne)]
      · have hrest : name ∈ rest.map Prod.fst :=
          (List.mem_cons.mp h).resolve_left fun heq => hn heq.symm
        by_cases ho : n = other
        · rw [setEntry, if_pos ho, setEntry, if_neg hn, setEntry, if_neg hn, setEntry, if_pos ho]
        · rw [setEntry, if_neg ho, setEntry, if_neg hn, setEntry, if_neg hn, setEntry, if_neg ho,
            ih hrest]

theorem set_comm {b : Bindings α} {name other : String} (hne : other ≠ name) (v w : α)
    (h : name ∈ b.names) : (b.set other w).set name v = (b.set name v).set other w :=
  ext_entries (setEntry_comm hne v w h)

theorem mem_names_set (b : Bindings α) (name : String) (v : α) : name ∈ (b.set name v).names := by
  rw [names_set]
  split
  · assumption
  · exact List.mem_append_right _ List.mem_cons_self

theorem mem_names_set_of_mem {b : Bindings α} {name : String} (h : name ∈ b.names)
    (other : String) (v : α) : name ∈ (b.set other v).names := by
  rw [names_set]
  split
  · exact h
  · exact List.mem_append_left _ h

/-- A name that is there may be bound before others or behind them. -/
theorem setAll_set_comm {b : Bindings α} {name : String} (v : α) {entries : List (String × α)}
    (hb : name ∈ b.names) (h : name ∉ entries.map Prod.fst) :
    (b.setAll entries).set name v = (b.set name v).setAll entries := by
  induction entries generalizing b with
  | nil => rfl
  | cons entry rest ih =>
      obtain ⟨n, u⟩ := entry
      rw [List.map_cons, List.mem_cons, not_or] at h
      show ((b.set n u).setAll rest).set name v = ((b.set name v).set n u).setAll rest
      rw [ih (mem_names_set_of_mem hb n u) h.2, set_comm (Ne.symm h.1) v u hb]

/-- Binding the entries of bindings in which one name was bound last is binding the
    entries and then that name. -/
theorem setAll_setEntry (b : Bindings α) (name : String) (v : α) {entries : List (String × α)}
    (hnodup : (entries.map Prod.fst).Nodup) :
    b.setAll (setEntry name v entries) = (b.setAll entries).set name v := by
  induction entries generalizing b with
  | nil => rfl
  | cons entry rest ih =>
      obtain ⟨n, u⟩ := entry
      rw [List.map_cons, List.nodup_cons] at hnodup
      by_cases h : n = name
      · subst h
        rw [setEntry, if_pos rfl]
        show (b.set n v).setAll rest = ((b.set n u).setAll rest).set n v
        rw [setAll_set_comm v (mem_names_set b n u) hnodup.1, set_set]
      · rw [setEntry, if_neg h]
        exact ih (b.set n u) hnodup.2

/-- **Bindings gathered before are bound as one by one.** -/
theorem setAll_entries_setAll (a b : Bindings α) (entries : List (String × α)) :
    a.setAll (b.setAll entries).entries = (a.setAll b.entries).setAll entries := by
  induction entries generalizing b with
  | nil => rfl
  | cons entry rest ih =>
      obtain ⟨n, u⟩ := entry
      show a.setAll ((b.set n u).setAll rest).entries = ((a.setAll b.entries).set n u).setAll rest
      rw [ih, ← setAll_setEntry a n u b.nodup]
      rfl

end Bindings

/-! ## Containers behind each other -/

namespace Container

/-- The variables and the elements of a container behind those of another one. -/
def append (c d : Container) : Container :=
  (c.setVariables d.vars.entries).addAll d.body

theorem append_assoc (a b c : Container) : (a.append b).append c = a.append (b.append c) := by
  simp only [append, setVariables, addAll, List.append_assoc, Bindings.setAll_entries_setAll]

theorem append_empty (c : Container) : c.append empty = c := by
  obtain ⟨vars, body⟩ := c
  exact congrArg (Container.mk vars) (List.append_nil body)

/-- **A step behind two containers is one behind the second of them.** -/
theorem append_perform (c d : Container) (step : BuildStep) :
    c.append (d.perform step) = (c.append d).perform step := by
  match step with
  | .variable name value =>
      have hvars : c.vars.setAll (d.vars.set name value).entries =
          (c.vars.setAll d.vars.entries).set name value :=
        Bindings.setAll_setEntry c.vars name value d.vars.nodup
      exact congrArg (fun vars => Container.mk vars (c.body ++ d.body)) hvars
  | .element e => exact congrArg (Container.mk _) (List.append_assoc c.body d.body [e]).symm

theorem append_foldl_perform (c d : Container) (steps : List BuildStep) :
    c.append (steps.foldl perform d) = steps.foldl perform (c.append d) := by
  induction steps generalizing d with
  | nil => rfl
  | cons step steps ih => rw [List.foldl_cons, ih, append_perform, List.foldl_cons]

/-- The steps that write a container behind another one: its variables are set, then
    its elements added. -/
def steps (c : Container) : List BuildStep :=
  c.vars.entries.map (fun (name, value) => .variable name value) ++ c.body.map .element

theorem foldl_steps (c d : Container) : d.steps.foldl perform c = c.append d := by
  have hvars : ∀ (entries : List (String × Expr)) (c : Container),
      (entries.map fun (name, value) => BuildStep.variable name value).foldl perform c =
        c.setVariables entries := by
    intro entries
    induction entries with
    | nil => intro c; cases c; rfl
    | cons entry entries ih => intro c; rw [List.map_cons, List.foldl_cons, ih]; rfl
  have hbody : ∀ (es : List Element) (c : Container),
      (es.map BuildStep.element).foldl perform c = c.addAll es := by
    intro es
    induction es with
    | nil => intro c; exact (append_empty c).symm
    | cons e es ih =>
        intro c
        rw [List.map_cons, List.foldl_cons, ih]
        exact congrArg (Container.mk c.vars) (List.append_assoc c.body [e] es)
  rw [steps, List.foldl_append, hvars, hbody]
  rfl

end Container

namespace Indexed

/-- A container behind one that is kept with its index. -/
def append (x : Indexed) (c : Container) : Indexed :=
  c.steps.foldl perform x

theorem container_append (x : Indexed) (c : Container) :
    (x.append c).container = x.container.append c := by
  rw [append, container_foldl, Container.foldl_steps]

/-- Two runs of steps from the same start that build the same container keep the same
    index. -/
theorem foldl_perform_congr {x : Indexed} {steps steps' : List BuildStep}
    (h : steps.foldl Container.perform x.container = steps'.foldl Container.perform x.container) :
    steps.foldl perform x = steps'.foldl perform x := by
  have hbody := congrArg Container.body h
  rw [Container.body_foldl, Container.body_foldl] at hbody
  have hindex : (steps.foldl perform x).index = (steps'.foldl perform x).index := by
    rw [index_foldl, index_foldl, List.append_cancel_left hbody]
  rw [← container_foldl, ← container_foldl] at h
  calc steps.foldl perform x
      = ⟨(steps.foldl perform x).container, (steps.foldl perform x).index⟩ := rfl
    _ = steps'.foldl perform x := by rw [h, hindex]

/-- **A container of steps behind an indexed one** is the indexed one with the
    steps. -/
theorem append_ofSteps (x : Indexed) (steps : List BuildStep) :
    x.append (Container.ofSteps steps) = steps.foldl perform x := by
  refine foldl_perform_congr ?_
  rw [Container.foldl_steps, Container.ofSteps, Container.append_foldl_perform,
    Container.append_empty]

theorem append_append (x : Indexed) (c d : Container) :
    (x.append c).append d = x.append (c.append d) := by
  rw [append, append, ← List.foldl_append]
  refine foldl_perform_congr ?_
  rw [List.foldl_append, Container.foldl_steps, Container.foldl_steps, Container.foldl_steps,
    Container.append_assoc]

end Indexed

/-! ## Sheets behind each other -/

namespace Parse.Statement

/-- The statement sets the character set. -/
def isCharset : Statement → Bool
  | .charset _ => true
  | .cssImport _ | .fileImport _ _ _ | .variable _ _ | .element _ => false

/-- The step by which a statement builds the container of a sheet. -/
def buildStep? : Statement → Option BuildStep
  | .variable name value => some (.variable name value)
  | .element e => some (.element e)
  | .charset _ | .cssImport _ | .fileImport _ _ _ => none

end Parse.Statement

namespace Sheet

open Parse

/-- **Sheets may be written behind each other in any grouping.** -/
theorem append_assoc (a b c : Sheet) : (a.append b).append c = a.append (b.append c) := by
  have hcontainer := Container.append_assoc a.container b.container c.container
  calc (a.append b).append c
      = { charset := (a.charset.or b.charset).or c.charset
          imports := (a.imports ++ b.imports) ++ c.imports
          container := (a.container.append b.container).append c.container } := rfl
    _ = a.append (b.append c) := by
        rw [hcontainer, Option.or_assoc, List.append_assoc]
        rfl

theorem append_empty (a : Sheet) : a.append empty = a := by
  have hcontainer := Container.append_empty a.container
  calc a.append empty
      = { charset := a.charset.or none
          imports := a.imports ++ []
          container := a.container.append .empty } := rfl
    _ = a := by rw [hcontainer, Option.or_none, List.append_nil]

/-- **A statement behind two sheets is one behind the second of them**, unless it
    sets the character set. -/
theorem append_perform (a b : Sheet) {s : Statement} (h : s.isCharset = false) :
    a.append (b.perform s) = (a.append b).perform s := by
  match s with
  | .charset _ => cases h
  | .cssImport text | .fileImport _ text _ =>
      exact congrArg (fun imports => Sheet.mk _ imports _)
        (List.append_assoc a.imports b.imports [text]).symm
  | .variable name value =>
      exact congrArg (Sheet.mk _ _)
        (Container.append_perform a.container b.container (.variable name value))
  | .element e =>
      exact congrArg (Sheet.mk _ _) (Container.append_perform a.container b.container (.element e))

/-- **Statements behind two sheets are statements behind the second of them.** -/
theorem append_foldl_perform (a b : Sheet) {ss : List Statement}
    (h : ∀ s ∈ ss, s.isCharset = false) :
    a.append (ss.foldl perform b) = ss.foldl perform (a.append b) := by
  induction ss generalizing b with
  | nil => rfl
  | cons s ss ih =>
      obtain ⟨hs, hss⟩ := List.forall_mem_cons.mp h
      rw [List.foldl_cons, ih _ hss, append_perform a b hs, List.foldl_cons]

theorem container_foldl_perform (sheet : Sheet) (ss : List Statement) :
    (ss.foldl perform sheet).container =
      (ss.filterMap Statement.buildStep?).foldl Container.perform sheet.container := by
  induction ss generalizing sheet with
  | nil => rfl
  | cons s ss ih =>
      rw [List.foldl_cons, ih]
      match s with
      | .charset _ | .cssImport _ | .fileImport _ _ _ => rfl
      | .variable name value => rfl
      | .element e => rfl

end Sheet

/-! ## Imports that are followed -/

namespace Importer

open Parse

/-- **Statements that follow imports are performed on a sheet as on an empty one**
    that is then written behind the sheet. -/
theorem performAll_append (resolve : Resolve) (a b : Sheet) (i : Importer) {ss : List Statement}
    (h : ∀ s ∈ ss, s.isCharset = false) :
    performAll resolve ss (a.append b) i =
      (a.append (performAll resolve ss b i).1, (performAll resolve ss b i).2) := by
  induction ss generalizing b i with
  | nil => rfl
  | cons s ss ih =>
      obtain ⟨hs, hss⟩ := List.forall_mem_cons.mp h
      match s with
      | .fileImport target text p =>
          rw [performAll, performAll]
          match hresolve : resolve target p i with
          | (some imported, j) =>
              simp only [Sheet.append_assoc]
              exact ih (b.append imported) j hss
          | (none, j) => exact ih b j hss
      | .charset _ => cases hs
      | .cssImport _ | .variable _ _ | .element _ =>
          rw [performAll, performAll, ← Sheet.append_perform a b hs]
          · exact ih _ i hss
          all_goals exact nofun

end Importer

open Parse Importer

/-- **AN IMPORTED SHEET STANDS FOR ITS STATEMENTS.**  Statements that set no
    character set make up a sheet of their own.

    * Written behind any sheet, it gives the sheet on which the statements were
      performed: the same values and order of the variables, the same elements and
      the same imports.
    * An index that is kept beside the sheet becomes the same in both cases.
    * Sheets may be written behind each other in any grouping, and so may containers
      that are kept with their index.
    * If the statements import files themselves, and these others, performing them on
      a sheet gives the same as performing them on an empty one that is then written
      behind the sheet, with the same diagnostics. -/
theorem Sheet.append_in_place {ss : List Statement} (h : ∀ s ∈ ss, s.isCharset = false) :
    (∀ sheet : Sheet, sheet.append (ss.foldl perform .empty) = ss.foldl perform sheet) ∧
    (∀ (sheet : Sheet) (x : Indexed), x.container = sheet.container →
      (x.append (ss.foldl perform .empty).container).container =
          (sheet.append (ss.foldl perform .empty)).container ∧
        x.append (ss.foldl perform .empty).container =
          (ss.filterMap Statement.buildStep?).foldl Indexed.perform x) ∧
    ((∀ a b c : Sheet, (a.append b).append c = a.append (b.append c)) ∧
      ∀ (x : Indexed) (b c : Sheet),
        (x.append b.container).append c.container = x.append (b.append c).container) ∧
    ∀ (resolve : Resolve) (sheet : Sheet) (i : Importer),
      performAll resolve ss sheet i =
        (sheet.append (performAll resolve ss .empty i).1,
          (performAll resolve ss .empty i).2) := by
  refine ⟨fun sheet => ?_, fun sheet x hx => ⟨?_, ?_⟩,
    ⟨append_assoc, fun x b c => Indexed.append_append x b.container c.container⟩,
    fun resolve sheet i => ?_⟩
  · rw [append_foldl_perform sheet .empty h, append_empty]
  · rw [Indexed.container_append, hx]
    rfl
  · rw [container_foldl_perform]
    exact Indexed.append_ofSteps x _
  · have hrun := performAll_append resolve sheet .empty i h
    rwa [append_empty] at hrun

/-- A file that binds `b`, then `a` and `b` again between two rule sets, imported by a
    sheet with `a`: `a` stays in front, and both have their last values. -/
theorem Sheet.append_in_place_of_rebound :
    let r : RuleSet :=
      { selectors := [⟨".r"⟩], params := none, items := [], container := .empty, position := none }
    let ss : List Statement :=
      [.variable "b" (.literal "1" none), .element (.ruleSet r), .variable "a" (.literal "2" none),
        .cssImport "@import url(x);", .element (.ruleSet r), .variable "b" (.literal "3" none)]
    let sheet : Sheet :=
      { container := Container.empty.setVariable "a" (.literal "0" none) |>.add (.ruleSet r) }
    (∀ s ∈ ss, s.isCharset = false) ∧
      sheet.append (ss.foldl perform .empty) = ss.foldl perform sheet ∧
      (sheet.append (ss.foldl perform .empty)).container.vars.entries =
        [("a", .literal "2" none), ("b", .literal "3" none)] ∧
      placesIn (indexOf (sheet.append (ss.foldl perform .empty)).container.body) ⟨".r"⟩ =
        [0, 1, 2] := by
  intro r ss sheet
  have hss : ∀ s ∈ ss, s.isCharset = false := by
    simp only [ss, List.forall_mem_cons]
    exact ⟨rfl, rfl, rfl, rfl, rfl, rfl, nofun⟩
  exact ⟨hss, (append_in_place hss).1 sheet, rfl, rfl⟩

end Less
