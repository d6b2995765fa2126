import Less.Import
import Less.Proofs.Outcome

/-! # Runs of the importer

    Following an import leads to the statements of the imported file, and these
    lead to further imports.  `Runs` gives the rules by which such a run goes on,
    without a bound on its length: one rule for each way an import can end, and
    one for each kind of statement.  A run keeps a record of the states that the
    stack of entered files was in.

    * A run leaves the importer as it was but for its cache and its diagnostics,
      and the cache holds only what can be read (`Runs.sees`).  In particular a
      file that was entered is left again.
    * **Every run comes to an end** (`exists_runs`).  A file is entered only if it
      is not on the stack, so the number of files that are not on it falls with
      every file entered.
    * The stack never holds a file twice (`Runs.grown`).
    * The importer with its bound on the length of a chain does what the rules
      say (`Runs.computes`), since the bound is never met. -/

namespace Less

/-! ## The files of a tree -/

/-- The paths of the files of a tree. -/
def FileTree.paths (t : FileTree) : List Path :=
  t.nodes.filterMap fun (l, node) =>
    match node with
    | .file _ => some (pathOf l)
    | .directory => none

theorem FileTree.mem_paths_of_file? {t : FileTree} {p found : Path} (h : t.file? p = some found) :
    found ∈ t.paths := by
  rw [file?] at h
  split at h
  · cases h
  · rename_i l _
    split at h
    · rename_i text hnode
      cases h
      rw [node?] at hnode
      split at hnode
      · rename_i node hlookup
        cases hnode
        obtain ⟨before, after, hnodes, -⟩ := List.lookup_eq_some_iff.mp hlookup
        refine List.mem_filterMap.mpr ⟨(l, .file text), ?_, rfl⟩
        rw [hnodes]
        exact List.mem_append_right before List.mem_cons_self
      · split at hnode <;> cases hnode
    · cases h

namespace Importer

variable {files : FileTree} {i j : Importer} {directory : Option Path} {target : String}
    {found : Path}

theorem mem_paths_of_find? (h : i.find? files directory target = some found) :
    found ∈ files.paths := by
  obtain ⟨p, -, hp⟩ := List.exists_of_findSome?_eq_some h
  rw [existing?] at hp
  split at hp
  · rename_i hfile
    cases hp
    exact FileTree.mem_paths_of_file? hfile
  · split at hp
    · cases hp
    · exact FileTree.mem_paths_of_file? hp

/-- The number of files that are not on a stack. -/
def unseen (files : FileTree) (stack : List Path) : Nat :=
  (files.paths.toFinset \ stack.toFinset).card

/-- Entering a file leaves fewer files to enter. -/
theorem unseen_cons_lt (h : i.find? files directory target = some found) {stack : List Path}
    (hfree : found ∉ stack) : unseen files (found :: stack) < unseen files stack :=
  card_sdiff_cons_lt (mem_paths_of_find? h) hfree

theorem unseen_le (files : FileTree) (stack : List Path) :
    unseen files stack ≤ files.nodes.length := by
  have hsdiff : unseen files stack ≤ files.paths.toFinset.card :=
    Finset.card_le_card Finset.sdiff_subset
  have hcard := List.toFinset_card_le files.paths
  have hpaths : files.paths.length ≤ files.nodes.length := List.length_filterMap_le _ _
  omega

/-! ## What an importer sees -/

/-- The text of a file as the importer sees it: what it keeps in its cache, or
    else what is read. -/
def text (files : FileTree) (i : Importer) (p : Path) : Except FileError String :=
  match i.cache.get? p.text with
  | some text => .ok text
  | none => files.read p

/-- Leaves a file whose statements were performed.  There is no sheet if the text
    went on with a fault, which is recorded. -/
def leave (found : Path) (fault : Option Parse.Fault) (sheet : Sheet) (k : Importer) :
    Option Sheet × Importer :=
  match fault with
  | none => (some sheet, k.pop)
  | some f => (none, k.pop.record (faultIn found f))

/-- Two importers search in the same places, have entered the same files and see
    the same texts. -/
structure Sees (files : FileTree) (i j : Importer) : Prop where
  includePaths : j.includePaths = i.includePaths
  stack : j.stack = i.stack
  text : j.text files = i.text files

namespace Sees

theorem refl (files : FileTree) (i : Importer) : Sees files i i :=
  ⟨rfl, rfl, rfl⟩

theorem symm (h : Sees files i j) : Sees files j i :=
  ⟨h.includePaths.symm, h.stack.symm, h.text.symm⟩

theorem trans {k : Importer} (h : Sees files i j) (h' : Sees files j k) : Sees files i k :=
  ⟨h'.includePaths.trans h.includePaths, h'.stack.trans h.stack, h'.text.trans h.text⟩

theorem record (h : Sees files i j) (e : Error) : Sees files i (j.record e) :=
  ⟨h.includePaths, h.stack, h.text⟩

theorem push (h : Sees files i j) (p : Path) : Sees files (i.push p) (j.push p) :=
  ⟨h.includePaths, congrArg (p :: ·) h.stack, h.text⟩

theorem pop {p : Path} (h : Sees files (i.push p) j) : Sees files i j.pop :=
  ⟨h.includePaths, congrArg List.tail h.stack, h.text⟩

/-- A file that was entered is left with the same view. -/
theorem leave {p : Path} (h : Sees files (i.push p) j) (fault : Option Parse.Fault)
    (sheet : Sheet) : Sees files i (leave p fault sheet j).2 := by
  cases fault with
  | none => exact h.pop
  | some f => exact h.pop.record _

theorem candidates_eq (h : Sees files i j) (target : Path) (directory : Option Path) :
    j.candidates target directory = i.candidates target directory := by
  rw [candidates, candidates, h.includePaths]

theorem find?_eq (h : Sees files i j) (directory : Option Path) (target : String) :
    j.find? files directory target = i.find? files directory target := by
  rw [find?, find?, h.candidates_eq]

end Sees

/-- Loading a file gives the text that is seen, and keeps it. -/
theorem load_spec (files : FileTree) (i : Importer) (p : Path) :
    (load files i p).1 = i.text files p ∧ Sees files i (load files i p).2
      ∧ (load files i p).2.diagnostics = i.diagnostics := by
  rw [load, Importer.text]
  cases hcache : i.cache.get? p.text with
  | some text => exact ⟨rfl, .refl files i, rfl⟩
  | none =>
      cases hread : files.read p with
      | error e => exact ⟨rfl, .refl files i, rfl⟩
      | ok text =>
          refine ⟨rfl, ⟨rfl, rfl, ?_⟩, rfl⟩
          -- the new entry of the cache holds what is read anyway
          funext p'
          show (match (i.cache.set p.text text).get? p'.text with
            | some text => .ok text
            | none => files.read p') = i.text files p'
          rw [Bindings.get?_set, Importer.text]
          by_cases hp : p'.text = p.text
          · obtain rfl : p' = p := by
              cases p'
              cases p
              exact congrArg Path.mk hp
            rw [if_pos rfl, hcache, hread]
          · rw [if_neg hp]

/-- What a load that was made has given. -/
theorem sees_of_load {r : Except FileError String} (h : load files i found = (r, j)) :
    i.text files found = r ∧ Sees files i j ∧ j.diagnostics = i.diagnostics := by
  have hspec := load_spec files i found
  rw [h] at hspec
  exact ⟨hspec.1.symm, hspec.2⟩

theorem push_stack_of_load {r : Except FileError String} (h : load files i found = (r, j)) :
    (j.push found).stack = found :: i.stack :=
  ((sees_of_load h).2.1.push found).stack

/-! ## Rules -/

/-- What the importer is at: an import, or the statements of a text. -/
inductive Task where
  | follow (target : String) (position : Position)
  | perform (statements : List Parse.Statement) (sheet : Sheet)

/-- **How a task is done.**  From a directory, the task leads from one importer to
    another with a sheet or without one; the last list has every state that the
    stack was changed to on the way. -/
inductive Runs (files : FileTree) :
    Option Path → Task → Importer → Option Sheet → Importer → List (List Path) → Prop where
  /-- No file is found. -/
  | missing {directory : Option Path} {target : String} {p : Position} {i : Importer}
      (hfind : i.find? files directory target = none) :
      Runs files directory (.follow target p) i none
        (i.fail target (.missing ((i.candidates ⟨target⟩ directory).headD ⟨target⟩)) p) []
  /-- The file has been entered and not been left. -/
  | cyclic {directory : Option Path} {target : String} {p : Position} {i : Importer} {found : Path}
      (hfind : i.find? files directory target = some found) (hentered : found ∈ i.stack) :
      Runs files directory (.follow target p) i none (i.fail target (.cyclic found) p) []
  /-- The file has no text. -/
  | unreadable {directory : Option Path} {target : String} {p : Position} {i j : Importer}
      {found : Path} {e : FileError} (hfind : i.find? files directory target = some found)
      (hfree : found ∉ i.stack) (hload : load files i found = (.error e, j)) :
      Runs files directory (.follow target p) i none (j.fail target (.unreadable found e) p) []
  /-- The file is entered, its statements are performed, and it is left again. -/
  | entered {directory : Option Path} {target : String} {p : Position} {i j k : Importer}
      {found : Path} {text : String} {sheet : Sheet} {seen : List (List Path)}
      (hfind : i.find? files directory target = some found) (hfree : found ∉ i.stack)
      (hload : load files i found = (.ok text, j))
      (hrun : Runs files found.parent? (.perform (Parse.statements text.toList).1 .empty)
        (j.push found) (some sheet) k seen) :
      Runs files directory (.follow target p) i
        (leave found (Parse.statements text.toList).2 sheet k).1
        (leave found (Parse.statements text.toList).2 sheet k).2
        ((j.push found).stack :: (seen ++ [k.pop.stack]))
  /-- All statements are performed. -/
  | done {directory : Option Path} {sheet : Sheet} {i : Importer} :
      Runs files directory (.perform [] sheet) i (some sheet) i []
  /-- An import is followed, and the imported sheet takes its place. -/
  | fileImport {directory : Option Path} {target written : String} {p : Position}
      {rest : List Parse.Statement} {sheet : Sheet} {i j k : Importer}
      {result last : Option Sheet} {first second : List (List Path)}
      (hfollow : Runs files directory (.follow target p) i result j first)
      (hrest : Runs files directory (.perform rest ((result.map sheet.append).getD sheet)) j last k
        second) :
      Runs files directory (.perform (.fileImport target written p :: rest) sheet) i last k
        (first ++ second)
  /-- Any other statement is performed on the sheet. -/
  | statement {directory : Option Path} {s : Parse.Statement} {rest : List Parse.Statement}
      {sheet : Sheet} {i k : Importer} {last : Option Sheet} {seen : List (List Path)}
      (hs : ∀ target written p, s ≠ .fileImport target written p)
      (hrest : Runs files directory (.perform rest (sheet.perform s)) i last k seen) :
      Runs files directory (.perform (s :: rest) sheet) i last k seen

variable {task : Task} {result : Option Sheet} {seen : List (List Path)}

/-- **A run changes nothing but the diagnostics and the cache**, and the cache
    only so that the same texts are seen. -/
theorem Runs.sees (h : Runs files directory task i result j seen) : Sees files i j := by
  induction h with
  | missing => exact (Sees.refl files _).record _
  | cyclic => exact (Sees.refl files _).record _
  | unreadable _ _ hload => exact (sees_of_load hload).2.1.record _
  | entered _ _ hload _ ih => exact (((sees_of_load hload).2.1.push _).trans ih).leave _ _
  | done => exact .refl files _
  | fileImport _ _ ihfollow ihrest => exact ihfollow.trans ihrest
  | statement _ _ ih => exact ih

/-! ## Termination -/

/-- Statements can be performed if imports can be followed from the same stack. -/
theorem exists_runs_perform {stack : List Path}
    (hfollow : ∀ target p i, i.stack = stack →
      ∃ result j seen, Runs files directory (.follow target p) i result j seen)
    (statements : List Parse.Statement) (sheet : Sheet) (i : Importer) (hi : i.stack = stack) :
    ∃ last k seen, Runs files directory (.perform statements sheet) i (some last) k seen := by
  induction statements generalizing sheet i with
  | nil => exact ⟨sheet, i, [], .done⟩
  | cons s rest ih =>
      by_cases hs : ∃ target written p, s = .fileImport target written p
      · obtain ⟨target, written, p, rfl⟩ := hs
        obtain ⟨result, j, first, hfirst⟩ := hfollow target p i hi
        obtain ⟨last, k, second, hsecond⟩ :=
          ih ((result.map sheet.append).getD sheet) j (hfirst.sees.stack.trans hi)
        exact ⟨last, k, first ++ second, .fileImport hfirst hsecond⟩
      · obtain ⟨last, k, seen, hrest⟩ := ih (sheet.perform s) i hi
        exact ⟨last, k, seen, .statement (fun target written p h => hs ⟨target, written, p, h⟩) hrest⟩

/-- **Every import comes to an end**, whatever the files import. -/
theorem exists_runs (files : FileTree) (directory : Option Path) (target : String) (p : Position)
    (i : Importer) : ∃ result j seen, Runs files directory (.follow target p) i result j seen := by
  -- the measure is the number of files that are not on the stack
  induction hn : unseen files i.stack using Nat.strong_induction_on
    generalizing directory target p i with
  | _ n ih =>
      cases hfind : i.find? files directory target with
      | none => exact ⟨_, _, _, .missing hfind⟩
      | some found =>
          by_cases hfree : found ∈ i.stack
          · exact ⟨_, _, _, .cyclic hfind hfree⟩
          rcases hload : load files i found with ⟨r, j⟩
          cases r with
          | error e => exact ⟨_, _, _, .unreadable hfind hfree hload⟩
          | ok text =>
              have hlt : unseen files (found :: i.stack) < n := hn ▸ unseen_cons_lt hfind hfree
              have hfollow : ∀ target p k, k.stack = found :: i.stack → ∃ result j seen,
                  Runs files found.parent? (.follow target p) k result j seen :=
                fun target p k hk => ih _ hlt _ target p k (congrArg (unseen files) hk)
              obtain ⟨sheet, k, seen, hrun⟩ := exists_runs_perform hfollow
                (Parse.statements text.toList).1 .empty (j.push found) (push_stack_of_load hload)
              exact ⟨_, _, _, .entered hfind hfree hload hrun⟩

/-! ## The stack on the way -/

/-- The stack was built on another one from files of the tree, and holds none of
    them twice. -/
structure Grown (files : FileTree) (base stack : List Path) : Prop where
  nodup : stack.Nodup
  built : ∃ entered, stack = entered ++ base ∧ entered ⊆ files.paths

/-- A stack cannot grow by more than the files that were not on it. -/
theorem Grown.length_le {base stack : List Path} (h : Grown files base stack) :
    stack.length ≤ base.length + unseen files base := by
  obtain ⟨entered, rfl, hfiles⟩ := h.built
  obtain ⟨hentered, -, hapart⟩ := List.nodup_append.mp h.nodup
  have hsubset : entered.toFinset ⊆ files.paths.toFinset \ base.toFinset := by
    intro p hp
    rw [List.mem_toFinset] at hp
    rw [Finset.mem_sdiff, List.mem_toFinset, List.mem_toFinset]
    exact ⟨hfiles hp, fun hbase => hapart p hp p hbase rfl⟩
  have hcard := Finset.card_le_card hsubset
  rw [List.toFinset_card_of_nodup hentered] at hcard
  rw [List.length_append, unseen]
  omega

/-- A stack of files is not longer than the number of files. -/
theorem Grown.length_le_card {base stack : List Path} (h : Grown files base stack)
    (hbase : base ⊆ files.paths) : stack.length ≤ files.paths.toFinset.card := by
  obtain ⟨entered, rfl, hfiles⟩ := h.built
  rw [← List.toFinset_card_of_nodup h.nodup]
  apply Finset.card_le_card
  intro p hp
  rw [List.mem_toFinset] at hp ⊢
  exact List.append_subset.mpr ⟨hfiles, hbase⟩ hp

/-- What has grown from a stack with one more file has grown from the stack. -/
theorem Grown.of_cons {base stack : List Path} {p : Path} (hp : p ∈ files.paths)
    (h : Grown files (p :: base) stack) : Grown files base stack := by
  obtain ⟨entered, rfl, hfiles⟩ := h.built
  refine ⟨h.nodup, entered ++ [p], by simp, ?_⟩
  rw [List.append_subset]
  exact ⟨hfiles, by simpa using hp⟩

/-- While a file is entered, the stack grows from the one with the file on it. -/
theorem grown_of_entered {base : List Path} {p : Path} (hp : p ∈ files.paths)
    (hnodup : (p :: base).Nodup) (h : ∀ s ∈ seen, Grown files (p :: base) s) :
    ∀ s ∈ (p :: base) :: (seen ++ [base]), Grown files base s := by
  intro s hs
  rcases List.mem_cons.mp hs with rfl | hs
  · exact ⟨hnodup, [p], rfl, by simpa using hp⟩
  · rcases List.mem_append.mp hs with hs | hs
    · exact (h s hs).of_cons hp
    · rw [List.mem_singleton.mp hs]
      exact ⟨(List.nodup_cons.mp hnodup).2, [], rfl, List.nil_subset _⟩

/-- **No file is on the stack twice, at any time.** -/
theorem Runs.grown (h : Runs files directory task i result j seen) (hi : i.stack.Nodup) :
    ∀ s ∈ seen, Grown files i.stack s := by
  induction h with
  | missing | cyclic | unreadable | done => exact fun s hs => absurd hs List.not_mem_nil
  | @entered _ _ _ i j _ found _ _ _ hfind hfree hload hrun ih =>
      have hpush := (sees_of_load hload).2.1.push found
      have hnodup := List.nodup_cons.mpr ⟨hfree, hi⟩
      rw [push_stack_of_load hload] at ih
      rw [push_stack_of_load hload, (hpush.trans hrun.sees).pop.stack]
      exact grown_of_entered (mem_paths_of_find? hfind) hnodup (ih hnodup)
  | fileImport hfollow _ ihfollow ihrest =>
      have hstack := hfollow.sees.stack
      intro s hs
      rcases List.mem_append.mp hs with hs | hs
      · exact ihfollow hi s hs
      · exact hstack ▸ ihrest (hstack ▸ hi) s hs
  | statement _ _ ih => exact ih hi

/-! ## The bound on the length of a chain -/

/-- The importer within a bound does the task with this result. -/
def Task.Computes (files : FileTree) (n : Nat) (directory : Option Path) (i : Importer)
    (result : Option Sheet) (j : Importer) : Task → Prop
  | follow target p => resolveWithin files n directory target p i = (result, j)
  | perform statements sheet => ∃ last, result = some last
      ∧ performAll (resolveWithin files n directory) statements sheet i = (last, j)

theorem parseWith_eq {resolve : Resolve} {source : List Char} {sheet : Sheet}
    (h : performAll resolve (Parse.statements source).1 .empty i = (sheet, j)) :
    parseWith resolve source i =
      (match (Parse.statements source).2 with
        | some fault => .error fault
        | none => .ok sheet, j) := by
  rw [parseWith]
  rcases hstatements : Parse.statements source with ⟨statements, fault⟩
  rw [hstatements] at h
  simp only [h]
  cases fault <;> rfl

/-- A file is entered, and left again after its statements, within one less. -/
theorem resolveWithin_of_load {n : Nat} {p : Position} {text : String} {sheet : Sheet}
    {k : Importer} (hfind : i.find? files directory target = some found) (hfree : found ∉ i.stack)
    (hload : load files i found = (.ok text, j))
    (hperform : performAll (resolveWithin files n found.parent?)
      (Parse.statements text.toList).1 .empty (j.push found) = (sheet, k)) :
    resolveWithin files (n + 1) directory target p i =
      leave found (Parse.statements text.toList).2 sheet k := by
  simp only [resolveWithin, hfind, List.contains_iff_mem, hfree, if_false, hload,
    parseWith_eq hperform]
  cases (Parse.statements text.toList).2 <;> rfl

/-- **The importer does what the rules say**, within a bound above the number of
    files that are not on the stack. -/
theorem Runs.computes (h : Runs files directory task i result j seen) :
    ∀ n, unseen files i.stack ≤ n → task.Computes files (n + 1) directory i result j := by
  induction h with
  | missing hfind =>
      intro n _
      simp only [Task.Computes, resolveWithin, hfind]
  | cyclic hfind hentered =>
      intro n _
      simp only [Task.Computes, resolveWithin, hfind, List.contains_iff_mem.mpr hentered, if_true]
  | unreadable hfind hfree hload =>
      intro n _
      simp only [Task.Computes, resolveWithin, hfind, List.contains_iff_mem, hfree, if_false, hload]
  | @entered _ _ _ i j _ found _ _ _ hfind hfree hload _ ih =>
      intro n hn
      -- there is a file to enter, so the bound is not zero
      have hlt := unseen_cons_lt hfind hfree
      obtain ⟨n, rfl⟩ := Nat.exists_eq_add_one_of_ne_zero (show n ≠ 0 by omega)
      obtain ⟨last, hlast, hperform⟩ := ih n (by rw [push_stack_of_load hload]; omega)
      cases hlast
      exact resolveWithin_of_load hfind hfree hload hperform
  | done => exact fun n _ => ⟨_, rfl, rfl⟩
  | @fileImport _ _ _ _ _ _ _ _ _ result _ _ _ hfollow _ ihfollow ihrest =>
      intro n hn
      have hfirst : resolveWithin files (n + 1) _ _ _ _ = _ := ihfollow n hn
      obtain ⟨last, hlast, hperform⟩ := ihrest n (hfollow.sees.stack ▸ hn)
      refine ⟨last, hlast, ?_⟩
      rw [performAll, hfirst]
      cases result with
      | none => exact hperform
      | some imported => exact hperform
  | @statement _ s _ _ _ _ _ _ hs _ ih =>
      intro n hn
      obtain ⟨last, hlast, hperform⟩ := ih n hn
      refine ⟨last, hlast, ?_⟩
      rw [performAll]
      · exact hperform
      · exact fun target written p h => hs target written p h

/-- A chain of imports is not longer than the number of files, so the bound of the
    importer is no restriction. -/
theorem Runs.resolve_eq {p : Position} (h : Runs files directory (.follow target p) i result j seen) :
    resolve files directory target p i = (result, j) :=
  h.computes files.nodes.length (unseen_le files i.stack)

end Importer

end Less
