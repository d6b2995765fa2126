import Less.Proofs.ImportRun
import Mathlib.Logic.Relation

/-! # Imports that lead back

    The files of a tree form a graph: a file leads to those that its text imports
    (`Imports`).  The importer keeps no record of it, only the stack of the files
    it has entered.  That is enough to notice every loop it can reach: a run
    without new diagnostics has followed **every** import of every file it came
    to, none of which was on the stack (`Runs.unlooped`).

    A run reads files, or takes their texts from its cache.  Which of the two it
    does cannot be told from what it gives (`Runs.transfer`): importers that see
    the same texts give the same sheet and the same new diagnostics. -/

namespace Less.Importer

variable {files : FileTree} {i j i' : Importer} {directory : Option Path} {target : String}
    {found : Path} {task : Task} {result : Option Sheet} {seen : List (List Path)}

/-! ## Texts that were read before -/

/-- The cache holds what is read from the files. -/
def Faithful (files : FileTree) (i : Importer) : Prop :=
  ∀ p text, i.cache.get? p.text = some text → files.read p = .ok text

theorem faithful_iff : i.Faithful files ↔ i.text files = files.read := by
  constructor
  · intro h
    funext p
    rw [text]
    split
    · rename_i text htext
      rw [h p text htext]
    · rfl
  · intro h p text htext
    rw [← h, Importer.text, htext]

/-- A faithful cache stays so. -/
theorem Runs.faithful (h : Runs files directory task i result j seen) (hi : i.Faithful files) :
    j.Faithful files := by
  rw [faithful_iff] at hi ⊢
  rw [h.sees.text, hi]

/-- A file is loaded alike by importers that see the same. -/
theorem Sees.exists_load {r : Except FileError String} (hs : Sees files i i')
    (hload : load files i found = (r, j)) :
    ∃ j', load files i' found = (r, j') ∧ Sees files j j' ∧ j'.diagnostics = i'.diagnostics := by
  obtain ⟨htext, hsees, -⟩ := sees_of_load hload
  obtain ⟨htext', hsees', hds'⟩ := load_spec files i' found
  refine ⟨(load files i' found).2, ?_, hsees.symm.trans (hs.trans hsees'), hds'⟩
  rw [hs.text, htext] at htext'
  rw [← htext']

theorem leave_fst (p : Path) (fault : Option Parse.Fault) (sheet : Sheet) (i j : Importer) :
    (leave p fault sheet i).1 = (leave p fault sheet j).1 := by
  cases fault <;> rfl

theorem leave_diagnostics (p : Path) (fault : Option Parse.Fault) (sheet : Sheet) (i : Importer) :
    (leave p fault sheet i).2.diagnostics =
      i.diagnostics ++ (leave p fault sheet {}).2.diagnostics := by
  cases fault with
  | none => exact (List.append_nil _).symm
  | some f => rfl

/-- **A run depends on nothing but what is seen**: it gives the same sheet and the
    same new diagnostics, and the stack goes through the same states. -/
theorem Runs.transfer (h : Runs files directory task i result j seen) (hs : Sees files i i') :
    ∃ j' new, Runs files directory task i' result j' seen
      ∧ j.diagnostics = i.diagnostics ++ new ∧ j'.diagnostics = i'.diagnostics ++ new := by
  induction h generalizing i' with
  | @missing directory target p i hfind =>
      have hrun : Runs files directory (.follow target p) i' _ _ _ :=
        .missing ((hs.find?_eq directory target).trans hfind)
      rw [hs.candidates_eq] at hrun
      exact ⟨_, [_], hrun, rfl, rfl⟩
  | @cyclic directory target p i found hfind hentered =>
      have hrun : Runs files directory (.follow target p) i' _ _ _ :=
        .cyclic ((hs.find?_eq directory target).trans hfind) (hs.stack ▸ hentered)
      exact ⟨_, [_], hrun, rfl, rfl⟩
  | @unreadable directory target p i j found e hfind hfree hload =>
      obtain ⟨j', hload', -, hds'⟩ := hs.exists_load hload
      have hds := (sees_of_load hload).2.2
      have hrun : Runs files directory (.follow target p) i' _ _ _ :=
        .unreadable ((hs.find?_eq directory target).trans hfind) (hs.stack ▸ hfree) hload'
      exact ⟨_, [_], hrun, congrArg (· ++ [_]) hds, congrArg (· ++ [_]) hds'⟩
  | @entered directory target p i j k found text sheet seen hfind hfree hload hrun ih =>
      obtain ⟨j', hload', hsees, hds'⟩ := hs.exists_load hload
      obtain ⟨k', new, hrun', hnew, hnew'⟩ := ih (hsees.push found)
      have hds : k.diagnostics = i.diagnostics ++ new := (sees_of_load hload).2.2 ▸ hnew
      have hpop : k'.pop.stack = k.pop.stack := congrArg List.tail
        ((hrun.sees.symm.trans (hsees.push found)).trans hrun'.sees).stack
      have hwhole : Runs files directory (.follow target p) i' _ _ _ := .entered
        ((hs.find?_eq directory target).trans hfind) (hs.stack ▸ hfree) hload' hrun'
      rw [(hsees.push found).stack, hpop, leave_fst found _ sheet k' k] at hwhole
      refine ⟨_, new ++ (leave found (Parse.statements text.toList).2 sheet {}).2.diagnostics,
        hwhole, ?_, ?_⟩
      · rw [leave_diagnostics, hds, List.append_assoc]
      · rw [leave_diagnostics, hnew', ← hds', List.append_assoc]
        rfl
  | done => exact ⟨i', [], .done, (List.append_nil _).symm, (List.append_nil _).symm⟩
  | fileImport hfollow _ ihfollow ihrest =>
      obtain ⟨j', first, hfollow', hfirst, hfirst'⟩ := ihfollow hs
      obtain ⟨k', second, hrest', hsecond, hsecond'⟩ :=
        ihrest (hfollow.sees.symm.trans (hs.trans hfollow'.sees))
      refine ⟨k', first ++ second, .fileImport hfollow' hrest', ?_, ?_⟩
      · rw [hsecond, hfirst, List.append_assoc]
      · rw [hsecond', hfirst', List.append_assoc]
  | statement hother _ ih =>
      obtain ⟨k', new, hrest', hnew, hnew'⟩ := ih hs
      exact ⟨k', new, .statement hother hrest', hnew, hnew'⟩

/-- A run takes no diagnostic back. -/
theorem Runs.extends (h : Runs files directory task i result j seen) :
    i.diagnostics <+: j.diagnostics := by
  obtain ⟨-, new, -, hnew, -⟩ := h.transfer (.refl files i)
  exact ⟨new, hnew.symm⟩

/-! ## Loops -/

/-- The text of a file has an import that leads to another one. -/
def Imports (files : FileTree) (i : Importer) (f g : Path) : Prop :=
  ∃ text target written p, i.text files f = .ok text
    ∧ .fileImport target written p ∈ (Parse.statements text.toList).1
    ∧ i.find? files f.parent? target = some g

theorem Sees.imports_eq (h : Sees files i j) : Imports files j = Imports files i := by
  funext f g
  simp only [Imports, h.text, h.find?_eq]

/-- No file that is reached is on the stack or leads back to itself. -/
def Unlooped (files : FileTree) (i : Importer) (f : Path) : Prop :=
  ∀ g, Relation.ReflTransGen (Imports files i) f g →
    g ∉ i.stack ∧ ¬ Relation.TransGen (Imports files i) g g

theorem Sees.unlooped (h : Sees files i j) {f : Path} (hf : Unlooped files j f) :
    Unlooped files i f := by
  rw [Unlooped, h.imports_eq, h.stack] at hf
  exact hf

/-- A file that is not on the stack leads into no loop, if those it imports lead
    into none while it is on the stack. -/
theorem unlooped_of_push (hfree : found ∉ i.stack)
    (h : ∀ f, Imports files i found f → Unlooped files (i.push found) f) :
    Unlooped files i found := by
  intro g hg
  rcases hg.cases_head with rfl | ⟨f, hf, hfg⟩
  · refine ⟨hfree, fun hloop => ?_⟩
    -- the loop has a first import, after which the file is met while it is on the stack
    obtain ⟨f, hf, hback⟩ := Relation.TransGen.head'_iff.mp hloop
    exact (h f hf found hback).1 List.mem_cons_self
  · obtain ⟨hfree', hloop⟩ := h f hf g hfg
    exact ⟨fun hg => hfree' (List.mem_cons_of_mem found hg), hloop⟩

/-- No import of the task leads into a loop. -/
def Task.Unlooped (files : FileTree) (directory : Option Path) (i : Importer) : Task → Prop
  | follow target _ => ∀ f, i.find? files directory target = some f → i.Unlooped files f
  | perform statements _ => ∀ target written p, .fileImport target written p ∈ statements →
      ∀ f, i.find? files directory target = some f → i.Unlooped files f

/-- **A loop is never passed over**: a run without new diagnostics has met none. -/
theorem Runs.unlooped (h : Runs files directory task i result j seen)
    (hds : j.diagnostics = i.diagnostics) : task.Unlooped files directory i := by
  induction h with
  | missing hfind => exact fun f hf => nomatch hfind.symm.trans hf
  | cyclic => exact absurd hds (by simp [fail, record])
  | unreadable _ _ hload => exact absurd hds (by simp [fail, record, (sees_of_load hload).2.2])
  | @entered directory target p i j k found text sheet seen hfind hfree hload hrun ih =>
      obtain ⟨htext, hsees, hloaded⟩ := sees_of_load hload
      rw [leave_diagnostics, ← hloaded] at hds
      have hback : k.diagnostics <+: j.diagnostics := ⟨_, hds⟩
      have hquiet : k.diagnostics = (j.push found).diagnostics :=
        hback.sublist.antisymm hrun.extends.sublist
      intro f hf
      obtain rfl : found = f := Option.some.inj (hfind.symm.trans hf)
      refine unlooped_of_push hfree fun g hg => ?_
      obtain ⟨text', target', written, p', htext', hmem, hg⟩ := hg
      obtain rfl : text = text' := Except.ok.inj (htext.symm.trans htext')
      have hpush := hsees.push found
      exact hpush.unlooped (ih hquiet target' written p' hmem g ((hpush.find?_eq _ _).trans hg))
  | done => exact fun _ _ _ h => absurd h List.not_mem_nil
  | fileImport hfollow hrest ihfollow ihrest =>
      have hback := hds ▸ hrest.extends
      have hfirst := hback.sublist.antisymm hfollow.extends.sublist
      intro target written p hmem f hf
      rcases List.mem_cons.mp hmem with heq | hmem
      · cases heq
        exact ihfollow hfirst f hf
      · have hsees := hfollow.sees
        exact hsees.unlooped (ihrest (hds.trans hfirst.symm) target written p hmem f ((hsees.find?_eq _ _).trans hf))
  | statement hs _ ih =>
      intro target written p hmem f hf
      rcases List.mem_cons.mp hmem with heq | hmem
      · exact absurd heq.symm (hs target written p)
      · exact ih hds target written p hmem f hf

/-! ## Every import -/

/-- **An import comes to an end and leaves the stack as it was.**  Whatever the
    files import, and whichever of them have been entered:

    * there is a run, and every run gives what the importer gives;
    * the stack never holds a file twice on the way, so it grows by no more than
      the files that were not on it, and a stack of files is never longer than
      the number of files;
    * after the run, the stack is what it was before;
    * if there is no new diagnostic, no file that the import leads to leads back
      to itself;
    * texts that the cache holds, if they are the texts of the files, make no
      difference to the sheet and to the new diagnostics, and such a cache stays
      so. -/
theorem resolve_ends (files : FileTree) (directory : Option Path) (target : String) (p : Position)
    (i : Importer) (hi : i.stack.Nodup) :
    (∃ result j seen, Runs files directory (.follow target p) i result j seen)
      ∧ ∀ result j seen, Runs files directory (.follow target p) i result j seen →
        resolve files directory target p i = (result, j)
        ∧ (∀ s ∈ seen, s.Nodup ∧ s.length ≤ i.stack.length + unseen files i.stack
          ∧ (i.stack ⊆ files.paths → s.length ≤ files.paths.toFinset.card))
        ∧ j.stack = i.stack
        ∧ (j.diagnostics = i.diagnostics → ∀ f, i.find? files directory target = some f →
          ∀ g, Relation.ReflTransGen (Imports files i) f g →
            ¬ Relation.TransGen (Imports files i) g g)
        ∧ (i.Faithful files → j.Faithful files
          ∧ ∀ i' : Importer, i'.includePaths = i.includePaths → i'.stack = i.stack →
            i'.Faithful files → ∃ j' new, resolve files directory target p i' = (result, j')
              ∧ j.diagnostics = i.diagnostics ++ new ∧ j'.diagnostics = i'.diagnostics ++ new) := by
  refine ⟨exists_runs files directory target p i, fun result j seen hrun => ?_⟩
  refine ⟨hrun.resolve_eq, fun s hs => ?_, hrun.sees.stack, fun hds f hf g hg => ?_, ?_⟩
  · have hgrown := hrun.grown hi s hs
    exact ⟨hgrown.nodup, hgrown.length_le, hgrown.length_le_card⟩
  · exact (hrun.unlooped hds f hf g hg).2
  · refine fun hfaithful => ⟨hrun.faithful hfaithful, fun i' hpaths hstack hfaithful' => ?_⟩
    have hsees : Sees files i i' := ⟨hpaths, hstack,
      (faithful_iff.mp hfaithful').trans (faithful_iff.mp hfaithful).symm⟩
    obtain ⟨j', new, hrun', hnew, hnew'⟩ := hrun.transfer hsees
    exact ⟨j', new, hrun'.resolve_eq, hnew, hnew'⟩

/-- Four files, of which the first leads to the last in two ways, and two files
    that import each other. -/
def importedFiles : FileTree where
  nodes := [
    (["a.less".toList], .file (some "@import 'b'; @import 'c'; .a { x: 1 }")),
    (["b.less".toList], .file (some "@import 'd.less'; .b { x: 2 }")),
    (["c.less".toList], .file (some "@import 'd'; .c { x: 3 }")),
    (["d.less".toList], .file (some ".d { x: 4 }")),
    (["e.less".toList], .file (some "@import 'f'; .e { x: 5 }")),
    (["f.less".toList], .file (some "@import 'e'; .f { x: 6 }"))]

/-- The importer while a file that imports the others is read. -/
def importerOfMain : Importer where
  stack := [⟨"/main.less"⟩]

/-- The same, after one of the files has been read. -/
def importerOfMainLater : Importer :=
  (load importedFiles importerOfMain ⟨"/d.less"⟩).2

theorem faithful_importerOfMain : importerOfMain.Faithful importedFiles :=
  fun _ _ h => nomatch h

theorem resolve_ends_of_importedFiles :
    importerOfMain.stack.Nodup
      ∧ (resolve importedFiles (some ⟨"/"⟩) "a" ⟨1, 1⟩ importerOfMain).2.diagnostics = []
      ∧ (∀ g, Relation.ReflTransGen (Imports importedFiles importerOfMain) ⟨"/a.less"⟩ g →
        ¬ Relation.TransGen (Imports importedFiles importerOfMain) g g)
      ∧ (resolve importedFiles (some ⟨"/"⟩) "a" ⟨1, 1⟩ importerOfMainLater).1
        = (resolve importedFiles (some ⟨"/"⟩) "a" ⟨1, 1⟩ importerOfMain).1
      ∧ (resolve importedFiles (some ⟨"/"⟩) "e" ⟨1, 1⟩ importerOfMain).2.diagnostics.length = 1 := by
  have hnodup : importerOfMain.stack.Nodup := by decide
  obtain ⟨⟨result, j, seen, hrun⟩, hall⟩ :=
    resolve_ends importedFiles (some ⟨"/"⟩) "a" ⟨1, 1⟩ importerOfMain hnodup
  obtain ⟨hresolve, -, -, hloops, hcache⟩ := hall result j seen hrun
  have hquiet : (resolve importedFiles (some ⟨"/"⟩) "a" ⟨1, 1⟩ importerOfMain).2.diagnostics = [] := by
    decide +kernel
  have hfind : importerOfMain.find? importedFiles (some ⟨"/"⟩) "a" = some ⟨"/a.less"⟩ := by
    decide +kernel
  have hsees := (load_spec importedFiles importerOfMain ⟨"/d.less"⟩).2.1
  have hfaithful : importerOfMainLater.Faithful importedFiles :=
    faithful_iff.mpr (hsees.text.trans (faithful_iff.mp faithful_importerOfMain))
  obtain ⟨j', new, hresolve', -⟩ :=
    (hcache faithful_importerOfMain).2 importerOfMainLater hsees.includePaths hsees.stack hfaithful
  refine ⟨hnodup, hquiet, ?_, ?_, by decide +kernel⟩
  · rw [hresolve] at hquiet
    exact hloops hquiet _ hfind
  · rw [hresolve, hresolve']

end Less.Importer
