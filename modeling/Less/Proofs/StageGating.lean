import Less.Compiler

/-! # The stages of a compilation

    A compilation reads the text and its imports, resolves the sheet and writes it.
    The stages hand their diagnostics to one handler, which may have taken others
    before, and a stage behind one with diagnostics is left out.

    * `LawfulHandler`: the handler counts what it takes, so that a stage added to
      its count exactly if the stage had a diagnostic (`count_lt_reportAll_iff`).
    * `Compiler.Ends c files source ds css`: the diagnostics of the stages, and what
      is written if there are none.  A compilation leaves just that
      (`compileTo_of_ends`), whatever its handler took before.
    * A line log and a collector take the same messages (`LineLog.Matches`). -/

namespace Less

/-! ## Handlers -/

/-- A handler that counts every message it takes. -/
class LawfulHandler (σ : Type) [Handler σ] : Prop where
  count_handle (h : σ) (message : String) (cause : Option Error) :
    Handler.count (Handler.handle h message cause) = Handler.count h + 1

instance : LawfulHandler Collector where
  count_handle _ _ _ := List.length_append

instance : LawfulHandler LineLog where
  count_handle _ _ _ := rfl

namespace Handler

variable {σ : Type} [Handler σ]

@[simp] theorem reportAll_nil (h : σ) : reportAll h [] = h :=
  rfl

theorem reportAll_concat (h : σ) (es : List Error) (e : Error) :
    reportAll h (es ++ [e]) = report (reportAll h es) e :=
  List.foldl_append

theorem count_reportAll [LawfulHandler σ] (h : σ) (es : List Error) :
    count (reportAll h es) = count h + es.length := by
  induction es generalizing h with
  | nil => rfl
  | cons e es ih =>
      rw [reportAll, List.foldl_cons, ← reportAll, ih, report, LawfulHandler.count_handle,
        List.length_cons]
      omega

/-- **The count tells whether anything was reported**, wherever it started. -/
theorem count_lt_reportAll_iff [LawfulHandler σ] (h : σ) (es : List Error) :
    count h < count (reportAll h es) ↔ es ≠ [] := by
  rw [count_reportAll, Nat.lt_add_right_iff_pos, List.length_pos_iff]

end Handler

/-- A collector keeps its context and adds the messages with it in front. -/
theorem Collector.reportAll_eq (h : Collector) (es : List Error) :
    (Handler.reportAll h es).context = h.context
      ∧ (Handler.reportAll h es).messages
        = h.messages ++ es.map fun e => Handler.withContext h.context e.message := by
  induction es generalizing h with
  | nil => exact ⟨rfl, (List.append_nil _).symm⟩
  | cons e es ih =>
      obtain ⟨hcontext, hmessages⟩ := ih (Handler.report h e)
      exact ⟨hcontext, hmessages.trans (List.append_assoc ..)⟩

/-! ## Line logs and collectors -/

/-- The log has counted the messages of the collector and has written them, one a
    line. -/
structure LineLog.Matches (log : LineLog) (collector : Collector) : Prop where
  context : log.context = collector.context
  count : log.count = collector.messages.length
  text : log.text = String.join (collector.messages.map (· ++ "\n"))

namespace LineLog.Matches

variable {log : LineLog} {collector : Collector}

theorem handle (h : log.Matches collector) (message : String) (cause : Option Error) :
    (Handler.handle log message cause).Matches (Handler.handle collector message cause) where
  context := h.context
  count := by
    show log.count + 1 = (collector.messages ++ [_]).length
    rw [List.length_append, h.count]
    rfl
  text := by
    show log.text ++ Handler.withContext log.context message ++ "\n"
      = String.join ((collector.messages ++ [_]).map _)
    rw [List.map_append, String.join_append, ← h.text, h.context, String.append_assoc]
    rfl

theorem reportAll (h : log.Matches collector) (es : List Error) :
    (Handler.reportAll log es).Matches (Handler.reportAll collector es) := by
  induction es generalizing log collector with
  | nil => exact h
  | cons e es ih => exact ih (h.handle e.message (some e))

end LineLog.Matches

/-! ## Outputs -/

theorem Text.takeBytes_of_le {limit : Nat} {cs : List Char} (h : byteCount cs ≤ limit) :
    takeBytes limit cs = cs := by
  induction cs generalizing limit with
  | nil => rw [takeBytes]
  | cons c cs ih =>
      have hcount : c.utf8Size + byteCount cs ≤ limit := h
      have hpos := Char.utf8Size_pos c
      rw [takeBytes, if_neg (by omega), if_pos (by omega), ih (by omega)]

/-- A text that fits is written as it is. -/
theorem Output.fit_of_fits {output : Output} {text : String} (h : output.fits text = true) :
    output.fit text = text := by
  rw [fit]
  rw [fits] at h
  split
  · rfl
  · rename_i limit hlimit
    rw [hlimit] at h
    rw [Text.takeBytes_of_le (of_decide_eq_true h), String.ofList_toList]

/-! ## Endings -/

namespace Compiler

/-- **How a compilation ends**: with diagnostics of the first stage that has any,
    or with none and a text. -/
inductive Ends (c : Compiler) (files : FileTree) (source : String) :
    List Error → Option String → Prop where
  /-- The text has a fault.  It is reported behind the failed imports. -/
  | faulty {fault : Parse.Fault} {imports : List Error}
      (hread : c.read files source = (.error fault, imports)) :
      Ends c files source (imports ++ [fault.toError]) none
  /-- Imports failed. -/
  | importing {sheet : Sheet} {imports : List Error}
      (hread : c.read files source = (.ok sheet, imports)) (hne : imports ≠ []) :
      Ends c files source imports none
  /-- The sheet was not resolved. -/
  | resolving {sheet resolved : Sheet} {ds : List Error}
      (hread : c.read files source = (.ok sheet, []))
      (hresolved : sheet.transform c.functions = some (resolved, ds)) (hne : ds ≠ []) :
      Ends c files source ds none
  /-- The resolved sheet is written. -/
  | written {sheet resolved : Sheet} (hread : c.read files source = (.ok sheet, []))
      (hresolved : sheet.transform c.functions = some (resolved, [])) :
      Ends c files source [] (some (resolved.toCss c.options.minify))

variable {c : Compiler} {files : FileTree} {source : String} {ds : List Error} {css : Option String}

/-- A text is written exactly if there are no diagnostics. -/
theorem Ends.isSome_iff (h : c.Ends files source ds css) : css.isSome = true ↔ ds = [] := by
  cases h with
  | faulty => simp
  | importing _ hne => simp [hne]
  | resolving _ _ hne => simp [hne]
  | written => simp

/-- A compilation ends, unless the sheet is resolved beyond the bound. -/
theorem exists_ends (c : Compiler) (files : FileTree) (source : String) :
    (∃ ds css, c.Ends files source ds css)
      ∨ ∃ sheet, c.read files source = (.ok sheet, []) ∧ sheet.transform c.functions = none := by
  rcases hread : c.read files source with ⟨parsed, imports⟩
  cases parsed with
  | error fault => exact Or.inl ⟨_, _, .faulty hread⟩
  | ok sheet =>
      by_cases hne : imports = []
      · subst hne
        cases hresolved : sheet.transform c.functions with
        | none => exact Or.inr ⟨sheet, rfl, hresolved⟩
        | some r =>
            obtain ⟨resolved, ds⟩ := r
            by_cases hds : ds = []
            · subst hds
              exact Or.inl ⟨_, _, .written hread hresolved⟩
            · exact Or.inl ⟨_, _, .resolving hread hresolved hds⟩
      · exact Or.inl ⟨_, _, .importing hread hne⟩

variable {σ : Type} [Handler σ]

/-- **A compilation leaves what it ends with**, whatever the handler took before. -/
theorem compileTo_of_ends [LawfulHandler σ] (h : c.Ends files source ds css) (handler : σ) {output : Output}
    (hfits : output.fits (css.getD "") = true) :
    c.compileTo files source output handler =
      some { handler := Handler.reportAll handler ds, written := css.getD "", result := .ok () } := by
  cases h with
  | faulty hread =>
      rw [compileTo, hread, Handler.reportAll_concat]
      rfl
  | importing hread hne =>
      rw [compileTo, hread]
      exact if_pos ((Handler.count_lt_reportAll_iff handler _).mpr hne)
  | resolving hread hresolved hne =>
      rw [compileTo, hread]
      simp only [Handler.reportAll_nil, Nat.lt_irrefl, if_false, hresolved]
      exact if_pos ((Handler.count_lt_reportAll_iff handler _).mpr hne)
  | written hread hresolved =>
      rw [compileTo, hread]
      simp only [Handler.reportAll_nil, Nat.lt_irrefl, if_false, hresolved]
      rw [Option.getD_some] at hfits ⊢
      rw [Output.fit_of_fits hfits, if_pos hfits]

/-- A sheet that is not resolved within the bound leaves nothing. -/
theorem compileTo_of_exhausted {sheet : Sheet} (hread : c.read files source = (.ok sheet, []))
    (hnone : sheet.transform c.functions = none) (handler : σ) (output : Output) :
    c.compileTo files source output handler = none := by
  rw [compileTo, hread]
  simp only [Handler.reportAll_nil, Nat.lt_irrefl, if_false, hnone]

/-- The text, or the messages of all diagnostics. -/
theorem compileIn_of_ends (h : c.Ends files source ds css) (context : Option String) :
    c.compileIn files context source = css.elim
      (.failed (.compile (ds.map fun e => Handler.withContext context e.message))) .done := by
  have hroom : Output.fits {} (css.getD "") = true := rfl
  have hrun := compileTo_of_ends h ({ context } : Collector) hroom
  have hcount := Handler.count_lt_reportAll_iff ({ context } : Collector) ds
  have hmessages := (Collector.reportAll_eq { context } ds).2
  rw [compileIn]
  simp only [hrun]
  cases css with
  | some text =>
      have hds : ds = [] := h.isSome_iff.mp rfl
      exact if_neg fun hlt => hcount.mp hlt hds
  | none =>
      have hds : ds ≠ [] := fun hds => Bool.false_ne_true (h.isSome_iff.mpr hds)
      rw [hmessages]
      exact if_pos (hcount.mpr hds)

/-- **A STAGE WITH DIAGNOSTICS IS THE LAST.**  Every compilation ends, unless the
    sheet is resolved beyond the bound, and then it has no result.  If it ends with
    the diagnostics `ds`, then, whatever the handler took before and for every
    output that has room:

    * the handler takes exactly these, and the output gets the text of the resolved
      sheet if there are none, and else nothing;
    * the compilation to text gives that text, or fails with the messages of all of
      them, of which there are some, each with the context in front;
    * a line log and a collector that agree before agree afterwards: the log has
      counted the messages of the collector, and has written them one a line. -/
theorem stages_gated (c : Compiler) (files : FileTree) (source : String) :
    ((∃ ds css, c.Ends files source ds css)
        ∨ ((∀ {σ : Type} [Handler σ] (handler : σ) (output : Output),
              c.compileTo files source output handler = none)
          ∧ ∀ context, c.compileIn files context source = .exhausted))
      ∧ ∀ ds css, c.Ends files source ds css →
        (css.isSome = true ↔ ds = [])
        ∧ (∀ {σ : Type} [Handler σ] [LawfulHandler σ] (handler : σ) (output : Output),
            output.fits (css.getD "") = true →
              c.compileTo files source output handler = some
                { handler := Handler.reportAll handler ds, written := css.getD "", result := .ok () }
              ∧ Handler.count (Handler.reportAll handler ds) = Handler.count handler + ds.length)
        ∧ (∀ context, c.compileIn files context source = css.elim
            (.failed (.compile (ds.map fun e => Handler.withContext context e.message))) .done)
        ∧ ∀ (log : LineLog) (collector : Collector), log.Matches collector →
            ∃ log' collector', log'.Matches collector'
              ∧ (c.compileTo files source {} log).map Compilation.handler = some log'
              ∧ (c.compileTo files source {} collector).map Compilation.handler = some collector' := by
  constructor
  · rcases exists_ends c files source with hends | ⟨sheet, hread, hnone⟩
    · exact Or.inl hends
    · refine Or.inr ⟨fun handler output => compileTo_of_exhausted hread hnone handler output, ?_⟩
      intro context
      rw [compileIn, compileTo_of_exhausted hread hnone]
  · intro ds css hends
    refine ⟨hends.isSome_iff, fun handler output hfits =>
      ⟨compileTo_of_ends hends handler hfits, Handler.count_reportAll handler ds⟩,
      compileIn_of_ends hends, fun log collector hmatches => ?_⟩
    have hroom : Output.fits {} (css.getD "") = true := rfl
    refine ⟨_, _, hmatches.reportAll ds, ?_, ?_⟩
    · rw [compileTo_of_ends hends log hroom]
      rfl
    · rw [compileTo_of_ends hends collector hroom]
      rfl

/-- A handler that has taken a message before, and a log and a collector that have
    not, for a text with an undefined variable; then a text without faults. -/
theorem stages_gated_behind_message :
    let c : Compiler := {}
    let handler : Collector := { context := some "x.less", messages := ["x.less old"] }
    (∃ ds, c.Ends {} ".a\x7bb:@c\x7d" ds none
        ∧ c.compileTo {} ".a\x7bb:@c\x7d" {} handler =
            some { handler := Handler.reportAll handler ds, written := "", result := .ok () }
        ∧ ds.map (fun e => Handler.withContext (some "x.less") e.message)
            = ["x.less [1:5] - Undefined variable: @c"]
        ∧ ∃ (log : LineLog) (collector : Collector), log.Matches collector
          ∧ (c.compileTo {} ".a\x7bb:@c\x7d" {} ({} : LineLog)).map Compilation.handler = some log
          ∧ (c.compileTo {} ".a\x7bb:@c\x7d" {} ({} : Collector)).map Compilation.handler
              = some collector)
      ∧ c.Ends {} ".a\x7bb:c\x7d" [] (some ".a \x7b\n  b: c;\n\x7d")
      ∧ c.compileTo {} ".a\x7bb:c\x7d" {} handler =
          some { handler, written := ".a \x7b\n  b: c;\n\x7d", result := .ok () } := by
  intro c handler
  have hfaulty : c.compileIn {} (some "x.less") ".a\x7bb:@c\x7d" =
      .failed (.compile ["x.less [1:5] - Undefined variable: @c"]) := by decide +kernel
  have hclean : c.compileIn {} (some "x.less") ".a\x7bb:c\x7d" = .done ".a \x7b\n  b: c;\n\x7d" := by
    decide +kernel
  refine ⟨?_, ?_⟩
  · obtain ⟨⟨ds, css, hends⟩ | ⟨-, hnone⟩, hall⟩ := stages_gated c {} ".a\x7bb:@c\x7d"
    · obtain ⟨-, hrun, htext, hlog⟩ := hall ds css hends
      cases css with
      | some text => cases (htext _).symm.trans hfaulty
      | none =>
          have hmessages := Evaluation.failed.inj ((htext _).symm.trans hfaulty)
          exact ⟨ds, hends, (hrun handler {} rfl).1, Error.compile.inj hmessages,
            hlog {} {} ⟨rfl, rfl, rfl⟩⟩
    · cases (hnone _).symm.trans hfaulty
  · obtain ⟨⟨ds, css, hends⟩ | ⟨-, hnone⟩, hall⟩ := stages_gated c {} ".a\x7bb:c\x7d"
    · obtain ⟨hiff, hrun, htext, -⟩ := hall ds css hends
      cases css with
      | none => cases (htext _).symm.trans hclean
      | some text =>
          cases (htext _).symm.trans hclean
          cases hiff.mp rfl
          exact ⟨hends, (hrun handler {} rfl).1⟩
    · cases (hnone _).symm.trans hclean

end Compiler

end Less
