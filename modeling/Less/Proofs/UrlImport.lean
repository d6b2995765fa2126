import Less.Proofs.Location
import Less.Proofs.ReadWritten

/-! # Imports by address

    An import whose target stands in `url(...)` is not followed but written out.
    The reader takes such an import up to the **next semicolon**, whether or not it
    stands in a string (`statement_url`).

    * Without a semicolon in its address the import is read as it is written,
      and nothing else is read.
    * An address with a semicolon is cut there: what stands before makes up the
      import, and what stands behind is read as statements of its own
      (`statements_urlImport_cut`). -/

namespace Less.Parse

open Less.Text

/-! ## Texts before a semicolon -/

/-- What ends with no blank keeps all of its end before a text that is trimmed. -/
theorem trimEnd_append {xs : List Char} (hxs : blankAfter true xs = false) (ys : List Char) :
    trimEnd (xs ++ ys) = xs ++ trimEnd ys := by
  have hkept := trimEnd_of_last hxs
  rw [trimEnd] at hkept
  rw [trimEnd, trimEnd, List.reverse_append, List.dropWhile_append]
  split
  · rename_i hblank
    rw [List.isEmpty_iff.mp hblank, hkept, List.reverse_nil, List.append_nil]
  · rw [List.reverse_append, List.reverse_reverse]

namespace Cursor

/-- A statement without a block is read up to the first semicolon. -/
theorem statementText_eq {text : List Char} (h : ';' ∉ text) (rest : List Char) (p : Position) :
    statementText ⟨text ++ ';' :: rest, p⟩ =
      .ok (text, ⟨rest, (p.after text).advance ';'⟩) := by
  have hall : ∀ c ∈ text, (decide (c ≠ ';')) = true :=
    fun c hc => decide_eq_true fun heq => h (heq ▸ hc)
  have hupTo : upTo ⟨text ++ ';' :: rest, p⟩ ';' = .ok (text, ⟨';' :: rest, p.after text⟩) := by
    rw [upTo, takeWhile_eq hall rfl]
    exact if_neg (List.cons_ne_nil _ _)
  rw [statementText, hupTo]
  show (do let c ← expect ⟨';' :: rest, p.after text⟩ ';'; return (text, c)) = _
  rw [expect_eq]
  rfl

end Cursor

/-! ## Imports -/

/-- The start of an import by address. -/
def urlStart : List Char := "@import url(".toList

theorem blankAfter_urlMark : blankAfter true "url(".toList = false := rfl

/-- An address has no target that is followed. -/
theorem importTarget?_url (text : List Char) :
    importTarget? ("url(".toList ++ trimEnd text) = none := by
  have htrim : trim ("url(".toList ++ trimEnd text) =
      'u' :: ("rl(".toList ++ trimEnd (trimEnd text)) :=
    trimEnd_append blankAfter_urlMark (trimEnd text)
  rw [importTarget?, htrim]
  simp only
  rw [if_neg (by decide), if_pos]
  exact List.isPrefixOf_iff_prefix.mpr (List.prefix_append "url(".toList _)

namespace Cursor

/-- **An import by address ends at the next semicolon**, and is written out
    without the blanks before it. -/
theorem statement_url {text : List Char} (h : ';' ∉ text) (rest : List Char) (p : Position) :
    statement ⟨urlStart ++ (text ++ ';' :: rest), p⟩ =
      .ok (.cssImport (String.ofList (urlStart ++ (trimEnd text ++ [';']))),
        ⟨rest, p.after (urlStart ++ (text ++ [';']))⟩) := by
  have hkeyword : atKeyword ⟨urlStart ++ (text ++ ';' :: rest), p⟩ =
      ("import",
        ⟨(" url(".toList ++ text) ++ ';' :: rest, (p.advance '@').after "import".toList⟩) := by
    rw [List.append_assoc]
    exact atKeyword_eq (w := "import".toList) rfl ("url(".toList ++ (text ++ ';' :: rest)) p
  have hvariable : variableAhead ⟨urlStart ++ (text ++ ';' :: rest), p⟩ = false :=
    variableAhead_keyword (w := "import".toList) rfl (show 'u'.isAlpha = true from rfl) _ p
  have htaken : ';' ∉ " url(".toList ++ text :=
    fun hmem => (List.mem_append.mp hmem).elim (by decide) h
  have htrim : trim (" url(".toList ++ text) = "url(".toList ++ trimEnd text :=
    trimEnd_append blankAfter_urlMark text
  have hoptions : ∀ c, importOptions c ("url(".toList ++ trimEnd text) =
      .ok ([], "url(".toList ++ trimEnd text) := fun _ => rfl
  have hposition : (((p.advance '@').after "import".toList).after (" url(".toList ++ text)).advance
      ';' = p.after (urlStart ++ (text ++ [';'])) := by
    have hstart : urlStart = ['@'] ++ "import".toList ++ " url(".toList := rfl
    rw [hstart, Position.after_append, Position.after_append, Position.after_append,
      Position.after_append, Position.after_append]
    rfl
  have htext : "@import " ++ String.ofList ("url(".toList ++ trimEnd text) ++ ";" =
      String.ofList (urlStart ++ (trimEnd text ++ [';'])) := by
    rw [show urlStart = "@import ".toList ++ "url(".toList from rfl]
    simp only [String.ofList_append, String.ofList_toList, String.append_assoc]
  have himport : importStatement ⟨urlStart ++ (text ++ ';' :: rest), p⟩ =
      .ok (.cssImport (String.ofList (urlStart ++ (trimEnd text ++ [';']))),
        ⟨rest, p.after (urlStart ++ (text ++ [';']))⟩) := by
    rw [importStatement, hkeyword]
    show (statementText ⟨(" url(".toList ++ text) ++ ';' :: rest, _⟩ >>= _) = _
    rw [statementText_eq htaken, hposition]
    show (importOptions _ (trim (" url(".toList ++ text)) >>= _) = _
    rw [htrim, hoptions]
    simp only [bind, Except.bind, importTarget?_url, htext]
    rfl
  have hlower : lowerAscii "import" = "import" := rfl
  rw [statement, if_pos (show peek? _ = some '@' from rfl), atStatement, hvariable, hkeyword]
  simp only [hlower]
  rw [if_neg Bool.false_ne_true, if_pos trivial]
  exact himport

/-- The statements behind an import by address are read behind its semicolon. -/
theorem statementsFrom_url {text : List Char} (h : ';' ∉ text) (rest : List Char) (n : Nat)
    (p : Position) :
    statementsFrom (n + 1) ⟨urlStart ++ (text ++ ';' :: rest), p⟩ =
      let more := statementsFrom n ⟨rest, p.after (urlStart ++ (text ++ [';']))⟩
      (.cssImport (String.ofList (urlStart ++ (trimEnd text ++ [';']))) :: more.1, more.2) := by
  have hsolid : Solid (urlStart ++ (text ++ ';' :: rest)) := solid_cons (c := '@') rfl (by decide) _
  have hne : urlStart ++ (text ++ ';' :: rest) ≠ [] := List.cons_ne_nil '@' _
  rw [statementsFrom, skipTrivia_solid hsolid]
  simp only [if_neg hne, statement_url h]

end Cursor

/-- The import of a quoted address. -/
def urlImport (address : List Char) : List Char :=
  urlStart ++ ('"' :: (address ++ "\");".toList))

/-- An import whose address is cut in front of a semicolon. -/
def cutImport (front : List Char) : String :=
  String.ofList (urlStart ++ (trimEnd ('"' :: front) ++ [';']))

/-- **An address without a semicolon** is read as it is written, and nothing else
    is read. -/
theorem parse_urlImport {address : List Char} (h : ';' ∉ address) :
    Sheet.parse (urlImport address) =
      .ok { imports := [String.ofList (urlImport address)] } := by
  have hquoted : ';' ∉ '"' :: (address ++ "\")".toList) := by
    rintro (_ | ⟨_, hmem⟩)
    exact (List.mem_append.mp hmem).elim h (by decide)
  have hsource : urlImport address =
      urlStart ++ ('"' :: (address ++ "\")".toList) ++ [';']) := by
    rw [urlImport, List.cons_append, List.append_assoc]
    rfl
  have htrim : trimEnd ('"' :: (address ++ "\")".toList)) =
      '"' :: (address ++ "\")".toList) := by
    refine trimEnd_of_last ?_
    rw [← List.cons_append, blankAfter_append]
    rfl
  have hstatements : statements (urlImport address) =
      ([.cssImport (String.ofList (urlImport address))], none) := by
    rw [statements, hsource, Cursor.ofText, Cursor.statementsFrom_url hquoted, htrim]
    -- the text is not empty, so that the end of it is reached
    rw [List.length_append, ← List.append_assoc, List.length_append]
    rfl
  rw [Sheet.parse, hstatements]
  rfl

/-- **An address is cut at its first semicolon**; what stands behind it is read
    as statements of its own. -/
theorem statements_urlImport_cut {front : List Char} (h : ';' ∉ front) (back : List Char) :
    statements (urlImport (front ++ ';' :: back)) =
      let more := Cursor.statementsFrom (urlImport (front ++ ';' :: back)).length
        ⟨back ++ "\");".toList, Position.start.after (urlStart ++ ('"' :: front ++ [';']))⟩
      (.cssImport (cutImport front) :: more.1, more.2) := by
  have hquoted : ';' ∉ '"' :: front := by
    rintro (_ | ⟨_, hmem⟩)
    exact h hmem
  have hsource : urlImport (front ++ ';' :: back) =
      urlStart ++ ('"' :: front ++ ';' :: (back ++ "\");".toList)) := by
    rw [urlImport, List.append_assoc, List.cons_append, List.cons_append]
  rw [statements, hsource, Cursor.ofText, Cursor.statementsFrom_url hquoted]
  rfl

end Less.Parse

namespace Less

open Parse

/-- Imports stay where they are when statements are added. -/
theorem Sheet.imports_foldl_perform (ss : List Statement) (sheet : Sheet) :
    sheet.imports <+: (ss.foldl Sheet.perform sheet).imports := by
  induction ss generalizing sheet with
  | nil => exact List.prefix_rfl
  | cons s ss ih =>
      refine List.IsPrefix.trans ?_ (ih (sheet.perform s))
      match s with
      | .cssImport _ | .fileImport _ _ _ => exact List.prefix_append _ _
      | .charset _ | .variable _ _ | .element _ => exact List.prefix_rfl

/-- A sheet with a cut address starts with the cut import. -/
theorem Sheet.imports_of_cut {front back : List Char} (h : ';' ∉ front) {sheet : Sheet}
    (hsheet : Sheet.parse (urlImport (front ++ ';' :: back)) = .ok sheet) :
    ∃ more, sheet.imports = cutImport front :: more := by
  rw [Sheet.parse, statements_urlImport_cut h back] at hsheet
  split at hsheet
  · cases hsheet
  · rename_i ss hss
    cases hsheet
    obtain ⟨rfl, -⟩ := Prod.mk.inj hss
    obtain ⟨more, hmore⟩ := Sheet.imports_foldl_perform
      (Cursor.statementsFrom (urlImport (front ++ ';' :: back)).length
        ⟨back ++ "\");".toList, Position.start.after (urlStart ++ ('"' :: front ++ [';']))⟩).1
      (Sheet.empty.perform (.cssImport (cutImport front)))
    exact ⟨more, hmore.symm⟩

theorem cutImport_ne (front back : List Char) :
    cutImport front ≠ String.ofList (urlImport (front ++ ';' :: back)) := by
  intro heq
  -- the cut import is shorter
  have hlength := congrArg List.length (String.ofList_injective heq)
  obtain ⟨blanks, hblanks, -⟩ := Text.trimEnd_spec ('"' :: front)
  have hle := congrArg List.length hblanks
  have hclose : "\");".toList.length = 3 := rfl
  simp only [urlImport, List.length_append, List.length_cons, List.length_nil] at hlength hle
  omega

/-- **IMPORTS BY ADDRESS ARE READ AS THEY ARE WRITTEN, EXCEPT FOR SEMICOLONS.**
    The import of a quoted address is read as the one import of the sheet, with no
    variables and no elements, exactly if the address has no semicolon.  Otherwise
    the import is cut in front of the first one, also in a string, and the rest of
    the address with what closes it is read as statements; a sheet that comes out
    starts with the cut import. -/
theorem Sheet.parse_urlImport_iff (address : List Char) :
    (Sheet.parse (urlImport address) = .ok { imports := [String.ofList (urlImport address)] } ↔
      ';' ∉ address) ∧
    ∀ front back, address = front ++ ';' :: back → ';' ∉ front →
      (statements (urlImport address) =
        let more := Cursor.statementsFrom (urlImport address).length
          ⟨back ++ "\");".toList, Position.start.after (urlStart ++ ('"' :: front ++ [';']))⟩
        (.cssImport (cutImport front) :: more.1, more.2)) ∧
      ∀ sheet, Sheet.parse (urlImport address) = .ok sheet →
        ∃ more, sheet.imports = cutImport front :: more := by
  refine ⟨⟨fun hparse hmem => ?_, parse_urlImport⟩, ?_⟩
  · obtain ⟨front, back, rfl, hfront⟩ := List.eq_append_cons_of_mem hmem
    obtain ⟨more, hmore⟩ := Sheet.imports_of_cut hfront hparse
    exact cutImport_ne front back (List.cons.inj hmore).1.symm
  · rintro front back rfl hfront
    exact ⟨statements_urlImport_cut hfront back, fun sheet => Sheet.imports_of_cut hfront⟩

/-- The address `a;b` is cut: the string that closes it is then not closed itself.
    Behind `a;//b` the rest is a comment, and the sheet has the cut import. -/
theorem Sheet.address_is_cut :
    (∃ f, Sheet.parse (urlImport "a;b".toList) = .error f ∧ f.cause = .unterminatedString) ∧
    ∃ sheet, Sheet.parse (urlImport "a;//b".toList) = .ok sheet ∧
      sheet.imports = ["@import url(\"a;"] := by
  have hfault : (match Sheet.parse (urlImport "a;b".toList) with
      | .error f => some f.cause
      | .ok _ => none) = some .unterminatedString := by decide +kernel
  have himports : (Sheet.parse (urlImport "a;//b".toList)).toOption.map Sheet.imports =
      some ["@import url(\"a;"] := by decide +kernel
  constructor
  · split at hfault
    · rename_i f hf
      exact ⟨f, hf, Option.some.inj hfault⟩
    · cases hfault
  · obtain ⟨sheet, hsheet, himports⟩ := Option.map_eq_some_iff.mp himports
    exact ⟨sheet, eq_ok_of_toOption hsheet, himports⟩

end Less
