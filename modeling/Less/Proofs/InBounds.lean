import Less.Parse.Statement
import Less.Proofs.Location
import Less.Text.Bytes

/-! # Counters and cuts of the reader

    The reader counts open parentheses, and it cuts texts at bytes.  A counter could be
    taken below zero, and a cut could lie out of the text or inside a character.  Here both
    are partial: `decrement?` and `slice?` give nothing then.  The readers written with them
    always give something, and it is what the readers of the library give. -/

namespace Less

open Text

/-! ## Cuts -/

namespace Text

/-- The text cut at a byte, unless that is out of the text or inside a character. -/
def cutAt? : Nat → List Char → Option (List Char × List Char)
  | n, [] => if n = 0 then some ([], []) else none
  | n, c :: cs =>
    if n = 0 then some ([], c :: cs)
    else if c.utf8Size ≤ n then
      (cutAt? (n - c.utf8Size) cs).map fun s => (c :: s.1, s.2)
    else none

/-- The part of a text from one byte to another, unless one of them is out of the text or
    inside a character, or they are out of order. -/
def slice? (cs : List Char) (start stop : Nat) : Option (List Char) := do
  let (_, rest) ← cutAt? start cs
  if start ≤ stop then
    let (part, _) ← cutAt? (stop - start) rest
    return part
  else none

/-- The byte at which a character is found first. -/
def byteIndex? (ch : Char) : List Char → Option Nat
  | [] => none
  | c :: cs => if c = ch then some 0 else (byteIndex? ch cs).map (c.utf8Size + ·)

theorem byteCount_cons (c : Char) (cs : List Char) :
    byteCount (c :: cs) = c.utf8Size + byteCount cs :=
  rfl

theorem byteCount_append (xs ys : List Char) :
    byteCount (xs ++ ys) = byteCount xs + byteCount ys := by
  induction xs with
  | nil => exact (Nat.zero_add _).symm
  | cons c xs ih => rw [List.cons_append, byteCount_cons, byteCount_cons, ih, Nat.add_assoc]

/-- A text is cut behind its front. -/
theorem cutAt?_append (front back : List Char) :
    cutAt? (byteCount front) (front ++ back) = some (front, back) := by
  induction front with
  | nil =>
      cases back with
      | nil | cons => rfl
  | cons c front ih =>
      have hpos := c.utf8Size_pos
      rw [byteCount_cons, List.cons_append, cutAt?, if_neg (by omega), if_pos (by omega),
        Nat.add_sub_cancel_left, ih]
      rfl

/-- A part of a text lies between the bytes in front of it and its own. -/
theorem slice?_append (front part back : List Char) :
    slice? (front ++ (part ++ back)) (byteCount front) (byteCount front + byteCount part) =
      some part := by
  rw [slice?, cutAt?_append]
  show (if _ then _ else _) = some part
  rw [if_pos (Nat.le_add_right _ _), Nat.add_sub_cancel_left, cutAt?_append]
  rfl

theorem byteIndex?_of_notMem {ch : Char} {cs : List Char} (h : ch ∉ cs) :
    byteIndex? ch cs = none := by
  induction cs with
  | nil => rfl
  | cons c cs ih =>
      obtain ⟨hc, hcs⟩ := not_or.mp (mt List.mem_cons.mpr h)
      rw [byteIndex?, if_neg (Ne.symm hc), ih hcs]
      rfl

/-- A character is found behind a text without it. -/
theorem byteIndex?_append {ch : Char} {front : List Char} (h : ch ∉ front) (back : List Char) :
    byteIndex? ch (front ++ ch :: back) = some (byteCount front) := by
  induction front with
  | nil =>
      rw [List.nil_append, byteIndex?, if_pos rfl]
      rfl
  | cons c front ih =>
      obtain ⟨hc, hfront⟩ := not_or.mp (mt List.mem_cons.mpr h)
      rw [List.cons_append, byteIndex?, if_neg (Ne.symm hc), ih hfront]
      rfl

/-- A text is cut at the first place of a character. -/
theorem exists_cut_of_mem {ch : Char} {cs : List Char} (h : ch ∈ cs) :
    ∃ front back, cs = front ++ ch :: back ∧ ch ∉ front ∧ cs.takeWhile (· ≠ ch) = front ∧
      (cs.dropWhile (· ≠ ch)).drop 1 = back := by
  induction cs with
  | nil => cases h
  | cons c cs ih =>
      by_cases hc : c = ch
      · subst hc
        exact ⟨[], cs, rfl, List.not_mem_nil, by simp, by simp⟩
      · obtain ⟨front, back, rfl, hfront, htake, hdrop⟩ :=
          ih ((List.mem_cons.mp h).resolve_left (Ne.symm hc))
        have hgo : decide (c ≠ ch) = true := decide_eq_true hc
        refine ⟨c :: front, back, rfl, fun hmem => ?_, ?_, ?_⟩
        · exact (List.mem_cons.mp hmem).elim (fun heq => hc heq.symm) hfront
        · rw [List.takeWhile_cons_of_pos (p := fun x => decide (x ≠ ch)) hgo, htake]
        · rw [List.dropWhile_cons_of_pos (p := fun x => decide (x ≠ ch)) hgo, hdrop]

end Text

namespace Parse

open Text

/-! ## The content of a string -/

namespace Cursor

/-- A string goes on to its quote. -/
theorem exists_content {quote : Char} {cs : List Char} {s : Split}
    (h : stringRest? quote cs = some s) : ∃ content, s.1 = content ++ [quote] := by
  induction cs using stringRest?.induct quote generalizing s with
  | case1 => cases h
  | case2 c cs ih =>
      rw [stringRest?] at h
      obtain ⟨t, ht, rfl⟩ := Option.map_eq_some_iff.mp h
      obtain ⟨content, hcontent⟩ := ih ht
      exact ⟨'\\' :: c :: content, by rw [keep, keep, hcontent]; rfl⟩
  | case3 cs hne =>
      rw [stringRest?, if_pos rfl] at h
      · cases h
        exact ⟨[], rfl⟩
      · assumption
  | case4 c cs hescape hc ih =>
      rw [stringRest?, if_neg hc] at h
      · obtain ⟨t, ht, rfl⟩ := Option.map_eq_some_iff.mp h
        obtain ⟨content, hcontent⟩ := ih ht
        exact ⟨c :: content, by rw [keep, hcontent]; rfl⟩
      · assumption

/-- The content of a string, from its second byte to the one before its last; there is none
    if that is no part of it. -/
def quotedSlice? (c : Cursor) : Option (Except Fault (Parsed String)) :=
  match c.quoted with
  | .error f => some (.error f)
  | .ok (cs, after) =>
    (slice? cs 1 (byteCount cs - 1)).map fun content => .ok (String.ofList content, after)

/-- **The content of a string lies inside it**, since a quote is one byte long. -/
theorem quotedSlice?_eq {c : Cursor} (h : nextIs isQuote c.rest = true) :
    c.quotedSlice? = some c.quotedContent := by
  rw [quotedSlice?, quotedContent]
  cases hquoted : c.quoted with
  | error f => rfl
  | ok r =>
      obtain ⟨cs, after⟩ := r
      rw [quoted] at hquoted
      split at hquoted
      · cases hquoted
      · rename_i quote rest hrest
        split at hquoted
        · rename_i s hs
          cases hquoted
          obtain ⟨content, hcontent⟩ := exists_content hs
          have hsize : quote.utf8Size = 1 := by
            rw [hrest] at h
            rcases Bool.or_eq_true_iff.mp h with hq | hq
            · rw [beq_iff_eq.mp hq]
              rfl
            · rw [beq_iff_eq.mp hq]
              rfl
          have hone : byteCount [quote] = 1 := congrArg (· + 0) hsize
          have hcount : byteCount (quote :: s.1) - 1 = byteCount [quote] + byteCount content := by
            rw [hcontent, byteCount_cons, byteCount_append, hsize, hone]
            omega
          have hslice : slice? (quote :: s.1) 1 (byteCount (quote :: s.1) - 1) = some content := by
            rw [hcount, hcontent, ← hone]
            exact slice?_append [quote] content [quote]
          show (slice? (quote :: s.1) 1 (byteCount (quote :: s.1) - 1)).map _ = _
          rw [hslice, hcontent]
          show _ = some (Except.ok (String.ofList (content ++ [quote]).dropLast, _))
          rw [List.dropLast_concat]
          rfl
        · cases hquoted

end Cursor

/-! ## The options of an import -/

/-- The options of an import, from its second byte to its first closing parenthesis, and what
    is behind that; there is nothing if these are no parts of the text. -/
def importSlices? (c : Cursor) (cs : List Char) : Option (Except Fault (List String × List Char)) :=
  match cs with
  | '(' :: rest =>
    match byteIndex? ')' ('(' :: rest) with
    | none => some (c.fail .incompleteImportOptions)
    | some stop => do
      let inside ← slice? ('(' :: rest) 1 stop
      let behind ← slice? ('(' :: rest) (stop + 1) (byteCount ('(' :: rest))
      let options := splitWhere (fun ch => ch == ',' || isBlank ch) inside
      return .ok ((options.filter (· ≠ [])).map (lowerAscii ∘ String.ofList), trimStart behind)
  | cs => some (.ok ([], cs))

theorem importOptions_of_ne {cs : List Char} (h : ∀ rest, cs ≠ '(' :: rest) (c : Cursor) :
    importOptions c cs = .ok ([], cs) := by
  rw [importOptions.eq_def]
  split
  · exact absurd rfl (h _)
  · rfl

theorem importSlices?_of_ne {cs : List Char} (h : ∀ rest, cs ≠ '(' :: rest) (c : Cursor) :
    importSlices? c cs = some (.ok ([], cs)) := by
  rw [importSlices?.eq_def]
  split
  · exact absurd rfl (h _)
  · rfl

/-- **The options of an import lie inside it**, and so does what follows them. -/
theorem importSlices?_eq (c : Cursor) (cs : List Char) :
    importSlices? c cs = some (importOptions c cs) := by
  by_cases hparen : ∃ rest, cs = '(' :: rest
  · obtain ⟨rest, rfl⟩ := hparen
    rw [importSlices?, importOptions]
    by_cases hclose : ')' ∈ rest
    · obtain ⟨front, back, hrest, hfront, htake, hdrop⟩ := exists_cut_of_mem hclose
      have hopen : ')' ∉ '(' :: front :=
        fun hmem => (List.mem_cons.mp hmem).elim (by decide) hfront
      have hindex : byteIndex? ')' ('(' :: rest) = some (byteCount ['('] + byteCount front) := by
        rw [hrest]
        exact byteIndex?_append hopen back
      have hinside : slice? ('(' :: rest) 1 (byteCount ['('] + byteCount front) = some front := by
        rw [hrest]
        exact slice?_append ['('] front (')' :: back)
      have hbehind : slice? ('(' :: rest) (byteCount ['('] + byteCount front + 1)
          (byteCount ('(' :: rest)) = some back := by
        have hcount : byteCount ('(' :: front ++ [')']) = byteCount ['('] + byteCount front + 1 :=
          byteCount_append ('(' :: front) [')']
        have hall := slice?_append ('(' :: front ++ [')']) back []
        rw [← byteCount_append, List.append_nil, hcount] at hall
        rw [hrest]
        rwa [List.append_assoc] at hall
      rw [hindex, if_pos (List.contains_iff_mem.mpr hclose), htake, hdrop]
      simp only
      rw [hinside, hbehind]
      rfl
    · have hindex : byteIndex? ')' ('(' :: rest) = none :=
        byteIndex?_of_notMem fun hmem => (List.mem_cons.mp hmem).elim (by decide) hclose
      rw [hindex, if_neg (fun hcontains => hclose (List.contains_iff_mem.mp hcontains))]
  · have hne : ∀ rest, cs ≠ '(' :: rest := fun rest hcs => hparen ⟨rest, hcs⟩
    rw [importSlices?_of_ne hne, importOptions_of_ne hne]

/-! ## Counters -/

/-- One less, unless there is nothing to take it from. -/
def decrement? : Nat → Option Nat
  | 0 => none
  | n + 1 => some n

/-- The rest behind the parenthesis that closes `depth` open ones, if there is one; nothing
    if the number of open ones is taken below zero. -/
def skipBalanced? : Nat → List Char → Option (Option (List Char))
  | _, [] => some none
  | depth, c :: cs =>
    if c = '(' then skipBalanced? (depth + 1) cs
    else if c = ')' then
      match decrement? depth with
      | none => none
      | some 0 => some (some cs)
      | some depth => skipBalanced? depth cs
    else skipBalanced? depth cs

/-- **The parentheses of a mixin are never closed more often than they are opened.** -/
theorem skipBalanced?_eq (depth : Nat) (cs : List Char) :
    skipBalanced? (depth + 1) cs = some (afterBalanced? depth cs) := by
  induction cs generalizing depth with
  | nil => rfl
  | cons c cs ih =>
      rw [skipBalanced?, afterBalanced?.eq_def]
      simp only
      split
      · exact ih (depth + 1)
      · split
        · cases depth with
          | zero => rfl
          | succ depth => exact ih depth
        · exact ih depth

namespace Cursor

/-- The arguments of a call as they are, with `depth` open parentheses; nothing if that is
    taken below zero. -/
def rawScan? (start : Position) : Nat → Option (Char × Position) → Position → List Char →
    Option (Except Fault (Parsed (List Char)))
  | _, some (_, opened), _, [] => some (.error ⟨.unterminatedString, opened⟩)
  | _, none, _, [] => some (.error ⟨.missingParenthesis, start⟩)
  | depth, some (quote, opened), p, '\\' :: c :: cs =>
    (rawScan? start depth (some (quote, opened)) ((p.advance '\\').advance c) cs).map fun x => do
      let (taken, cursor) ← x
      return ('\\' :: c :: taken, cursor)
  | depth, some (quote, opened), p, c :: cs =>
    (rawScan? start depth (if c = quote then none else some (quote, opened)) (p.advance c) cs).map
      fun x => do
        let (taken, cursor) ← x
        return (c :: taken, cursor)
  | depth, none, p, c :: cs =>
    if c = ')' then
      match decrement? depth with
      | none => none
      | some 0 => some (.ok ([c], ⟨cs, p.advance c⟩))
      | some depth =>
        (rawScan? start depth none (p.advance c) cs).map fun x => do
          let (taken, cursor) ← x
          return (c :: taken, cursor)
    else
      let depth' := if c = '(' then depth + 1 else depth
      let quote := if isQuote c then some (c, p) else none
      (rawScan? start depth' quote (p.advance c) cs).map fun x => do
        let (taken, cursor) ← x
        return (c :: taken, cursor)

/-- An open parenthesis is there to be closed. -/
theorem rawScan?_eq (start : Position) {depth : Nat} (hdepth : 0 < depth)
    (quote : Option (Char × Position)) (p : Position) (cs : List Char) :
    rawScan? start depth quote p cs = some (rawArguments start depth quote p cs) := by
  induction depth, quote, p, cs using rawArguments.induct with
  | case1 | case2 => rfl
  | case3 depth quote opened p ch cs ih =>
      rw [rawScan?, rawArguments, ih hdepth]
      rfl
  | case4 depth quote opened p ch cs hescape ih =>
      rw [rawScan?, rawArguments, ih hdepth]
      · rfl
      · assumption
      · assumption
  | case5 depth p ch cs hclose =>
      obtain ⟨rfl, hle⟩ := hclose
      obtain rfl : depth = 1 := by omega
      rfl
  | case6 depth p ch cs hclose depth' quote ih =>
      rw [rawScan?, rawArguments, if_neg hclose]
      by_cases hch : ch = ')'
      · subst hch
        have htwo : 2 ≤ depth := Nat.lt_of_not_le fun hle => hclose ⟨rfl, hle⟩
        obtain ⟨inner, rfl⟩ := Nat.exists_eq_add_of_le' htwo
        have hinner : rawScan? start (inner + 1) none (p.advance ')') cs =
            some (rawArguments start (inner + 1) none (p.advance ')') cs) := ih (Nat.succ_pos inner)
        rw [if_pos rfl]
        show (rawScan? start (inner + 1) none (p.advance ')') cs).map _ = _
        rw [hinner]
        rfl
      · have hdepth' : depth' = if ch = '(' then depth + 1 else depth := by
          simp only [depth', if_neg hch]
        have hpos : 0 < depth' := by
          rw [hdepth']
          split
          · exact Nat.succ_pos _
          · exact hdepth
        rw [if_neg hch, ← hdepth']
        show (rawScan? start depth' quote (p.advance ch) cs).map _ = _
        rw [ih hpos]
        rfl

/-- **The parentheses of a call that is kept are never closed more often than they are
    opened**, since it starts with one. -/
theorem rawScan?_of_peek (start : Position) {c : Cursor} (h : c.peek? = some '(') :
    rawScan? start 0 none c.position c.rest =
      some (rawArguments start 0 none c.position c.rest) := by
  obtain ⟨rest, hrest⟩ := List.head?_eq_some_iff.mp h
  rw [hrest, rawScan?, rawArguments]
  show (rawScan? start 1 none (c.position.advance '(') rest).map _ = _
  rw [rawScan?_eq start Nat.one_pos]
  rfl

end Cursor

end Parse

end Less
