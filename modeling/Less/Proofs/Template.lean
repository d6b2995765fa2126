import Less.Function.Builtin
import Mathlib.Data.List.Infix

/-! # Templates

    A template is a text with placeholders in it.  Cut at its placeholders from the left,
    it is a text and then slots, each a placeholder with the text up to the next one
    (`Template`).  No text has a placeholder inside, and this alone fixes the cuts
    (`Template.text_injective`): a placeholder cannot overlap another one.

    Filling a template puts the argument of each slot in its place (`fill_text`), and
    nothing that was put in is looked at again.  Upper-case placeholders percent-encode:
    each byte of the text is kept if it is unreserved and becomes `%` and two digits
    otherwise, so that the text can be read back (`percentDecode_percentEncode`). -/

namespace Less

/-! ## Percent-encoding -/

namespace Text

/-- The characters that percent-encoding keeps. -/
def unreserved : List Char :=
  "ABCDEFGHIJKLMNOPQRSTUVWXYZabcdefghijklmnopqrstuvwxyz0123456789-._~".toList

/-- The hexadecimal digits in upper case. -/
def hexDigits : List Char :=
  "0123456789ABCDEF".toList

/-- **An encoding of the UTF-8 bytes of a text**: an unreserved byte is kept, every other
    one becomes `%` and its two digits, and no two texts are encoded alike. -/
structure IsPercentEncoding (encode : List Char → List Char) : Prop where
  injective : Function.Injective encode
  bytewise : ∃ byte : UInt8 → List Char,
    (∀ cs, encode cs = (String.ofList cs).toByteArray.data.toList.flatMap byte) ∧
    (∀ b, ∀ c ∈ unreserved, b.toNat = c.toNat → byte b = [c]) ∧
    ∀ b, (∀ c ∈ unreserved, b.toNat ≠ c.toNat) →
      ∃ high low, hexDigits[b.toNat / 16]? = some high ∧ hexDigits[b.toNat % 16]? = some low ∧
        byte b = ['%', high, low]

theorem bytes_eq (cs : List Char) : bytes cs = (String.ofList cs).toByteArray.data.toList := by
  rw [String.toByteArray_ofList, List.utf8Encode, List.data_toByteArray, bytes]

theorem bytes_injective : Function.Injective bytes := by
  intro cs ds h
  rw [bytes_eq, bytes_eq] at h
  exact String.ofList_injective (String.toByteArray_inj.mp (ByteArray.ext (Array.toList_inj.mp h)))

theorem isUnreserved_iff (b : UInt8) :
    isUnreserved b = true ↔ ∃ c ∈ unreserved, b.toNat = c.toNat := by
  have hall : ((List.range 256).all fun n =>
      isUnreserved (UInt8.ofNat n) == (unreserved.map Char.toNat).contains n) = true := by
    decide +kernel
  have hb := List.all_eq_true.mp hall b.toNat (List.mem_range.mpr b.toNat_lt)
  rw [UInt8.ofNat_toNat, beq_iff_eq] at hb
  rw [hb, List.contains_iff_mem, List.mem_map]
  exact exists_congr fun c => and_congr_right fun _ => eq_comm

theorem percentByte_of_mem {b : UInt8} {c : Char} (hc : c ∈ unreserved) (h : b.toNat = c.toNat) :
    percentByte b = [c] := by
  rw [percentByte, if_pos ((isUnreserved_iff b).mpr ⟨c, hc, h⟩), h, Char.ofNat_toNat]

theorem percentByte_of_notMem {b : UInt8} (h : ∀ c ∈ unreserved, b.toNat ≠ c.toNat) :
    percentByte b = ['%', upperHexDigit (b.toNat / 16), upperHexDigit (b.toNat % 16)] := by
  have hreserved : ¬isUnreserved b = true := by
    rw [isUnreserved_iff]
    rintro ⟨c, hc, heq⟩
    exact h c hc heq
  rw [percentByte, if_neg hreserved]

theorem getElem?_hexDigits {n : Nat} (h : n < 16) : hexDigits[n]? = some (upperHexDigit n) := by
  have hall : ∀ n < 16, hexDigits[n]? = some (upperHexDigit n) := by decide
  exact hall n h

/-- The bytes of a percent-encoded text. -/
def percentDecode : List Char → List UInt8
  | [] => []
  | '%' :: high :: low :: cs =>
      UInt8.ofNat (16 * hexDigits.idxOf high + hexDigits.idxOf low) :: percentDecode cs
  | c :: cs => UInt8.ofNat c.toNat :: percentDecode cs

/-- An encoded byte is read back. -/
theorem percentDecode_percentByte (b : UInt8) (cs : List Char) :
    percentDecode (percentByte b ++ cs) = b :: percentDecode cs := by
  by_cases h : ∃ c ∈ unreserved, b.toNat = c.toNat
  · obtain ⟨c, hc, heq⟩ := h
    have hne : c ≠ '%' := by
      rintro rfl
      exact absurd hc (by decide)
    rw [percentByte_of_mem hc heq, List.singleton_append, percentDecode.eq_def]
    split
    · rename_i heq'
      cases heq'
    · rename_i heq'
      exact absurd (List.cons.inj heq').1 hne
    · rename_i heq'
      obtain ⟨rfl, rfl⟩ := List.cons.inj heq'
      rw [← heq, UInt8.ofNat_toNat]
  · have hvalue : ∀ n < 16, hexDigits.idxOf (upperHexDigit n) = n := by decide
    have hb := b.toNat_lt
    rw [percentByte_of_notMem fun c hc heq => h ⟨c, hc, heq⟩]
    show UInt8.ofNat _ :: percentDecode cs = _
    rw [hvalue _ (by omega), hvalue _ (by omega), Nat.div_add_mod, UInt8.ofNat_toNat]

/-- **An encoded text is read back.** -/
theorem percentDecode_percentEncode (cs : List Char) :
    percentDecode (percentEncode cs) = bytes cs := by
  rw [percentEncode]
  induction bytes cs with
  | nil => rfl
  | cons b bs ih => rw [List.flatMap_cons, percentDecode_percentByte, ih]

theorem isPercentEncoding_percentEncode : IsPercentEncoding percentEncode where
  injective := by
    intro cs ds h
    have hbytes := congrArg percentDecode h
    rw [percentDecode_percentEncode, percentDecode_percentEncode] at hbytes
    exact bytes_injective hbytes
  bytewise := by
    refine ⟨percentByte, fun cs => ?_, fun b c hc heq => percentByte_of_mem hc heq, fun b hb => ?_⟩
    · rw [percentEncode, bytes_eq]
    · have hlt := b.toNat_lt
      exact ⟨_, _, getElem?_hexDigits (by omega), getElem?_hexDigits (by omega),
        percentByte_of_notMem hb⟩

end Text

namespace Function

/-! ## Cutting at placeholders -/

/-- A placeholder stands in the text. -/
def HasPlaceholder (cs : List Char) : Prop :=
  ∃ c, isPlaceholder c = true ∧ ['%', c] <:+: cs

/-- The letter of a placeholder, with the text up to the next one. -/
structure Slot where
  letter : Char
  text : List Char
  letter_mem : isPlaceholder letter = true
  plain : ¬HasPlaceholder text

/-- **A text cut at its placeholders**: what stands before the first one, and the slots. -/
structure Template where
  start : List Char
  slots : List Slot
  plain : ¬HasPlaceholder start

/-- The text of slots. -/
def slotsText (slots : List Slot) : List Char :=
  slots.flatMap fun s => '%' :: s.letter :: s.text

/-- The text that was cut. -/
def Template.text (t : Template) : List Char :=
  t.start ++ slotsText t.slots

/-- What stands for a placeholder: its argument, or else the placeholder itself. -/
def Slot.replacement (s : Slot) : Option Expr → List Char
  | some argument => fillOne s.letter argument
  | none => ['%', s.letter]

/-- Slots with the arguments in their places: the one at `i` has the argument at `i`. -/
def filledSlots (slots : List Slot) (arguments : List Expr) : List Char :=
  (slots.mapIdx fun i s => s.replacement arguments[i]? ++ s.text).flatten

/-- The template with the arguments in their places. -/
def Template.filled (t : Template) (arguments : List Expr) : List Char :=
  t.start ++ filledSlots t.slots arguments

/-- No letter of a placeholder comes next. -/
def NoLetter (cs : List Char) : Prop :=
  ∀ c back, cs = c :: back → isPlaceholder c = false

theorem noLetter_slotsText (slots : List Slot) : NoLetter (slotsText slots) := by
  cases slots with
  | nil => exact nofun
  | cons s slots =>
      rintro c back heq
      obtain ⟨rfl, -⟩ := List.cons.inj heq
      rfl

/-- A text without placeholders, with one more character in front. -/
theorem not_hasPlaceholder_cons {c : Char} {cs : List Char} (h : ¬HasPlaceholder cs)
    (hc : c = '%' → NoLetter cs) : ¬HasPlaceholder (c :: cs) := by
  rintro ⟨letter, hletter, hinfix⟩
  rcases List.infix_cons_iff.mp hinfix with ⟨back, hback⟩ | hinfix
  · obtain ⟨rfl, rfl⟩ := List.cons.inj hback
    rw [hc rfl letter back rfl] at hletter
    cases hletter
  · exact h ⟨letter, hletter, hinfix⟩

theorem not_hasPlaceholder_nil : ¬HasPlaceholder [] := by
  rintro ⟨letter, -, hinfix⟩
  exact absurd (List.infix_nil.mp hinfix) (List.cons_ne_nil _ _)

/-- **Every text is cut into a template.** -/
theorem exists_template (body : List Char) : ∃ t : Template, t.text = body := by
  match body with
  | [] => exact ⟨⟨[], [], not_hasPlaceholder_nil⟩, rfl⟩
  | c :: cs =>
      by_cases h : c = '%' → NoLetter cs
      · -- the character belongs to the text in front
        obtain ⟨t, rfl⟩ := exists_template cs
        have hstart : c = '%' → NoLetter t.start := fun hc letter back heq =>
          h hc letter (back ++ slotsText t.slots) (by rw [Template.text, heq]; rfl)
        exact ⟨⟨c :: t.start, t.slots, not_hasPlaceholder_cons t.plain hstart⟩, rfl⟩
      · -- a slot starts here
        rw [Classical.not_imp, NoLetter] at h
        obtain ⟨rfl, h⟩ := h
        push Not at h
        obtain ⟨letter, back, rfl, hletter⟩ := h
        obtain ⟨t, rfl⟩ := exists_template back
        exact ⟨⟨[], ⟨letter, t.start, Bool.of_not_eq_false hletter, t.plain⟩ :: t.slots,
          not_hasPlaceholder_nil⟩, rfl⟩
termination_by body.length

/-- Where two cuts of a text start, the text of one is not longer. -/
theorem prefix_of_append_eq {start start' : List Char} {slots slots' : List Slot}
    (hplain : ¬HasPlaceholder start') (h : start ++ slotsText slots = start' ++ slotsText slots') :
    start' <+: start := by
  rcases List.append_eq_append_iff.mp h with ⟨more, rfl, hmore⟩ | ⟨more, rfl, -⟩
  · cases slots with
    | nil =>
        have hnil : more = [] := (List.append_eq_nil_iff.mp hmore.symm).1
        rw [hnil, List.append_nil]
    | cons s slots =>
        rcases more with _ | ⟨c, _ | ⟨d, more⟩⟩
        · rw [List.append_nil]
        · -- the placeholder would start inside one text and end in the other
          have hletter := noLetter_slotsText slots' s.letter _ (List.cons.inj hmore).2.symm
          rw [s.letter_mem] at hletter
          cases hletter
        · obtain ⟨hc, hmore⟩ := List.cons.inj hmore
          obtain ⟨hd, -⟩ := List.cons.inj hmore
          exact absurd ⟨s.letter, s.letter_mem, start, more, by rw [hc, hd]; simp⟩ hplain
  · exact List.prefix_append _ _

/-- **A text is cut in one way only.** -/
theorem Template.text_injective : Function.Injective Template.text := by
  have hall : ∀ (slots slots' : List Slot) {start start' : List Char}, ¬HasPlaceholder start →
      ¬HasPlaceholder start' → start ++ slotsText slots = start' ++ slotsText slots' →
      start = start' ∧ slots = slots' := by
    intro slots
    induction slots with
    | nil =>
        intro slots' start start' hplain hplain' h
        obtain rfl := (prefix_of_append_eq hplain h.symm).eq_of_length_le
          (prefix_of_append_eq hplain' h).length_le
        cases slots' with
        | nil => exact ⟨rfl, rfl⟩
        | cons s' slots' => cases List.append_cancel_left h
    | cons s slots ih =>
        intro slots' start start' hplain hplain' h
        obtain rfl := (prefix_of_append_eq hplain h.symm).eq_of_length_le
          (prefix_of_append_eq hplain' h).length_le
        cases slots' with
        | nil => cases List.append_cancel_left h
        | cons s' slots' =>
            obtain ⟨letter, text, hletter, htext⟩ := s
            obtain ⟨letter', text', hletter', htext'⟩ := s'
            obtain ⟨-, h⟩ := List.cons.inj (List.append_cancel_left h)
            obtain ⟨rfl, h⟩ := List.cons.inj h
            obtain ⟨rfl, rfl⟩ := ih slots' htext htext' h
            exact ⟨rfl, rfl⟩
  rintro ⟨start, slots, hplain⟩ ⟨start', slots', hplain'⟩ h
  obtain ⟨rfl, rfl⟩ := hall slots slots' hplain hplain' h
  rfl

/-! ## Filling -/

/-- A character that starts no placeholder is kept, and so is every one when no argument is
    left. -/
theorem fill_cons {c : Char} {cs : List Char} {arguments : List Expr}
    (h : c = '%' → arguments = [] ∨ NoLetter cs) :
    fill (c :: cs) arguments = c :: fill cs arguments := by
  rw [fill.eq_def]
  split
  · rename_i heq
    cases heq
  · rename_i d cs heq
    obtain ⟨rfl, rfl⟩ := List.cons.inj heq
    rfl
  · rename_i d cs argument others heq
    obtain ⟨rfl, rfl⟩ := List.cons.inj heq
    rcases h rfl with hnil | hletter
    · cases hnil
    · rw [if_neg (Bool.eq_false_iff.mp (hletter d cs rfl))]
  · rename_i heq _ _
    obtain ⟨rfl, rfl⟩ := List.cons.inj heq
    rfl

theorem fill_nil (cs : List Char) : fill cs [] = cs := by
  induction cs with
  | nil => rfl
  | cons c cs ih => rw [fill_cons fun _ => Or.inl rfl, ih]

/-- A text without placeholders is kept. -/
theorem fill_append {start rest : List Char} {arguments : List Expr}
    (hplain : ¬HasPlaceholder start) (hrest : NoLetter rest) :
    fill (start ++ rest) arguments = start ++ fill rest arguments := by
  induction start with
  | nil => rfl
  | cons c start ih =>
      have hlater : ¬HasPlaceholder start := by
        rintro ⟨letter, hletter, hinfix⟩
        exact hplain ⟨letter, hletter, hinfix.trans (List.suffix_cons c start).isInfix⟩
      have hnext : c = '%' → NoLetter (start ++ rest) := by
        rintro rfl
        cases start with
        | nil => exact hrest
        | cons d start =>
            intro letter back heq
            obtain ⟨rfl, -⟩ := List.cons.inj heq
            refine Bool.eq_false_iff.mpr fun hletter => hplain ⟨d, hletter, [], start, rfl⟩
      rw [List.cons_append, fill_cons fun hc => Or.inr (hnext hc), ih hlater, List.cons_append]

/-- A placeholder takes the first argument. -/
theorem fill_slot (s : Slot) (rest : List Char) (arguments : List Expr) :
    fill ('%' :: s.letter :: rest) arguments =
      s.replacement arguments[0]? ++ fill rest arguments.tail := by
  cases arguments with
  | nil =>
      rw [fill_nil, List.tail_nil, fill_nil]
      rfl
  | cons argument others =>
      rw [fill, if_pos s.letter_mem]
      rfl

/-- **Filling puts each argument in the place of its placeholder.** -/
theorem fill_text (t : Template) (arguments : List Expr) :
    fill t.text arguments = t.filled arguments := by
  have hall : ∀ (slots : List Slot) (start : List Char) (arguments : List Expr),
      ¬HasPlaceholder start →
      fill (start ++ slotsText slots) arguments = start ++ filledSlots slots arguments := by
    intro slots
    induction slots with
    | nil =>
        intro start arguments hplain
        rw [fill_append hplain (noLetter_slotsText [])]
        rfl
    | cons s slots ih =>
        intro start arguments hplain
        have htail : ∀ i : Nat, arguments.tail[i]? = arguments[i + 1]? := fun i => by
          rw [List.getElem?_tail]
        rw [fill_append hplain (noLetter_slotsText (s :: slots))]
        show start ++ fill ('%' :: s.letter :: (s.text ++ slotsText slots)) arguments = _
        rw [fill_slot, ih s.text arguments.tail s.plain, filledSlots, filledSlots, List.mapIdx_cons,
          List.flatten_cons, List.append_assoc]
        simp only [htail]
  exact hall t.slots t.start arguments t.plain

/-! ## What is put in -/

/-- A literal that is a string, with what stands between its quotes. -/
def IsQuotedLiteral (e : Expr) (content : List Char) : Prop :=
  ∃ q p, Text.isQuote q = true ∧ e = .literal (String.ofList (q :: content ++ [q])) p

/-- **What an argument puts in the place of a placeholder**: its text, that of a string
    without its quotes at `%s` and `%S`, encoded at the upper-case placeholders. -/
structure IsInsertion (insert : Char → Expr → List Char) : Prop where
  string {e content} : IsQuotedLiteral e content →
    insert 's' e = content ∧ insert 'S' e = Text.percentEncode content
  other {e} : (∀ content, ¬IsQuotedLiteral e content) →
    insert 's' e = e.text.toList ∧ insert 'S' e = Text.percentEncode e.text.toList
  whole (e) : insert 'd' e = e.text.toList ∧ insert 'a' e = e.text.toList ∧
    insert 'D' e = Text.percentEncode e.text.toList ∧
    insert 'A' e = Text.percentEncode e.text.toList

theorem unquote_append {q : Char} (hq : Text.isQuote q = true) (content : List Char) :
    Text.unquote (q :: content ++ [q]) = some (q, content) := by
  rw [List.cons_append, Text.unquote, List.getLast?_append_of_ne_nil _ (List.cons_ne_nil _ _), hq]
  simp

theorem eq_of_unquote {cs content : List Char} {q : Char} (h : Text.unquote cs = some (q, content)) :
    Text.isQuote q = true ∧ cs = q :: content ++ [q] := by
  cases cs with
  | nil => cases h
  | cons c cs =>
      rw [Text.unquote] at h
      split at h
      · rename_i hc
        obtain ⟨hc, hlast⟩ := Bool.and_eq_true_iff.mp hc
        cases h
        refine ⟨hc, ?_⟩
        rw [List.cons_append, List.dropLast_append_getLast? q (beq_iff_eq.mp hlast)]
      · cases h

theorem withoutQuotes_append {q : Char} (hq : Text.isQuote q = true) (content : List Char) :
    withoutQuotes (q :: content ++ [q]) = content := by
  rw [withoutQuotes, unquote_append hq]

theorem withoutQuotes_eq {cs : List Char}
    (h : ∀ q content, Text.isQuote q = true → cs ≠ q :: content ++ [q]) : withoutQuotes cs = cs := by
  rw [withoutQuotes]
  split
  · rename_i q content hunquote
    obtain ⟨hq, hcs⟩ := eq_of_unquote hunquote
    exact absurd hcs (h q content hq)
  · rfl

theorem isInsertion_fillOne : IsInsertion fillOne where
  string := by
    rintro e content ⟨q, p, hq, rfl⟩
    have hcontent : withoutQuotes (String.ofList (q :: content ++ [q])).toList = content := by
      rw [String.toList_ofList, withoutQuotes_append hq]
    exact ⟨hcontent, congrArg Text.percentEncode hcontent⟩
  other := by
    intro e he
    cases e with
    | literal s p =>
        have htext : withoutQuotes s.toList = s.toList := by
          refine withoutQuotes_eq fun q content hq hs => he content ⟨q, p, hq, ?_⟩
          rw [← hs, String.ofList_toList]
        exact ⟨htext, congrArg Text.percentEncode htext⟩
    | constant | var | list | call | access | binary => exact ⟨rfl, rfl⟩
  whole := by
    intro e
    cases e with
    | literal | constant | var | list | call | access | binary => exact ⟨rfl, rfl, rfl, rfl⟩

/-! ## The function -/

/-- **Formatting fills the one template that the text between the quotes is.**  The text is
    cut at its placeholders in one way.  Each placeholder is replaced by the argument at its
    place, or stays if there is none, and all else is kept between the same quotes; arguments
    without a placeholder are ignored. -/
theorem format_fills_template {template : Expr} {q : Char} {body : List Char}
    (hq : Text.isQuote q = true) (htemplate : template.text.toList = q :: body ++ [q])
    (arguments : List Expr) :
    (∃ t : Template, t.text = body ∧ (∀ other : Template, other.text = body → other = t) ∧
      Registry.builtin.call "%" (template :: arguments) =
        .ok (.literal (String.ofList (q :: t.filled arguments ++ [q])) none)) ∧
    IsInsertion fillOne ∧ Text.IsPercentEncoding Text.percentEncode := by
  obtain ⟨t, rfl⟩ := exists_template body
  refine ⟨⟨t, rfl, fun other h => Template.text_injective h, ?_⟩, isInsertion_fillOne,
    Text.isPercentEncoding_percentEncode⟩
  show format "%" (template :: arguments) = _
  rw [format, htemplate, unquote_append hq]
  simp only [fill_text]

/-- Three placeholders, the first behind a percent sign, and two arguments, of which the first
    looks like a placeholder. -/
theorem format_fills_template_with_two :
    Text.isQuote '"' = true ∧
    (Expr.literal "\"%%s%S-%d\"" none).text.toList = '"' :: "%%s%S-%d".toList ++ ['"'] ∧
    ∃ t : Template, t.text = "%%s%S-%d".toList ∧
      t.filled [.literal "%d" none, .literal "'a b'" none] = "%%da%20b-%d".toList := by
  obtain ⟨⟨t, htext, -, hcall⟩, -⟩ :=
    @format_fills_template (.literal "\"%%s%S-%d\"" none) '"' "%%s%S-%d".toList rfl rfl
      [.literal "%d" none, .literal "'a b'" none]
  have hvalue : Registry.builtin.call "%" [.literal "\"%%s%S-%d\"" none, .literal "%d" none,
      .literal "'a b'" none] =
        .ok (.literal (String.ofList ('"' :: "%%da%20b-%d".toList ++ ['"'])) none) := rfl
  injection hcall.symm.trans hvalue with hliteral
  injection hliteral with hstring
  exact ⟨rfl, rfl, t, htext,
    List.append_cancel_right (List.cons.inj (String.ofList_injective hstring)).2⟩

end Function

end Less
