import Less.Proofs.Word

/-! # Colors as hexadecimal notations

    A color without translucency is written with one digit for each channel if both
    digits of every channel are the same, and with two otherwise.

    Two digits denote a byte exactly if they are its two halves (`byteOfHex_eq_iff`).  So
    three or six digits are known from the color they denote, up to the case of letters
    (`map_hexValue_of_three`, `map_hexValue_of_six`), and three digits denote doubled
    channels only (`hasShortForm_of_ofHex?`).  What is written is therefore the shortest
    notation (`isShortestNotation_text`), it is one token (`tokenAt_color`), and it is read
    as the color again (`solid_color_survives`). -/

namespace Less

open Text

/-! ## Hexadecimal digits -/

/-- A hexadecimal digit that is no capital. -/
def isLowerHexDigit (c : Char) : Bool :=
  c.isDigit || ('a' ≤ c && c ≤ 'f')

/-- The codes of the hexadecimal digits. -/
def hexCodes : List Nat :=
  [48, 49, 50, 51, 52, 53, 54, 55, 56, 57, 65, 66, 67, 68, 69, 70, 97, 98, 99, 100, 101, 102]

theorem toNat_mem_hexCodes {c : Char} (h : isHexDigit c = true) : c.toNat ∈ hexCodes := by
  simp only [isHexDigit, Bool.or_eq_true, Bool.and_eq_true, decide_eq_true_eq] at h
  have hcode : (48 ≤ c.toNat ∧ c.toNat ≤ 57 ∨ 97 ≤ c.toNat ∧ c.toNat ≤ 102)
      ∨ 65 ≤ c.toNat ∧ c.toNat ≤ 70 :=
    h.imp_left fun h => h.imp_left Parse.toNat_of_isDigit
  simp only [hexCodes, List.mem_cons, List.not_mem_nil, or_false]
  omega

/-- What holds of the characters with these codes holds of the hexadecimal digits. -/
theorem of_isHexDigit {P : Char → Prop} (hP : ∀ n ∈ hexCodes, P (Char.ofNat n)) {c : Char}
    (h : isHexDigit c = true) : P c := by
  have hc := hP c.toNat (toNat_mem_hexCodes h)
  rwa [Char.ofNat_toNat] at hc

theorem isHexDigit_of_isLowerHexDigit {c : Char} (h : isLowerHexDigit c = true) :
    isHexDigit c = true :=
  Bool.or_eq_true_iff.mpr (Or.inl h)

theorem forall_isHexDigit {ds : List Char} (h : ∀ d ∈ ds, isLowerHexDigit d = true) :
    ∀ d ∈ ds, isHexDigit d = true :=
  fun d hd => isHexDigit_of_isLowerHexDigit (h d hd)

theorem isNameChar_of_isHexDigit {c : Char} (h : isHexDigit c = true) :
    Parse.isNameChar c = true :=
  of_isHexDigit (P := fun c => Parse.isNameChar c = true) (by decide) h

namespace Color

variable {high low : Char} {b : UInt8} {c : Color} {ds es : List Char}

theorem hexValue_lt (h : isHexDigit high = true) : hexValue high < 16 :=
  of_isHexDigit (P := fun c => hexValue c < 16) (by decide) h

theorem digitChar_hexValue (h : isLowerHexDigit high = true) :
    Nat.digitChar (hexValue high) = high := by
  have hboth := of_isHexDigit
    (P := fun c => isLowerHexDigit c = true → Nat.digitChar (hexValue c) = c) (by decide)
    (isHexDigit_of_isLowerHexDigit h)
  exact hboth h

theorem hexValue_digitChar : ∀ n < 16, hexValue (Nat.digitChar n) = n := by decide

theorem isLowerHexDigit_digitChar : ∀ n < 16, isLowerHexDigit (Nat.digitChar n) = true := by decide

/-! ## Bytes -/

/-- **Two digits denote a byte exactly if they are its halves.** -/
theorem byteOfHex_eq_iff (hhigh : isHexDigit high = true) (hlow : isHexDigit low = true) :
    byteOfHex high low = b ↔ hexValue high = b.toNat / 16 ∧ hexValue low = b.toNat % 16 := by
  have hhigh := hexValue_lt hhigh
  have hlow := hexValue_lt hlow
  have hb := b.toNat_lt
  rw [byteOfHex, ← UInt8.toNat_inj, UInt8.toNat_ofNat_of_lt' (by show _ < 256; omega)]
  omega

theorem byteOfHex_digitChar (b : UInt8) :
    byteOfHex (Nat.digitChar (b.toNat / 16)) (Nat.digitChar (b.toNat % 16)) = b := by
  have hb := b.toNat_lt
  have hhigh : b.toNat / 16 < 16 := by omega
  have hlow : b.toNat % 16 < 16 := by omega
  rw [byteOfHex_eq_iff (isHexDigit_of_isLowerHexDigit (isLowerHexDigit_digitChar _ hhigh))
    (isHexDigit_of_isLowerHexDigit (isLowerHexDigit_digitChar _ hlow)),
    hexValue_digitChar _ hhigh, hexValue_digitChar _ hlow]
  exact ⟨rfl, rfl⟩

/-- A byte with equal halves is denoted by one digit, doubled. -/
theorem byteOfHex_of_isDoubled (h : isDoubled b = true) :
    byteOfHex (Nat.digitChar (b.toNat % 16)) (Nat.digitChar (b.toNat % 16)) = b := by
  have hdigits := byteOfHex_digitChar b
  rwa [beq_iff_eq.mp h] at hdigits

theorem isDoubled_byteOfHex {d : Char} (hd : isHexDigit d = true) :
    isDoubled (byteOfHex d d) = true := by
  obtain ⟨hhigh, hlow⟩ := (byteOfHex_eq_iff hd hd).mp rfl
  rw [isDoubled, ← hhigh, ← hlow]
  exact beq_self_eq_true _

/-! ## Notations -/

/-- The color with these channels that is not translucent. -/
def solid (red green blue : UInt8) : Color :=
  { red, green, blue }

/-- `#` and `n` digits. -/
def IsNotation (isDigit : Char → Bool) (n : Nat) (s : String) : Prop :=
  ∃ ds, s = String.ofList ('#' :: ds) ∧ ds.length = n ∧ ∀ d ∈ ds, isDigit d = true

/-- `#` and `n` hexadecimal digits in any case. -/
abbrev IsHexNotation : Nat → String → Prop :=
  IsNotation isHexDigit

/-- `#` and `n` hexadecimal digits without capitals. -/
abbrev IsLowerNotation : Nat → String → Prop :=
  IsNotation isLowerHexDigit

/-- **The shortest notation of a color without capitals**: no notation of the color is
    shorter, and no other without capitals is as short. -/
structure IsShortestNotation (c : Color) (s : String) : Prop where
  lower : ∃ n, IsLowerNotation n s
  denotes : parse? s = some c
  shortest : ∀ n t, IsHexNotation n t → parse? t = some c → s.length ≤ t.length
  only : ∀ n t, IsLowerNotation n t → parse? t = some c → t.length = s.length → t = s

/-! ### What digits denote -/

theorem ofHex?_three {x y z : Char} (hds : ∀ d ∈ [x, y, z], isHexDigit d = true) :
    ofHex? [x, y, z] = some (solid (byteOfHex x x) (byteOfHex y y) (byteOfHex z z)) := by
  rw [ofHex?.eq_def, List.all_eq_true.mpr hds]
  rfl

theorem ofHex?_six {r r' g g' b b' : Char}
    (hds : ∀ d ∈ [r, r', g, g', b, b'], isHexDigit d = true) :
    ofHex? [r, r', g, g', b, b'] =
      some (solid (byteOfHex r r') (byteOfHex g g') (byteOfHex b b')) := by
  rw [ofHex?.eq_def, List.all_eq_true.mpr hds]
  rfl

theorem exists_of_length_six {ds : List Char} (h : ds.length = 6) :
    ∃ r r' g g' b b', ds = [r, r', g, g', b, b'] := by
  match ds, h with
  | [r, r', g, g', b, b'], _ => exact ⟨r, r', g, g', b, b', rfl⟩

/-- A notation denotes what its digits denote: there are no blanks to trim. -/
theorem parse?_hex (hds : ∀ d ∈ ds, isHexDigit d = true) :
    parse? (String.ofList ('#' :: ds)) = ofHex? ds := by
  have hblank : ∀ d ∈ '#' :: ds, isBlank d = false := by
    intro d hd
    rcases List.mem_cons.mp hd with rfl | hd
    · decide
    · exact Parse.isBlank_of_isNameChar (isNameChar_of_isHexDigit (hds d hd))
  have htrim : trim ('#' :: ds) = '#' :: ds :=
    trim_of_tight (tight_of_no_blanks (List.cons_ne_nil _ _) hblank)
  rw [parse?, String.toList_ofList, htrim]
  rfl

theorem length_of_ofHex? (h : ofHex? ds = some c) :
    ds.length = 3 ∨ ds.length = 6 ∨ ds.length = 8 := by
  rw [ofHex?.eq_def] at h
  split at h
  · cases h
  · split at h
    · exact Or.inl rfl
    · exact Or.inr (Or.inl rfl)
    · exact Or.inr (Or.inr rfl)
    · cases h

/-- Three digits are the low halves of the channels. -/
theorem map_hexValue_of_three (hds : ∀ d ∈ ds, isHexDigit d = true) (hlength : ds.length = 3)
    (h : ofHex? ds = some c) :
    ds.map hexValue = [c.red.toNat % 16, c.green.toNat % 16, c.blue.toNat % 16] := by
  obtain ⟨x, y, z, rfl⟩ := List.length_eq_three.mp hlength
  rw [ofHex?_three hds] at h
  cases h
  have hvalue : ∀ d ∈ [x, y, z], (byteOfHex d d).toNat % 16 = hexValue d := fun d hd =>
    ((byteOfHex_eq_iff (hds d hd) (hds d hd)).mp rfl).2.symm
  simp only [List.forall_mem_cons] at hvalue
  obtain ⟨hx, hy, hz, -⟩ := hvalue
  simp only [solid, List.map_cons, List.map_nil, hx, hy, hz]

/-- Six digits are the halves of the channels. -/
theorem map_hexValue_of_six (hds : ∀ d ∈ ds, isHexDigit d = true) (hlength : ds.length = 6)
    (h : ofHex? ds = some c) :
    ds.map hexValue = [c.red.toNat / 16, c.red.toNat % 16, c.green.toNat / 16,
      c.green.toNat % 16, c.blue.toNat / 16, c.blue.toNat % 16] := by
  obtain ⟨r, r', g, g', b, b', rfl⟩ := exists_of_length_six hlength
  rw [ofHex?_six hds] at h
  cases h
  simp only [List.forall_mem_cons] at hds
  obtain ⟨hr, hr', hg, hg', hb, hb', -⟩ := hds
  obtain ⟨hr, hr'⟩ := (byteOfHex_eq_iff hr hr').mp rfl
  obtain ⟨hg, hg'⟩ := (byteOfHex_eq_iff hg hg').mp rfl
  obtain ⟨hb, hb'⟩ := (byteOfHex_eq_iff hb hb').mp rfl
  simp only [solid, List.map_cons, List.map_nil, ← hr, ← hr', ← hg, ← hg', ← hb, ← hb']

/-- Digits without capitals are known from their values. -/
theorem map_digitChar_hexValue (hds : ∀ d ∈ ds, isLowerHexDigit d = true) :
    (ds.map hexValue).map Nat.digitChar = ds := by
  rw [List.map_map]
  conv_rhs => rw [← List.map_id ds]
  exact List.map_congr_left fun d hd => digitChar_hexValue (hds d hd)

/-! ### What is written -/

/-- Both digits of every channel are the same. -/
def HasShortForm (c : Color) : Prop :=
  isDoubled c.red = true ∧ isDoubled c.green = true ∧ isDoubled c.blue = true

instance (c : Color) : Decidable c.HasShortForm :=
  inferInstanceAs (Decidable (_ ∧ _ ∧ _))

theorem hexText_eq (c : Color) : c.hexText =
    if c.HasShortForm then
      '#' :: [c.red.toNat % 16, c.green.toNat % 16, c.blue.toNat % 16].map Nat.digitChar
    else
      '#' :: [c.red.toNat / 16, c.red.toNat % 16, c.green.toNat / 16, c.green.toNat % 16,
        c.blue.toNat / 16, c.blue.toNat % 16].map Nat.digitChar := by
  simp only [hexText, HasShortForm, Bool.and_eq_true, and_assoc]
  rfl

/-- Three digits denote doubled channels. -/
theorem hasShortForm_of_ofHex? (hds : ∀ d ∈ ds, isHexDigit d = true) (hlength : ds.length = 3)
    (h : ofHex? ds = some c) : c.HasShortForm := by
  obtain ⟨x, y, z, rfl⟩ := List.length_eq_three.mp hlength
  rw [ofHex?_three hds] at h
  simp only [List.forall_mem_cons] at hds
  obtain ⟨hx, hy, hz, -⟩ := hds
  cases h
  exact ⟨isDoubled_byteOfHex hx, isDoubled_byteOfHex hy, isDoubled_byteOfHex hz⟩

/-- **What is written are digits without capitals that denote the color**, three if its
    channels are doubled and six otherwise. -/
theorem exists_digits (red green blue : UInt8) : ∃ ds, (solid red green blue).hexText = '#' :: ds
    ∧ ds.length = (if (solid red green blue).HasShortForm then 3 else 6)
    ∧ (∀ d ∈ ds, isLowerHexDigit d = true) ∧ ofHex? ds = some (solid red green blue) := by
  have hlower : ∀ values : List Nat, (∀ n ∈ values, n < 16) →
      ∀ d ∈ values.map Nat.digitChar, isLowerHexDigit d = true := by
    intro values hvalues d hd
    obtain ⟨n, hn, rfl⟩ := List.mem_map.mp hd
    exact isLowerHexDigit_digitChar n (hvalues n hn)
  have hmod : ∀ n, n % 16 < 16 := fun n => Nat.mod_lt n (by decide)
  have hdiv : ∀ b : UInt8, b.toNat / 16 < 16 := by
    intro b
    have hb := b.toNat_lt
    omega
  rw [hexText_eq]
  by_cases h : (solid red green blue).HasShortForm
  · have hdigits := hlower [red.toNat % 16, green.toNat % 16, blue.toNat % 16] (by simp [hmod])
    rw [if_pos h, if_pos h]
    refine ⟨[red.toNat % 16, green.toNat % 16, blue.toNat % 16].map Nat.digitChar, rfl, rfl,
      hdigits, ?_⟩
    simp only [List.map_cons, List.map_nil] at hdigits ⊢
    rw [ofHex?_three (forall_isHexDigit hdigits)]
    obtain ⟨hred, hgreen, hblue⟩ :
        isDoubled red = true ∧ isDoubled green = true ∧ isDoubled blue = true := h
    rw [byteOfHex_of_isDoubled hred, byteOfHex_of_isDoubled hgreen, byteOfHex_of_isDoubled hblue]
  · have hdigits := hlower [red.toNat / 16, red.toNat % 16, green.toNat / 16, green.toNat % 16,
      blue.toNat / 16, blue.toNat % 16] (by simp [hmod, hdiv])
    rw [if_neg h, if_neg h]
    refine ⟨[red.toNat / 16, red.toNat % 16, green.toNat / 16, green.toNat % 16, blue.toNat / 16,
      blue.toNat % 16].map Nat.digitChar, rfl, rfl, hdigits, ?_⟩
    simp only [List.map_cons, List.map_nil] at hdigits ⊢
    rw [ofHex?_six (forall_isHexDigit hdigits), byteOfHex_digitChar, byteOfHex_digitChar,
      byteOfHex_digitChar]

/-- **Digits without capitals are what is written**, if they are as many. -/
theorem hexText_of_ofHex? (hds : ∀ d ∈ ds, isLowerHexDigit d = true)
    (hlength : ds.length = if c.HasShortForm then 3 else 6) (h : ofHex? ds = some c) :
    c.hexText = '#' :: ds := by
  have hhex := forall_isHexDigit hds
  rw [hexText_eq]
  by_cases hshort : c.HasShortForm
  · rw [if_pos hshort] at hlength ⊢
    rw [← map_hexValue_of_three hhex hlength h, map_digitChar_hexValue hds]
  · rw [if_neg hshort] at hlength ⊢
    rw [← map_hexValue_of_six hhex hlength h, map_digitChar_hexValue hds]

theorem text_solid (red green blue : UInt8) :
    (solid red green blue).text = String.ofList (solid red green blue).hexText := by
  have hfull : ¬ (1.0 : Float) < 1.0 := by decide
  exact if_neg hfull

/-- **What is written is the shortest notation.** -/
theorem isShortestNotation_text (red green blue : UInt8) :
    IsShortestNotation (solid red green blue) (solid red green blue).text := by
  obtain ⟨ds, htext, hlength, hds, hread⟩ := exists_digits red green blue
  have hhex := forall_isHexDigit hds
  rw [text_solid, htext]
  refine ⟨⟨ds.length, ds, rfl, rfl, hds⟩, ?_, ?_, ?_⟩
  · rw [parse?_hex hhex, hread]
  · rintro n t ⟨es, rfl, -, hes⟩ ht
    rw [parse?_hex hes] at ht
    rw [String.length_ofList, String.length_ofList, List.length_cons, List.length_cons]
    by_cases hshort : (solid red green blue).HasShortForm
    · have hmany := length_of_ofHex? ht
      rw [if_pos hshort] at hlength
      omega
    · have hmany := (length_of_ofHex? ht).resolve_left fun hthree =>
        hshort (hasShortForm_of_ofHex? hes hthree ht)
      rw [if_neg hshort] at hlength
      omega
  · rintro n t ⟨es, rfl, -, hes⟩ ht hsame
    rw [String.length_ofList, String.length_ofList, List.length_cons, List.length_cons] at hsame
    rw [parse?_hex (forall_isHexDigit hes)] at ht
    have hsame : es.length = ds.length := Nat.succ.inj hsame
    have hwritten := hexText_of_ofHex? hes (hsame.trans hlength) ht
    rw [← htext, hwritten]

/-- Three or six digits denote a color that is not translucent. -/
theorem exists_solid_of_isNotation {n : Nat} {s : String} (hn : n = 3 ∨ n = 6)
    (hs : IsHexNotation n s) : ∃ red green blue, parse? s = some (solid red green blue) := by
  obtain ⟨ds, rfl, hlength, hds⟩ := hs
  rw [parse?_hex hds]
  rcases hn with rfl | rfl
  · obtain ⟨x, y, z, rfl⟩ := List.length_eq_three.mp hlength
    exact ⟨_, _, _, ofHex?_three hds⟩
  · obtain ⟨r, r', g, g', b, b', rfl⟩ := exists_of_length_six hlength
    exact ⟨_, _, _, ofHex?_six hds⟩

/-- **The form with three digits is written exactly if there is one.** -/
theorem isNotation_three_iff (red green blue : UInt8) :
    IsHexNotation 3 (solid red green blue).text ↔
      ∃ s, IsHexNotation 3 s ∧ parse? s = some (solid red green blue) := by
  have hshortest := isShortestNotation_text red green blue
  constructor
  · intro h
    exact ⟨_, h, hshortest.denotes⟩
  · rintro ⟨s, ⟨es, rfl, hthree, hes⟩, hread⟩
    obtain ⟨ds, htext, hlength, hds, -⟩ := exists_digits red green blue
    rw [parse?_hex hes] at hread
    rw [if_pos (hasShortForm_of_ofHex? hes hthree hread)] at hlength
    rw [text_solid, htext]
    exact ⟨ds, rfl, hlength, forall_isHexDigit hds⟩

end Color

/-! ## Colors in values -/

namespace Parse

open Color

variable {ds rest : List Char}

/-- Nothing follows that would belong to the color or make it the target of an accessor. -/
def EndsColor (rest : List Char) : Prop :=
  nextIs (fun ch => isNameChar ch || ch == '[') rest = false

theorem EndsColor.name (h : EndsColor rest) : nextIs isNameChar rest = false := by
  cases rest with
  | nil => rfl
  | cons ch rest => exact (Bool.or_eq_false_iff.mp h).1

theorem EndsColor.head (h : EndsColor rest) : rest.head? ≠ some '[' := by
  cases rest with
  | nil => nofun
  | cons ch rest =>
      intro hbracket
      injection hbracket with hbracket
      rw [hbracket] at h
      cases h

theorem tokenAt_hash (c : Cursor) (next : List Char) :
    c.tokenAt '#' next =
      let (word, after) := c.advance.takeWhile isNameChar
      let text := "#" ++ String.ofList word
      after.accessorOr text (if Cursor.isColorDigits word then .color text else .word text) :=
  rfl

/-- **Three, six or eight digits behind `#` are one token.** -/
theorem tokenAt_color (hcount : ds.length = 3 ∨ ds.length = 6 ∨ ds.length = 8)
    (hds : ∀ d ∈ ds, isHexDigit d = true) (hrest : EndsColor rest) (p : Position) :
    Cursor.tokenAt ⟨'#' :: (ds ++ rest), p⟩ '#' (ds ++ rest) =
      .ok (.color (String.ofList ('#' :: ds)), ⟨rest, p.after ('#' :: ds)⟩) := by
  have hname : ∀ d ∈ ds, isNameChar d = true := fun d hd => isNameChar_of_isHexDigit (hds d hd)
  have hdigits : Cursor.isColorDigits ds = true := by
    simp only [Cursor.isColorDigits, Bool.and_eq_true, Bool.or_eq_true, decide_eq_true_eq, or_assoc]
    exact ⟨hcount, List.all_eq_true.mpr hds⟩
  have htext : "#" ++ String.ofList ds = String.ofList ('#' :: ds) := by
    rw [← String.toList_inj]
    simp
  have hword : (Cursor.mk ('#' :: (ds ++ rest)) p).advance.takeWhile isNameChar =
      (ds, ⟨rest, p.after ('#' :: ds)⟩) :=
    Cursor.takeWhile_eq hname hrest.name (p.advance '#')
  rw [tokenAt_hash, hword]
  show Cursor.accessorOr _ ("#" ++ String.ofList ds) (if Cursor.isColorDigits ds then _ else _) = _
  rw [if_pos hdigits, htext, Cursor.accessorOr]
  exact if_neg hrest.head

/-- The token of a color is an operand. -/
theorem spells_color {gap : Bool} {text : String} {color : Color}
    (h : Color.parse? text = some color) (p : Option Position) (q : Position) :
    Spells 3 gap (.constant (.color color) p) [⟨.color text, q, gap⟩] where
  opens := ⟨_, _, rfl, rfl, by simp, rfl⟩
  reads := by
    intro last n depth _ rest
    refine ⟨.constant (.color color) (some q), rfl, ?_⟩
    rw [List.singleton_append, signed.eq_def]
    show operandWithin last n depth (⟨.color text, q, gap⟩ :: rest) = _
    rw [operandWithin, operand]
    simp only [h]

/-- A notation of a color, up to what ends it, is read as the token of the color. -/
theorem readsAs_color {stops : List Char} (hstops : IsStops stops) {color : Color}
    (hcount : ds.length = 3 ∨ ds.length = 6 ∨ ds.length = 8)
    (hds : ∀ d ∈ ds, isHexDigit d = true) (hread : ofHex? ds = some color)
    (hrest : EndsColor rest) (depth : Nat) :
    ReadsAs stops depth depth ('#' :: ds) rest
      (Spells 3 false (.constant (.color color) none)) := by
  have htoken : ReadsAs stops depth depth (gapText false ++ '#' :: ds) rest
      fun ts => ∃ q, ts = [⟨.color (String.ofList ('#' :: ds)), q, false⟩] :=
    readsAs_token false '#' ds (trivia_gap gap_nil (solid_cons rfl (by decide) _))
      (fun _ => hstops.not_mem (by decide)) (by decide)
      (fun p => ⟨_, tokenAt_color hcount hds hrest p⟩) rfl
  refine htoken.imp ?_
  rintro ts ⟨q, rfl⟩
  exact spells_color (by rw [parse?_hex hds, hread]) none q

/-- **COLORS SURVIVE WRITING AND READING.**  The text of a color that is not translucent
    is one token, and up to a semicolon it is read as one item, the color.  It has three
    digits exactly if some notation of the color has.  And for every notation with three
    or six digits in any case, the text of the color it denotes is the shortest notation
    of this color without capitals. -/
theorem solid_color_survives :
    (∀ red green blue : UInt8,
      (∃ ds, (solid red green blue).text = String.ofList ('#' :: ds)
        ∧ ∀ rest p, EndsColor rest →
          Cursor.tokenAt ⟨'#' :: (ds ++ rest), p⟩ '#' (ds ++ rest) =
            .ok (.color (solid red green blue).text, ⟨rest, p.after ('#' :: ds)⟩))
      ∧ (∀ stops rest p, IsStops stops → ';' ∈ stops →
          Gives (Cursor.value ⟨(solid red green blue).text.toList ++ ';' :: rest, p⟩ stops)
            (';' :: rest) fun value => value.important = false
              ∧ ∃ q, value.items = [.constant (.color (solid red green blue)) q])
      ∧ (IsHexNotation 3 (solid red green blue).text ↔
          ∃ s, IsHexNotation 3 s ∧ Color.parse? s = some (solid red green blue)))
    ∧ ∀ n s, n = 3 ∨ n = 6 → IsHexNotation n s →
        ∃ color, Color.parse? s = some color ∧ IsShortestNotation color color.text := by
  constructor
  · intro red green blue
    obtain ⟨ds, htext, hlength, hds, hread⟩ := exists_digits red green blue
    have hhex := forall_isHexDigit hds
    have hcount : ds.length = 3 ∨ ds.length = 6 ∨ ds.length = 8 := length_of_ofHex? hread
    have hwritten : (solid red green blue).text = String.ofList ('#' :: ds) := by
      rw [text_solid, htext]
    refine ⟨⟨ds, hwritten, ?_⟩, ?_, isNotation_three_iff red green blue⟩
    · intro rest p hrest
      rw [hwritten]
      exact tokenAt_color hcount hhex hrest p
    · intro stops rest p hstops hend
      have hspells := readsAs_color hstops hcount hhex hread
        (show EndsColor (';' :: rest) from rfl) 0
      rw [hwritten, String.toList_ofList]
      obtain ⟨value, q, hvalue, himportant, item, hitems, hitem⟩ :=
        value_of_readsAs (hspells.imp fun _ h => h.of_le (by decide))
          (endsValue_semicolon hend rest) p
      refine ⟨value, q, hvalue, himportant, ?_⟩
      cases item with
      | constant v q' =>
          injection hitem with hv
          exact ⟨q', by rw [hitems, hv]⟩
      | _ => cases hitem
  · intro n s hn hs
    obtain ⟨red, green, blue, hread⟩ := exists_solid_of_isNotation hn hs
    exact ⟨_, hread, isShortestNotation_text red green blue⟩

/-- `#AaBbCC` and `#ABC` denote the color that is written `#abc`, which in front of a
    comma is one token and up to a semicolon is read as the color again. -/
theorem solid_color_survives_of_capitals :
    (solid 0xaa 0xbb 0xcc).text = "#abc"
      ∧ (∃ ds q, Cursor.tokenAt ⟨'#' :: (ds ++ [',']), .start⟩ '#' (ds ++ [',']) =
          .ok (.color "#abc", ⟨[','], q⟩))
      ∧ IsStops statementStops ∧ ';' ∈ statementStops
      ∧ Gives (Cursor.value ⟨"#abc;".toList, .start⟩ statementStops) [';']
          (fun value => ∃ q, value.items = [.constant (.color (solid 0xaa 0xbb 0xcc)) q])
      ∧ IsHexNotation 3 "#ABC" ∧ Color.parse? "#ABC" = some (solid 0xaa 0xbb 0xcc)
      ∧ IsHexNotation 3 "#abc"
      ∧ IsHexNotation 6 "#AaBbCC" ∧ Color.parse? "#AaBbCC" = some (solid 0xaa 0xbb 0xcc)
      ∧ IsShortestNotation (solid 0xaa 0xbb 0xcc) "#abc" := by
  have htext : (solid 0xaa 0xbb 0xcc).text = "#abc" := by decide +kernel
  have hstops : IsStops statementStops := fun c hc => List.mem_append_left _ hc
  have hcapitals : IsHexNotation 3 "#ABC" := ⟨"ABC".toList, rfl, rfl, List.all_eq_true.mp rfl⟩
  have hdenotes : Color.parse? "#ABC" = some (solid 0xaa 0xbb 0xcc) := by rfl
  have hsix : IsHexNotation 6 "#AaBbCC" := ⟨"AaBbCC".toList, rfl, rfl, List.all_eq_true.mp rfl⟩
  obtain ⟨⟨ds, -, htoken⟩, hvalue, hthree⟩ := solid_color_survives.1 0xaa 0xbb 0xcc
  obtain ⟨value, q, hread, -, hitems⟩ := hvalue statementStops [] .start hstops (by decide)
  obtain ⟨color, hcolor, hshortest⟩ := solid_color_survives.2 6 "#AaBbCC" (Or.inr rfl) hsix
  have hparse : Color.parse? "#AaBbCC" = some (solid 0xaa 0xbb 0xcc) := by rfl
  obtain rfl : solid 0xaa 0xbb 0xcc = color := Option.some.inj (hparse.symm.trans hcolor)
  rw [htext] at htoken hread hthree hshortest
  exact ⟨htext, ⟨ds, _, htoken [','] .start rfl⟩, hstops, by decide, ⟨value, q, hread, hitems⟩,
    hcapitals, hdenotes, hthree.mpr ⟨"#ABC", hcapitals, hdenotes⟩, hsix, hparse, hshortest⟩

end Parse

end Less
