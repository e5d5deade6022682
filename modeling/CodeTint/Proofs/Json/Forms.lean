import CodeTint.Proofs.Quotation
import Mathlib.Computability.Language

/-!
# Forms of a document

One value can be written in many ways: any blanks may stand in front of a token, and a character
between quotes may stand for itself, behind a backslash, under an escape letter, or as its number
in hexadecimal digits of either case. All the ways of writing one value are a language. A reader
takes a language as a value when it reads every word of it so, whatever stands behind.
-/

namespace CodeTint.Json

/-- A reader takes every word of a language as one value and leaves what stands behind it. -/
def Takes {ε α : Type} (read : Text → Except ε (α × Text)) (forms : Language Char) (value : α) :
    Prop :=
  ∀ form ∈ forms, ∀ rest, read (form ++ rest) = .ok (value, rest)

/-- A reader that goes on with another one behind the first part takes both parts together. -/
theorem Takes.mul {ε α : Type} {read next : Text → Except ε (α × Text)}
    {first forms : Language Char} {value : α}
    (hfirst : ∀ form ∈ first, ∀ rest, read (form ++ rest) = next rest)
    (hnext : Takes next forms value) : Takes read (first * forms) value := by
  intro form hform rest
  obtain ⟨front, hfront, behind, hbehind, rfl⟩ := Language.mem_mul.mp hform
  rw [List.append_assoc, hfirst front hfront, hnext behind hbehind]

/-- A reader takes each of two languages when it takes both. -/
theorem Takes.add {ε α : Type} {read : Text → Except ε (α × Text)} {one other : Language Char}
    {value : α} (hone : Takes read one value) (hother : Takes read other value) :
    Takes read (one + other) value := by
  intro form hform rest
  rcases (Language.mem_add _ _ _).mp hform with hform | hform
  · exact hone form hform rest
  · exact hother form hform rest

/-! ### Tokens -/

/-- Any number of blanks. -/
def blanks : Language Char :=
  {gap | ∀ c ∈ gap, c ∈ [' ', '\t', '\n', '\r']}

/-- A token with any blanks in front of it. -/
def token (forms : Language Char) : Language Char :=
  blanks * forms

/-- A single character as a token. -/
def mark (c : Char) : Language Char :=
  token {[c]}

/-- A document holds one value and blanks. -/
def document (forms : Language Char) : Language Char :=
  token forms * blanks

/-- Blanks are not needed. -/
theorem nil_mem_blanks : [] ∈ blanks := by
  intro c hc
  exact absurd hc List.not_mem_nil

/-- A single blank is a gap. -/
theorem singleton_mem_blanks {c : Char} (h : c ∈ [' ', '\t', '\n', '\r']) : [c] ∈ blanks := by
  intro d hd
  rw [List.mem_singleton.mp hd]
  exact h

/-- A token needs no blanks in front of it. -/
theorem mem_token {forms : Language Char} {form : Text} (h : form ∈ forms) : form ∈ token forms :=
  Language.mem_mul.mpr ⟨[], nil_mem_blanks, form, h, rfl⟩

/-- A mark needs no blanks in front of it. -/
theorem singleton_mem_mark (c : Char) : [c] ∈ mark c :=
  mem_token rfl

/-- A word stands behind a first character. -/
theorem cons_mem_mul {c : Char} {forms : Language Char} {body : Text} (h : body ∈ forms) :
    c :: body ∈ {[c]} * forms :=
  Language.mem_mul.mpr ⟨[c], rfl, body, h, rfl⟩

/-- Every character of a gap is skipped. -/
theorem isSpace_of_mem_blanks {gap : Text} (h : gap ∈ blanks) : ∀ c ∈ gap, isSpace c = true := by
  have hall : [' ', '\t', '\n', '\r'].all isSpace = true := rfl
  exact fun c hc => List.all_eq_true.mp hall c (h c hc)

/-- A gap in front of a text is skipped. -/
theorem skipSpace_append {gap : Text} (h : gap ∈ blanks) (text : Text) :
    skipSpace (gap ++ text) = skipSpace text :=
  List.dropWhile_append_of_pos (isSpace_of_mem_blanks h)

/-- Behind a gap at the end nothing is left. -/
theorem skipSpace_eq_nil {gap : Text} (h : gap ∈ blanks) : skipSpace gap = [] := by
  have hskip := skipSpace_append h []
  rwa [List.append_nil] at hskip

/-- A first character stands in front of a word of the other language. -/
theorem exists_of_mem_cons {c : Char} {forms : Language Char} {form : Text}
    (h : form ∈ {[c]} * forms) : ∃ body ∈ forms, form = c :: body := by
  obtain ⟨first, hfirst, body, hbody, rfl⟩ := Language.mem_mul.mp h
  obtain rfl : first = [c] := hfirst
  exact ⟨body, hbody, rfl⟩

/-- Behind the gap of a token stand its first character and the rest of it. -/
theorem exists_of_mem_token {c : Char} (hc : isSpace c = false) {forms : Language Char}
    {form : Text} (h : form ∈ token ({[c]} * forms)) :
    ∃ body ∈ forms, ∀ rest, skipSpace (form ++ rest) = c :: (body ++ rest) := by
  obtain ⟨gap, hgap, value, hvalue, rfl⟩ := Language.mem_mul.mp h
  obtain ⟨body, hbody, rfl⟩ := exists_of_mem_cons hvalue
  refine ⟨body, hbody, fun rest => ?_⟩
  rw [List.append_assoc, skipSpace_append hgap]
  exact List.dropWhile_cons_of_neg (ne_true_of_eq_false hc)

/-- Behind the gap of a mark stands nothing but its character. -/
theorem skipSpace_mark {c : Char} (hc : isSpace c = false) {form : Text} (h : form ∈ mark c)
    (rest : Text) : skipSpace (form ++ rest) = c :: rest := by
  rw [mark, ← mul_one {[c]}] at h
  obtain ⟨body, hbody, hskip⟩ := exists_of_mem_token hc h
  obtain rfl : body = [] := hbody
  exact hskip rest

/-! ### Strings -/

/-- A hexadecimal digit of either case with a value. -/
def IsHexDigit (digit : Char) (value : Nat) : Prop :=
  "0123456789abcdef".toList[value]? = some digit ∨ "0123456789ABCDEF".toList[value]? = some digit

/-- Four hexadecimal digits with a value. -/
inductive HexForm : Nat → Text → Prop where
  /-- The digits from the greatest to the least. -/
  | digits {a b c d : Char} {w x y z : Nat} (ha : IsHexDigit a w) (hb : IsHexDigit b x)
      (hc : IsHexDigit c y) (hd : IsHexDigit d z) :
      HexForm (((w * 16 + x) * 16 + y) * 16 + z) [a, b, c, d]

/-- The ways of writing a character between quotes. -/
inductive CharForm (c : Char) : Text → Prop where
  /-- The character itself, unless it is a quote, a backslash or a control character. -/
  | plain (hquote : c ≠ '"') (hslash : c ≠ '\\') (hcontrol : 0x20 ≤ c.toNat) : CharForm c [c]
  /-- A quote, a backslash or a slash behind a backslash. -/
  | escaped (h : c = '"' ∨ c = '\\' ∨ c = '/') : CharForm c ['\\', c]
  /-- An escape letter behind a backslash. -/
  | letter {letter : Char} (h : (letter, c) ∈ escapeLetters) : CharForm c ['\\', letter]
  /-- The number of the character. -/
  | number {digits : Text} (h : HexForm c.toNat digits) : CharForm c ('\\' :: 'u' :: digits)
  /-- The two surrogates of a character beyond the sixteen-bit range. -/
  | pair {high low : Text} (hc : 0x10000 ≤ c.toNat)
      (hhigh : HexForm (0xD800 + (c.toNat - 0x10000) / 0x400) high)
      (hlow : HexForm (0xDC00 + (c.toNat - 0x10000) % 0x400) low) :
      CharForm c ('\\' :: 'u' :: (high ++ '\\' :: 'u' :: low))

/-- The language of the ways of writing a character. -/
def charForms (c : Char) : Language Char :=
  {form | CharForm c form}

/-- A text between quotes. -/
def string (text : Text) : Language Char :=
  {['"']} * ((text.map charForms).prod * {['"']})

/-- A digit is read as its value. -/
theorem IsHexDigit.hexValue?_eq {digit : Char} {value : Nat} (h : IsHexDigit digit value) :
    hexValue? digit = some value := by
  have hall : ∀ value < 16,
      "0123456789abcdef".toList[value]?.bind hexValue? = some value ∧
        "0123456789ABCDEF".toList[value]?.bind hexValue? = some value := by
    decide
  rcases h with h | h
  · have hlt : value < 16 := (List.getElem?_eq_some_iff.mp h).1
    have hvalue := (hall value hlt).1
    rwa [h] at hvalue
  · have hlt : value < 16 := (List.getElem?_eq_some_iff.mp h).1
    have hvalue := (hall value hlt).2
    rwa [h] at hvalue

/-- Four digits are read as their value. -/
theorem HexForm.readHex_append {n : Nat} {digits : Text} (h : HexForm n digits) (rest : Text) :
    readHex (digits ++ rest) = .ok (n, rest) := by
  cases h with
  | digits ha hb hc hd =>
    simp only [List.cons_append, List.nil_append, readHex, ha.hexValue?_eq, hb.hexValue?_eq,
      hc.hexValue?_eq, hd.hexValue?_eq]

/-- No character has the number of a surrogate. -/
theorem not_surrogate (c : Char) :
    isLowSurrogate c.toNat = false ∧ isHighSurrogate c.toNat = false := by
  have hvalid : c.toNat < 0xD800 ∨ 0xDFFF < c.toNat ∧ c.toNat < 0x110000 := c.valid
  simp only [isLowSurrogate, isHighSurrogate, Bool.and_eq_false_iff, decide_eq_false_iff_not]
  omega

/-- A character is read from its number. -/
theorem readUnicode_number {c : Char} {digits : Text} (h : HexForm c.toNat digits) (rest : Text) :
    readUnicode (digits ++ rest) = .ok (c, rest) := by
  obtain ⟨hlow, hhigh⟩ := not_surrogate c
  rw [readUnicode, h.readHex_append]
  simp only [hlow, hhigh, Bool.false_eq_true, if_false, Char.ofNat_toNat]

/-- A character is read from its two surrogates. -/
theorem readUnicode_pair {c : Char} {high low : Text} (hc : 0x10000 ≤ c.toNat)
    (hhigh : HexForm (0xD800 + (c.toNat - 0x10000) / 0x400) high)
    (hlow : HexForm (0xDC00 + (c.toNat - 0x10000) % 0x400) low) (rest : Text) :
    readUnicode (high ++ '\\' :: 'u' :: (low ++ rest)) = .ok (c, rest) := by
  have hvalid : c.toNat < 0xD800 ∨ 0xDFFF < c.toNat ∧ c.toNat < 0x110000 := c.valid
  generalize hx : 0xD800 + (c.toNat - 0x10000) / 0x400 = x at hhigh
  generalize hy : 0xDC00 + (c.toNat - 0x10000) % 0x400 = y at hlow
  have hfirst : isLowSurrogate x = false ∧ isHighSurrogate x = true := by
    simp only [isLowSurrogate, isHighSurrogate, Bool.and_eq_false_iff, Bool.and_eq_true,
      decide_eq_false_iff_not, decide_eq_true_eq]
    omega
  have hsecond : isLowSurrogate y = true := by
    simp only [isLowSurrogate, Bool.and_eq_true, decide_eq_true_eq]
    omega
  have hnumber : 0x10000 + (x - 0xD800) * 0x400 + (y - 0xDC00) = c.toNat := by
    omega
  rw [readUnicode, hhigh.readHex_append]
  simp only [hfirst.1, hfirst.2, Bool.false_eq_true, if_false, if_true, readPartner,
    hlow.readHex_append, hsecond, hnumber, Char.ofNat_toNat]

/-- The number of a character follows the letter `u`. -/
theorem readEscape_unicode {text rest : Text} {c : Char} (h : readUnicode text = .ok (c, rest)) :
    readEscape ('u' :: text) = .ok (c, rest) := by
  rw [readEscape, if_neg (by decide), if_pos rfl, h]

/-- Each way of writing a character adds it to the string. -/
theorem CharForm.readStringOnto_append {c : Char} {form : Text} (h : CharForm c form)
    (read rest : Text) : readStringOnto read (form ++ rest) = readStringOnto (c :: read) rest := by
  cases h with
  | plain hquote hslash hcontrol =>
    exact readStringOnto_plain hquote hslash (Nat.not_lt.mpr hcontrol) read rest
  | escaped h =>
    have hself : (c = '"' || c = '\\' || c = '/') = true := by
      rcases h with rfl | rfl | rfl <;> decide
    have hescape : readEscape (c :: rest) = .ok (c, rest) := by
      rw [readEscape, if_pos hself]
    exact readStringOnto_escape hescape read
  | letter h => exact readStringOnto_escape (readEscape_letter h rest) read
  | number h => exact readStringOnto_escape (readEscape_unicode (readUnicode_number h rest)) read
  | @pair high low hc hhigh hlow =>
    have hpair := readEscape_unicode (readUnicode_pair hc hhigh hlow rest)
    rw [List.cons_append, List.cons_append, List.append_assoc]
    exact readStringOnto_escape hpair read

/-- Characters are read one after the other, however each of them is written. -/
theorem readStringOnto_forms {text form : Text}
    (h : form ∈ (text.map charForms).prod) (read rest : Text) :
    readStringOnto read (form ++ rest) = readStringOnto (text.reverse ++ read) rest := by
  induction text generalizing form read with
  | nil =>
    obtain rfl : form = [] := h
    rfl
  | cons c text ih =>
    rw [List.map_cons, List.prod_cons] at h
    obtain ⟨first, hfirst, others, hothers, rfl⟩ := Language.mem_mul.mp h
    have hchar : CharForm c first := hfirst
    -- the characters read so far are kept in reverse, the last one in front
    rw [List.append_assoc, hchar.readStringOnto_append, ih hothers, List.reverse_cons,
      List.append_assoc, List.singleton_append]

/-- Behind its opening quote a string is taken as its text. -/
theorem takes_readString (text : Text) :
    Takes readString ((text.map charForms).prod * {['"']}) text := by
  intro form hform rest
  obtain ⟨forms, hforms, last, hlast, rfl⟩ := Language.mem_mul.mp hform
  obtain rfl : last = ['"'] := hlast
  rw [readString, List.append_assoc, readStringOnto_forms hforms, List.singleton_append,
    readStringOnto_quote, List.append_nil, List.reverse_reverse]

/-- A written digit is a lower-case one. -/
theorem isHexDigit_hexDigit {n : Nat} (h : n < 16) : IsHexDigit (hexDigit n) n := by
  have hall : ∀ n < 16, "0123456789abcdef".toList[n]? = some (hexDigit n) := by
    decide
  exact Or.inl (hall n h)

/-- The writer chooses one of the ways of writing a character. -/
theorem charForm_writeChar (c : Char) : CharForm c (writeChar c) := by
  rw [writeChar]
  split
  · next hquote =>
    subst hquote
    exact .escaped (Or.inl rfl)
  · next hquote =>
    split
    · next hslash =>
      subst hslash
      exact .escaped (Or.inr (Or.inl rfl))
    · next hslash =>
      split
      · next hcontrol =>
        split
        · next letter meaning hfind =>
          have hmatch := List.find?_some hfind
          obtain rfl : meaning = c := eq_of_beq hmatch
          exact .letter (List.mem_of_find?_eq_some hfind)
        · have hzero : IsHexDigit '0' 0 := Or.inl rfl
          have hdigits := HexForm.digits hzero hzero
            (isHexDigit_hexDigit (n := c.toNat / 16) (by omega))
            (isHexDigit_hexDigit (n := c.toNat % 16) (by omega))
          have hnumber : ((0 * 16 + 0) * 16 + c.toNat / 16) * 16 + c.toNat % 16 = c.toNat := by
            omega
          rw [hnumber] at hdigits
          exact .number hdigits
      · next hcontrol => exact .plain hquote hslash (Nat.not_lt.mp hcontrol)

/-- Written characters are forms of the characters. -/
theorem flatMap_writeChar_mem (text : Text) :
    text.flatMap writeChar ∈ (text.map charForms).prod := by
  induction text with
  | nil => exact Language.nil_mem_one
  | cons c text ih =>
    rw [List.flatMap_cons, List.map_cons, List.prod_cons]
    exact Language.append_mem_mul (charForm_writeChar c) ih

/-- A written string is one of its forms. -/
theorem writeString_mem (text : Text) : writeString text ∈ string text := by
  rw [writeString, List.append_assoc]
  exact Language.append_mem_mul rfl (Language.append_mem_mul (flatMap_writeChar_mem text) rfl)

/-! ### Arrays and objects -/

/-- Items with a comma between them. -/
def listed : List (Language Char) → Language Char
  | [] => 1
  | item :: items => item * (items.map (mark ',' * ·)).prod

/-- An array of values. -/
def array (values : List (Language Char)) : Language Char :=
  {['[']} * (listed (values.map token) * mark ']')

/-- A key, a colon and a value. -/
def entry (key : Text) (value : Language Char) : Language Char :=
  token (string key) * (mark ':' * token value)

/-- An object with entries in the order given. -/
def object (entries : List (Language Char)) : Language Char :=
  {['\x7b']} * (listed entries * mark '\x7d')

end CodeTint.Json
