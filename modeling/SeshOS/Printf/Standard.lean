/-
  The integer conversions of the C standard, and when the printf family keeps to them.

  `Conversion.text` is what the standard asks for. The text of the code differs from it in four
  things: the letters of `%x` are in upper case; a negative precision from the arguments should be
  no precision at all, and counts as a precision of 0; the prefix of `%#b` is put in front of a
  zero when there is a precision; and what has no room in 32 bytes is dropped.
  `integer_directive_exact` says for which directives none of this shows.

  Widths and precisions that are written in a format are taken as `parse` reads them, modulo
  `2 ^ 32`; the standard leaves texts of more than `2 ^ 31 - 1` characters open.
-/
import SeshOS.Printf.Spelling

namespace SeshOS.Printf

open Base Libc

/-! ## The C standard -/

/-- A directive for an integer, with its arguments. `flags` are those that the format can set, and
    `precision` is `none` when it is omitted: by the format, or by a negative argument. -/
structure Conversion where
  value : Nat
  negative : Bool
  signed : Bool
  base : NumericBase
  uppercase : Bool
  precision : Option Nat
  width : Nat
  flags : Flags

namespace Conversion

variable (c : Conversion)

def digitChar (d : Nat) : Byte :=
  if d < 10 then BitVec.ofNat 8 (48 + d)
  else if c.uppercase then BitVec.ofNat 8 (65 + d - 10)
  else BitVec.ofNat 8 (97 + d - 10)

/-- At least as many digits as the precision says, and at least one when it is omitted. -/
def numeral : List Byte :=
  zeros (c.precision.getD 1 - (Nat.digits c.base.val c.value).length) ++
    (Nat.digits c.base.val c.value).reverse.map c.digitChar

/-- The flags `+` and space are for signed conversions. -/
def sign : List Byte :=
  if c.negative then [chr '-'] else if c.flags.plus && c.signed then [chr '+']
  else if c.flags.space && c.signed then [chr ' '] else []

/-- What `#` puts in front of a number that is not 0. -/
def lead : List Byte :=
  if c.flags.hash && decide (c.value ≠ 0) then
    match c.base with
    | .hex => [chr '0', if c.uppercase then chr 'X' else chr 'x']
    | .binary => [chr '0', chr 'b']
    | .octal | .decimal => []
  else []

/-- With `#` an octal number begins with a zero. -/
def digits : List Byte :=
  if c.flags.hash ∧ c.base = .octal ∧ c.numeral.head? ≠ some (chr '0') then chr '0' :: c.numeral
  else c.numeral

/-- The zeros up to the width. The flag `0` counts without `-` and without a precision only. -/
def padding : Nat :=
  if (c.flags.zeropad && !c.flags.left) && c.precision.isNone then
    c.width - (c.sign.length + c.lead.length + c.digits.length)
  else 0

def body : List Byte := c.sign ++ (c.lead ++ (zeros c.padding ++ c.digits))

def text : List Byte :=
  if c.flags.left then c.body ++ spaces (c.width - c.body.length)
  else spaces (c.width - c.body.length) ++ c.body

/-- `%#6x` of 255. -/
example : Conversion.text ⟨255, false, false, .hex, false, none, 6, { hash := true }⟩ =
    ascii "  0xff" := by decide

/-! ## When the code keeps to it -/

/-- A letter is asked for in lower case. -/
def Lowercase : Prop :=
  c.uppercase = false ∧ c.base = .hex ∧ ∃ d ∈ Nat.digits 16 c.value, 10 ≤ d

/-- The sign is a blank without room in the buffer, and a space of the padding is in its place. -/
def BlankMadeUp : Prop :=
  c.sign = [chr ' '] ∧ c.precision = some integerBufferSize ∧ integerBufferSize < c.width ∧
    c.flags.left = false

/-- The digits are the same with a precision of 0 as without one. -/
def SameDigits : Prop := c.value ≠ 0 ∨ c.base = .octal ∧ c.flags.hash = true

/-- A zero in base 2 with `#` and a precision. -/
def PrefixedZero (given : Bool) : Prop :=
  given = true ∧ c.base = .binary ∧ c.flags.hash = true ∧ c.value = 0

/-- None of the differences shows. `given` says that the format has a precision. -/
structure Conforms (given : Bool) : Prop where
  letters : ¬c.Lowercase
  omitted : given = true → c.precision = none → c.SameDigits ∧ c.padding = 0
  zero : c.PrefixedZero given → c.precision = some integerBufferSize
  room : c.body.length ≤ integerBufferSize ∨ c.BlankMadeUp

/-! ### The parts of the text -/

/-- The digits are those of the code when no letter is asked for in lower case. -/
theorem digitChar_eq {c : Conversion} (hletters : ¬c.Lowercase) {d : Nat}
    (hd : d ∈ Nat.digits c.base.val c.value) :
    c.digitChar d = Printf.digitChar d := by
  unfold digitChar Printf.digitChar
  by_cases hten : d < 10
  · rw [if_pos hten, if_pos hten]
  · have hbase : c.base = .hex := by
      have hlt := Nat.digits_lt_base c.base.one_lt_val hd
      cases hb : c.base with
      | hex => rfl
      | binary => rw [hb] at hlt; exact absurd hlt (by show ¬d < 2; omega)
      | octal => rw [hb] at hlt; exact absurd hlt (by show ¬d < 8; omega)
      | decimal => rw [hb] at hlt; exact absurd hlt hten
    have huppercase : c.uppercase = true := by
      by_contra hc
      rw [hbase] at hd
      exact hletters ⟨Bool.eq_false_iff.mpr hc, hbase, d, hd, Nat.le_of_not_lt hten⟩
    rw [if_neg hten, if_neg hten, if_pos huppercase]

theorem numeral_eq {c : Conversion} (hletters : ¬c.Lowercase) :
    c.numeral = Printf.numeral c.base.val (c.precision.getD 1) c.value := by
  unfold numeral Printf.numeral
  congr 1
  exact List.map_congr_left fun d hd => digitChar_eq hletters (List.mem_reverse.mp hd)

theorem solid_text (c : Conversion) : solid c.text = solid c.body := by
  unfold text
  split
  · rw [solid_append, solid_spaces, Nat.add_zero]
  · rw [solid_append, solid_spaces, Nat.zero_add]

theorem mem_text {c : Conversion} {b : Byte} : b ∈ c.text ↔
    b ∈ c.body ∨ b ∈ spaces (c.width - c.body.length) := by
  unfold text
  split
  · exact List.mem_append
  · exact List.mem_append.trans or_comm

/-- A digit of the value is in the text. -/
theorem digitChar_mem_text {c : Conversion} {d : Nat} (hd : d ∈ Nat.digits c.base.val c.value) :
    c.digitChar d ∈ c.text := by
  have hnumeral : c.digitChar d ∈ c.numeral :=
    List.mem_append_right _ (List.mem_map.mpr ⟨d, List.mem_reverse.mpr hd, rfl⟩)
  have hdigits : c.digitChar d ∈ c.digits := by
    unfold digits
    split
    · exact List.mem_cons_of_mem _ hnumeral
    · exact hnumeral
  rw [mem_text, body]
  exact Or.inl (List.mem_append_right _ (List.mem_append_right _ (List.mem_append_right _ hdigits)))

/-- A zero in base 2 is made of zeros. -/
theorem body_binaryZero {c : Conversion} (hbase : c.base = .binary) (hvalue : c.value = 0)
    (hsign : c.sign = []) : c.body = zeros (c.padding + c.precision.getD 1) := by
  have hlead : c.lead = [] := by simp [lead, hvalue]
  have hoctal : ¬(c.flags.hash ∧ c.base = .octal ∧ c.numeral.head? ≠ some (chr '0')) := by
    rw [hbase]
    exact fun h => by cases h.2.1
  have hdigits : c.digits = zeros (c.precision.getD 1) := by
    rw [digits, if_neg hoctal, numeral, hvalue, Nat.digits_zero]
    exact List.append_nil _
  rw [body, hsign, hlead, hdigits, zeros_append]
  rfl

end Conversion

/-! ## The call for a conversion -/

/-- What `printInt` is called with for a conversion. -/
structure Called (c : Conversion) (precision : PrintfSize) (flags : Flags) : Prop where
  call : IntegerCall c.negative c.base precision flags
  left : flags.left = c.flags.left
  zeropad : flags.zeropad = (c.flags.zeropad && !flags.precision)
  plus : flags.plus = (c.flags.plus && c.signed)
  space : flags.space = (c.flags.space && c.signed)
  hash : flags.hash = (c.flags.hash && !decide (c.base = .decimal))
  uppercase : flags.uppercase = c.uppercase
  precision : c.precision = (if flags.precision then some precision.toNat else none) ∨
    c.precision = none ∧ flags.precision = true ∧ precision = 0

namespace Called

variable {c : Conversion} {precision : PrintfSize} {flags : Flags}

theorem sign_eq (h : Called c precision flags) : signText c.negative flags = c.sign := by
  rw [signText, h.plus, h.space]
  rfl

/-- Only a decimal number has a sign. -/
theorem sign_unsigned (h : Called c precision flags) (hbase : c.base ≠ .decimal) : c.sign = [] := by
  obtain ⟨hnegative, hplus, hspace⟩ := h.call.unsigned hbase
  rw [← h.sign_eq, signText, hnegative, hplus, hspace]
  rfl

/-- The prefix is that of the code, but for the one in front of a zero. -/
theorem lead_eq (h : Called c precision flags)
    (hzero : ¬c.PrefixedZero flags.precision) :
    prefixText c.value c.base flags = c.lead := by
  unfold prefixText Conversion.lead
  rw [h.hash, h.uppercase]
  cases hhash : c.flags.hash with
  | false => rfl
  | true =>
    cases hbase : c.base with
    | octal => simp
    | decimal => simp
    | hex => by_cases hvalue : c.value = 0 <;> simp [hvalue]
    | binary =>
      by_cases hvalue : c.value = 0
      · have hprecision : flags.precision = false :=
          Bool.eq_false_iff.mpr fun hp => hzero ⟨hp, hbase, hhash, hvalue⟩
        simp [hvalue, hprecision]
      · simp [hvalue]

theorem digits_eq (h : Called c precision flags) (hletters : ¬c.Lowercase)
    (hnumeral : numeral c.base.val (c.precision.getD 1) c.value =
      numeral c.base.val (if flags.precision then precision.toNat else 1) c.value) :
    digitsText c.value c.base precision.toNat flags = c.digits := by
  unfold digitsText Conversion.digits
  rw [Conversion.numeral_eq hletters, h.hash, hnumeral]
  by_cases hbase : c.base = .octal
  · simp [hbase]
  · simp [hbase]

/-- The texts are the same if none of the differences can show. -/
theorem bodyText_eq_body (h : Called c precision flags) (hletters : ¬c.Lowercase)
    (hzero : ¬c.PrefixedZero flags.precision)
    (hprecision : c.precision = if flags.precision then some precision.toNat else none) :
    bodyText c.value c.negative c.base precision.toNat c.width flags = c.body := by
  have hdigits := h.digits_eq hletters (by rw [hprecision]; cases flags.precision <;> rfl)
  have hpad : (flags.zeropad && !flags.left) =
      ((c.flags.zeropad && !c.flags.left) && c.precision.isNone) := by
    rw [hprecision, h.zeropad, h.left]
    cases flags.precision <;> simp
  unfold bodyText Conversion.body Conversion.padding
  dsimp only
  rw [h.sign_eq, h.lead_eq hzero, hdigits, hpad, List.length_append, List.append_assoc]
  split <;> rfl

/-! ### Letters -/

/-- No lower case letter of a digit is printed. -/
theorem lowercase_ne (value : BitVec 64) (width : PrintfSize) (hlowercase : c.Lowercase) :
    integerText value c.negative c.base precision width flags ≠ c.text := by
  obtain ⟨huppercase, hbase, d, hd, hten⟩ := hlowercase
  have hlt : d < 16 := Nat.digits_lt_base (by decide) hd
  have hchar : c.digitChar d = BitVec.ofNat 8 (97 + d - 10) := by
    rw [Conversion.digitChar, if_neg (Nat.not_lt.mpr hten), huppercase]
    rfl
  have hnone : ∀ d < 16, 10 ≤ d → BitVec.ofNat 8 (97 + d - 10) ≠ chr ' ' ∧
      (∀ e < 16, BitVec.ofNat 8 (97 + d - 10) ≠ digitChar e) ∧
      BitVec.ofNat 8 (97 + d - 10) ∉ storedChars .hex := by decide
  obtain ⟨hspace, hdigit, hstored⟩ := hnone d hlt hten
  intro heq
  have hmem := Conversion.digitChar_mem_text (c := c) (d := d) (by rw [hbase]; exact hd)
  rw [← heq, hchar] at hmem
  rcases mem_integerText hmem with h | ⟨e, he, h⟩ | h
  · exact hspace h
  · exact hdigit e he h
  · rw [hbase] at h
    exact hstored h

/-! ### A zero in base 2 with a prefix -/

theorem mem_store {buf : List Byte} {b : Byte} (h : b ∈ buf) (ch : Byte) : b ∈ store buf ch := by
  unfold store
  split
  · exact List.mem_append_left _ h
  · exact h

theorem mem_outRevText {buf : List Byte} {b : Byte} (h : b ∈ buf) (width : PrintfSize) :
    b ∈ outRevText buf width flags :=
  List.mem_append_right _ (List.mem_append_left _ (List.mem_reverse.mpr h))

/-- The buffer of a zero in base 2 that is printed with a prefix and a precision. -/
theorem prefixedZero_buffer (h : Called c precision flags) (hzero : c.PrefixedZero flags.precision)
    (width : PrintfSize) :
    integerBuffer (integerDigits 0 .binary flags).1 c.negative .binary precision width
        (integerDigits 0 .binary flags).2 =
      (store (store (zeros (min precision.toNat integerBufferSize)) (chr 'b')) (chr '0'),
        width) := by
  obtain ⟨hgiven, hbase, hhash, -⟩ := hzero
  obtain ⟨hnegative, hplus, hspace⟩ := h.call.unsigned (by rw [hbase]; decide)
  have hflag : flags.hash = true := by rw [h.hash, hhash, hbase]; rfl
  have hzeropad := h.call.zeropad hgiven
  have hdigits : integerDigits 0 .binary flags = ([], flags) := by
    simp [integerDigits, hgiven]
  have hunpadded : (flags.zeropad && !flags.left) = false := by rw [hzeropad]; rfl
  have hlead := leadingZeros_unpadded [] c.negative precision width hunpadded
  rw [List.nil_append, List.length_nil, Nat.sub_zero] at hlead
  rw [hdigits, integerBuffer_eq hlead, storeAlternative_eq_storePrefix hflag (by decide),
    storePrefix, takeBack_unpadded (Or.inl hgiven)]
  simp [storeSign, hnegative, hplus, hspace, storeLetter]

/-- What is printed of it is right for a precision of 32 only: with a smaller one it has a letter,
    with a greater one the zeros have no room. -/
theorem prefixedZero_iff (h : Called c precision flags) (hzero : c.PrefixedZero flags.precision)
    {width : PrintfSize} (hwidth : c.width = width.toNat) :
    integerText 0 c.negative c.base precision width flags = c.text ↔
      c.precision = some integerBufferSize := by
  have hint : integerBufferSize = 32 := rfl
  have hbuffer := h.prefixedZero_buffer hzero width
  obtain ⟨hgiven, hbase, hhash, hvalue⟩ := hzero
  have hbody := Conversion.body_binaryZero hbase hvalue (h.sign_unsigned (by rw [hbase]; decide))
  have hprinted : integerText 0 c.negative c.base precision width flags =
      outRevText (store (store (zeros (min precision.toNat integerBufferSize)) (chr 'b')) (chr '0'))
        width flags := by
    rw [integerText_eq, hbase, hbuffer]
  rcases Nat.lt_or_ge precision.toNat integerBufferSize with hlt | hge
  · refine iff_of_false (fun heq => ?_) fun hsome => ?_
    · -- the letter of the prefix is not in the text
      have hroom : (zeros precision.toNat).length < integerBufferSize := by
        rw [zeros_length]
        exact hlt
      have hletter : chr 'b' ∈ c.text := by
        rw [← heq, hprinted, Nat.min_eq_left hlt.le, store_room hroom]
        have hlast : chr 'b' ∈ zeros precision.toNat ++ [chr 'b'] :=
          List.mem_append_right _ (List.mem_singleton.mpr rfl)
        exact mem_outRevText (mem_store hlast _) width
      rw [Conversion.mem_text, hbody] at hletter
      rcases hletter with hletter | hletter
      · exact absurd (List.eq_of_mem_replicate hletter) (by decide)
      · exact absurd (List.eq_of_mem_replicate hletter) (by decide)
    · rcases h.precision with hp | ⟨hp, -⟩
      · rw [hp, hgiven, if_pos rfl, Option.some_inj] at hsome
        omega
      · rw [hp] at hsome
        cases hsome
  · have hp : c.precision = some precision.toNat := by
      rcases h.precision with hp | ⟨-, -, rfl⟩
      · rw [hp, hgiven, if_pos rfl]
      · exact absurd hge (by decide)
    have hpadding : c.padding = 0 := by simp [Conversion.padding, hp]
    rw [hpadding, Nat.zero_add, hp, Option.getD_some] at hbody
    have hfull : ∀ ch, store (zeros integerBufferSize) ch = zeros integerBufferSize :=
      fun ch => if_neg (by rw [zeros_length]; exact Nat.lt_irrefl _)
    have hzeropad := h.call.zeropad hgiven
    rw [hprinted, Nat.min_eq_right hge, hfull, hfull, hp, Option.some_inj]
    constructor
    · intro heq
      have hcount := congrArg solid heq
      rw [solid_outRevText, Conversion.solid_text, hbody, solid_zeros, solid_zeros] at hcount
      exact hcount.symm
    · intro h32
      unfold Conversion.text outRevText
      rw [hbody, h32, hzeropad, zeros_reverse, hwidth, ← h.left, zeros_length]
      cases flags.left <;> simp

/-! ### A negative precision -/

/-- With a precision of 0 nothing is printed of a zero. -/
theorem digitsText_zero (hgiven : flags.precision = true) (hvalue : c.value = 0) :
    digitsText c.value c.base 0 flags =
      if flags.hash ∧ c.base = .octal then [chr '0'] else [] := by
  have hnumeral : numeral c.base.val 0 c.value = [] := by
    rw [hvalue, numeral, Nat.digits_zero]
    rfl
  unfold digitsText
  rw [if_pos hgiven, hnumeral]
  by_cases hoctal : flags.hash ∧ c.base = .octal
  · rw [if_pos hoctal]
    exact if_pos ⟨hoctal.1, hoctal.2, by simp⟩
  · rw [if_neg hoctal]
    exact if_neg fun h => hoctal ⟨h.1, h.2.1⟩

/-- Without a precision a zero has one digit. -/
theorem digits_zero (hnone : c.precision = none) (hvalue : c.value = 0) : c.digits = [chr '0'] := by
  have hnumeral : c.numeral = [chr '0'] := by
    rw [Conversion.numeral, hnone, hvalue, Nat.digits_zero]
    rfl
  rw [Conversion.digits, hnumeral]
  exact if_neg fun h => h.2.2 rfl

/-- The digits are the same for a number that is not 0, and for an octal zero with `#`. -/
theorem digits_negative (h : Called c 0 flags) (hletters : ¬c.Lowercase)
    (hnone : c.precision = none) (hgiven : flags.precision = true) (hdigits : c.SameDigits) :
    digitsText c.value c.base 0 flags = c.digits := by
  by_cases hvalue : c.value = 0
  · obtain ⟨hbase, hhash⟩ := hdigits.resolve_left (not_not.mpr hvalue)
    have hflag : flags.hash = true := by rw [h.hash, hhash, hbase]; rfl
    rw [digitsText_zero hgiven hvalue, if_pos ⟨hflag, hbase⟩, digits_zero hnone hvalue]
  · refine h.digits_eq hletters ?_
    have hpos : 0 < (Nat.digits c.base.val c.value).length :=
      List.length_pos_iff.mpr (Nat.digits_ne_nil_iff_ne_zero.mpr hvalue)
    rw [hnone, hgiven, Option.getD_none, if_pos rfl, ← zeros_numeral (Nat.zero_le 1),
      numeral_length]
    show zeros (1 - max 0 _) ++ numeral _ 0 _ = numeral _ 0 _
    rw [Nat.zero_max, Nat.sub_eq_zero_of_le hpos]
    rfl

/-- The text of the code, without zeros up to the width. -/
theorem bodyText_negative (h : Called c 0 flags) (hgiven : flags.precision = true)
    (hzero : ¬c.PrefixedZero flags.precision) :
    bodyText c.value c.negative c.base 0 c.width flags =
      c.sign ++ (c.lead ++ digitsText c.value c.base 0 flags) := by
  have hzeropad := h.call.zeropad hgiven
  unfold bodyText
  rw [h.sign_eq, h.lead_eq hzero, hzeropad]
  simp

/-- Where the standard asks for zeros up to the width or for the digit of a zero, the code has
    less to print. -/
theorem solid_negative (h : Called c 0 flags) (hletters : ¬c.Lowercase) (hnone : c.precision = none)
    (hgiven : flags.precision = true)
    (hzero : ¬c.PrefixedZero flags.precision)
    (hless : ¬(c.SameDigits ∧ c.padding = 0)) :
    solid (bodyText c.value c.negative c.base 0 c.width flags) < solid c.body := by
  rw [h.bodyText_negative hgiven hzero, Conversion.body, solid_append, solid_append, solid_append,
    solid_append, solid_append, solid_zeros]
  by_cases hdigits : c.SameDigits
  · rw [h.digits_negative hletters hnone hgiven hdigits]
    have hpadding : c.padding ≠ 0 := fun hc => hless ⟨hdigits, hc⟩
    omega
  · obtain ⟨hvalue, hoctal⟩ := not_or.mp hdigits
    rw [not_not] at hvalue
    have hnot : ¬(flags.hash = true ∧ c.base = .octal) := by
      rintro ⟨hhash, hbase⟩
      rw [h.hash] at hhash
      exact hoctal ⟨hbase, (Bool.and_eq_true_iff.mp hhash).1⟩
    have hone : solid [chr '0'] = 1 := by decide
    have hnil : solid [] = 0 := rfl
    rw [digitsText_zero hgiven hvalue, if_neg hnot, digits_zero hnone hvalue, hone, hnil]
    omega

/-! ### The text that is printed -/

/-- With the same number the padding is the same. -/
theorem unboundedText_eq_text (h : Called c precision flags)
    (hbody : bodyText c.value c.negative c.base precision.toNat c.width flags = c.body) :
    unboundedText c.value c.negative c.base precision.toNat c.width flags = c.text := by
  unfold unboundedText Conversion.text
  dsimp only
  rw [hbody, h.left]

theorem blankMadeUp_iff (h : Called c precision flags) {width : PrintfSize}
    (hwidth : c.width = width.toNat)
    (hprecision : c.precision = if flags.precision then some precision.toNat else none) :
    BlankMadeUp c.negative precision width flags ↔ c.BlankMadeUp := by
  have hint : integerBufferSize = 32 := rfl
  unfold BlankMadeUp Conversion.BlankMadeUp
  rw [h.sign_eq, hprecision, hwidth, h.left, hint]
  cases flags.precision with
  | false => simp
  | true => simp; omega

/-- With the precision as the code has it, only the room counts. -/
theorem precision_same_iff (h : Called c precision flags) (hletters : ¬c.Lowercase)
    (hzero : ¬c.PrefixedZero flags.precision)
    (hprecision : c.precision = if flags.precision then some precision.toNat else none)
    {value : BitVec 64} (hvalue : c.value = value.toNat) {width : PrintfSize}
    (hwidth : c.width = width.toNat) :
    integerText value c.negative c.base precision width flags = c.text ↔
      c.body.length ≤ integerBufferSize ∨ c.BlankMadeUp := by
  have hbody := h.bodyText_eq_body hletters hzero hprecision
  rw [← h.blankMadeUp_iff hwidth hprecision, ← h.unboundedText_eq_text hbody, ← hbody, hvalue,
    hwidth]
  exact integer_conversion_exact h.call

/-- With a precision of 0 for a negative one, nothing may depend on it. -/
theorem precision_omitted_iff (h : Called c 0 flags) (hletters : ¬c.Lowercase)
    (hzero : ¬c.PrefixedZero flags.precision) (hnone : c.precision = none)
    (hgiven : flags.precision = true) {value : BitVec 64} (hvalue : c.value = value.toNat)
    {width : PrintfSize} (hwidth : c.width = width.toNat) :
    integerText value c.negative c.base 0 width flags = c.text ↔
      (c.SameDigits ∧ c.padding = 0) ∧ c.body.length ≤ integerBufferSize := by
  by_cases hless : c.SameDigits ∧ c.padding = 0
  · have hbody :
        bodyText c.value c.negative c.base (0 : PrintfSize).toNat c.width flags = c.body := by
      refine (h.bodyText_negative hgiven hzero).trans ?_
      rw [h.digits_negative hletters hnone hgiven hless.1, Conversion.body, hless.2]
      rfl
    have hblank : ¬BlankMadeUp c.negative 0 width flags := fun hc => absurd hc.2.2.1 (by decide)
    rw [and_iff_right hless, ← h.unboundedText_eq_text hbody, ← hbody, hvalue, hwidth]
    exact (integer_conversion_exact h.call).trans (or_iff_left hblank)
  · refine iff_of_false (fun heq => ?_) fun hc => hless hc.1
    have hsolid : solid (integerText value c.negative c.base 0 width flags) ≤
        solid (bodyText c.value c.negative c.base 0 c.width flags) := by
      rw [hvalue, hwidth]
      exact solid_integerText_le h.call
    rw [heq, Conversion.solid_text] at hsolid
    exact absurd (h.solid_negative hletters hnone hgiven hzero hless) (Nat.not_lt.mpr hsolid)

/-- What is printed is what the standard asks for exactly when none of the differences shows. -/
theorem integerText_eq_text_iff (h : Called c precision flags) {value : BitVec 64}
    (hvalue : c.value = value.toNat) {width : PrintfSize} (hwidth : c.width = width.toNat) :
    integerText value c.negative c.base precision width flags = c.text ↔
      c.Conforms flags.precision := by
  by_cases hletters : c.Lowercase
  · exact iff_of_false (lowercase_ne value width hletters) fun hc => hc.letters hletters
  by_cases hzero : c.PrefixedZero flags.precision
  · have hvalue0 : value = 0 := BitVec.eq_of_toNat_eq (hvalue.symm.trans hzero.2.2.2)
    rw [hvalue0, h.prefixedZero_iff hzero hwidth]
    refine ⟨fun hsome => ⟨hletters, fun _ hnone => ?_, fun _ => hsome, Or.inl ?_⟩,
      fun hc => hc.zero hzero⟩
    · rw [hsome] at hnone
      cases hnone
    · have hpadding : c.padding = 0 := by simp [Conversion.padding, hsome]
      rw [Conversion.body_binaryZero hzero.2.1 hzero.2.2.2
        (h.sign_unsigned (by rw [hzero.2.1]; decide)), hpadding, hsome, zeros_length]
      exact Nat.le_of_eq (Nat.zero_add _)
  rcases h.precision with hprecision | ⟨hnone, hgiven, rfl⟩
  · rw [h.precision_same_iff hletters hzero hprecision hvalue hwidth]
    refine ⟨fun hroom => ⟨hletters, fun hgiven hnone => ?_, fun hc => absurd hc hzero, hroom⟩,
      fun hc => hc.room⟩
    rw [hprecision, hgiven] at hnone
    cases hnone
  · rw [h.precision_omitted_iff hletters hzero hnone hgiven hvalue hwidth]
    refine ⟨fun hc => ⟨hletters, fun _ _ => hc.1, fun hc => absurd hc hzero, Or.inl hc.2⟩,
      fun hc => ⟨hc.omitted hgiven hnone, hc.room.resolve_right fun hblank => ?_⟩⟩
    have hsome := hblank.2.1
    rw [hnone] at hsome
    cases hsome

end Called

/-! ## The conversion of a directive -/

def intValue {w : Nat} (signed : Bool) (x : BitVec w) : Int := if signed then x.toInt else x.toNat

/-- The value of an integer argument, as the length has it. -/
def standardArg (signed : Bool) (length : Length) (args : List Arg) : Option (Int × List Arg) :=
  match length with
  | .none => (vaInt args).map fun (x, args) => (intValue signed x, args)
  | .h => (vaInt args).map fun (x, args) => (intValue signed (x.setWidth 16), args)
  | .hh => (vaInt args).map fun (x, args) => (intValue signed (x.setWidth 8), args)
  | .l | .ll => (vaLong args).map fun (x, args) => (intValue signed x, args)

/-- A width, and whether it is from a negative argument, which is the flag `-` and a width. -/
def standardWidth (field : Field) (args : List Arg) : Option ((Nat × Bool) × List Arg) :=
  match field with
  | .absent => some ((0, false), args)
  | .number w => some ((w.toNat, false), args)
  | .star => (vaInt args).map fun (w, args) => ((w.toInt.natAbs, decide (w.toInt < 0)), args)

/-- A `.` alone is a precision of 0, and a negative argument is no precision. -/
def standardPrecision (precision : Option Field) (args : List Arg) :
    Option (Option Nat × List Arg) :=
  match precision with
  | none => some (none, args)
  | some .absent => some (some 0, args)
  | some (.number p) => some (some p.toNat, args)
  | some .star =>
    (vaInt args).map fun (p, args) => (if p.toInt < 0 then none else some p.toInt.natAbs, args)

/-- What a directive with an integer specifier asks for, and the arguments behind its own. -/
def conversion (d : Directive) (signed : Bool) (base : NumericBase) (uppercase : Bool)
    (args : List Arg) : Option (Conversion × List Arg) :=
  (standardWidth d.width args).bind fun ((width, minus), args) =>
    (standardPrecision d.precision args).bind fun (precision, args) =>
      (standardArg signed d.length args).map fun (value, args) =>
        (⟨value.natAbs, decide (value < 0), signed, base, uppercase, precision, width,
          { d.flags with left := d.flags.left || minus }⟩, args)

/-! ### Its arguments are those that the code takes -/

theorem slt_zero {w : Nat} (x : BitVec w) : x.slt 0 = decide (x.toInt < 0) := by
  rw [BitVec.slt, show (0 : BitVec w).toInt = 0 from BitVec.toInt_zero]

theorem readWidth_standard {field : Field} {args args' : List Arg} {w : Nat} {minus : Bool}
    (h : standardWidth field args = some ((w, minus), args')) (flags : Flags) :
    ∃ width : PrintfSize, w = width.toNat ∧
      readWidth field flags args =
        some ((width, { flags with left := flags.left || minus }), args') := by
  cases field with
  | absent =>
    cases h
    exact ⟨0, rfl, by rw [Bool.or_false]; rfl⟩
  | number width =>
    cases h
    exact ⟨width, rfl, by rw [Bool.or_false]; rfl⟩
  | star =>
    obtain ⟨⟨x, more⟩, hva, heq⟩ := Option.map_eq_some_iff.mp h
    cases heq
    have hslt := slt_zero x
    have hread : readWidth .star flags args = some (starWidth flags x, args') := by
      rw [readWidth, readField, hva]
      rfl
    rw [hread, starWidth, hslt]
    by_cases hneg : x.toInt < 0
    · refine ⟨-x, ?_, by simp [hneg]⟩
      have habs := BitVec.toInt_eq_toNat_cond x
      have hbound := x.isLt
      rw [BitVec.toNat_neg]
      split at habs <;> omega
    · refine ⟨x, ?_, by simp [hneg]⟩
      have habs := BitVec.toInt_eq_toNat_cond x
      have hbound := x.isLt
      split at habs <;> omega

theorem readPrecision_standard {field : Option Field} {args args' : List Arg}
    {p : Option Nat} (h : standardPrecision field args = some (p, args')) (flags : Flags) :
    ∃ precision : PrintfSize,
      (p = (if field.isSome then some precision.toNat else none) ∨
        p = none ∧ field.isSome = true ∧ precision = 0) ∧
      readPrecision field flags args =
        some ((precision, { flags with precision := flags.precision || field.isSome }), args') := by
  cases field with
  | none =>
    cases h
    exact ⟨0, Or.inl rfl, by rw [Option.isSome_none, Bool.or_false]; rfl⟩
  | some field =>
    rw [Option.isSome_some, Bool.or_true]
    cases field with
    | absent =>
      cases h
      exact ⟨0, Or.inl rfl, rfl⟩
    | number precision =>
      cases h
      exact ⟨precision, Or.inl rfl, rfl⟩
    | star =>
      obtain ⟨⟨x, more⟩, hva, heq⟩ := Option.map_eq_some_iff.mp h
      cases heq
      refine ⟨starPrecision x, ?_, by rw [readPrecision, readField, hva]; rfl⟩
      have hslt : (0 : BitVec 32).slt x = decide (0 < x.toInt) := rfl
      unfold starPrecision
      rw [hslt]
      rcases lt_trichotomy x.toInt 0 with hneg | hzero | hpos
      · refine Or.inr ⟨if_pos hneg, rfl, ?_⟩
        rw [decide_eq_false (not_lt.mpr hneg.le), if_neg Bool.false_ne_true]
      · refine Or.inl ?_
        rw [hzero]
        rfl
      · refine Or.inl ?_
        have habs := BitVec.toInt_eq_toNat_cond x
        have hbound := x.isLt
        rw [decide_eq_true hpos, if_pos rfl, if_neg (not_lt.mpr hpos.le)]
        refine congrArg some ?_
        show x.toInt.natAbs = x.toNat
        split at habs <;> omega

theorem signed_value {w : Nat} (hw : w ≤ 64) {y : BitVec w} {v : Int} (h : y.toInt = v) :
    v.natAbs = (absForPrinting (y.signExtend 64)).toNat ∧ y.slt 0 = decide (v < 0) := by
  rw [absForPrinting_toNat, BitVec.toInt_signExtend_of_le hw, slt_zero, h]
  exact ⟨rfl, rfl⟩

theorem unsigned_value {w : Nat} (hw : w ≤ 64) {y : BitVec w} {v : Int} (h : (y.toNat : Int) = v) :
    v.natAbs = (y.setWidth 64).toNat ∧ false = decide (v < 0) := by
  rw [← h, BitVec.toNat_setWidth_of_le hw, decide_eq_false (not_lt.mpr (Int.natCast_nonneg _))]
  exact ⟨Int.natAbs_natCast _, rfl⟩

/-- An `int` that is narrowed to the length, and widened again. -/
theorem integerArg_int (flags : Flags) (hlong : (flags.longLong || flags.long) = false) {w : Nat}
    (hwidth : w = if flags.char then 8 else if flags.short then 16 else 32) {args args' : List Arg}
    {x : BitVec 32} (hva : vaInt args = some (x, args')) :
    ∃ value : BitVec 64, (intValue flags.signed (x.setWidth w)).natAbs = value.toNat ∧
      integerArg flags args =
        some ((value, decide (intValue flags.signed (x.setWidth w) < 0)), args') := by
  have hw : w ≤ 32 := by
    rw [hwidth]
    split
    · decide
    · split <;> decide
  cases hsigned : flags.signed with
  | true =>
    have hvalue : ((x.setWidth w).signExtend 32).toInt = intValue true (x.setWidth w) :=
      BitVec.toInt_signExtend_of_le hw
    obtain ⟨habs, hneg⟩ := signed_value (by decide) hvalue
    refine ⟨_, habs, ?_⟩
    rw [← hneg, integerArg, hsigned, hlong, hva, hwidth]
    cases flags.char with
    | true => rfl
    | false => cases flags.short <;> simp
  | false =>
    have hvalue : (((x.setWidth w).setWidth 32).toNat : Int) = intValue false (x.setWidth w) := by
      rw [BitVec.toNat_setWidth_of_le hw]
      rfl
    obtain ⟨habs, hneg⟩ := unsigned_value (by decide) hvalue
    refine ⟨_, habs, ?_⟩
    rw [← hneg, integerArg, hsigned, hlong, hva, hwidth]
    cases flags.char with
    | true => rfl
    | false => cases flags.short <;> simp

theorem integerArg_long (flags : Flags) (hlong : (flags.longLong || flags.long) = true)
    {args args' : List Arg} {x : BitVec 64} (hva : vaLong args = some (x, args')) :
    ∃ value : BitVec 64, (intValue flags.signed x).natAbs = value.toNat ∧
      integerArg flags args = some ((value, decide (intValue flags.signed x < 0)), args') := by
  cases hsigned : flags.signed with
  | true =>
    have hvalue : x.toInt = intValue true x := rfl
    obtain ⟨habs, hneg⟩ := signed_value (by decide) hvalue
    refine ⟨_, habs, ?_⟩
    rw [← hneg, integerArg, hsigned, hlong, hva, BitVec.signExtend_eq]
    rfl
  | false =>
    have hvalue : (x.toNat : Int) = intValue false x := rfl
    obtain ⟨habs, hneg⟩ := unsigned_value (by decide) hvalue
    refine ⟨_, habs, ?_⟩
    rw [← hneg, integerArg, hsigned, hlong, hva, BitVec.setWidth_eq]
    rfl

/-- The flags that the length sets are read with the argument. -/
theorem integerArg_standard {signed : Bool} {length : Length} {args args' : List Arg} {v : Int}
    (h : standardArg signed length args = some (v, args')) (flags : Flags)
    (hchar : flags.char = false) (hshort : flags.short = false) (hlong : flags.long = false)
    (hlongLong : flags.longLong = false) (base : NumericBase) (uppercase : Bool) :
    ∃ value : BitVec 64, v.natAbs = value.toNat ∧
      integerArg (integerFlags (length.set flags) signed base uppercase) args =
        some ((value, decide (v < 0)), args') := by
  have hint : (flags.longLong || flags.long) = false := by rw [hlong, hlongLong]; rfl
  cases length with
  | none =>
    obtain ⟨⟨x, more⟩, hva, heq⟩ := Option.map_eq_some_iff.mp h
    cases heq
    have hread := integerArg_int
      (integerFlags (Length.none.set flags) signed base uppercase) hint (w := 32)
      (by simp [integerFlags, Length.set, hchar, hshort]) hva
    rwa [BitVec.setWidth_eq] at hread
  | h =>
    obtain ⟨⟨x, more⟩, hva, heq⟩ := Option.map_eq_some_iff.mp h
    cases heq
    exact integerArg_int (integerFlags (Length.h.set flags) signed base uppercase) hint
      (by simp [integerFlags, Length.set, hchar]) hva
  | hh =>
    obtain ⟨⟨x, more⟩, hva, heq⟩ := Option.map_eq_some_iff.mp h
    cases heq
    exact integerArg_int (integerFlags (Length.hh.set flags) signed base uppercase) hint
      rfl hva
  | l =>
    obtain ⟨⟨x, more⟩, hva, heq⟩ := Option.map_eq_some_iff.mp h
    cases heq
    exact integerArg_long (integerFlags (Length.l.set flags) signed base uppercase)
      (Bool.or_true _) hva
  | ll =>
    obtain ⟨⟨x, more⟩, hva, heq⟩ := Option.map_eq_some_iff.mp h
    cases heq
    exact integerArg_long (integerFlags (Length.ll.set flags) signed base uppercase)
      rfl hva

/-! ## Directives -/

/-- An integer directive of a format, with any arguments that have the types it asks for, prints
    what the standard asks for exactly when none of the differences shows. -/
theorem integer_directive_exact {format rest : List Byte} {d : Directive}
    (hread : parseDirective format = .ok (d, rest)) {signed uppercase : Bool} {base : NumericBase}
    (hspecifier : specifierOf d.specifier = .integer signed base uppercase) {args args' : List Arg}
    {c : Conversion} (hconversion : conversion d signed base uppercase args = some (c, args')) :
    ∃ s, directiveEvents d args = some (chars s, args') ∧
      (s = c.text ↔ c.Conforms d.precision.isSome) := by
  have hformat := parseDirective_flags hread
  obtain ⟨⟨⟨w, minus⟩, args₁⟩, hstandardWidth, hconversion⟩ :=
    Option.bind_eq_some_iff.mp hconversion
  obtain ⟨⟨p, args₂⟩, hstandardPrecision, hconversion⟩ := Option.bind_eq_some_iff.mp hconversion
  obtain ⟨⟨v, args₃⟩, hstandardArg, heq⟩ := Option.map_eq_some_iff.mp hconversion
  dsimp only at hstandardPrecision hstandardArg heq
  cases heq
  obtain ⟨width, rfl, hwidth⟩ := readWidth_standard hstandardWidth d.flags
  obtain ⟨precision, hp, hprecision⟩ :=
    readPrecision_standard hstandardPrecision { d.flags with left := d.flags.left || minus }
  obtain ⟨value, hvalue, harg⟩ := integerArg_standard hstandardArg
    { d.flags with
      left := d.flags.left || minus, precision := d.flags.precision || d.precision.isSome }
    hformat.char hformat.short hformat.long hformat.longLong base uppercase
  have hcall := directive_integerCall hread hspecifier hwidth hprecision harg
  obtain ⟨char, short, long, longLong, hset⟩ := d.length.set_frame
    { d.flags with
      left := d.flags.left || minus, precision := d.flags.precision || d.precision.isSome }
  rw [hset, hformat.precision, Bool.false_or] at hcall
  have hcalled : Called ⟨v.natAbs, decide (v < 0), signed, base, uppercase, p, width.toNat,
      { d.flags with left := d.flags.left || minus }⟩ precision _ :=
    ⟨hcall, rfl, rfl, rfl, rfl, rfl, rfl, hp⟩
  refine ⟨_, ?_, hcalled.integerText_eq_text_iff hvalue rfl⟩
  rw [directiveEvents, hwidth, Option.bind_some]
  dsimp only
  rw [hprecision, Option.bind_some]
  dsimp only
  rw [specifierEvents, hspecifier]
  dsimp only
  rw [harg, hset, hformat.precision, Bool.false_or]
  rfl

/-- `%#*.*X` of 255, with a width of -8 and a precision of -1. -/
theorem integer_directive_exact_stars :
    directiveEvents ⟨{ hash := true }, .star, some .star, .none, chr 'X'⟩
        [.int (-8), .int (-1), .int 255] = some (chars (ascii "0XFF    "), []) := by
  obtain ⟨s, hevents, hexact⟩ := @integer_directive_exact (ascii "%#*.*X" ++ [0]) [0]
    ⟨{ hash := true }, .star, some .star, .none, chr 'X'⟩ rfl false true .hex (by decide)
    [.int (-8), .int (-1), .int 255] []
    ⟨255, false, false, .hex, true, none, 8, { hash := true, left := true }⟩ rfl
  have htext := hexact.mpr ⟨fun h => Bool.noConfusion h.1,
    fun _ _ => ⟨Or.inl (by decide), by decide⟩, fun h => NumericBase.noConfusion h.2.1,
    Or.inl (by decide)⟩
  rw [hevents, htext]
  rfl

end SeshOS.Printf
