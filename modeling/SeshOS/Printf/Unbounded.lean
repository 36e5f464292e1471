/-
  What `printInt` prints of a number, and when it is all of it.

  `unboundedText` is the text as `printInt` means it: sign and prefix, at least as many digits as
  the precision says, and spaces or zeros up to the width. The number is built in 32 bytes, and
  what has no room there is dropped. So that text is printed when what is not padding has at most
  32 characters (`integerText_fits`) and, with one exception, only then
  (`integer_conversion_exact`): a blank for the sign that is dropped is made up for by a space of
  the padding. How the text differs from the one the C standard asks for is in `Standard`.
-/
import SeshOS.Base.Digits
import SeshOS.Printf.Integer

namespace SeshOS.Printf

open Base Libc

/-! ## The text -/

/-- The digits of a number, at least `least` of them. -/
def numeral (base least value : Nat) : List Byte :=
  zeros (least - (Nat.digits base value).length) ++ (Nat.digits base value).reverse.map digitChar

def signText (negative : Bool) (flags : Flags) : List Byte :=
  if negative then [chr '-'] else if flags.plus then [chr '+'] else if flags.space then [chr ' ']
  else []

/-- The prefix of the alternative form. -/
def prefixText (value : Nat) (base : NumericBase) (flags : Flags) : List Byte :=
  if flags.hash then
    match base with
    | .hex =>
      if value = 0 then [] else [chr '0', if flags.uppercase then chr 'X' else chr 'x']
    | .binary => if value = 0 ∧ flags.precision = false then [] else [chr '0', chr 'b']
    | .octal | .decimal => []
  else []

/-- The alternative form of an octal number has a zero in front. -/
def digitsText (value : Nat) (base : NumericBase) (precision : Nat) (flags : Flags) : List Byte :=
  let digits := numeral base.val (if flags.precision then precision else 1) value
  if flags.hash ∧ base = .octal ∧ digits.head? ≠ some (chr '0') then chr '0' :: digits else digits

/-- The number without the spaces around it. -/
def bodyText (value : Nat) (negative : Bool) (base : NumericBase) (precision width : Nat)
    (flags : Flags) : List Byte :=
  let lead := signText negative flags ++ prefixText value base flags
  let digits := digitsText value base precision flags
  lead ++ ((if flags.zeropad && !flags.left then zeros (width - (lead.length + digits.length))
    else []) ++ digits)

def unboundedText (value : Nat) (negative : Bool) (base : NumericBase) (precision width : Nat)
    (flags : Flags) : List Byte :=
  let body := bodyText value negative base precision width flags
  if flags.left then body ++ spaces (width - body.length) else spaces (width - body.length) ++ body

/-- What holds of every call of `printInt` by an integer specifier. -/
structure IntegerCall (negative : Bool) (base : NumericBase) (precision : PrintfSize)
    (flags : Flags) : Prop where
  pointer : flags.pointer = false
  zeropad : flags.precision = true → flags.zeropad = false
  hash : base = .decimal → flags.hash = false
  unsigned : base ≠ .decimal → negative = false ∧ flags.plus = false ∧ flags.space = false
  precision : flags.precision = false → precision = 0

/-! ## Digits -/

theorem NumericBase.one_lt_val (base : NumericBase) : 1 < base.val := by
  cases base <;> decide

theorem store_room {buf : List Byte} (h : buf.length < integerBufferSize) (c : Byte) :
    store buf c = buf ++ [c] := if_pos h

theorem storeDigits_eq {base : Nat} (hbase : 1 < base) (rounds value : Nat) (buf : List Byte) :
    storeDigits base rounds value buf =
      buf ++ ((Nat.digits base value).map digitChar).take
        (min rounds (integerBufferSize - buf.length)) := by
  induction rounds generalizing value buf with
  | zero => rw [Nat.zero_min, List.take_zero, List.append_nil, storeDigits]
  | succ rounds ih =>
    rw [storeDigits]
    by_cases hvalue : value = 0
    · rw [if_neg (fun h => h.1 hvalue), hvalue, Nat.digits_zero]
      simp
    · by_cases hroom : buf.length < integerBufferSize
      · have hmin : min (rounds + 1) (integerBufferSize - buf.length) =
            min rounds (integerBufferSize - (buf ++ [digitChar (value % base)]).length) + 1 := by
          rw [List.length_append, List.length_singleton]
          omega
        rw [if_pos ⟨hvalue, hroom⟩, ih, hmin, Nat.digits_def' hbase (Nat.pos_of_ne_zero hvalue),
          List.map_cons, List.take_succ_cons, List.append_assoc, List.singleton_append]
      · rw [if_neg (fun h => hroom h.2), Nat.sub_eq_zero_of_le (Nat.le_of_not_lt hroom), Nat.min_zero,
          List.take_zero, List.append_nil]

/-- A digit is none of the characters that are not digits. -/
theorem digitChar_ne_space (d : Nat) (h : d < 16) : digitChar d ≠ chr ' ' := by
  revert d
  decide

theorem digitChar_eq_zero {d : Nat} (h : d < 16) : digitChar d = chr '0' ↔ d = 0 := by
  revert d
  decide

theorem zeros_length (k : Nat) : (zeros k).length = k := List.length_replicate

theorem zeros_reverse (k : Nat) : (zeros k).reverse = zeros k := List.reverse_replicate

theorem zeros_append (j k : Nat) : zeros j ++ zeros k = zeros (j + k) :=
  List.replicate_append_replicate

theorem numeral_length (base least value : Nat) :
    (numeral base least value).length = max least (Nat.digits base value).length := by
  rw [numeral, List.length_append, zeros_length, List.length_map, List.length_reverse]
  omega

/-- More zeros make a numeral of more digits. -/
theorem zeros_numeral {base value least more : Nat} (h : least ≤ more) :
    zeros (more - (numeral base least value).length) ++ numeral base least value =
      numeral base more value := by
  rw [numeral_length, numeral, numeral, ← List.append_assoc, zeros_append]
  congr 2
  omega

/-- The digits without their leading zeros do not begin with a zero. -/
theorem numeral_head {base : Nat} (hbase : 1 < base) (hsmall : base ≤ 16) {value : Nat}
    (hvalue : value ≠ 0) {least : Nat} (h : least ≤ (Nat.digits base value).length) :
    (numeral base least value).head? ≠ some (chr '0') := by
  have hne : Nat.digits base value ≠ [] := Nat.digits_ne_nil_iff_ne_zero.mpr hvalue
  have hlast := Nat.getLast_digit_ne_zero base hvalue
  rw [numeral, Nat.sub_eq_zero_of_le h]
  show ((Nat.digits base value).reverse.map digitChar).head? ≠ _
  rw [List.head?_map, List.head?_reverse, List.getLast?_eq_some_getLast hne, Option.map_some]
  intro hzero
  have hlt : (Nat.digits base value).getLast hne < 16 :=
    lt_of_lt_of_le (Nat.digits_lt_base hbase (List.getLast_mem hne)) hsmall
  exact hlast ((digitChar_eq_zero hlt).mp (Option.some.inj hzero))

theorem NumericBase.val_le (base : NumericBase) : base.val ≤ 16 := by
  cases base <;> decide

/-! ## The buffer when there is room -/

section Fits

variable {value : BitVec 64} {base : NumericBase} {flags : Flags}

/-- The digits of a number that has room are its numeral. -/
theorem integerDigits_reverse (value : BitVec 64) (base : NumericBase) (flags : Flags)
    (h : (Nat.digits base.val value.toNat).length ≤ integerBufferSize) :
    (integerDigits value base flags).1.reverse =
      numeral base.val (if flags.precision then 0 else 1) value.toNat := by
  unfold integerDigits numeral
  by_cases hvalue : value = 0
  · subst hvalue
    rw [if_pos rfl]
    cases flags.precision with
    | false => simp [zeros]
    | true => cases base <;> simp [zeros]
  · have hnat : value.toNat ≠ 0 := fun h0 => hvalue (BitVec.eq_of_toNat_eq h0)
    have hpos : 0 < (Nat.digits base.val value.toNat).length :=
      List.length_pos_iff.mpr (Nat.digits_ne_nil_iff_ne_zero.mpr hnat)
    have hnone : (if flags.precision then 0 else 1) - (Nat.digits base.val value.toNat).length = 0 := by
      split <;> omega
    rw [if_neg hvalue, storeDigits_eq base.one_lt_val, hnone, List.nil_append, List.take_of_length_le
      (by rw [List.length_map, List.length_nil]; omega), List.map_reverse]
    rfl

theorem integerDigits_flags (value : BitVec 64) (base : NumericBase) (flags : Flags) :
    (integerDigits value base flags).2 =
      { flags with
        hash := flags.hash && !decide (value = 0 ∧ (flags.precision = false ∨ base = .hex)) } := by
  cases flags with
  | mk zeropad left plus space hash uppercase char short long longLong precision pointer signed =>
    unfold integerDigits
    by_cases hvalue : value = 0
    · rw [if_pos hvalue]
      cases precision with
      | false => simp [hvalue]
      | true => cases base <;> simp [hvalue]
    · rw [if_neg hvalue]
      have hkept : decide (value = 0 ∧ (precision = false ∨ base = .hex)) = false :=
        decide_eq_false fun h => hvalue h.1
      simp only [hkept, Bool.not_false, Bool.and_true]

/-- The characters of the alternative form that are not in the numeral. -/
def alternative (value : Nat) (base : NumericBase) (precision : Nat) (flags : Flags) : List Byte :=
  prefixText value base flags ++
    if flags.hash ∧ base = .octal ∧
        (numeral base.val (if flags.precision then precision else 1) value).head? ≠ some (chr '0')
    then [chr '0'] else []

/-- The two characters of a prefix. -/
theorem storePrefix_room {buf : List Byte} {unpaddedLen : Nat} {base : NumericBase}
    {precision width : PrintfSize} {flags : Flags} {digits : List Byte}
    (hback : takeBack buf unpaddedLen base precision width flags = digits)
    (hbase : base = .hex ∨ base = .binary) (hroom : digits.length + 2 ≤ integerBufferSize) :
    storePrefix buf unpaddedLen base precision width flags =
      digits ++ [if base = .hex then (if flags.uppercase then chr 'X' else chr 'x') else chr 'b',
        chr '0'] := by
  have hfirst : digits.length < integerBufferSize := by omega
  have hsecond : ∀ c : Byte, (digits ++ [c]).length < integerBufferSize := by
    intro c
    rw [List.length_append, List.length_singleton]
    omega
  unfold storePrefix storeLetter
  rw [hback]
  rcases hbase with rfl | rfl
  · cases flags.uppercase with
    | false => simp [store_room hfirst, store_room (hsecond _)]
    | true => simp [store_room hfirst, store_room (hsecond _)]
  · simp [store_room hfirst, store_room (hsecond _)]

theorem storePrefix_octal {buf : List Byte} {unpaddedLen : Nat} {precision width : PrintfSize}
    {flags : Flags} {digits : List Byte}
    (hback : takeBack buf unpaddedLen .octal precision width flags = digits)
    (hroom : digits.length < integerBufferSize) :
    storePrefix buf unpaddedLen .octal precision width flags = digits ++ [chr '0'] := by
  unfold storePrefix storeLetter
  rw [hback]
  simp [store_room hroom]

theorem takeBack_unpadded {buf : List Byte} {unpaddedLen : Nat} {base : NumericBase}
    {precision width : PrintfSize} {flags : Flags}
    (h : flags.precision = true ∨ buf.length ≤ unpaddedLen) :
    takeBack buf unpaddedLen base precision width flags = buf := by
  unfold takeBack
  dsimp only
  rcases h with h | h
  · exact if_neg fun hc => by rw [h] at hc; cases hc.1
  · have hnone : ¬unpaddedLen < buf.length := by omega
    by_cases hc : flags.precision = false ∧ buf.length ≠ 0 ∧
        (buf.length = precision.toNat ∨ buf.length = width.toNat)
    · rw [if_pos hc, if_neg hnone, if_neg fun hc => hnone hc.2.2]
    · rw [if_neg hc]

theorem zeros_dropLast (digits : List Byte) (k : Nat) :
    (digits ++ zeros (k + 1)).dropLast = digits ++ zeros k := by
  rw [zeros, List.replicate_succ', ← List.append_assoc, List.dropLast_concat]
  rfl

/-- Of the zeros up to the width two are taken back. -/
theorem takeBack_padded {digits : List Byte} {base : NumericBase} {width : PrintfSize}
    {flags : Flags} (hbase : base = .hex ∨ base = .binary) (hprecision : flags.precision = false)
    (hdigits : digits ≠ []) :
    takeBack (digits ++ zeros (width.toNat - digits.length)) digits.length base 0 width flags =
      digits ++ zeros (width.toNat - digits.length - 2) := by
  have hpos : 0 < digits.length := List.length_pos_iff.mpr hdigits
  generalize hk : width.toNat - digits.length = k
  have hlength : ∀ j, (digits ++ zeros j).length = digits.length + j := by
    intro j
    rw [List.length_append, zeros_length]
  match k with
  | 0 => exact takeBack_unpadded (Or.inr (hlength 0).le)
  | k + 1 =>
    have hwidth : flags.precision = false ∧ (digits ++ zeros (k + 1)).length ≠ 0 ∧
        ((digits ++ zeros (k + 1)).length = (0 : PrintfSize).toNat ∨
          (digits ++ zeros (k + 1)).length = width.toNat) := by
      rw [hlength]
      exact ⟨hprecision, by omega, Or.inr (by omega)⟩
    unfold takeBack
    dsimp only
    rw [if_pos hwidth, if_pos (by rw [hlength]; omega : digits.length < (digits ++ zeros (k + 1)).length),
      zeros_dropLast]
    match k with
    | 0 => exact if_neg fun h => absurd h.2.2 (by rw [hlength]; omega)
    | k + 1 =>
      rw [if_pos ⟨by rw [hlength]; omega, hbase, by rw [hlength]; omega⟩, zeros_dropLast]
      rfl

/-! ### The parts of the buffer -/

theorem leadingZeros_unpadded (buf : List Byte) (negative : Bool) (precision width : PrintfSize)
    (h : (flags.zeropad && !flags.left) = false) :
    leadingZeros buf negative precision width flags =
      (buf ++ zeros (min precision.toNat integerBufferSize - buf.length), width) := by
  have hnone : ¬(flags.left = false ∧ flags.zeropad = true) := by
    rintro ⟨hleft, hzeropad⟩
    rw [hleft, hzeropad] at h
    cases h
  unfold leadingZeros
  rw [if_neg fun hc => hnone ⟨hc.1, hc.2.2.1⟩]
  dsimp only
  rw [if_neg hnone, storeZeros_eq _ (by omega)]

/-- The width that is left for the digits, behind a sign. -/
theorem leadingZeros_padded (buf : List Byte) (negative : Bool) (width : PrintfSize)
    (h : (flags.zeropad && !flags.left) = true) :
    ∃ width' : PrintfSize, width'.toNat = width.toNat - (signText negative flags).length ∧
      leadingZeros buf negative 0 width flags =
        (buf ++ zeros (min width'.toNat integerBufferSize - buf.length), width') := by
  have hboth : flags.left = false ∧ flags.zeropad = true := by
    cases hleft : flags.left <;> cases hzeropad : flags.zeropad <;> simp_all
  have hsign : (signText negative flags).length =
      if negative = true ∨ flags.plus = true ∨ flags.space = true then 1 else 0 := by
    unfold signText
    cases negative <;> cases flags.plus <;> cases flags.space <;> rfl
  have hzeros : ∀ bound, storeZeros (0 : PrintfSize).toNat integerBufferSize
      (storeZeros bound integerBufferSize buf) = buf ++ zeros (min bound integerBufferSize - buf.length) := by
    intro bound
    rw [storeZeros_eq bound (by omega), storeZeros_eq _ (by omega)]
    show _ ++ zeros (0 - _) = _
    rw [Nat.zero_sub]
    exact List.append_nil _
  unfold leadingZeros
  rw [hsign]
  by_cases hdrop : flags.left = false ∧ width ≠ 0 ∧ flags.zeropad = true ∧
      (negative = true ∨ flags.plus = true ∨ flags.space = true)
  · refine ⟨width - 1, ?_, ?_⟩
    · rw [if_pos hdrop.2.2.2]
      have hpos : width.toNat ≠ 0 := fun h0 => hdrop.2.1 (BitVec.eq_of_toNat_eq h0)
      bv_omega
    · rw [if_pos hdrop]
      dsimp only
      rw [if_pos hboth, hzeros]
  · refine ⟨width, ?_, ?_⟩
    · split
      · next hs =>
        have hwidth : width = 0 := by
          by_contra hne
          exact hdrop ⟨hboth.1, hne, hboth.2, hs⟩
        rw [hwidth]
        rfl
      · exact (Nat.sub_zero _).symm
    · rw [if_neg hdrop]
      dsimp only
      rw [if_pos hboth, hzeros]

/-- The sign, when there is room for it. -/
theorem storeSign_room {buf : List Byte} {negative : Bool}
    (h : (signText negative flags).length + buf.length ≤ integerBufferSize) :
    (storeSign buf negative flags).reverse = signText negative flags ++ buf.reverse := by
  have hroom : ∀ c : Byte, [c].length + buf.length ≤ integerBufferSize →
      (store buf c).reverse = [c] ++ buf.reverse := by
    intro c hc
    rw [List.length_singleton] at hc
    rw [store_room (by omega), List.reverse_append]
    rfl
  unfold storeSign
  unfold signText at h ⊢
  cases negative with
  | true => exact hroom _ h
  | false =>
    simp only [Bool.false_eq_true, if_false] at h ⊢
    cases hplus : flags.plus with
    | true =>
      rw [hplus] at h
      exact hroom _ h
    | false =>
      rw [hplus] at h
      simp only [Bool.false_eq_true, if_false] at h ⊢
      cases hspace : flags.space with
      | true =>
        rw [hspace] at h
        exact hroom _ h
      | false => rfl

/-- What `integerBuffer` does to the digits of a number, behind its leading zeros. -/
def storeAlternative (buf : List Byte) (unpaddedLen : Nat) (base : NumericBase)
    (precision width : PrintfSize) (flags : Flags) : List Byte :=
  if (flags.hash && !decide (base = .octal ∧ unpaddedLen < buf.length)) = true ∨ flags.pointer = true
  then storePrefix buf unpaddedLen base precision width flags
  else buf

theorem integerBuffer_eq {buf padded : List Byte} {negative : Bool} {precision width width' : PrintfSize}
    (h : leadingZeros buf negative precision width flags = (padded, width')) :
    integerBuffer buf negative base precision width flags =
      (storeSign (storeAlternative padded buf.length base precision width' flags) negative flags,
        width') := by
  unfold integerBuffer
  rw [h]
  rfl

theorem storeAlternative_plain {buf : List Byte} {unpaddedLen : Nat}
    {precision width : PrintfSize} (hhash : flags.hash = false) (hpointer : flags.pointer = false) :
    storeAlternative buf unpaddedLen base precision width flags = buf := by
  unfold storeAlternative
  rw [hhash, hpointer]
  rfl

theorem storeAlternative_eq_storePrefix {buf : List Byte} {unpaddedLen : Nat}
    {precision width : PrintfSize} (hhash : flags.hash = true) (hbase : base ≠ .octal) :
    storeAlternative buf unpaddedLen base precision width flags =
      storePrefix buf unpaddedLen base precision width flags := by
  unfold storeAlternative
  rw [hhash, decide_eq_false fun h => hbase h.1]
  rfl

theorem storeAlternative_octal {buf : List Byte} {unpaddedLen : Nat}
    {precision width : PrintfSize} (hhash : flags.hash = true) (hpointer : flags.pointer = false) :
    storeAlternative buf unpaddedLen .octal precision width flags =
      if unpaddedLen < buf.length then buf
      else storePrefix buf unpaddedLen .octal precision width flags := by
  unfold storeAlternative
  rw [hhash, hpointer]
  by_cases h : unpaddedLen < buf.length
  · rw [decide_eq_true ⟨rfl, h⟩, if_pos h]
    rfl
  · rw [decide_eq_false fun hc => h hc.2, if_neg h]
    rfl

/-- Zeros in front of a zero. -/
theorem zeros_comm (k : Nat) (s : List Byte) :
    zeros k ++ chr '0' :: s = chr '0' :: (zeros k ++ s) := by
  induction k with
  | zero => rfl
  | succ k ih => exact congrArg (chr '0' :: ·) ih

/-- What is put in front of the numeral, for both kinds of padding. -/
theorem bodyText_eq (value : Nat) (negative : Bool) (base : NumericBase) (precision width : Nat)
    (flags : Flags) :
    bodyText value negative base precision width flags =
      let numeral := numeral base.val (if flags.precision then precision else 1) value
      let alternative := alternative value base precision flags
      signText negative flags ++ (alternative ++
        ((if flags.zeropad && !flags.left then
          zeros (width - ((signText negative flags).length + alternative.length + numeral.length))
          else []) ++ numeral)) := by
  unfold bodyText digitsText alternative
  dsimp only
  generalize numeral base.val (if flags.precision then precision else 1) value = digits
  by_cases h : flags.hash ∧ base = .octal ∧ digits.head? ≠ some (chr '0')
  · have hprefix : prefixText value base flags = [] := by
      rw [h.2.1]
      unfold prefixText
      split <;> rfl
    rw [if_pos h, if_pos h, hprefix, List.append_nil, List.nil_append]
    have hlength : (signText negative flags).length + (chr '0' :: digits).length =
        (signText negative flags).length + [chr '0'].length + digits.length := by
      rw [List.length_cons, List.length_singleton]
      omega
    rw [hlength]
    congr 1
    split
    · exact zeros_comm _ _
    · rfl
  · rw [if_neg h, if_neg h, List.append_nil, List.length_append, List.append_assoc]

/-! ### The alternative form -/

/-- `#` is dropped: for zero, where it makes no difference. -/
def Dropped (value : Nat) (base : NumericBase) (flags : Flags) : Prop :=
  value = 0 ∧ (flags.precision = false ∨ base = .hex)

instance (value : Nat) (base : NumericBase) (flags : Flags) : Decidable (Dropped value base flags) :=
  inferInstanceAs (Decidable (_ ∧ _))

theorem integerDigits_dropped (h : Dropped value.toNat base flags ∨ flags.hash = false) :
    (integerDigits value base flags).2.hash = false := by
  rw [integerDigits_flags]
  rcases h with ⟨h0, h⟩ | h
  · have hvalue : value = 0 := BitVec.eq_of_toNat_eq h0
    dsimp only
    rw [decide_eq_true ⟨hvalue, h⟩, Bool.not_true, Bool.and_false]
  · dsimp only
    rw [h, Bool.false_and]

theorem integerDigits_kept (h : ¬Dropped value.toNat base flags) :
    (integerDigits value base flags).2 = flags := by
  have hkept : decide (value = 0 ∧ (flags.precision = false ∨ base = .hex)) = false :=
    decide_eq_false fun hc => h ⟨congrArg BitVec.toNat hc.1, hc.2⟩
  rw [integerDigits_flags, hkept]
  cases flags
  simp only [Bool.not_false, Bool.and_true]

theorem alternative_dropped {value : Nat} {precision : Nat}
    (h : Dropped value base flags ∨ flags.hash = false) :
    alternative value base precision flags = [] := by
  unfold alternative prefixText
  rcases h with ⟨rfl, h⟩ | h
  · rcases h with h | rfl
    · rw [h]
      cases base <;> simp [numeral, zeros]
    · simp
  · simp [h]

theorem alternative_kept {value : Nat} {precision : Nat} (h : ¬Dropped value base flags)
    (hhash : flags.hash = true) (hbase : base = .hex ∨ base = .binary) :
    alternative value base precision flags =
      [chr '0',
        if base = .hex then (if flags.uppercase then chr 'X' else chr 'x') else chr 'b'] := by
  unfold alternative prefixText
  unfold Dropped at h
  rw [hhash]
  rcases hbase with rfl | rfl
  · have hvalue : value ≠ 0 := fun h0 => h ⟨h0, Or.inr rfl⟩
    simp [hvalue]
  · have hvalue : ¬(value = 0 ∧ flags.precision = false) := fun hc => h ⟨hc.1, Or.inl hc.2⟩
    simp [hvalue]

theorem alternative_octal {value : Nat} {precision : Nat} (hhash : flags.hash = true) :
    alternative value .octal precision flags =
      if (numeral 8 (if flags.precision then precision else 1) value).head? ≠ some (chr '0') then
        [chr '0']
      else [] := by
  unfold alternative prefixText
  rw [hhash]
  simp [NumericBase.val]

/-- The digits of an octal number that `#` changes do not begin with a zero. -/
theorem kept_head {value : Nat} (h : ¬Dropped value .octal flags) :
    (numeral 8 (if flags.precision then 0 else 1) value).head? ≠ some (chr '0') := by
  unfold Dropped at h
  by_cases hvalue : value = 0
  · have hprecision : flags.precision = true := by
      rw [← Bool.not_eq_false]
      exact fun hc => h ⟨hvalue, Or.inl hc⟩
    rw [hprecision, hvalue]
    decide
  · have hpos : 0 < (Nat.digits 8 value).length :=
      List.length_pos_iff.mpr (Nat.digits_ne_nil_iff_ne_zero.mpr hvalue)
    exact numeral_head (by decide) (by decide) hvalue (by split <;> omega)

theorem integerDigits_pointer (value : BitVec 64) (base : NumericBase) (flags : Flags) :
    (integerDigits value base flags).2.pointer = flags.pointer := by
  rw [integerDigits_flags]

/-- Of the bases with an alternative form only one has no prefix. -/
theorem IntegerCall.octal {negative : Bool} {precision : PrintfSize}
    (call : IntegerCall negative base precision flags) (hhash : flags.hash = true)
    (hbase : ¬(base = .hex ∨ base = .binary)) : base = .octal := by
  cases base with
  | octal => rfl
  | decimal => rw [call.hash rfl] at hhash; cases hhash
  | hex => exact absurd (Or.inl rfl) hbase
  | binary => exact absurd (Or.inr rfl) hbase

/-- A number without zeros up to its width. -/
theorem storeAlternative_unpadded {negative : Bool} {precision : PrintfSize} (width : PrintfSize)
    (call : IntegerCall negative base precision flags) {digits : List Byte} {k : Nat}
    (hdigits : digits.reverse =
      numeral base.val (if flags.precision then 0 else 1) value.toNat)
    (hnumeral : zeros k ++ digits.reverse =
      numeral base.val (if flags.precision then precision.toNat else 1) value.toNat)
    (hk : flags.precision = false → k = 0)
    (hroom : (alternative value.toNat base precision.toNat flags).length +
      (digits ++ zeros k).length ≤ integerBufferSize) :
    (storeAlternative (digits ++ zeros k) digits.length base precision width
      (integerDigits value base flags).2).reverse =
    alternative value.toNat base precision.toNat flags ++ (zeros k ++ digits.reverse) := by
  have hreverse : (digits ++ zeros k).reverse = zeros k ++ digits.reverse := by
    rw [List.reverse_append, zeros_reverse]
  have hpointer := (integerDigits_pointer value base flags).trans call.pointer
  have hback : takeBack (digits ++ zeros k) digits.length base precision width flags =
      digits ++ zeros k := by
    cases hprecision : flags.precision with
    | true => exact takeBack_unpadded (Or.inl hprecision)
    | false =>
      refine takeBack_unpadded (Or.inr ?_)
      rw [hk hprecision, List.length_append, zeros_length]
      exact Nat.le_refl _
  by_cases hdropped : Dropped value.toNat base flags ∨ flags.hash = false
  · rw [storeAlternative_plain (integerDigits_dropped hdropped) hpointer,
      alternative_dropped hdropped, hreverse, List.nil_append]
  · obtain ⟨hkept, hhash⟩ := not_or.mp hdropped
    rw [Bool.not_eq_false] at hhash
    rw [integerDigits_kept hkept] at hpointer ⊢
    by_cases hbase : base = .hex ∨ base = .binary
    · have hoctal : base ≠ .octal := by rcases hbase with rfl | rfl <;> decide
      rw [alternative_kept hkept hhash hbase] at hroom ⊢
      rw [List.length_cons, List.length_singleton] at hroom
      rw [storeAlternative_eq_storePrefix hhash hoctal, storePrefix_room hback hbase (by omega),
        List.reverse_append, hreverse]
      rfl
    · obtain rfl := call.octal hhash hbase
      rw [storeAlternative_octal hhash hpointer]
      rw [alternative_octal hhash] at hroom ⊢
      match k with
      | k + 1 =>
        have hhead : (numeral 8 (if flags.precision then precision.toNat else 1) value.toNat).head? =
            some (chr '0') := by
          show (numeral NumericBase.octal.val _ _).head? = _
          rw [← hnumeral]
          rfl
        rw [if_pos (by rw [List.length_append, zeros_length]; omega), if_neg (not_not.mpr hhead),
          hreverse, List.nil_append]
      | 0 =>
        have hhead : (numeral 8 (if flags.precision then precision.toNat else 1) value.toNat).head? ≠
            some (chr '0') := by
          show (numeral NumericBase.octal.val _ _).head? ≠ _
          rw [← hnumeral]
          show digits.reverse.head? ≠ _
          rw [hdigits]
          exact kept_head hkept
        rw [if_pos hhead] at hroom ⊢
        rw [List.length_singleton] at hroom
        rw [if_neg (by rw [List.length_append, zeros_length]; omega),
          storePrefix_octal hback (by omega), List.reverse_append, hreverse]
        rfl

/-- A number with zeros up to its width: those of the alternative form are among them. -/
theorem storeAlternative_padded {negative : Bool} (width : PrintfSize)
    (call : IntegerCall negative base 0 flags) {digits : List Byte} {k : Nat}
    (hprecision : flags.precision = false)
    (hdigits : digits.reverse = numeral base.val 1 value.toNat)
    (hk : k = width.toNat - digits.length)
    (hroom : (alternative value.toNat base 0 flags).length +
      (digits.length + (k - (alternative value.toNat base 0 flags).length)) ≤ integerBufferSize) :
    (storeAlternative (digits ++ zeros k) digits.length base 0 width
      (integerDigits value base flags).2).reverse =
    alternative value.toNat base 0 flags ++
      (zeros (k - (alternative value.toNat base 0 flags).length) ++ digits.reverse) := by
  have hreverse : ∀ j, (digits ++ zeros j).reverse = zeros j ++ digits.reverse := by
    intro j
    rw [List.reverse_append, zeros_reverse]
  have hpointer := (integerDigits_pointer value base flags).trans call.pointer
  have hne : digits ≠ [] := by
    rintro rfl
    have hlength := congrArg List.length hdigits
    rw [numeral_length, List.length_reverse, List.length_nil] at hlength
    omega
  by_cases hdropped : Dropped value.toNat base flags ∨ flags.hash = false
  · rw [storeAlternative_plain (integerDigits_dropped hdropped) hpointer,
      alternative_dropped hdropped, hreverse]
    rfl
  · obtain ⟨hkept, hhash⟩ := not_or.mp hdropped
    rw [Bool.not_eq_false] at hhash
    rw [integerDigits_kept hkept] at hpointer ⊢
    by_cases hbase : base = .hex ∨ base = .binary
    · have hoctal : base ≠ .octal := by rcases hbase with rfl | rfl <;> decide
      have hback : takeBack (digits ++ zeros k) digits.length base 0 width flags =
          digits ++ zeros (k - 2) := by
        rw [hk]
        exact takeBack_padded hbase hprecision hne
      rw [alternative_kept hkept hhash hbase] at hroom ⊢
      rw [List.length_cons, List.length_singleton] at hroom ⊢
      rw [storeAlternative_eq_storePrefix hhash hoctal, storePrefix_room hback hbase
        (by rw [List.length_append, zeros_length]; omega), List.reverse_append, hreverse]
      rfl
    · obtain rfl := call.octal hhash hbase
      have hhead := kept_head hkept
      rw [hprecision] at hhead
      have halternative : alternative value.toNat .octal 0 flags = [chr '0'] := by
        rw [alternative_octal hhash, hprecision]
        exact if_pos hhead
      rw [storeAlternative_octal hhash hpointer]
      rw [halternative] at hroom ⊢
      rw [List.length_singleton] at hroom ⊢
      match k with
      | k + 1 =>
        rw [if_pos (by rw [List.length_append, zeros_length]; omega), hreverse]
        rfl
      | 0 =>
        rw [if_neg (by rw [List.length_append, zeros_length]; omega),
          storePrefix_octal (takeBack_unpadded (Or.inr (by
            rw [List.length_append, zeros_length]
            exact Nat.le_refl _))) (by rw [List.length_append, zeros_length]; omega),
          List.reverse_append, hreverse]
        rfl

theorem integerDigits_sign (value : BitVec 64) (base : NumericBase) (flags : Flags) (negative : Bool) :
    signText negative (integerDigits value base flags).2 = signText negative flags := by
  rw [integerDigits_flags]
  rfl

theorem integerDigits_pad (value : BitVec 64) (base : NumericBase) (flags : Flags) :
    ((integerDigits value base flags).2.zeropad && !(integerDigits value base flags).2.left) =
      (flags.zeropad && !flags.left) := by
  rw [integerDigits_flags]

theorem integerBuffer_unpadded {negative : Bool} {precision width : PrintfSize}
    (call : IntegerCall negative base precision flags)
    (hpad : (flags.zeropad && !flags.left) = false)
    (hroom : (bodyText value.toNat negative base precision.toNat width.toNat flags).length ≤
      integerBufferSize) :
    (integerBuffer (integerDigits value base flags).1 negative base precision width
      (integerDigits value base flags).2).1.reverse =
    bodyText value.toNat negative base precision.toNat width.toNat flags := by
  rw [bodyText_eq] at hroom ⊢
  rw [hpad] at hroom ⊢
  simp only [Bool.false_eq_true, if_false, List.nil_append, List.length_append] at hroom ⊢
  have hN := numeral_length base.val (if flags.precision then precision.toNat else 1) value.toNat
  have hdigits := integerDigits_reverse value base flags (by omega)
  have hlength := congrArg List.length hdigits
  rw [List.length_reverse] at hlength
  generalize hd : (integerDigits value base flags).1 = digits at hdigits hlength ⊢
  have hnumeral : zeros (min precision.toNat integerBufferSize - digits.length) ++ digits.reverse =
      numeral base.val (if flags.precision then precision.toNat else 1) value.toNat := by
    rw [hlength, hdigits]
    cases hprecision : flags.precision with
    | false =>
      rw [call.precision hprecision]
      show zeros (min 0 _ - _) ++ _ = _
      rw [Nat.zero_min, Nat.zero_sub]
      rfl
    | true =>
      simp only [hprecision, if_true] at hN hroom ⊢
      rw [Nat.min_eq_left (by omega)]
      exact zeros_numeral (Nat.zero_le _)
  have hlead := leadingZeros_unpadded digits negative precision width
    ((integerDigits_pad value base flags).trans hpad)
  have hk : flags.precision = false → min precision.toNat integerBufferSize - digits.length = 0 := by
    intro hprecision
    rw [call.precision hprecision]
    show min 0 _ - _ = 0
    omega
  have hcount := congrArg List.length hnumeral
  rw [List.length_append, List.length_reverse, zeros_length] at hcount
  have halternative := storeAlternative_unpadded width call hdigits hnumeral hk
    (by rw [List.length_append, zeros_length]; omega)
  have hcount' := congrArg List.length halternative
  rw [List.length_reverse, List.length_append, hnumeral] at hcount'
  rw [integerBuffer_eq hlead]
  show (storeSign _ negative _).reverse = _
  rw [storeSign_room (by rw [integerDigits_sign, hcount']; omega), integerDigits_sign, halternative,
    hnumeral]

theorem integerBuffer_padded {negative : Bool} {width : PrintfSize}
    (call : IntegerCall negative base 0 flags) (hprecision : flags.precision = false)
    (hpad : (flags.zeropad && !flags.left) = true)
    (hroom : (bodyText value.toNat negative base 0 width.toNat flags).length ≤ integerBufferSize) :
    (integerBuffer (integerDigits value base flags).1 negative base 0 width
      (integerDigits value base flags).2).1.reverse =
    bodyText value.toNat negative base 0 width.toNat flags := by
  rw [bodyText_eq] at hroom ⊢
  rw [hpad] at hroom ⊢
  simp only [hprecision, Bool.false_eq_true, if_false, if_true, List.length_append, zeros_length]
    at hroom ⊢
  have hN := numeral_length base.val 1 value.toNat
  have hdigits := integerDigits_reverse value base flags (by omega)
  simp only [hprecision, Bool.false_eq_true, if_false] at hdigits
  have hlength := congrArg List.length hdigits
  rw [List.length_reverse] at hlength
  generalize hd : (integerDigits value base flags).1 = digits at hdigits hlength ⊢
  obtain ⟨width', hwidth, hlead⟩ := leadingZeros_padded digits negative width
    ((integerDigits_pad value base flags).trans hpad)
  rw [integerDigits_sign] at hwidth
  have hmin : min width'.toNat integerBufferSize = width'.toNat := Nat.min_eq_left (by omega)
  rw [hmin] at hlead
  have halternative := storeAlternative_padded width' call hprecision hdigits rfl (by omega)
  have hgap : width'.toNat - digits.length - (alternative value.toNat base 0 flags).length =
      width.toNat - ((signText negative flags).length + (alternative value.toNat base 0 flags).length +
        (numeral base.val 1 value.toNat).length) := by omega
  rw [hgap, hdigits] at halternative
  have hcount := congrArg List.length halternative
  rw [List.length_reverse, List.length_append, List.length_append, zeros_length] at hcount
  rw [integerBuffer_eq hlead]
  show (storeSign _ negative _).reverse = _
  rw [storeSign_room (by rw [integerDigits_sign, hcount]; omega), integerDigits_sign, halternative]

/-- The number in the buffer, when all of it has room. -/
theorem integerBuffer_fits {negative : Bool} {precision width : PrintfSize}
    (call : IntegerCall negative base precision flags)
    (hroom : (bodyText value.toNat negative base precision.toNat width.toNat flags).length ≤
      integerBufferSize) :
    (integerBuffer (integerDigits value base flags).1 negative base precision width
      (integerDigits value base flags).2).1.reverse =
    bodyText value.toNat negative base precision.toNat width.toNat flags := by
  cases hpad : flags.zeropad && !flags.left with
  | false => exact integerBuffer_unpadded call hpad hroom
  | true =>
    have hprecision : flags.precision = false := by
      cases hc : flags.precision with
      | false => rfl
      | true =>
        rw [call.zeropad hc] at hpad
        cases hpad
    obtain rfl := call.precision hprecision
    exact integerBuffer_padded call hprecision hpad hroom

/-- The width that `outRev_` gets. -/
theorem integerBuffer_width (buf : List Byte) (negative : Bool) (precision width : PrintfSize)
    (h : (flags.zeropad && !flags.left) = false) :
    (integerBuffer buf negative base precision width flags).2 = width := by
  rw [integerBuffer_eq (leadingZeros_unpadded buf negative precision width h)]

/-- A number with zeros up to its width has that width. -/
theorem width_le_bodyText (value : Nat) (negative : Bool) (base : NumericBase) (precision width : Nat)
    (h : (flags.zeropad && !flags.left) = true) :
    width ≤ (bodyText value negative base precision width flags).length := by
  rw [bodyText_eq, h]
  simp only [if_true, List.length_append, zeros_length]
  omega

theorem integerText_eq (value : BitVec 64) (negative : Bool) (base : NumericBase)
    (precision width : PrintfSize) (flags : Flags) :
    integerText value negative base precision width flags =
      let printed := integerBuffer (integerDigits value base flags).1 negative base precision width
        (integerDigits value base flags).2
      outRevText printed.1 printed.2 flags := by
  have hsame : ∀ buf width, outRevText buf width (integerDigits value base flags).2 =
      outRevText buf width flags := by
    intro buf width
    rw [integerDigits_flags]
    rfl
  exact hsame _ _

/-- What is printed, when all of the number has room in the buffer. -/
theorem integerText_fits {negative : Bool} {precision width : PrintfSize}
    (call : IntegerCall negative base precision flags)
    (hroom : (bodyText value.toNat negative base precision.toNat width.toNat flags).length ≤
      integerBufferSize) :
    integerText value negative base precision width flags =
      unboundedText value.toNat negative base precision.toNat width.toNat flags := by
  have hbody := integerBuffer_fits call hroom
  have hlength := congrArg List.length hbody
  rw [List.length_reverse] at hlength
  rw [integerText_eq]
  unfold outRevText unboundedText
  dsimp only
  rw [hbody, hlength]
  cases hpad : flags.zeropad && !flags.left with
  | false =>
    rw [integerBuffer_width _ _ _ _ ((integerDigits_pad value base flags).trans hpad)]
    cases hleft : flags.left with
    | true => simp
    | false =>
      have hzeropad : flags.zeropad = false := by simpa [hleft] using hpad
      simp [hzeropad]
  | true =>
    have hboth : flags.left = false ∧ flags.zeropad = true := by simpa [and_comm] using hpad
    have hwidth := width_le_bodyText value.toNat negative base precision.toNat width.toNat hpad
    rw [hboth.1, hboth.2, Nat.sub_eq_zero_of_le hwidth]
    simp [spaces]

/-! ## When there is no room -/

/-- The characters that are not spaces. -/
def solid (s : List Byte) : Nat := s.countP (· ≠ chr ' ')

theorem solid_append (s t : List Byte) : solid (s ++ t) = solid s + solid t := List.countP_append

theorem solid_spaces (k : Nat) : solid (spaces k) = 0 := by
  rw [solid, List.countP_eq_zero]
  intro b hb
  rw [List.eq_of_mem_replicate hb]
  decide

theorem solid_le (s : List Byte) : solid s ≤ s.length := List.countP_le_length

theorem solid_eq_length {s : List Byte} (h : chr ' ' ∉ s) : solid s = s.length := by
  rw [solid, List.countP_eq_length]
  intro b hb
  exact decide_eq_true fun heq => h (heq ▸ hb)

theorem space_notMem_numeral {base : Nat} (hbase : 1 < base) (hsmall : base ≤ 16)
    (least value : Nat) : chr ' ' ∉ numeral base least value := by
  unfold numeral
  intro h
  rcases List.mem_append.mp h with h | h
  · exact absurd (List.eq_of_mem_replicate h) (by decide)
  · obtain ⟨d, hd, hspace⟩ := List.mem_map.mp h
    have hlt := Nat.digits_lt_base hbase (List.mem_reverse.mp hd)
    exact digitChar_ne_space d (by omega) hspace

theorem space_notMem_alternative (value : Nat) (base : NumericBase) (precision : Nat)
    (flags : Flags) : chr ' ' ∉ alternative value base precision flags := by
  by_cases hdropped : Dropped value base flags ∨ flags.hash = false
  · rw [alternative_dropped hdropped]
    exact List.not_mem_nil
  · obtain ⟨hkept, hhash⟩ := not_or.mp hdropped
    rw [Bool.not_eq_false] at hhash
    cases base with
    | hex =>
      rw [alternative_kept hkept hhash (Or.inl rfl)]
      cases flags.uppercase <;> decide
    | binary =>
      rw [alternative_kept hkept hhash (Or.inr rfl)]
      cases flags.uppercase <;> decide
    | octal =>
      rw [alternative_octal hhash]
      generalize numeral 8 (if flags.precision then precision else 1) value = digits
      split <;> decide
    | decimal => simp [alternative, prefixText]

/-- Of the number only the sign can be a space. -/
theorem solid_bodyText (value : Nat) (negative : Bool) (base : NumericBase)
    (precision width : Nat) (flags : Flags) :
    solid (bodyText value negative base precision width flags) =
      solid (signText negative flags) +
        ((bodyText value negative base precision width flags).length -
          (signText negative flags).length) := by
  have hnumeral := space_notMem_numeral base.one_lt_val base.val_le
    (if flags.precision then precision else 1) value
  have halternative := space_notMem_alternative value base precision flags
  have hzeros : ∀ (p : Prop) [Decidable p] k, chr ' ' ∉ if p then zeros k else [] := by
    intro p _ k h
    split at h
    · exact absurd (List.eq_of_mem_replicate h) (by decide)
    · cases h
  rw [bodyText_eq, solid_append, solid_append, solid_append, solid_eq_length halternative,
    solid_eq_length hnumeral, solid_eq_length (hzeros _ _), List.length_append, List.length_append,
    List.length_append]
  omega

theorem solid_zeros (k : Nat) : solid (zeros k) = k := by
  have hnone : chr ' ' ∉ zeros k := fun h => absurd (List.eq_of_mem_replicate h) (by decide)
  rw [solid_eq_length hnone, zeros_length]

/-- What is put around the buffer are spaces. -/
theorem solid_outRevText (buf : List Byte) (width : PrintfSize) (flags : Flags) :
    solid (outRevText buf width flags) = solid buf := by
  have hspaces : ∀ (p : Prop) [Decidable p] k, solid (if p then spaces k else []) = 0 := by
    intro p _ k
    split
    · exact solid_spaces k
    · rfl
  have hreverse : solid buf.reverse = solid buf := List.countP_reverse
  unfold outRevText
  rw [solid_append, solid_append, hspaces, hspaces, hreverse]
  omega

theorem solid_integerText (value : BitVec 64) (base : NumericBase) (flags : Flags) (negative : Bool)
    (precision width : PrintfSize) :
    solid (integerText value negative base precision width flags) ≤ integerBufferSize := by
  rw [integerText_eq]
  dsimp only
  rw [solid_outRevText]
  exact (solid_le _).trans (integerBuffer_length (integerDigits_length value base flags) negative
    base precision width (integerDigits value base flags).2)

/-- The one number that is printed in full although there is no room for all of it: its sign
    is a blank, and a space of the padding is where that should be. -/
def BlankMadeUp (negative : Bool) (precision width : PrintfSize) (flags : Flags) : Prop :=
  signText negative flags = [chr ' '] ∧ flags.precision = true ∧ precision.toNat = 32 ∧
    33 ≤ width.toNat ∧ flags.left = false

theorem signText_length (negative : Bool) (flags : Flags) :
    (signText negative flags).length ≤ 1 ∧
      (signText negative flags ≠ [chr ' '] →
        solid (signText negative flags) = (signText negative flags).length) := by
  unfold signText
  cases negative <;> cases flags.plus <;> cases flags.space <;> decide

/-- The padding is spaces. -/
theorem solid_unboundedText (value : Nat) (negative : Bool) (base : NumericBase)
    (precision width : Nat) (flags : Flags) :
    solid (unboundedText value negative base precision width flags) =
      solid (bodyText value negative base precision width flags) := by
  unfold unboundedText
  dsimp only
  split
  · rw [solid_append, solid_spaces, Nat.add_zero]
  · rw [solid_append, solid_spaces, Nat.zero_add]

/-- Of what is not a space no more is printed than the text has. -/
theorem solid_integerText_le {negative : Bool} {precision width : PrintfSize}
    (call : IntegerCall negative base precision flags) :
    solid (integerText value negative base precision width flags) ≤
      solid (bodyText value.toNat negative base precision.toNat width.toNat flags) := by
  by_cases hroom : (bodyText value.toNat negative base precision.toNat width.toNat flags).length ≤
      integerBufferSize
  · rw [integerText_fits call hroom, solid_unboundedText]
  · have hsolid := solid_integerText value base flags negative precision width
    have hsign := (signText_length negative flags).1
    rw [solid_bodyText]
    omega

/-- Numbers have at most 20 decimal digits. -/
theorem decimal_digits (value : BitVec 64) : (Nat.digits 10 value.toNat).length ≤ 20 := by
  rw [Nat.digits_length_le_iff (by decide)]
  exact lt_of_lt_of_le value.isLt (by decide)

/-- A sign that there is no room for is dropped. -/
theorem storeSign_full {buf : List Byte} {negative : Bool}
    (h : integerBufferSize ≤ buf.length) : storeSign buf negative flags = buf := by
  have hfull : ∀ c, store buf c = buf := fun c => if_neg (Nat.not_lt.mpr h)
  unfold storeSign
  simp only [hfull, ite_self]

/-- The buffer of a decimal number with a blank for its sign and a precision of 32: the blank has
    no room. -/
theorem integerBuffer_blank (value : BitVec 64) (width : PrintfSize) {negative : Bool}
    {precision : PrintfSize}
    (call : IntegerCall negative base precision flags) (hbase : base = .decimal)
    (hprecision : flags.precision = true) (h32 : precision.toNat = 32) :
    (integerBuffer (integerDigits value base flags).1 negative base precision width
      (integerDigits value base flags).2).1.reverse = numeral 10 32 value.toNat := by
  subst hbase
  have hdecimal := decimal_digits value
  have hint : integerBufferSize = 32 := rfl
  have hpad : (flags.zeropad && !flags.left) = false := by
    rw [call.zeropad hprecision]
    rfl
  have hdigits := integerDigits_reverse value .decimal flags
    (by show (Nat.digits 10 value.toNat).length ≤ _; omega)
  rw [hprecision, if_pos rfl] at hdigits
  have hlength := congrArg List.length hdigits
  rw [List.length_reverse] at hlength
  have hpointer := (integerDigits_pointer value .decimal flags).trans call.pointer
  have hlead := leadingZeros_unpadded (integerDigits value .decimal flags).1 negative precision width
    ((integerDigits_pad value .decimal flags).trans hpad)
  rw [h32, hint, Nat.min_self, hlength] at hlead
  rw [integerBuffer_eq hlead,
    storeAlternative_plain (integerDigits_dropped (Or.inr (call.hash rfl))) hpointer]
  have hcount : (numeral NumericBase.decimal.val 0 value.toNat).length ≤ 20 := by
    rw [numeral_length, Nat.zero_max]
    exact hdecimal
  have hfull : integerBufferSize ≤ ((integerDigits value .decimal flags).1 ++
      zeros (32 - (numeral NumericBase.decimal.val 0 value.toNat).length)).length := by
    rw [List.length_append, zeros_length, hlength, hint]
    omega
  show (storeSign _ negative _).reverse = _
  rw [storeSign_full hfull, List.reverse_append, zeros_reverse, hdigits]
  exact zeros_numeral (Nat.zero_le 32)

/-- What is printed of a number whose blank sign has no room. -/
theorem integerText_blank (value : BitVec 64) (width : PrintfSize) {negative : Bool}
    {precision : PrintfSize}
    (call : IntegerCall negative base precision flags) (hbase : base = .decimal)
    (hprecision : flags.precision = true) (h32 : precision.toNat = 32) :
    integerText value negative base precision width flags =
      if flags.left then numeral 10 32 value.toNat ++ spaces (width.toNat - 32)
      else spaces (width.toNat - 32) ++ numeral 10 32 value.toNat := by
  have hbody := integerBuffer_blank value width call hbase hprecision h32
  have hzeropad := call.zeropad hprecision
  have hpad : (flags.zeropad && !flags.left) = false := by
    rw [hzeropad]
    rfl
  have hlength := congrArg List.length hbody
  rw [List.length_reverse, numeral_length] at hlength
  have hdecimal := decimal_digits value
  rw [integerText_eq]
  unfold outRevText
  dsimp only
  rw [integerBuffer_width _ _ _ _ ((integerDigits_pad value base flags).trans hpad), hbody, hlength,
    Nat.max_eq_left (by omega), hzeropad]
  cases flags.left with
  | true => simp
  | false => simp

/-- A blank and a decimal number. -/
theorem bodyText_blank (value precision width : Nat) {negative : Bool}
    (hsign : signText negative flags = [chr ' ']) (hhash : flags.hash = false)
    (hpad : (flags.zeropad && !flags.left) = false) :
    bodyText value negative .decimal precision width flags =
      chr ' ' :: numeral 10 (if flags.precision then precision else 1) value := by
  rw [bodyText_eq, hsign, alternative_dropped (Or.inr hhash), hpad]
  rfl

/-- With zeros up to the width nothing but the buffer is printed. -/
theorem integerText_length (value : BitVec 64) (base : NumericBase) (negative : Bool)
    (precision width : PrintfSize)
    (hpad : (flags.zeropad && !flags.left) = true) :
    (integerText value negative base precision width flags).length ≤ integerBufferSize := by
  have hlength := integerBuffer_length (integerDigits_length value base flags) negative base precision
    width (integerDigits value base flags).2
  have hboth : flags.left = false ∧ flags.zeropad = true := by simpa [and_comm] using hpad
  rw [integerText_eq]
  unfold outRevText
  rw [hboth.1, hboth.2]
  simpa using hlength

theorem unboundedText_length (value : Nat) (negative : Bool) (precision width : Nat) :
    (unboundedText value negative base precision width flags).length =
      max width (bodyText value negative base precision width flags).length := by
  unfold unboundedText
  dsimp only
  split <;> rw [List.length_append, spaces, List.length_replicate] <;> omega

/-- A blank is the sign of decimal numbers only. -/
theorem IntegerCall.decimal {negative : Bool} {precision : PrintfSize}
    (call : IntegerCall negative base precision flags)
    (hsign : signText negative flags = [chr ' ']) : base = .decimal := by
  by_contra hbase
  obtain ⟨hneg, hplus, hspace⟩ := call.unsigned hbase
  rw [hneg] at hsign
  unfold signText at hsign
  rw [hplus, hspace] at hsign
  cases hsign

theorem numeral_ne_blank (value : Nat) (s t : List Byte) :
    numeral 10 32 value ++ s ≠ chr ' ' :: t := by
  intro heq
  cases hnumeral : numeral 10 32 value with
  | nil =>
    have hempty := numeral_length 10 32 value
    rw [hnumeral, List.length_nil] at hempty
    omega
  | cons d ds =>
    have hnot : chr ' ' ∉ numeral 10 32 value :=
      space_notMem_numeral (by decide) (by decide) 32 value
    rw [hnumeral] at heq hnot
    obtain ⟨hhead, -⟩ := List.cons_eq_cons.mp heq
    exact hnot (hhead ▸ List.mem_cons_self)

/-- What is printed in full has room for all but a blank sign. -/
theorem sign_of_exact {negative : Bool} {precision width : PrintfSize}
    (hroom : integerBufferSize <
      (bodyText value.toNat negative base precision.toNat width.toNat flags).length)
    (heq : integerText value negative base precision width flags =
      unboundedText value.toNat negative base precision.toNat width.toNat flags) :
    signText negative flags = [chr ' '] ∧
      (bodyText value.toNat negative base precision.toNat width.toNat flags).length = 33 := by
  have hint : integerBufferSize = 32 := rfl
  have hsolid := solid_integerText value base flags negative precision width
  rw [heq, solid_unboundedText, solid_bodyText] at hsolid
  obtain ⟨hle, hplain⟩ := signText_length negative flags
  have hsign : signText negative flags = [chr ' '] := by
    by_contra hne
    rw [hplain hne] at hsolid
    omega
  have hzero : solid [chr ' '] = 0 := by decide
  rw [hsign, hzero, List.length_singleton] at hsolid
  exact ⟨hsign, by omega⟩

theorem blankMadeUp_of_exact {negative : Bool} {precision width : PrintfSize}
    (call : IntegerCall negative base precision flags)
    (hroom : integerBufferSize <
      (bodyText value.toNat negative base precision.toNat width.toNat flags).length)
    (heq : integerText value negative base precision width flags =
      unboundedText value.toNat negative base precision.toNat width.toNat flags) :
    BlankMadeUp negative precision width flags := by
  have hint : integerBufferSize = 32 := rfl
  have hdecimal := decimal_digits value
  obtain ⟨hsign, hlen⟩ := sign_of_exact hroom heq
  obtain rfl := call.decimal hsign
  have hcount := congrArg List.length heq
  rw [unboundedText_length, hlen] at hcount
  cases hpad : flags.zeropad && !flags.left with
  | true =>
    have hshort := integerText_length value .decimal negative precision width hpad
    omega
  | false =>
    have hbody := bodyText_blank value.toNat precision.toNat width.toNat hsign (call.hash rfl) hpad
    rw [hbody, List.length_cons, numeral_length] at hlen
    have hprecision : flags.precision = true := by
      by_contra hc
      rw [if_neg hc] at hlen
      omega
    rw [if_pos hprecision] at hlen
    have h32 : precision.toNat = 32 := by omega
    have htext := integerText_blank value width call rfl hprecision h32
    have hleft : flags.left = false := by
      by_contra hc
      rw [Bool.not_eq_false] at hc
      unfold unboundedText at heq
      dsimp only at heq
      rw [htext, hbody, if_pos hc, if_pos hc, if_pos hprecision, h32] at heq
      -- the first character printed is a digit, and the first of the text is a blank
      exact numeral_ne_blank _ _ _ heq
    rw [htext, hleft] at hcount
    simp only [Bool.false_eq_true, if_false, List.length_append, spaces, List.length_replicate,
      numeral_length] at hcount
    exact ⟨hsign, hprecision, h32, by omega, hleft⟩

theorem integerText_blankMadeUp {negative : Bool} {precision width : PrintfSize}
    (call : IntegerCall negative base precision flags)
    (h : BlankMadeUp negative precision width flags) :
    integerText value negative base precision width flags =
      unboundedText value.toNat negative base precision.toNat width.toNat flags := by
  obtain ⟨hsign, hprecision, h32, hwidth, hleft⟩ := h
  obtain rfl := call.decimal hsign
  have hdecimal := decimal_digits value
  have hpad : (flags.zeropad && !flags.left) = false := by
    rw [call.zeropad hprecision]
    rfl
  have hlength : (numeral 10 32 value.toNat).length = 32 := by
    rw [numeral_length]
    omega
  have hsucc : width.toNat - 32 = (width.toNat - 33) + 1 := by omega
  rw [integerText_blank value width call rfl hprecision h32]
  unfold unboundedText
  dsimp only
  rw [bodyText_blank _ _ _ hsign (call.hash rfl) hpad, hprecision, h32, hleft, if_pos rfl,
    List.length_cons, hlength, hsucc]
  simp only [Bool.false_eq_true, if_false, spaces, List.replicate_succ']
  rw [List.append_assoc]
  rfl

/-- An integer conversion is printed in full exactly when the number has room in the
    32 bytes of the buffer, or a blank that has none is made up for. -/
theorem integer_conversion_exact {negative : Bool} {precision width : PrintfSize}
    (call : IntegerCall negative base precision flags) :
    integerText value negative base precision width flags =
        unboundedText value.toNat negative base precision.toNat width.toNat flags ↔
      (bodyText value.toNat negative base precision.toNat width.toNat flags).length ≤
          integerBufferSize ∨
        BlankMadeUp negative precision width flags := by
  constructor
  · intro heq
    rcases Nat.lt_or_ge integerBufferSize
        (bodyText value.toNat negative base precision.toNat width.toNat flags).length with hroom | hfits
    · exact Or.inr (blankMadeUp_of_exact call hroom heq)
    · exact Or.inl hfits
  · rintro (hfits | hblank)
    · exact integerText_fits call hfits
    · exact integerText_blankMadeUp call hblank

end Fits

end SeshOS.Printf
