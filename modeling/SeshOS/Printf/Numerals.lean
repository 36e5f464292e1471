/-
  Numbers read back from what `printInt` prints.

  `printInt` may drop a prefix or a sign that has no room in its 32 bytes, and put in as many
  zeros as there is room for, but a digit that is in the buffer stays there (`Kept`). So the
  digits of the text always give the number, modulo the power of the base with 32 digits.

  `atoi` takes a sign for a digit of value -3. It reads back what `%d` prints of a number that is
  not negative, and by a coincidence of 32-bit arithmetic of one negative number
  (`atoi_undoes_sprintf`).
-/
import SeshOS.Libc.Hex
import SeshOS.Printf.Unbounded
import SeshOS.Printf.Stream

namespace SeshOS.Printf

open Base Libc

/-! ## The digits of a text -/

/-- A digit as `printInt` has them, with upper case letters. -/
def isDigitChar (c : Byte) : Bool :=
  decide (chr '0' ≤ c ∧ c ≤ chr '9') || decide (chr 'A' ≤ c ∧ c ≤ chr 'F')

def charDigit (c : Byte) : Nat := if c ≤ chr '9' then c.toNat - 48 else c.toNat - 55

/-- The number that the digits of a text make, whatever else is in it. -/
def numberOf (base : Nat) (s : List Byte) : Nat :=
  (s.filter isDigitChar).foldl (fun n c => n * base + charDigit c) 0

theorem digitChar_spec : ∀ d < 16, isDigitChar (digitChar d) = true ∧ charDigit (digitChar d) = d := by
  decide

/-- Zeros in front of the digits do not count. -/
theorem foldl_charDigit (base k : Nat) {ds : List Nat} (h : ∀ d ∈ ds, d < 16) :
    (zeros k ++ (ds.map digitChar).reverse).foldl (fun n c => n * base + charDigit c) 0 =
      Nat.ofDigits base ds := by
  have hzeros : (zeros k).foldl (fun n c => n * base + charDigit c) 0 = 0 := by
    induction k with
    | zero => rfl
    | succ k ih =>
      rw [zeros, List.replicate_succ, List.foldl_cons, Nat.zero_mul]
      exact ih
  have hdigits : ds.foldr (fun d n => n * base + charDigit (digitChar d)) 0 =
      ds.foldr (fun d n => n * base + d) 0 :=
    List.foldr_ext _ _ 0 fun d hd n => by rw [(digitChar_spec d (h d hd)).2]
  rw [List.foldl_append, hzeros, List.foldl_reverse, List.foldr_map, hdigits]
  exact (foldr_digits base 0 ds).trans (by rw [Nat.zero_mul, Nat.zero_add]; rfl)

/-! ## What stays in the buffer -/

/-- The characters that are stored behind the digits: zeros, a prefix and a sign. -/
def storedChars : NumericBase → List Byte
  | .hex => ascii "0-+ xX"
  | .binary => ascii "0-+ b"
  | .octal | .decimal => ascii "0-+ "

/-- Of the digits only the zero is among them. -/
theorem storedChars_digit (base : NumericBase) :
    ∀ c ∈ storedChars base, isDigitChar c = true → c = chr '0' := by
  cases base <;> decide

theorem mem_storedChars (base : NumericBase) {c : Byte} (h : c ∈ ascii "0-+ ") :
    c ∈ storedChars base := by
  cases base with
  | hex => exact List.mem_append_left (ascii "xX") h
  | binary => exact List.mem_append_left (ascii "b") h
  | octal => exact h
  | decimal => exact h

/-- The digits are in the buffer, with such characters behind them. -/
def Kept (base : NumericBase) (digits buf : List Byte) : Prop :=
  ∃ tail, buf = digits ++ tail ∧ ∀ c ∈ tail, c ∈ storedChars base

namespace Kept

variable {base : NumericBase} {digits buf : List Byte}

theorem start (base : NumericBase) (digits : List Byte) : Kept base digits digits :=
  ⟨[], (List.append_nil digits).symm, fun _ hc => absurd hc List.not_mem_nil⟩

theorem append (h : Kept base digits buf) {c : Byte} (hc : c ∈ storedChars base) :
    Kept base digits (buf ++ [c]) := by
  obtain ⟨tail, rfl, htail⟩ := h
  refine ⟨tail ++ [c], List.append_assoc _ _ _, fun b hb => ?_⟩
  rcases List.mem_append.mp hb with hb | hb
  · exact htail b hb
  · rw [List.mem_singleton.mp hb]
    exact hc

theorem store (h : Kept base digits buf) {c : Byte} (hc : c ∈ storedChars base) :
    Kept base digits (store buf c) := by
  unfold Printf.store
  split
  · exact h.append hc
  · exact h

theorem storeZeros (h : Kept base digits buf) (bound rounds : Nat) :
    Kept base digits (storeZeros bound rounds buf) := by
  induction rounds generalizing buf with
  | zero => exact h
  | succ rounds ih =>
    rw [Printf.storeZeros]
    split
    · exact ih (h.append (mem_storedChars base (by decide)))
    · exact h

/-- What is taken back is behind the digits. -/
theorem dropLast (h : Kept base digits buf) (hlen : digits.length < buf.length) :
    Kept base digits buf.dropLast := by
  obtain ⟨tail, rfl, htail⟩ := h
  have hne : tail ≠ [] := by
    rintro rfl
    rw [List.append_nil] at hlen
    exact absurd hlen (Nat.lt_irrefl _)
  exact ⟨tail.dropLast, List.dropLast_append_of_ne_nil hne,
    fun c hc => htail c (List.dropLast_subset tail hc)⟩

theorem takeBack (h : Kept base digits buf) (precision width : PrintfSize) (flags : Flags) :
    Kept base digits (takeBack buf digits.length base precision width flags) := by
  unfold Printf.takeBack
  dsimp only
  have hfirst : Kept base digits (if digits.length < buf.length then buf.dropLast else buf) := by
    split
    · next hlen => exact h.dropLast hlen
    · exact h
  split
  · generalize (if digits.length < buf.length then buf.dropLast else buf) = buf' at hfirst
    split
    · next hsecond => exact hfirst.dropLast hsecond.2.2
    · exact hfirst
  · exact h

theorem storeLetter (h : Kept base digits buf) (flags : Flags) :
    Kept base digits (storeLetter buf base flags) := by
  unfold Printf.storeLetter
  split
  · next hhex =>
    obtain ⟨rfl, -⟩ := hhex
    exact h.store (by decide)
  · split
    · next hhex =>
      obtain ⟨rfl, -⟩ := hhex
      exact h.store (by decide)
    · split
      · next hbinary =>
        subst hbinary
        exact h.store (by decide)
      · exact h

theorem storePrefix (h : Kept base digits buf) (precision width : PrintfSize) (flags : Flags) :
    Kept base digits (storePrefix buf digits.length base precision width flags) :=
  ((h.takeBack precision width flags).storeLetter flags).store (mem_storedChars base (by decide))

theorem storeSign (h : Kept base digits buf) (negative : Bool) (flags : Flags) :
    Kept base digits (storeSign buf negative flags) := by
  have hsign : ∀ c ∈ ascii "-+ ", Kept base digits (Printf.store buf c) :=
    fun c hc => h.store (mem_storedChars base (List.mem_cons_of_mem _ hc))
  unfold Printf.storeSign
  split
  · exact hsign _ (by decide)
  · split
    · exact hsign _ (by decide)
    · split
      · exact hsign _ (by decide)
      · exact h

theorem leadingZeros (base : NumericBase) (digits : List Byte) (negative : Bool)
    (precision width : PrintfSize) (flags : Flags) :
    Kept base digits (leadingZeros digits negative precision width flags).1 := by
  unfold Printf.leadingZeros
  refine storeZeros ?_ _ _
  split
  · exact (start base digits).storeZeros _ _
  · exact start base digits

theorem integerBuffer (digits : List Byte) (negative : Bool) (base : NumericBase)
    (precision width : PrintfSize) (flags : Flags) :
    Kept base digits (integerBuffer digits negative base precision width flags).1 := by
  have hzeros := leadingZeros base digits negative precision width flags
  unfold Printf.integerBuffer
  refine storeSign ?_ negative flags
  split
  · exact hzeros.storePrefix precision _ flags
  · exact hzeros

end Kept

/-! ## Numbers -/

/-- The digits that are stored: as many as there is room for. -/
theorem integerDigits_digits (value : BitVec 64) (base : NumericBase) (flags : Flags) :
    ∃ ds : List Nat, (∀ d ∈ ds, d < 16) ∧
      (integerDigits value base flags).1 = ds.map digitChar ∧
      Nat.ofDigits base.val ds = value.toNat % base.val ^ integerBufferSize := by
  unfold integerDigits
  by_cases hvalue : value = 0
  · subst hvalue
    rw [if_pos rfl]
    split
    · exact ⟨[0], by decide, rfl, by cases base <;> rfl⟩
    · split
      · exact ⟨[], by decide, rfl, by cases base <;> rfl⟩
      · exact ⟨[], by decide, rfl, by cases base <;> rfl⟩
  · rw [if_neg hvalue]
    refine ⟨(Nat.digits base.val value.toNat).take integerBufferSize, fun d hd => ?_, ?_, ?_⟩
    · exact (Nat.digits_lt_base base.one_lt_val (List.mem_of_mem_take hd)).trans_le base.val_le
    · rw [storeDigits_eq base.one_lt_val, List.nil_append, List.length_nil, Nat.sub_zero,
        Nat.min_self, List.map_take]
    · rw [← Nat.ofDigits_mod_pow_eq_ofDigits_take _ (Nat.zero_lt_of_lt base.one_lt_val) _
        fun d hd => Nat.digits_lt_base base.one_lt_val hd, Nat.ofDigits_digits]

/-- What is printed are digits, the characters stored behind them, and spaces. -/
theorem mem_integerText {value : BitVec 64} {negative : Bool} {base : NumericBase}
    {precision width : PrintfSize} {flags : Flags} {c : Byte}
    (h : c ∈ integerText value negative base precision width flags) :
    c = chr ' ' ∨ (∃ d < 16, c = digitChar d) ∨ c ∈ storedChars base := by
  obtain ⟨ds, hsmall, hdigits, -⟩ := integerDigits_digits value base flags
  obtain ⟨tail, hbuf, htail⟩ := Kept.integerBuffer (integerDigits value base flags).1 negative base
    precision width (integerDigits value base flags).2
  have hspace : ∀ (p : Prop) [Decidable p] k, c ∈ (if p then spaces k else []) → c = chr ' ' := by
    intro p _ k hc
    split at hc
    · exact List.eq_of_mem_replicate hc
    · cases hc
  rw [integerText_eq] at h
  unfold outRevText at h
  dsimp only at h
  rcases List.mem_append.mp h with h | h
  · exact Or.inl (hspace _ _ h)
  · rcases List.mem_append.mp h with h | h
    · rw [List.mem_reverse, hbuf, hdigits] at h
      rcases List.mem_append.mp h with h | h
      · obtain ⟨d, hd, rfl⟩ := List.mem_map.mp h
        exact Or.inr (Or.inl ⟨d, hsmall d hd, rfl⟩)
      · exact Or.inr (Or.inr (htail c h))
    · exact Or.inl (hspace _ _ h)

/-- Whatever the flags, the precision and the width, the digits that are printed of a number
    give it back, up to 32 of them. -/
theorem printed_number_reads_back (value : BitVec 64) (negative : Bool) (base : NumericBase)
    (precision width : PrintfSize) (flags : Flags) :
    numberOf base.val (integerText value negative base precision width flags) =
      value.toNat % base.val ^ integerBufferSize := by
  obtain ⟨ds, hsmall, hdigits, hvalue⟩ := integerDigits_digits value base flags
  obtain ⟨tail, hbuf, htail⟩ := Kept.integerBuffer (integerDigits value base flags).1 negative base
    precision width (integerDigits value base flags).2
  have hspaces : ∀ (p : Prop) [Decidable p] k, (if p then spaces k else []).filter isDigitChar = [] := by
    intro p _ k
    split
    · rw [List.filter_eq_nil_iff]
      intro c hc
      rw [List.eq_of_mem_replicate hc]
      decide
    · rfl
  have hzeros : tail.reverse.filter isDigitChar = zeros (tail.reverse.filter isDigitChar).length := by
    refine List.eq_replicate_iff.mpr ⟨rfl, fun c hc => ?_⟩
    obtain ⟨hmem, hc⟩ := List.mem_filter.mp hc
    exact storedChars_digit base c (htail c (List.mem_reverse.mp hmem)) hc
  have hkept : (ds.map digitChar).reverse.filter isDigitChar = (ds.map digitChar).reverse := by
    rw [List.filter_eq_self]
    intro c hc
    obtain ⟨d, hd, rfl⟩ := List.mem_map.mp (List.mem_reverse.mp hc)
    exact (digitChar_spec d (hsmall d hd)).1
  rw [integerText_eq]
  unfold outRevText numberOf
  dsimp only
  rw [List.filter_append, List.filter_append, hspaces, hspaces, List.nil_append, List.append_nil, hbuf,
    hdigits, List.reverse_append, List.filter_append, hzeros, hkept, foldl_charDigit _ _ hsmall, hvalue]

/-! ## Numbers without flags, and pointers -/

/-- A numeral by the places of its digits. -/
theorem numeral_places {base least value : Nat} (hbase : 1 < base)
    (h : (Nat.digits base value).length ≤ least) :
    numeral base least value =
      ((List.range least).map fun k => digitChar (value / base ^ k % base)).reverse := by
  rw [← List.reverse_inj, List.reverse_reverse, numeral, List.reverse_append, zeros_reverse,
    ← List.map_reverse, List.reverse_reverse]
  apply List.ext_getElem
  · rw [List.length_append, List.length_map, zeros_length, List.length_map, List.length_range]
    omega
  · intro k hk _
    rw [List.getElem_map, List.getElem_range, ← Nat.getD_digits value k hbase, List.getElem_append]
    split
    · next hlt =>
      rw [List.length_map] at hlt
      rw [List.getElem_map, List.getD_eq_getElem _ _ hlt]
    · next hge =>
      rw [List.length_map, not_lt] at hge
      rw [List.getD_eq_default _ _ hge]
      simp only [zeros, List.getElem_replicate]
      rfl

/-- The last digit of a numeral. -/
theorem numeral_last (value : Nat) :
    numeral 10 1 value =
      if value < 10 then [digitChar value]
      else numeral 10 1 (value / 10) ++ [digitChar (value % 10)] := by
  by_cases hzero : value = 0
  · subst hzero
    rfl
  have hdigits := Nat.digits_def' (by decide : 1 < 10) (Nat.pos_of_ne_zero hzero)
  have hnone : ∀ k, 1 - (k + 1) = 0 := by omega
  by_cases hsmall : value < 10
  · have hdiv : value / 10 = 0 := by omega
    have hmod : value % 10 = value := by omega
    rw [hdiv, hmod, Nat.digits_zero] at hdigits
    rw [if_pos hsmall, numeral, hdigits]
    rfl
  · have hpos : 0 < value / 10 := by omega
    obtain ⟨d, ds, hcons⟩ := List.exists_cons_of_ne_nil
      (Nat.digits_ne_nil_iff_ne_zero.mpr hpos.ne' : Nat.digits 10 (value / 10) ≠ [])
    rw [if_neg hsmall, numeral, numeral, hdigits, List.length_cons, hnone, hcons, List.length_cons,
      hnone, List.reverse_cons, List.map_append]
    rfl

theorem numeral_toString (value : Nat) : numeral 10 1 value = ascii (toString value) := by
  have hdigit : ∀ d < 10, chr (Nat.digitChar d) = digitChar d := by decide
  have hstring : ascii (toString value) = (Nat.toDigits 10 value).map chr := by
    rw [ascii, Nat.toString_eq_ofList_toDigits, String.toList_ofList]
  rw [hstring]
  clear hstring
  induction value using Nat.strong_induction_on with
  | _ value ih =>
    rw [Nat.toDigits_eq_if (by decide), numeral_last]
    by_cases hsmall : value < 10
    · rw [if_pos hsmall, if_pos hsmall, List.map_singleton, hdigit value hsmall]
    · rw [if_neg hsmall, if_neg hsmall, ih _ (by omega), List.map_append, List.map_singleton,
        hdigit _ (Nat.mod_lt _ (by decide))]

theorem zero_notMem_numeral {base : Nat} (hbase : 1 < base) (hle : base ≤ 16) (least value : Nat) :
    0 ∉ numeral base least value := by
  have hdigit : ∀ d < 16, digitChar d ≠ 0 := by decide
  intro h
  rcases List.mem_append.mp h with h | h
  · exact absurd (List.eq_of_mem_replicate h) (by decide)
  · obtain ⟨d, hd, hchar⟩ := List.mem_map.mp h
    have hlt := Nat.digits_lt_base hbase (List.mem_reverse.mp hd)
    exact hdigit d (by omega) hchar

/-- What a decimal specifier without flags prints, with a length or without. -/
theorem integerText_plain (value : BitVec 64) (negative signed long : Bool) :
    integerText value negative .decimal 0 0 { long := long, signed := signed } =
      (if negative then [chr '-'] else []) ++ numeral 10 1 value.toNat := by
  have hcall : IntegerCall negative .decimal 0 { long := long, signed := signed } :=
    ⟨rfl, fun _ => rfl, fun _ => rfl, fun h => absurd rfl h, fun _ => rfl⟩
  have hbody : bodyText value.toNat negative .decimal 0 0 { long := long, signed := signed } =
      (if negative then [chr '-'] else []) ++ numeral 10 1 value.toNat := by
    rw [bodyText_eq, alternative_dropped (Or.inr rfl)]
    rfl
  have hcount := decimal_digits value
  have hint : integerBufferSize = 32 := rfl
  have hlength : (bodyText value.toNat negative .decimal 0 0
      { long := long, signed := signed }).length ≤ integerBufferSize := by
    rw [hbody, List.length_append, numeral_length]
    split <;> simp only [List.length_singleton, List.length_nil] <;> omega
  rw [integerText_fits hcall hlength, unboundedText]
  dsimp only
  rw [if_neg Bool.false_ne_true]
  show spaces (0 - _) ++ bodyText _ _ _ 0 0 _ = _
  rw [hbody, Nat.zero_sub]
  rfl

/-- The hexadecimal digits that `to_hstring` makes, as a numeral. -/
theorem hexDigits_numeral (value : BitVec 64) : hexDigits value = numeral 16 16 value.toNat := by
  have hchar : ∀ d < 16, hexChar (BitVec.ofNat 8 d) = digitChar d := by decide
  have hcount : (Nat.digits 16 value.toNat).length ≤ 16 :=
    (Nat.digits_length_le_iff (by decide) _).mpr value.isLt
  rw [numeral_places (by decide) hcount]
  apply List.ext_getElem
  · rfl
  · intro k hk _
    have hk16 : k < 16 := hk
    rw [List.getElem_reverse]
    simp only [hexDigits, List.getElem_map, List.getElem_range, List.length_map, List.length_range]
    rw [hexDigit_nibble value hk16, hchar _ (Nat.mod_lt _ (by decide))]

/-- What `%p` prints. -/
theorem integerText_pointer (value : BitVec 64) :
    integerText value false .hex 0 18 { zeropad := true, pointer := true } =
      ascii "0x" ++ hexDigits value := by
  generalize hflags : ({ zeropad := true, pointer := true } : Flags) = flags
  have hpad : (flags.zeropad && !flags.left) = true := by rw [← hflags]; rfl
  have hprecision : flags.precision = false := by rw [← hflags]
  have hpointer : flags.pointer = true := by rw [← hflags]
  have hsign : ∀ buf, storeSign buf false flags = buf := by rw [← hflags]; exact fun _ => rfl
  have hnone : (signText false flags).length = 0 := by rw [← hflags]; rfl
  have hletter : flags.uppercase = false := by rw [← hflags]
  have hkept : (integerDigits value .hex flags).2 = flags := by
    rw [integerDigits_flags, ← hflags]
    rfl
  have hint : integerBufferSize = 32 := rfl
  have hcount : (Nat.digits 16 value.toNat).length ≤ 16 :=
    (Nat.digits_length_le_iff (by decide) _).mpr value.isLt
  have hreverse : (integerDigits value .hex flags).1.reverse = numeral 16 1 value.toNat := by
    rw [integerDigits_reverse value .hex flags (hcount.trans (by decide)), hprecision]
    rfl
  have hlength := congrArg List.length hreverse
  rw [List.length_reverse, numeral_length] at hlength
  have hne : (integerDigits value .hex flags).1 ≠ [] := by
    intro hnil
    rw [hnil, List.length_nil] at hlength
    omega
  rw [integerText_eq, hkept]
  generalize (integerDigits value .hex flags).1 = digits at hreverse hlength hne
  obtain ⟨width, hwidth, hzeros⟩ := leadingZeros_padded digits false 18 hpad
  have h18 : width.toNat = 18 := by rw [hwidth, hnone]; rfl
  have hmin : min width.toNat integerBufferSize = width.toNat := by omega
  rw [hmin] at hzeros
  -- two of the zeros make room for the prefix
  have hback : takeBack (digits ++ zeros (width.toNat - digits.length)) digits.length .hex 0 width
      flags = digits ++ zeros (width.toNat - digits.length - 2) :=
    takeBack_padded (Or.inl rfl) hprecision hne
  have hprefix := storePrefix_room hback (Or.inl rfl)
    (by rw [List.length_append, zeros_length]; omega)
  have hsixteen : zeros (width.toNat - digits.length - 2) ++ digits.reverse =
      numeral 16 16 value.toNat := by
    rw [hreverse, ← zeros_numeral (by decide : 1 ≤ 16), numeral_length, h18, hlength]
    congr 2
    omega
  rw [integerBuffer_eq hzeros]
  dsimp only
  rw [storeAlternative, if_pos (Or.inr hpointer), hprefix, hsign, outRevText, ← hflags]
  show [] ++ (List.reverse _ ++ []) = _
  rw [List.nil_append, List.append_nil, List.reverse_append, List.reverse_append, zeros_reverse,
    hsixteen, hexDigits_numeral]
  rfl

/-! ## `%d` and `atoi` -/

theorem atoi_prefix {s : List Byte} (h : 0 ∉ s) (rest : List Byte) :
    atoi (s ++ 0 :: rest) = some (decimal s) := by
  unfold atoi decimal
  generalize (0 : BitVec 32) = res
  induction s generalizing res with
  | nil => exact if_pos rfl
  | cons b s ih =>
    have hb : b ≠ 0 := (List.ne_of_not_mem_cons h).symm
    rw [List.cons_append, atoiLoop, if_neg hb, ih (List.not_mem_of_not_mem_cons h)]
    rfl

/-- Digits behind the number `res`. -/
theorem foldl_decimal (res : BitVec 32) {ds : List Nat} (h : ∀ d ∈ ds, d < 10) :
    (ds.map digitChar).reverse.foldl
        (fun res b => res * 10 + b.signExtend 32 - (chr '0').signExtend 32) res =
      res * 10 ^ ds.length + BitVec.ofNat 32 (Nat.ofDigits 10 ds) := by
  have hdigit : ∀ d < 10, (digitChar d).signExtend 32 =
      (chr '0').signExtend 32 + BitVec.ofNat 32 d := by decide
  have hsteps : ds.foldr (fun d res => res * 10 + (digitChar d).signExtend 32 -
      (chr '0').signExtend 32) res = ds.foldr (fun d res => res * 10 + BitVec.ofNat 32 d) res := by
    refine List.foldr_ext _ _ res fun d hd res => ?_
    rw [hdigit d (h d hd)]
    ring
  rw [List.foldl_reverse, List.foldr_map, hsteps]
  exact foldr_digits 10 res ds

theorem absForPrinting_toNat (x : BitVec 64) : (absForPrinting x).toNat = x.toInt.natAbs := by
  have hbound := x.isLt
  have hzero : (0 : BitVec 64).toInt = 0 := rfl
  unfold absForPrinting
  rw [BitVec.slt_eq_decide, hzero]
  by_cases hx : 0 < x.toInt
  · rw [if_pos (decide_eq_true hx)]
    rw [BitVec.toInt_eq_toNat_cond] at hx ⊢
    split at hx <;> split <;> omega
  · rw [if_neg (by rwa [decide_eq_true_eq]), BitVec.toNat_neg]
    rw [BitVec.toInt_eq_toNat_cond] at hx ⊢
    split at hx <;> split <;> omega

/-- The text of `%d`. -/
def signedText (x : BitVec 32) : List Byte :=
  (if x.slt 0 then [chr '-'] else []) ++ numeral 10 1 x.toInt.natAbs

theorem meaning_signed (x : BitVec 32) :
    meaning (ascii "%d" ++ [0]) [.int x] = some (chars (signedText x)) := by
  have hparse : parse 4 (ascii "%d" ++ [0]) =
      some ([.directive ⟨{}, .absent, none, .none, chr 'd'⟩], 0) := by decide
  have habs : (absForPrinting (x.signExtend 64)).toNat = x.toInt.natAbs := by
    rw [absForPrinting_toNat, BitVec.toInt_signExtend_of_le (by decide)]
  have htext : integerText (absForPrinting (x.signExtend 64)) (x.slt 0) .decimal 0 0
      { signed := true } = signedText x := by
    rw [integerText_plain _ _ true false, habs]
    rfl
  have hspecifier : specifierEvents (chr 'd') {} 0 0 [.int x] =
      some (chars (integerText (absForPrinting (x.signExtend 64)) (x.slt 0) .decimal 0 0
        { signed := true }), []) := by
    have hd : specifierOf (chr 'd') = .integer true .decimal false := by decide
    unfold specifierEvents
    rw [hd]
    rfl
  have hformat : (ascii "%d" ++ [0]).length + 1 = 4 := rfl
  rw [meaning, hformat, hparse, ← htext]
  simp only [Option.bind_some, render, pieceEvents, directiveEvents, readWidth, readField,
    readPrecision, Length.set, hspecifier, Option.map_some, readStars, List.append_nil]

/-- What `atoi` makes of the text of `%d`: the sign counts as a digit. -/
theorem decimal_signedText (x : BitVec 32) :
    decimal (signedText x) =
      (if x.slt 0 then -3 * 10 ^ (Nat.digits 10 x.toInt.natAbs).length else 0) +
        BitVec.ofNat 32 x.toInt.natAbs := by
  have hsmall : ∀ d ∈ Nat.digits 10 x.toInt.natAbs, d < 10 :=
    fun d hd => Nat.digits_lt_base (by decide) hd
  unfold signedText numeral decimal
  rw [List.map_reverse]
  cases hneg : x.slt 0 with
  | true =>
    -- a negative number is not zero, and its numeral has no zeros in front
    have hpos : Nat.digits 10 x.toInt.natAbs ≠ [] := by
      rw [Nat.digits_ne_nil_iff_ne_zero, Int.natAbs_ne_zero]
      intro hzero
      rw [BitVec.slt_eq_decide, hzero] at hneg
      exact absurd hneg (by decide)
    have hnone : 1 - (Nat.digits 10 x.toInt.natAbs).length = 0 := by
      have := List.length_pos_iff.mpr hpos
      omega
    rw [if_pos rfl, if_pos rfl, hnone, List.singleton_append, List.foldl_cons, zeros,
      List.replicate_zero, List.nil_append, foldl_decimal _ hsmall, Nat.ofDigits_digits]
    rfl
  | false =>
    have hzeros : ∀ k, (zeros k).foldl
        (fun res b => res * 10 + b.signExtend 32 - (chr '0').signExtend 32) (0 : BitVec 32) = 0 := by
      intro k
      induction k with
      | zero => rfl
      | succ k ih => exact ih
    rw [if_neg Bool.false_ne_true, if_neg Bool.false_ne_true, List.nil_append, List.foldl_append,
      hzeros, foldl_decimal _ hsmall, Nat.ofDigits_digits, zero_mul]

theorem decimal_signedText_iff (x : BitVec 32) :
    decimal (signedText x) = x ↔ 0 ≤ x.toInt ∨ x.toInt = -2115098112 := by
  have hzero : (0 : BitVec 32).toInt = 0 := rfl
  have hbound := x.isLt
  rw [decimal_signedText, BitVec.slt_eq_decide, hzero]
  by_cases hneg : x.toInt < 0
  · rw [if_pos (decide_eq_true hneg)]
    have habs : x.toNat + x.toInt.natAbs = 2 ^ 32 := by
      rw [BitVec.toInt_eq_toNat_cond] at hneg ⊢
      split at hneg <;> split <;> omega
    have hhalf : x.toInt.natAbs ≤ 2 ^ 31 := by
      rw [BitVec.toInt_eq_toNat_cond] at hneg ⊢
      split at hneg <;> split <;> omega
    have hint : x.toInt = -(x.toInt.natAbs : Int) := by omega
    have hpos : x.toInt.natAbs ≠ 0 := by omega
    generalize hm : x.toInt.natAbs = m at *
    generalize hk : (Nat.digits 10 m).length = k
    have hupper : m < 10 ^ k := (Nat.digits_length_le_iff (by decide) _).mp hk.le
    have hlower : 10 ^ k ≤ 10 * m := hk ▸ Nat.base_pow_length_digits_le' 8 m hpos
    have hcount : k ≤ 10 :=
      hk ▸ (Nat.digits_length_le_iff (by decide) _).mpr (lt_of_le_of_lt hhalf (by decide))
    have hpow : (10 : BitVec 32) ^ k = BitVec.ofNat 32 (10 ^ k) := by
      rw [← BitVec.natCast_eq_ofNat, Nat.cast_pow]
      rfl
    have hthree : (-3 : BitVec 32) = BitVec.ofNat 32 4294967293 := rfl
    have hsum : (-3 * 10 ^ k + BitVec.ofNat 32 m).toNat = (4294967293 * 10 ^ k + m) % 2 ^ 32 := by
      rw [hpow, hthree, ← BitVec.ofNat_mul, ← BitVec.ofNat_add, BitVec.toNat_ofNat]
    rw [← BitVec.toNat_inj, hsum]
    interval_cases k <;> omega
  · rw [if_neg (by rwa [decide_eq_true_eq]), zero_add]
    refine iff_of_true ?_ (Or.inl (by omega))
    apply BitVec.eq_of_toNat_eq
    rw [BitVec.toNat_ofNat]
    rw [BitVec.toInt_eq_toNat_cond] at hneg ⊢
    split at hneg <;> split <;> omega

theorem signedText_spec (x : BitVec 32) : 0 ∉ signedText x ∧ (signedText x).length ≤ 11 := by
  have hsmall : x.toInt.natAbs < 10 ^ 10 := by
    have h1 := BitVec.toInt_lt (x := x)
    have h2 := BitVec.le_toInt x
    omega
  have hcount : (Nat.digits 10 x.toInt.natAbs).length ≤ 10 :=
    (Nat.digits_length_le_iff (by decide) _).mpr hsmall
  constructor
  · intro h
    rcases List.mem_append.mp h with h | h
    · split at h
      · exact absurd (List.mem_singleton.mp h) (by decide)
      · cases h
    · exact zero_notMem_numeral (by decide) (by decide) _ _ h
  · rw [signedText, List.length_append, numeral_length]
    split <;> simp only [List.length_singleton, List.length_nil] <;> omega

/-- `atoi` reads an `int` back from what `sprintf` has written with `%d` exactly when it is not
    negative, or the one number for which the wrong value of the sign does not matter. -/
theorem atoi_undoes_sprintf {n : Nat} (buf : Vector Byte n) (hn : 12 ≤ n) (x : BitVec 32) :
    ∃ buf', vsprintf (some buf) (ascii "%d" ++ [0]) [.int x] =
        some (some buf', [], BitVec.ofNat 32 (signedText x).length) ∧
      (atoi buf'.toList = some x ↔ 0 ≤ x.toInt ∨ x.toInt = -2115098112) := by
  obtain ⟨hnul, hlength⟩ := signedText_spec x
  have hmeaning := meaning_signed x
  have htext : text (chars (signedText x)) = signedText x := text_chars _
  have hstores : stores 0 (chars (signedText x)) = [] := stores_chars 0 _
  have husable : usable (maxPossibleBufferSize.setWidth 64) - 1 = 2 ^ 31 - 2 := by decide
  obtain ⟨buf', hstore, hlist⟩ := storeBytes_fits buf (signedText x ++ [0]) (k := 0)
    (by rw [List.length_append, List.length_singleton]; omega)
  refine ⟨buf', ?_, ?_⟩
  · rw [vsprintf, vsnprintf_eq hmeaning (by rw [htext]; omega), if_neg (by decide), husable, htext,
      hstores, List.take_of_length_le (by omega), hstore]
    rfl
  · rw [hlist, List.take_zero, List.nil_append, List.append_assoc, List.singleton_append,
      atoi_prefix hnul, Option.some_inj]
    exact decimal_signedText_iff x

theorem atoi_undoes_sprintf_negative : 12 ≤ 12 ∧
    ∃ buf', vsprintf (some (Vector.replicate 12 (0 : Byte))) (ascii "%d" ++ [0]) [.int (-5)] =
        some (some buf', [], BitVec.ofNat 32 (signedText (-5)).length) ∧
      (atoi buf'.toList = some (-5) ↔
        0 ≤ (-5 : BitVec 32).toInt ∨ (-5 : BitVec 32).toInt = -2115098112) :=
  ⟨le_refl 12, atoi_undoes_sprintf (Vector.replicate 12 0) (le_refl 12) (-5)⟩

end SeshOS.Printf
