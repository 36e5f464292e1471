/-
  `printInt` of `video/printf.c`: an integer in a base, with its prefix, its sign and padding.

  The number is built backwards in a buffer of 32 bytes. `buf` are the bytes written to it so
  far, so `len` is its length, and a store behind its end is `store`, which the code guards by
  `len < PRINTF_INTEGER_BUFFER_SIZE` everywhere. The letters of the digits are in upper case
  for every specifier.

  `integerBuffer` is what is in the buffer when it is printed, and `printInt_eq` says that the
  call sends one text to the gadget, whatever the gadget is.
-/
import SeshOS.Printf.Gadget

namespace SeshOS.Printf

open Base Libc

/-- The flags of `printf.h`, less the one of the floating point specifiers. -/
structure Flags where
  zeropad : Bool := false
  left : Bool := false
  plus : Bool := false
  space : Bool := false
  hash : Bool := false
  uppercase : Bool := false
  char : Bool := false
  short : Bool := false
  long : Bool := false
  longLong : Bool := false
  precision : Bool := false
  pointer : Bool := false
  signed : Bool := false
deriving DecidableEq, Repr

inductive NumericBase where
  | binary
  | octal
  | decimal
  | hex
deriving DecidableEq, Repr

def NumericBase.val : NumericBase → Nat
  | .binary => 2
  | .octal => 8
  | .decimal => 10
  | .hex => 16

/-- `PRINTF_INTEGER_BUFFER_SIZE` -/
def integerBufferSize : Nat := 32

/-! ## printf.c -/

variable {σ : Type} {n : Nat}

/-- `buf` is in the order of its bytes: the last one is printed first. -/
def outRev (output : OutputGadget σ n) (buf : List Byte) (width : PrintfSize) (flags : Flags) :
    Option (OutputGadget σ n) :=
  let startPos := output.pos
  (if !flags.left && !flags.zeropad then putSpaces output (width.toNat - buf.length)
    else some output).bind fun output =>
      (output.emit buf.reverse).bind fun output =>
        if flags.left then padFrom startPos width width.toNat output else some output

/-- `buf[len++] = c`, if there is room. -/
def store (buf : List Byte) (c : Byte) : List Byte :=
  if buf.length < integerBufferSize then buf ++ [c] else buf

/-- `while ((len < bound) && (len < PRINTF_INTEGER_BUFFER_SIZE))`, at most `rounds` times. -/
def storeZeros (bound : Nat) : Nat → List Byte → List Byte
  | 0, buf => buf
  | rounds + 1, buf =>
    if buf.length < bound ∧ buf.length < integerBufferSize then
      storeZeros bound rounds (buf ++ [chr '0'])
    else buf

/-- "Let's take back some padding digits to fit in what will eventually be the format-specific
    prefix" -/
def takeBack (buf : List Byte) (unpaddedLen : Nat) (base : NumericBase)
    (precision width : PrintfSize) (flags : Flags) : List Byte :=
  if flags.precision = false ∧ buf.length ≠ 0 ∧
      (buf.length = precision.toNat ∨ buf.length = width.toNat) then
    let buf := if unpaddedLen < buf.length then buf.dropLast else buf
    if buf.length ≠ 0 ∧ (base = .hex ∨ base = .binary) ∧ unpaddedLen < buf.length then buf.dropLast
    else buf
  else buf

/-- The letter of the prefix. -/
def storeLetter (buf : List Byte) (base : NumericBase) (flags : Flags) : List Byte :=
  if base = .hex ∧ flags.uppercase = false then store buf (chr 'x')
  else if base = .hex ∧ flags.uppercase = true then store buf (chr 'X')
  else if base = .binary then store buf (chr 'b')
  else buf

/-- "handle hash" -/
def storePrefix (buf : List Byte) (unpaddedLen : Nat) (base : NumericBase)
    (precision width : PrintfSize) (flags : Flags) : List Byte :=
  store (storeLetter (takeBack buf unpaddedLen base precision width flags) base flags) (chr '0')

def storeSign (buf : List Byte) (negative : Bool) (flags : Flags) : List Byte :=
  if negative = true then store buf (chr '-')
  else if flags.plus = true then store buf (chr '+')
  else if flags.space = true then store buf (chr ' ')
  else buf

/-- The leading zeros, for the width and for the precision; the width leaves room for a sign. -/
def leadingZeros (buf : List Byte) (negative : Bool) (precision width : PrintfSize)
    (flags : Flags) : List Byte × PrintfSize :=
  let width :=
    if flags.left = false ∧ width ≠ 0 ∧ flags.zeropad = true ∧
        (negative = true ∨ flags.plus = true ∨ flags.space = true) then width - 1
    else width
  let buf :=
    if flags.left = false ∧ flags.zeropad = true then storeZeros width.toNat integerBufferSize buf
    else buf
  (storeZeros precision.toNat integerBufferSize buf, width)

/-- `printIntegerFinalization` up to its call of `outRev_`: the buffer and the width. -/
def integerBuffer (buf : List Byte) (negative : Bool) (base : NumericBase)
    (precision width : PrintfSize) (flags : Flags) : List Byte × PrintfSize :=
  let unpaddedLen := buf.length
  let (buf, width) := leadingZeros buf negative precision width flags
  let hash := flags.hash && !decide (base = .octal ∧ unpaddedLen < buf.length)
  let buf :=
    if hash = true ∨ flags.pointer = true then storePrefix buf unpaddedLen base precision width flags
    else buf
  (storeSign buf negative flags, width)

def printIntegerFinalization (output : OutputGadget σ n) (buf : List Byte) (negative : Bool)
    (base : NumericBase) (precision width : PrintfSize) (flags : Flags) :
    Option (OutputGadget σ n) :=
  let (buf, width) := integerBuffer buf negative base precision width flags
  outRev output buf width flags

/-- `digit < 10 ? '0' + digit : 'A' + digit - 10` -/
def digitChar (digit : Nat) : Byte :=
  if digit < 10 then BitVec.ofNat 8 (48 + digit) else BitVec.ofNat 8 (65 + digit - 10)

/-- `while (value && (len < PRINTF_INTEGER_BUFFER_SIZE))`, at most `rounds` times. -/
def storeDigits (base : Nat) : Nat → Nat → List Byte → List Byte
  | 0, _, buf => buf
  | rounds + 1, value, buf =>
    if value ≠ 0 ∧ buf.length < integerBufferSize then
      storeDigits base rounds (value / base) (buf ++ [digitChar (value % base)])
    else buf

/-- The digits of `printInt`, and the flags it goes on with. -/
def integerDigits (value : BitVec 64) (base : NumericBase) (flags : Flags) : List Byte × Flags :=
  if value = 0 then
    if flags.precision = false then ([chr '0'], { flags with hash := false })
    else if base = .hex then ([], { flags with hash := false })
    else ([], flags)
  else (storeDigits base.val integerBufferSize value.toNat [], flags)

def printInt (output : OutputGadget σ n) (value : BitVec 64) (negative : Bool)
    (base : NumericBase) (precision width : PrintfSize) (flags : Flags) :
    Option (OutputGadget σ n) :=
  let (buf, flags) := integerDigits value base flags
  printIntegerFinalization output buf negative base precision width flags

/-! ## The text of a number -/

def spaces (k : Nat) : List Byte := List.replicate k (chr ' ')

def zeros (k : Nat) : List Byte := List.replicate k (chr '0')

/-- What `outRev_` prints. -/
def outRevText (buf : List Byte) (width : PrintfSize) (flags : Flags) : List Byte :=
  (if !flags.left && !flags.zeropad then spaces (width.toNat - buf.length) else []) ++
    (buf.reverse ++ if flags.left then spaces (width.toNat - buf.length) else [])

theorem outRev_eq (output : OutputGadget σ n) {buf : List Byte} (h : buf.length < 2 ^ 32)
    (width : PrintfSize) (flags : Flags) :
    outRev output buf width flags = output.emit (outRevText buf width flags) := by
  unfold outRev outRevText
  dsimp only
  rw [OutputGadget.emit_append]
  have hfirst : (if (!flags.left && !flags.zeropad) = true then
        putSpaces output (width.toNat - buf.length) else some output) =
      output.emit (if (!flags.left && !flags.zeropad) = true then
        spaces (width.toNat - buf.length) else []) := by
    split
    · exact OutputGadget.putSpaces_eq output _
    · rfl
  rw [hfirst]
  cases hleft : flags.left with
  | false =>
    congr 1
    funext output
    rw [OutputGadget.emit_append]
    rfl
  | true =>
    -- nothing is in front of the number
    show (output.emit buf.reverse).bind _ = output.emit (buf.reverse ++ _)
    rw [OutputGadget.emit_append]
    cases hrun : output.emit buf.reverse with
    | none => rfl
    | some output' =>
      have hcount : (output'.pos - output.pos).toNat = buf.length := by
        rw [(OutputGadget.emit_counts hrun).1, List.length_reverse, BitVec.add_comm,
          BitVec.add_sub_cancel, BitVec.toNat_ofNat, Nat.mod_eq_of_lt h]
      rw [Option.bind_some, Option.bind_some, if_pos rfl, if_pos rfl,
        OutputGadget.padFrom_eq output' (by omega), hcount]
      rfl

/-! ### Room in the buffer -/

theorem store_length {buf : List Byte} (h : buf.length ≤ integerBufferSize) (c : Byte) :
    (store buf c).length ≤ integerBufferSize := by
  unfold store
  split
  · rw [List.length_append, List.length_singleton]
    omega
  · exact h

theorem storeZeros_eq (bound : Nat) {rounds : Nat} {buf : List Byte}
    (h : integerBufferSize ≤ buf.length + rounds) : storeZeros bound rounds buf =
      buf ++ zeros (min bound integerBufferSize - buf.length) := by
  induction rounds generalizing buf with
  | zero =>
    have hnone : min bound integerBufferSize - buf.length = 0 := by omega
    rw [hnone]
    exact (List.append_nil buf).symm
  | succ rounds ih =>
    rw [storeZeros]
    split
    · next hroom =>
      have hsucc : min bound integerBufferSize - buf.length =
          (min bound integerBufferSize - (buf ++ [chr '0']).length) + 1 := by
        rw [List.length_append, List.length_singleton]
        omega
      rw [ih (by rw [List.length_append, List.length_singleton]; omega), hsucc, List.append_assoc]
      rfl
    · next hfull =>
      have hnone : min bound integerBufferSize - buf.length = 0 := by omega
      rw [hnone]
      exact (List.append_nil buf).symm

theorem storeZeros_length (bound : Nat) {buf : List Byte} (h : buf.length ≤ integerBufferSize) :
    (storeZeros bound integerBufferSize buf).length ≤ integerBufferSize := by
  rw [storeZeros_eq bound (by omega), List.length_append, zeros, List.length_replicate]
  omega

theorem takeBack_length (buf : List Byte) (unpaddedLen : Nat) (base : NumericBase)
    (precision width : PrintfSize) (flags : Flags) :
    (takeBack buf unpaddedLen base precision width flags).length ≤ buf.length := by
  unfold takeBack
  dsimp only
  split
  · split <;> split <;> simp only [List.length_dropLast, Nat.le_refl] <;> omega
  · exact Nat.le_refl _

theorem storeLetter_length {buf : List Byte} (h : buf.length ≤ integerBufferSize)
    (base : NumericBase) (flags : Flags) :
    (storeLetter buf base flags).length ≤ integerBufferSize := by
  unfold storeLetter
  split
  · exact store_length h _
  · split
    · exact store_length h _
    · split
      · exact store_length h _
      · exact h

theorem storePrefix_length {buf : List Byte} (h : buf.length ≤ integerBufferSize)
    (unpaddedLen : Nat) (base : NumericBase) (precision width : PrintfSize) (flags : Flags) :
    (storePrefix buf unpaddedLen base precision width flags).length ≤ integerBufferSize :=
  store_length (storeLetter_length ((takeBack_length ..).trans h) base flags) _

theorem storeSign_length {buf : List Byte} (h : buf.length ≤ integerBufferSize) (negative : Bool)
    (flags : Flags) : (storeSign buf negative flags).length ≤ integerBufferSize := by
  unfold storeSign
  split
  · exact store_length h _
  · split
    · exact store_length h _
    · split
      · exact store_length h _
      · exact h

theorem storeDigits_length (base : Nat) (rounds value : Nat) {buf : List Byte}
    (h : buf.length ≤ integerBufferSize) :
    (storeDigits base rounds value buf).length ≤ integerBufferSize := by
  induction rounds generalizing value buf with
  | zero => exact h
  | succ rounds ih =>
    rw [storeDigits]
    split
    · next hroom => exact ih _ (by rw [List.length_append, List.length_singleton]; omega)
    · exact h

theorem integerDigits_length (value : BitVec 64) (base : NumericBase) (flags : Flags) :
    (integerDigits value base flags).1.length ≤ integerBufferSize := by
  unfold integerDigits
  split
  · split
    · exact (by decide : 1 ≤ integerBufferSize)
    · split <;> exact Nat.zero_le _
  · exact storeDigits_length _ _ _ (Nat.zero_le _)

theorem leadingZeros_length {buf : List Byte} (h : buf.length ≤ integerBufferSize)
    (negative : Bool) (precision width : PrintfSize) (flags : Flags) :
    (leadingZeros buf negative precision width flags).1.length ≤ integerBufferSize := by
  unfold leadingZeros
  refine storeZeros_length _ ?_
  split
  · exact storeZeros_length _ h
  · exact h

/-- Every store was inside the buffer. -/
theorem integerBuffer_length {buf : List Byte} (h : buf.length ≤ integerBufferSize)
    (negative : Bool) (base : NumericBase) (precision width : PrintfSize) (flags : Flags) :
    (integerBuffer buf negative base precision width flags).1.length ≤ integerBufferSize := by
  have hzeros := leadingZeros_length h negative precision width flags
  unfold integerBuffer
  refine storeSign_length ?_ negative flags
  split
  · exact storePrefix_length hzeros _ _ _ _ _
  · exact hzeros

/-- What `printInt` prints. -/
def integerText (value : BitVec 64) (negative : Bool) (base : NumericBase)
    (precision width : PrintfSize) (flags : Flags) : List Byte :=
  let (buf, flags) := integerDigits value base flags
  let (buf, width) := integerBuffer buf negative base precision width flags
  outRevText buf width flags

theorem printInt_eq (output : OutputGadget σ n) (value : BitVec 64) (negative : Bool)
    (base : NumericBase) (precision width : PrintfSize) (flags : Flags) :
    printInt output value negative base precision width flags =
      output.emit (integerText value negative base precision width flags) := by
  have hlen := integerBuffer_length (integerDigits_length value base flags) negative base precision
    width (integerDigits value base flags).2
  exact outRev_eq output (Nat.lt_of_le_of_lt hlen (by decide)) _ _

end SeshOS.Printf
