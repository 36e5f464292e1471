/-
  `formatStringLoop` of `video/printf.c`: a format, and what its directives do.

  A format is passed as in `Libc.Strings`, by the bytes from the pointer to the end of its
  object. Reading the arguments is `va_arg`, which takes the next of a list: one of another type
  than asked for gives `none`, like every read behind the end of an object and every store
  outside of one. A part of the loop that has met the terminator says so by `Stop.returned`, and
  the loop then returns.

  The floating point specifiers are not compiled in (`PRINTF_SUPPORT_DECIMAL_SPECIFIERS` and
  `PRINTF_SUPPORT_EXPONENTIAL_SPECIFIERS` are 0), nor are those with an `I`.
-/
import SeshOS.Base.Loop
import SeshOS.Printf.Integer

namespace SeshOS.Printf

open Base Libc

/-! ## string.c -/

/-- `none` where a byte behind the object is read. -/
def strnlenS : List Byte → Nat → Option Nat
  | [], _ => none
  | b :: str, strsz =>
    if b = 0 then some 0
    else
      match strsz with
      | 0 => some 0
      | strsz + 1 => (strnlenS str strsz).map (· + 1)

def isdigit (ch : Int) : Bool := decide (0x30 ≤ ch) && decide (ch ≤ 0x39)

/-! ## Arguments -/

/-- An argument as `va_arg` finds it: an `int` or `unsigned int`, a 64-bit integer, or a pointer
    with the bytes from there to the end of the object. -/
inductive Arg where
  | int (value : BitVec 32)
  | long (value : BitVec 64)
  | ptr (address : BitVec 64) (bytes : List Byte)

def vaInt : List Arg → Option (BitVec 32 × List Arg)
  | .int value :: args => some (value, args)
  | _ => none

def vaLong : List Arg → Option (BitVec 64 × List Arg)
  | .long value :: args => some (value, args)
  | _ => none

def vaPtr : List Arg → Option ((BitVec 64 × List Byte) × List Arg)
  | .ptr address bytes :: args => some ((address, bytes), args)
  | _ => none

/-- `ABS_FOR_PRINTING` -/
def absForPrinting (x : BitVec 64) : BitVec 64 := if (0 : BitVec 64).slt x then x else -x

/-- The value of an integer specifier and whether it is negative. -/
def integerArg (flags : Flags) (args : List Arg) : Option ((BitVec 64 × Bool) × List Arg) :=
  if flags.signed then
    if flags.longLong || flags.long then
      (vaLong args).map fun (value, args) => ((absForPrinting value, value.slt 0), args)
    else
      (vaInt args).map fun (arg, args) =>
        let value :=
          if flags.char then (arg.setWidth 8).signExtend 32
          else if flags.short then (arg.setWidth 16).signExtend 32
          else arg
        ((absForPrinting (value.signExtend 64), value.slt 0), args)
  else if flags.longLong || flags.long then
    (vaLong args).map fun (value, args) => ((value, false), args)
  else
    (vaInt args).map fun (arg, args) =>
      let value :=
        if flags.char then (arg.setWidth 8).setWidth 32
        else if flags.short then (arg.setWidth 16).setWidth 32
        else arg
      ((value.setWidth 64, false), args)

/-! ## Reading a directive -/

/-- How a part of the loop ends early: at the terminator of the format, or by a read of what is
    not there. -/
inductive Stop where
  | returned
  | fault
deriving DecidableEq, Repr

abbrev Parse := Except Stop

def need {α : Type} : Option α → Parse α
  | none => .error .fault
  | some a => .ok a

/-- `ADVANCE_IN_FORMAT_STRING` -/
def advance (format : List Byte) : Parse (List Byte) :=
  match format.tail with
  | [] => .error .fault
  | b :: format => if b = 0 then .error .returned else .ok (b :: format)

def parseFlags (flags : Flags) : List Byte → Option (Flags × List Byte)
  | [] => none
  | b :: format =>
    if b = chr '0' then parseFlags { flags with zeropad := true } format
    else if b = chr '-' then parseFlags { flags with left := true } format
    else if b = chr '+' then parseFlags { flags with plus := true } format
    else if b = chr ' ' then parseFlags { flags with space := true } format
    else if b = chr '#' then parseFlags { flags with hash := true } format
    else some (flags, b :: format)

/-- The loop of `atou_`, at the running total `i`. -/
def atou (i : PrintfSize) : List Byte → Option (PrintfSize × List Byte)
  | [] => none
  | b :: str =>
    if isdigit b.toInt then atou (i * 10 + (b.signExtend 32 - (chr '0').signExtend 32)) str
    else some (i, b :: str)

/-- A width or a precision: digits, or a `*` for an argument, or neither, which is 0. -/
def evaluateField {α : Type} (number star : BitVec 32 → α) (format : List Byte) (args : List Arg) :
    Parse (α × List Byte × List Arg) :=
  match format with
  | [] => .error .fault
  | b :: _ =>
    if isdigit b.toInt then do
      let (value, format) ← need (atou 0 format)
      .ok (number value, format, args)
    else if b = chr '*' then do
      let (value, args) ← need (vaInt args)
      let format ← advance format
      .ok (star value, format, args)
    else .ok (number 0, format, args)

/-- The width for the argument `w` of a `*`, and the flags. -/
def starWidth (flags : Flags) (w : BitVec 32) : PrintfSize × Flags :=
  if w.slt 0 then (-w, { flags with left := true }) else (w, flags)

/-- "evaluate width field" -/
def evaluateWidth (flags : Flags) (format : List Byte) (args : List Arg) :
    Parse ((PrintfSize × Flags) × List Byte × List Arg) :=
  evaluateField (fun width => (width, flags)) (starWidth flags) format args

/-- `precision_ > 0 ? (printfSize_t) precision_ : 0U` -/
def starPrecision (precision : BitVec 32) : PrintfSize :=
  if (0 : BitVec 32).slt precision then precision else 0

/-- "evaluate precision field" -/
def evaluatePrecision (flags : Flags) (format : List Byte) (args : List Arg) :
    Parse ((PrintfSize × Flags) × List Byte × List Arg) :=
  match format with
  | [] => .error .fault
  | b :: _ =>
    if b = chr '.' then do
      let flags := { flags with precision := true }
      let format ← advance format
      evaluateField (fun precision => (precision, flags))
        (fun precision => (starPrecision precision, flags)) format args
    else .ok ((0, flags), format, args)

/-- "evaluate length field": `ptrdiff_t`, `intmax_t` and `size_t` are of the size of `long`. -/
def evaluateLength (flags : Flags) (format : List Byte) : Parse (Flags × List Byte) :=
  match format with
  | [] => .error .fault
  | b :: _ =>
    if b = chr 'l' then do
      let flags := { flags with long := true }
      let format ← advance format
      if format.head? = some (chr 'l') then
        let format ← advance format
        .ok ({ flags with longLong := true }, format)
      else .ok (flags, format)
    else if b = chr 'h' then do
      let flags := { flags with short := true }
      let format ← advance format
      if format.head? = some (chr 'h') then
        let format ← advance format
        .ok ({ flags with char := true }, format)
      else .ok (flags, format)
    else if b = chr 't' ∨ b = chr 'j' ∨ b = chr 'z' then do
      let format ← advance format
      .ok ({ flags with long := true }, format)
    else .ok (flags, format)

/-! ## Specifiers -/

variable {σ : Type} {n : Nat}

/-- A store by `%n`: the low `size` bytes of `pos`, extended with zeros, at `address`. -/
structure WriteBack where
  address : BitVec 64
  size : Nat
  pos : PrintfSize
deriving DecidableEq, Repr

/-- The labels of the switch over the specifier. -/
inductive Specifier where
  | integer (signed : Bool) (base : NumericBase) (uppercase : Bool)
  | char
  | string
  | pointer
  | percent
  | writeBack
  | other
deriving DecidableEq, Repr

def specifierOf (b : Byte) : Specifier :=
  if b = chr 'd' ∨ b = chr 'i' then .integer true .decimal false
  else if b = chr 'u' then .integer false .decimal false
  else if b = chr 'x' then .integer false .hex false
  else if b = chr 'X' then .integer false .hex true
  else if b = chr 'o' then .integer false .octal false
  else if b = chr 'b' then .integer false .binary false
  else if b = chr 'c' then .char
  else if b = chr 's' then .string
  else if b = chr 'p' then .pointer
  else if b = chr '%' then .percent
  else if b = chr 'n' then .writeBack
  else .other

/-- The flags an integer specifier calls `printInt` with. -/
def integerFlags (flags : Flags) (signed : Bool) (base : NumericBase) (uppercase : Bool) : Flags :=
  { flags with
    signed := signed
    hash := flags.hash && !decide (base = .decimal)
    uppercase := uppercase
    zeropad := flags.zeropad && !flags.precision
    plus := flags.plus && signed
    space := flags.space && signed }

def printChar (output : OutputGadget σ n) (c : Byte) (width : PrintfSize) (flags : Flags) :
    Option (OutputGadget σ n) :=
  (if flags.left then some output else putSpaces output (width.toNat - 1)).bind fun output =>
    (putcharViaGadget output c).bind fun output =>
      if flags.left then putSpaces output (width.toNat - 1) else some output

/-- "string output" -/
def putString (hasPrecision : Bool) (output : OutputGadget σ n) (precision : PrintfSize) :
    List Byte → Option (OutputGadget σ n)
  | [] => none
  | b :: p =>
    if b ≠ 0 ∧ (hasPrecision = false ∨ precision ≠ 0) then
      (putcharViaGadget output b).bind fun output => putString hasPrecision output (precision - 1) p
    else some output

/-- `l` of the specifier `s`: the length to be printed. -/
def stringLength (p : List Byte) (precision : PrintfSize) (flags : Flags) : Option PrintfSize :=
  (strnlenS p (if precision ≠ 0 then precision else maxPossibleBufferSize).toNat).map fun l =>
    let l := BitVec.ofNat 32 l
    if flags.precision then (if l < precision then l else precision) else l

def printString (output : OutputGadget σ n) (p : BitVec 64 × List Byte)
    (precision width : PrintfSize) (flags : Flags) : Option (OutputGadget σ n) :=
  if p.1 = 0 then outRev output (ascii ")llun(") width flags
  else
    (stringLength p.2 precision flags).bind fun l =>
      (if flags.left then some output else putSpaces output (width.toNat - l.toNat)).bind
        fun output =>
          (putString flags.precision output precision p.2).bind fun output =>
            if flags.left then putSpaces output (width.toNat - l.toNat) else some output

/-- The size of what `%n` stores. -/
def writeBackSize (flags : Flags) : Nat :=
  if flags.char then 1 else if flags.short then 2 else if flags.long then 8
  else if flags.longLong then 8 else 4

/-- "evaluate specifier" -/
def evaluateSpecifier (output : OutputGadget σ n) (specifier : Byte) (flags : Flags)
    (width precision : PrintfSize) (args : List Arg) :
    Option (OutputGadget σ n × List Arg × List WriteBack) :=
  match specifierOf specifier with
  | .integer signed base uppercase =>
    let flags := integerFlags flags signed base uppercase
    (integerArg flags args).bind fun ((value, negative), args) =>
      (printInt output value negative base precision width flags).map fun output =>
        (output, args, [])
  | .char =>
    (vaInt args).bind fun (c, args) =>
      (printChar output (c.setWidth 8) width flags).map fun output => (output, args, [])
  | .string =>
    (vaPtr args).bind fun (p, args) =>
      (printString output p precision width flags).map fun output => (output, args, [])
  | .pointer =>
    (vaPtr args).bind fun (p, args) =>
      (printInt output p.1 false .hex precision 18
        { flags with zeropad := true, pointer := true }).map fun output => (output, args, [])
  | .percent => (putcharViaGadget output (chr '%')).map fun output => (output, args, [])
  | .writeBack =>
    (vaPtr args).map fun (p, args) => (output, args, [⟨p.1, writeBackSize flags, output.pos⟩])
  | .other => (putcharViaGadget output specifier).map fun output => (output, args, [])

/-! ## The loop -/

structure LoopState (σ : Type) (n : Nat) where
  output : OutputGadget σ n
  format : List Byte
  args : List Arg
  writeBacks : List WriteBack

/-- A round of the loop that meets a `%`. -/
def formatDirective (st : LoopState σ n) : Parse (LoopState σ n) := do
  let format ← advance st.format
  let (flags, format) ← need (parseFlags {} format)
  let ((width, flags), format, args) ← evaluateWidth flags format st.args
  let ((precision, flags), format, args) ← evaluatePrecision flags format args
  let (flags, format) ← evaluateLength flags format
  match format with
  | [] => .error .fault
  | b :: format =>
    let (output, args, stored) ←
      need (evaluateSpecifier st.output b flags width precision args)
    .ok ⟨output, format, args, st.writeBacks ++ stored⟩

/-- One round; the loop ends with `none` when it does what it must not. -/
def formatRound (st : LoopState σ n) : Iter (LoopState σ n) (Option (LoopState σ n)) :=
  match st.format with
  | [] => .done none
  | b :: format =>
    if b = 0 then .done (some st)
    else if b ≠ chr '%' then
      match putcharViaGadget st.output b with
      | some output => .next { st with output := output, format := format }
      | none => .done none
    else
      match formatDirective st with
      | .ok st => .next st
      | .error .returned => .done (some st)
      | .error .fault => .done none

/-- Every round goes further in the format, so as many rounds as it has bytes are enough. -/
def formatStringLoop (output : OutputGadget σ n) (format : List Byte) (args : List Arg) :
    Option (OutputGadget σ n × List WriteBack) :=
  match loop formatRound (format.length + 1) ⟨output, format, args, []⟩ with
  | .done result => result.map fun st => (st.output, st.writeBacks)
  | .next _ => none

/-- `vsnprintf_impl`: the gadget it leaves, what `%n` stored, and the `int` it returns. -/
def vsnprintfImpl (output : OutputGadget σ n) (format : List Byte) (args : List Arg) :
    Option (OutputGadget σ n × List WriteBack × BitVec 32) :=
  (formatStringLoop output format args).bind fun (output, stored) =>
    (appendTermWithGadget output).map fun output => (output, stored, output.pos)

end SeshOS.Printf
