/-
  What a format means: a list of pieces, and the events these make of a list of arguments.

  This is the abstract level. `parse` reads a format without looking at the arguments, `render`
  turns pieces and arguments into events, and neither knows of a gadget: a character is an
  event, and so is a store of `%n`, whose value is the count of characters when it happens.
  `play` is what events do to a gadget.

  The texts of the specifiers `c` and `s` are here too (`printChar_eq`, `printString_eq`); the
  one of the integers is `integerText`.
-/
import SeshOS.Printf.Format

namespace SeshOS.Printf

open Base Libc

variable {σ : Type} {n : Nat}

/-! ## Events -/

inductive Event where
  | char (b : Byte)
  | writeBack (address : BitVec 64) (size : Nat)
deriving DecidableEq, Repr

def playEvent (st : OutputGadget σ n × List WriteBack) :
    Event → Option (OutputGadget σ n × List WriteBack)
  | .char b => (putcharViaGadget st.1 b).map fun output => (output, st.2)
  | .writeBack address size => some (st.1, st.2 ++ [⟨address, size, st.1.pos⟩])

/-- One event after the other. -/
def play (st : OutputGadget σ n × List WriteBack) (events : List Event) :
    Option (OutputGadget σ n × List WriteBack) :=
  events.foldlM playEvent st

theorem play_append (st : OutputGadget σ n × List WriteBack) (events events' : List Event) :
    play st (events ++ events') = (play st events).bind fun st => play st events' :=
  List.foldlM_append

theorem play_cons (st : OutputGadget σ n × List WriteBack) (e : Event) (events : List Event) :
    play st (e :: events) = (playEvent st e).bind fun st => play st events :=
  List.foldlM_cons

def chars (s : List Byte) : List Event := s.map Event.char

theorem play_chars (st : OutputGadget σ n × List WriteBack) (s : List Byte) :
    play st (chars s) = (st.1.emit s).map fun output => (output, st.2) := by
  induction s generalizing st with
  | nil => rfl
  | cons b s ih =>
    rw [chars, List.map_cons, play_cons, OutputGadget.emit_cons, playEvent]
    cases putcharViaGadget st.1 b with
    | none => rfl
    | some output => exact ih (output, st.2)

/-- The stores already made stay in front. -/
theorem play_stored (output : OutputGadget σ n) (stored : List WriteBack) (events : List Event) :
    play (output, stored) events =
      (play (output, []) events).map fun st => (st.1, stored ++ st.2) := by
  have hgen : ∀ before, play (output, stored ++ before) events =
      (play (output, before) events).map fun st => (st.1, stored ++ st.2) := by
    induction events generalizing output with
    | nil => exact fun _ => rfl
    | cons e events ih =>
      intro before
      rw [play_cons, play_cons]
      cases e with
      | char b =>
        simp only [playEvent]
        cases putcharViaGadget output b with
        | none => rfl
        | some output' => exact ih output' before
      | writeBack address size =>
        simp only [playEvent, Option.bind_some, List.append_assoc]
        exact ih output _
  have h := hgen []
  rwa [List.append_nil] at h

/-! ## Texts -/

/-- A text of length `l` in a field: spaces in front of it, or behind it. -/
def padded (left : Bool) (width l : Nat) (s : List Byte) : List Byte :=
  if left then s ++ spaces (width - l) else spaces (width - l) ++ s

theorem printChar_eq (output : OutputGadget σ n) (c : Byte) (width : PrintfSize) (flags : Flags) :
    printChar output c width flags = output.emit (padded flags.left width.toNat 1 [c]) := by
  unfold printChar padded
  cases flags.left with
  | true =>
    simp only [if_true, Option.bind_some]
    rw [OutputGadget.emit_append, OutputGadget.emit_singleton]
    simp only [OutputGadget.putSpaces_eq]
    rfl
  | false =>
    simp only [Bool.false_eq_true, if_false, OutputGadget.putSpaces_eq]
    rw [OutputGadget.emit_append]
    simp only [OutputGadget.emit_singleton, Option.bind_fun_some]
    rfl

/-- The characters that are put out of a string; `none` when the end of it is met first. -/
def stringChars (hasPrecision : Bool) (precision : PrintfSize) : List Byte → Option (List Byte)
  | [] => none
  | b :: p =>
    if b ≠ 0 ∧ (hasPrecision = false ∨ precision ≠ 0) then
      (stringChars hasPrecision (precision - 1) p).map (b :: ·)
    else some []

/-- What the specifier `s` prints. -/
def stringText (p : BitVec 64 × List Byte) (precision width : PrintfSize) (flags : Flags) :
    Option (List Byte) :=
  if p.1 = 0 then some (outRevText (ascii ")llun(") width flags)
  else
    (stringLength p.2 precision flags).bind fun l =>
      (stringChars flags.precision precision p.2).map (padded flags.left width.toNat l.toNat)

theorem putString_eq (hasPrecision : Bool) (output : OutputGadget σ n) (precision : PrintfSize)
    (p : List Byte) : putString hasPrecision output precision p =
      (stringChars hasPrecision precision p).bind output.emit := by
  induction p generalizing output precision with
  | nil => rfl
  | cons b p ih =>
    rw [putString, stringChars]
    split
    · simp only [ih]
      cases stringChars hasPrecision (precision - 1) p with
      | none => cases putcharViaGadget output b <;> rfl
      | some s => exact (OutputGadget.emit_cons output b s).symm
    · rfl

theorem printString_eq (output : OutputGadget σ n) (p : BitVec 64 × List Byte)
    (precision width : PrintfSize) (flags : Flags) :
    printString output p precision width flags =
      (stringText p precision width flags).bind output.emit := by
  unfold printString stringText
  split
  · exact outRev_eq output (by decide : (ascii ")llun(").length < 2 ^ 32) width flags
  · cases stringLength p.2 precision flags with
    | none => rfl
    | some l =>
      simp only [Option.bind_some, putString_eq]
      cases stringChars flags.precision precision p.2 with
      | none =>
        cases flags.left with
        | true => rfl
        | false => cases putSpaces output (width.toNat - l.toNat) <;> rfl
      | some s =>
        cases flags.left with
        | true =>
          simp only [if_true, Option.bind_some, OutputGadget.putSpaces_eq]
          exact (OutputGadget.emit_append output s _).symm
        | false =>
          simp only [Bool.false_eq_true, if_false, Option.bind_some, OutputGadget.putSpaces_eq,
            Option.bind_fun_some]
          exact (OutputGadget.emit_append output _ s).symm

/-! ## Pieces -/

/-- A width or a precision as the format has it. -/
inductive Field where
  | absent
  | number (value : PrintfSize)
  | star
deriving DecidableEq, Repr

inductive Length where
  | none
  | h
  | hh
  | l
  | ll
deriving DecidableEq, Repr

/-- The parts of a directive. `flags` are those that the format can set, and `precision` is
    `none` where there is no `.`. -/
structure Directive where
  flags : Flags
  width : Field
  precision : Option Field
  length : Length
  specifier : Byte
deriving DecidableEq, Repr

inductive Piece where
  | literal (b : Byte)
  | directive (d : Directive)
deriving DecidableEq, Repr

/-- Why there is no directive: the terminator cuts it off, behind the arguments of `stars`, or the
    format is read behind its object. -/
inductive Ending where
  | cut (stars : Nat)
  | overrun
deriving DecidableEq, Repr

/-! ### Reading pieces -/

def orOverrun {α : Type} : Option α → Except Ending α
  | none => .error .overrun
  | some a => .ok a

/-- Past one character, which must not be the last one. -/
def next (stars : Nat) (format : List Byte) : Except Ending (List Byte) :=
  match format.tail with
  | [] => .error .overrun
  | b :: format => if b = 0 then .error (.cut stars) else .ok (b :: format)

/-- `stars` are the ones in front of the field. -/
def parseField (stars : Nat) (format : List Byte) : Except Ending (Field × List Byte) :=
  match format with
  | [] => .error .overrun
  | b :: _ =>
    if isdigit b.toInt then
      (orOverrun (atou 0 format)).map fun (value, format) => (.number value, format)
    else if b = chr '*' then (next (stars + 1) format).map fun format => (.star, format)
    else .ok (.absent, format)

def parsePrecision (stars : Nat) (format : List Byte) : Except Ending (Option Field × List Byte) :=
  match format with
  | [] => .error .overrun
  | b :: _ =>
    if b = chr '.' then do
      let format ← next stars format
      let (field, format) ← parseField stars format
      .ok (some field, format)
    else .ok (none, format)

def parseLength (stars : Nat) (format : List Byte) : Except Ending (Length × List Byte) :=
  match format with
  | [] => .error .overrun
  | b :: _ =>
    if b = chr 'l' then do
      let format ← next stars format
      if format.head? = some (chr 'l') then
        let format ← next stars format
        .ok (.ll, format)
      else .ok (.l, format)
    else if b = chr 'h' then do
      let format ← next stars format
      if format.head? = some (chr 'h') then
        let format ← next stars format
        .ok (.hh, format)
      else .ok (.h, format)
    else if b = chr 't' ∨ b = chr 'j' ∨ b = chr 'z' then do
      let format ← next stars format
      .ok (.l, format)
    else .ok (.none, format)

def Field.stars : Field → Nat
  | .star => 1
  | _ => 0

def precisionStars : Option Field → Nat
  | none => 0
  | some field => field.stars

/-- The length and the specifier. -/
def parseSpecifier (stars : Nat) (format : List Byte) :
    Except Ending ((Length × Byte) × List Byte) := do
  let (length, format) ← parseLength stars format
  match format with
  | [] => .error .overrun
  | b :: format => .ok ((length, b), format)

/-- A directive from its `%` on. -/
def parseDirective (format : List Byte) : Except Ending (Directive × List Byte) := do
  let format ← next 0 format
  let (flags, format) ← orOverrun (parseFlags {} format)
  let (width, format) ← parseField 0 format
  let (precision, format) ← parsePrecision width.stars format
  let ((length, specifier), format) ←
    parseSpecifier (width.stars + precisionStars precision) format
  .ok (⟨flags, width, precision, length, specifier⟩, format)

def parsePiece (format : List Byte) : Except Ending (Piece × List Byte) :=
  match format with
  | [] => .error .overrun
  | b :: rest =>
    if b ≠ chr '%' then .ok (.literal b, rest)
    else (parseDirective format).map fun (d, format) => (.directive d, format)

/-- The pieces of a format, as many as `fuel`, and the stars of a directive that is cut off behind
    them; `none` when the format is read behind its object. -/
def parse : Nat → List Byte → Option (List Piece × Nat)
  | 0, _ => none
  | fuel + 1, format =>
    if format.head? = some 0 then some ([], 0)
    else
      match parsePiece format with
      | .ok (piece, format) =>
        (parse fuel format).map fun (pieces, stars) => (piece :: pieces, stars)
      | .error (.cut stars) => some ([], stars)
      | .error .overrun => none

/-! ### Rendering pieces -/

def readField {α : Type} (number star : BitVec 32 → α) (field : Field) (args : List Arg) :
    Option (α × List Arg) :=
  match field with
  | .absent => some (number 0, args)
  | .number value => some (number value, args)
  | .star => (vaInt args).map fun (value, args) => (star value, args)

def readWidth (field : Field) (flags : Flags) (args : List Arg) :
    Option ((PrintfSize × Flags) × List Arg) :=
  readField (fun width => (width, flags)) (starWidth flags) field args

def readPrecision (precision : Option Field) (flags : Flags) (args : List Arg) :
    Option ((PrintfSize × Flags) × List Arg) :=
  match precision with
  | none => some ((0, flags), args)
  | some field =>
    let flags := { flags with precision := true }
    readField (fun precision => (precision, flags))
      (fun precision => (starPrecision precision, flags)) field args

def Length.set (flags : Flags) : Length → Flags
  | .none => flags
  | .h => { flags with short := true }
  | .hh => { flags with short := true, char := true }
  | .l => { flags with long := true }
  | .ll => { flags with long := true, longLong := true }

/-- The events of a specifier, and the arguments behind its own. -/
def specifierEvents (specifier : Byte) (flags : Flags) (width precision : PrintfSize)
    (args : List Arg) : Option (List Event × List Arg) :=
  match specifierOf specifier with
  | .integer signed base uppercase =>
    let flags := integerFlags flags signed base uppercase
    (integerArg flags args).map fun ((value, negative), args) =>
      (chars (integerText value negative base precision width flags), args)
  | .char =>
    (vaInt args).map fun (c, args) =>
      (chars (padded flags.left width.toNat 1 [c.setWidth 8]), args)
  | .string =>
    (vaPtr args).bind fun (p, args) =>
      (stringText p precision width flags).map fun s => (chars s, args)
  | .pointer =>
    (vaPtr args).map fun (p, args) =>
      (chars (integerText p.1 false .hex precision 18
        { flags with zeropad := true, pointer := true }), args)
  | .percent => some (chars [chr '%'], args)
  | .writeBack =>
    (vaPtr args).map fun (p, args) => ([.writeBack p.1 (writeBackSize flags)], args)
  | .other => some (chars [specifier], args)

def directiveEvents (d : Directive) (args : List Arg) : Option (List Event × List Arg) :=
  (readWidth d.width d.flags args).bind fun ((width, flags), args) =>
    (readPrecision d.precision flags args).bind fun ((precision, flags), args) =>
      specifierEvents d.specifier (d.length.set flags) width precision args

/-- The arguments of the stars. -/
def readStars : Nat → List Arg → Option (List Arg)
  | 0, args => some args
  | stars + 1, args => (vaInt args).bind fun (_, args) => readStars stars args

def pieceEvents : Piece → List Arg → Option (List Event × List Arg)
  | .literal b, args => some ([.char b], args)
  | .directive d, args => directiveEvents d args

/-- The events of pieces, and the arguments that are left. -/
def render : List Piece → List Arg → Option (List Event × List Arg)
  | [], args => some ([], args)
  | piece :: pieces, args =>
    (pieceEvents piece args).bind fun (events, args) =>
      (render pieces args).map fun (events', args) => (events ++ events', args)

/-- What a format makes of its arguments. -/
def meaning (format : List Byte) (args : List Arg) : Option (List Event) :=
  (parse (format.length + 1) format).bind fun (pieces, stars) =>
    (render pieces args).bind fun (events, args) => (readStars stars args).map fun _ => events

end SeshOS.Printf
