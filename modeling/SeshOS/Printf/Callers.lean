/-
  What the calls of `sprintf` in the rest of the kernel store.

  The models of `log`, of `BOOT_CheckLoader` and of `ACPI_Init` each say what their `sprintf` makes
  of its arguments. Here these texts are what the whole of `formatStringLoop` makes of the
  formats: for all strings, however long, in `log_line_printed` and `found_line_printed`, and for
  everything that can be in the tables of the firmware in `acpi_texts_printed`. What any call of
  `sprintf` needs to stay inside of its buffer is in `sprintf_inside_iff`.
-/
import SeshOS.Acpi.Init
import SeshOS.Printf.Console
import SeshOS.Printf.Spelling
import SeshOS.Printf.Strings

namespace SeshOS.Printf

open Base Libc Video Acpi
open Boot (loglevelInfo loglevelWarn)

/-! ## Pieces -/

def literals (s : List Byte) : List Piece := s.map .literal

/-- `%s`, with flags and a width. -/
def stringDirective (flags : Flags) (width : Field) : Directive :=
  ⟨flags, width, none, .none, chr 's'⟩

theorem render_literals (s : List Byte) (pieces : List Piece) (args : List Arg) :
    render (literals s ++ pieces) args =
      (render pieces args).map fun (events, args) => (chars s ++ events, args) := by
  induction s with
  | nil =>
    show render pieces args = _
    cases render pieces args <;> rfl
  | cons b s ih =>
    show ((some ([Event.char b], args)).bind fun (events, args) =>
      (render (literals s ++ pieces) args).map fun (events', args) => (events ++ events', args)) = _
    rw [Option.bind_some]
    dsimp only
    rw [ih, Option.map_map]
    rfl

theorem directive_string {flags flags' : Flags} {width : Field} {w : PrintfSize} {args rest : List Arg}
    {a : BitVec 64} {s : List Byte} (ha : a ≠ 0)
    (hwidth : readWidth width flags args = some ((w, flags'), .ptr a s :: rest))
    (hw : w.toNat ≤ maxPossibleBufferSize.toNat) (hprecision : flags'.precision = false) :
    directiveEvents (stringDirective flags width) args =
      (stringEnd s).map fun k => (chars (padded flags'.left w.toNat k (s.take k)), rest) := by
  have hs : specifierOf (chr 's') = .string := by decide
  rw [stringDirective, directiveEvents, hwidth, Option.bind_some]
  dsimp only
  rw [readPrecision, Option.bind_some]
  dsimp only
  rw [specifierEvents, hs]
  dsimp only [Length.set]
  rw [vaPtr, Option.bind_some]
  dsimp only
  rw [stringText_eq ha s hw hprecision, Option.map_map]
  rfl

theorem render_string {flags flags' : Flags} {width : Field} {w : PrintfSize} {args rest : List Arg}
    {a : BitVec 64} {s : List Byte} (ha : a ≠ 0)
    (hwidth : readWidth width flags args = some ((w, flags'), .ptr a s :: rest))
    (hw : w.toNat ≤ maxPossibleBufferSize.toNat) (hprecision : flags'.precision = false)
    (pieces : List Piece) :
    render (.directive (stringDirective flags width) :: pieces) args =
      (stringEnd s).bind fun k => (render pieces rest).map fun (events, args) =>
        (chars (padded flags'.left w.toNat k (s.take k)) ++ events, args) := by
  rw [render, pieceEvents, directive_string ha hwidth hw hprecision]
  cases stringEnd s <;> rfl

theorem meaning_of_pieces {format : List Byte} {args : List Arg} {pieces : List Piece}
    (hparse : parse (format.length + 1) format = some (pieces, 0)) :
    meaning format args = (render pieces args).map Prod.fst := by
  rw [meaning, hparse, Option.bind_some]
  dsimp only
  cases render pieces args with
  | none => rfl
  | some result => rfl

theorem chars_append (s t : List Byte) : chars (s ++ t) = chars s ++ chars t := List.map_append

/-- A format of one directive in a text. -/
theorem meaning_around {format before after : List Byte} {d : Directive}
    (hparse : parse (format.length + 1) format =
      some (literals before ++ .directive d :: literals after, 0))
    {args rest : List Arg} {s : List Byte} (hd : directiveEvents d args = some (chars s, rest)) :
    meaning format args = some (chars (before ++ s ++ after)) := by
  have hafter : render (literals after) rest = some (chars after, rest) := by
    have h := render_literals after [] rest
    rw [List.append_nil, render, Option.map_some] at h
    dsimp only at h
    rwa [List.append_nil] at h
  rw [meaning_of_pieces hparse, render_literals, render, pieceEvents, hd, Option.bind_some]
  dsimp only
  rw [hafter, chars_append, chars_append, List.append_assoc]
  rfl

/-! ## Small buffers -/

/-- `sprintf` into a buffer of less than `INT_MAX` bytes: a text that has no room is stored outside
    of it, however long it is. -/
theorem sprintf_small {n : Nat} (hn : n < maxPossibleBufferSize.toNat) (buf : Vector Byte n)
    (format : List Byte) (args : List Arg) :
    sprintf buf format args = (meaning format args).bind fun events =>
      (storeBytes buf 0 (text events ++ [0])).map fun buf =>
        (buf, stores 0 events, BitVec.ofNat 32 (text events).length) := by
  have hint : maxPossibleBufferSize.toNat = 2 ^ 31 - 1 := by decide
  cases hmeaning : meaning format args with
  | none =>
    rw [sprintf, vsprintf, vsnprintf, vsnprintfImpl_none _ hmeaning]
    rfl
  | some events =>
    rw [Option.bind_some]
    by_cases hlength : (text events).length < maxPossibleBufferSize.toNat
    · exact sprintf_text buf hmeaning hlength
    · -- the first `n + 1` characters do not fit
      have hsize : usable (maxPossibleBufferSize.setWidth 64) = 2 ^ 31 - 1 := by decide
      have hbuffer : (bufferGadget (some buf) (maxPossibleBufferSize.setWidth 64)).buffer = some buf := rfl
      have hfront : ((text events).take (n + 1)).length = n + 1 := by
        rw [List.length_take]
        omega
      have hroom : (bufferGadget (some buf) (maxPossibleBufferSize.setWidth 64)).room = 2 ^ 31 - 1 := by
        rw [OutputGadget.room, bufferGadget_maxChars, hsize]
        rfl
      have htake : ((text events).take (n + 1)).take (2 ^ 31 - 1) = (text events).take (n + 1) :=
        List.take_of_length_le (by omega)
      have hemit : (bufferGadget (some buf) (maxPossibleBufferSize.setWidth 64)).emit
          ((text events).take (n + 1)) = none := by
        rw [OutputGadget.emit_buffer _ rfl hbuffer (Nat.zero_le _)
          (show 0 + ((text events).take (n + 1)).length < 2 ^ 32 by omega), hroom, htake]
        show Option.map _ (storeBytes buf 0 _) = none
        rw [storeBytes_overflow buf (List.ne_nil_of_length_eq_add_one hfront) (by omega)]
        rfl
      have hall : (bufferGadget (some buf) (maxPossibleBufferSize.setWidth 64)).emit (text events) =
          none := by
        rw [← List.take_append_drop (n + 1) (text events), OutputGadget.emit_append, hemit]
        rfl
      rw [sprintf, vsprintf, vsnprintf, vsnprintfImpl, formatStringLoop_text hmeaning, hall,
        storeBytes_overflow buf (by simp) (by rw [List.length_append]; omega)]
      rfl

/-- `sprintf` stays inside of its buffer exactly when the buffer has room for the text and its
    terminator. -/
theorem sprintf_inside_iff {n : Nat} (hn : n < maxPossibleBufferSize.toNat) (buf : Vector Byte n)
    (format : List Byte) (args : List Arg) :
    (sprintf buf format args).isSome ↔
      ∃ events, meaning format args = some events ∧ (text events).length < n := by
  rw [sprintf_small hn]
  cases meaning format args with
  | none => exact iff_of_false Bool.false_ne_true fun ⟨_, h, _⟩ => nomatch h
  | some events =>
    rw [Option.bind_some, Option.isSome_map, storeBytes_isSome_iff]
    constructor
    · exact fun h => ⟨events, rfl, h⟩
    · rintro ⟨_, hsame, h⟩
      cases hsame
      exact h

theorem sprintf_inside_iff_field : 4 < maxPossibleBufferSize.toNat ∧
    ((sprintf (Vector.replicate 4 (0xff : Byte)) (ascii "[%3d]" ++ [0]) [.int 7]).isSome ↔
      ∃ events, meaning (ascii "[%3d]" ++ [0]) [.int 7] = some events ∧
        (text events).length < 4) :=
  ⟨by decide, sprintf_inside_iff (by decide) _ _ _⟩

/-! ## log.c -/

/-- `fmt` of `log`. -/
def logFormat : List Byte :=
  escape "[1m" ++ escape "[33m" ++ ascii "[" ++ escape "[36m" ++ ascii "%-*s" ++ escape "[1m" ++
    escape "[33m" ++ ascii "]%s %s" ++ [0]

def logPieces : List Piece :=
  literals (escape "[1m" ++ escape "[33m" ++ ascii "[" ++ escape "[36m") ++
    .directive (stringDirective { left := true } .star) ::
      (literals (escape "[1m" ++ escape "[33m" ++ ascii "]") ++
        .directive (stringDirective {} .absent) ::
          (literals (ascii " ") ++ [.directive (stringDirective {} .absent)]))

theorem logFormat_pieces : parse (logFormat.length + 1) logFormat = some (logPieces, 0) := by
  decide +kernel

/-- What is left of `sprintf` when only strings are printed. -/
def printedText {n : Nat} (buf : Vector Byte n) (s : List Byte) :
    Option (Vector Byte n × List WriteBack × BitVec 32) :=
  (storeBytes buf 0 (s ++ [0])).map fun buf => (buf, [], BitVec.ofNat 32 s.length)

theorem printedText_buffer {n : Nat} (buf : Vector Byte n) (s : List Byte) :
    (printedText buf s).map Prod.fst = storeBytes buf 0 (s ++ [0]) := by
  rw [printedText, Option.map_map]
  exact Option.map_id'

theorem sprintf_chars {n : Nat} (hn : n < maxPossibleBufferSize.toNat) (buf : Vector Byte n)
    {format : List Byte} {args : List Arg} {s : Option (List Byte)}
    (hmeaning : meaning format args = s.map chars) :
    sprintf buf format args = s.bind (printedText buf) := by
  rw [sprintf_small hn, hmeaning]
  cases s with
  | none => rfl
  | some s =>
    rw [Option.map_some, Option.bind_some, text_chars, stores_chars]
    rfl

/-- A text of two strings and what is around them. -/
theorem sprintf_strings {n : Nat} (hn : n < maxPossibleBufferSize.toNat) (buf : Vector Byte n)
    {format : List Byte} {args : List Arg} {j k : Option Nat} {line : Nat → Nat → List Byte}
    (hmeaning : meaning format args = (j.bind fun j => k.map fun k => line j k).map chars) :
    (sprintf buf format args).map Prod.fst =
      j.bind fun j => k.bind fun k => storeBytes buf 0 (line j k ++ [0]) := by
  rw [sprintf_chars hn buf hmeaning]
  cases j with
  | none => rfl
  | some j =>
    cases k with
    | none => rfl
    | some k => exact printedText_buffer buf _

theorem take_stringEnd {s : List Byte} {k : Nat} (h : stringEnd s = some k) : (s.take k).length = k := by
  rw [stringEnd_visible (mem_of_stringEnd h)] at h
  cases h
  rw [take_visible]

theorem padded_left {s : List Byte} {k : Nat} (h : s.length = k) (width : Nat) :
    padded true width k s = padRight width s := by
  rw [padRight, h]
  rfl

theorem meaning_logFormat {m c a : BitVec 64} (hm : m ≠ 0) (hc : c ≠ 0) (ha : a ≠ 0)
    (module msg : List Byte) {color : List Byte} (hcolor : 0 ∉ color) :
    meaning logFormat [.int 8, .ptr m module, .ptr c (color ++ [0]), .ptr a msg] =
      ((stringEnd module).bind fun j => (stringEnd msg).map fun k =>
        formatLine (module.take j) color (msg.take k)).map chars := by
  have hstar : readWidth .star { left := true } [.int 8, .ptr m module, .ptr c (color ++ [0]), .ptr a msg] =
      some ((8, { left := true }), [.ptr m module, .ptr c (color ++ [0]), .ptr a msg]) := rfl
  have hcount : stringEnd (color ++ [0]) = some color.length := stringEnd_terminated hcolor []
  rw [meaning_of_pieces logFormat_pieces, logPieces, render_literals,
    render_string hm hstar (by decide) rfl, render_literals,
    render_string hc rfl (by decide) rfl, render_literals,
    render_string ha rfl (by decide) rfl, hcount]
  cases hmodule : stringEnd module with
  | none => rfl
  | some j =>
    cases stringEnd msg with
    | none => rfl
    | some k =>
      have hwidth : (8 : PrintfSize).toNat = 8 := rfl
      have hzero : (0 : PrintfSize).toNat = 0 := rfl
      simp only [render, Option.map_some, Option.bind_some, hwidth, hzero, padded_none,
        padded_left (take_stringEnd hmodule), List.take_left, formatLine, chars_append,
        List.append_assoc, List.append_nil]

/-- The call of `sprintf` in `log` leaves the line that the model of `log` stores, and fails where
    that fails, for every module name, colour and message, however long. -/
theorem log_line_printed (str : Vector Byte 256) {m c a : BitVec 64} (hm : m ≠ 0) (hc : c ≠ 0)
    (ha : a ≠ 0) (module msg : List Byte) {color : List Byte} (hcolor : 0 ∉ color) :
    (sprintf str logFormat [.int 8, .ptr m module, .ptr c (color ++ [0]), .ptr a msg]).map Prod.fst =
      sprintfLine str module color msg := by
  exact sprintf_strings (by decide) str (meaning_logFormat hm hc ha module msg hcolor)

theorem log_line_printed_ready :
    (sprintf (Vector.replicate 256 (0xff : Byte)) logFormat [.int 8, .ptr 0x1000 (ascii "PIC" ++ [0]),
        .ptr 0x2000 (escape "[37m" ++ [0]), .ptr 0x3000 (ascii "Ready" ++ [0])]).map Prod.fst =
      sprintfLine (Vector.replicate 256 0xff) (ascii "PIC" ++ [0]) (escape "[37m")
        (ascii "Ready" ++ [0]) :=
  log_line_printed _ (by decide) (by decide) (by decide) _ _ (by decide)

/-! ## checkLoader.c -/

/-- `fmt` of `BOOT_CheckLoader`. -/
def foundFormat : List Byte :=
  ascii "Found Limine compatible bootloader, named \"%s\", with version \"%s\"" ++ [0]

def foundPieces : List Piece :=
  literals (ascii "Found Limine compatible bootloader, named \"") ++
    .directive (stringDirective {} .absent) :: (literals (ascii "\", with version \"") ++
      .directive (stringDirective {} .absent) :: (literals (ascii "\"") ++ []))

theorem foundFormat_pieces :
    parse (foundFormat.length + 1) foundFormat = some (foundPieces, 0) := by decide +kernel

theorem found_line_printed (str : Vector Byte 128) {a b : BitVec 64} (ha : a ≠ 0) (hb : b ≠ 0)
    (name version : List Byte) :
    (sprintf str foundFormat [.ptr a name, .ptr b version]).map Prod.fst =
      Boot.sprintfFound str name version := by
  have hmeaning : meaning foundFormat [.ptr a name, .ptr b version] =
      ((stringEnd name).bind fun j => (stringEnd version).map fun k =>
        Boot.formatFound (name.take j) (version.take k)).map chars := by
    rw [meaning_of_pieces foundFormat_pieces, foundPieces, render_literals,
      render_string ha rfl (by decide) rfl, render_literals, render_string hb rfl (by decide) rfl,
      render_literals]
    cases stringEnd name with
    | none => rfl
    | some j =>
      cases stringEnd version with
      | none => rfl
      | some k =>
        have hzero : (0 : PrintfSize).toNat = 0 := rfl
        simp only [render, Option.map_some, Option.bind_some, hzero, padded_none, Boot.formatFound,
          chars_append, List.append_assoc, List.append_nil]
  exact sprintf_strings (by decide) str hmeaning

/-! ## acpi.c -/

/-- The local arrays of `ACPI_Init`, of its loop and of `doChecksum`: what is in the buffers of
    the texts before they are written, and where the strings for `%s` are. -/
structure AcpiLocals where
  str : Vector Byte 64
  entryStr : Nat → Vector Byte 64
  checksumStr : Vector Byte 64
  oemID : BitVec 64
  sig : BitVec 64
  oemID_ne : oemID ≠ 0
  sig_ne : sig ≠ 0

/-- `sprintf(str, …)` and `log(MODNAME, str, level)`. -/
def sprintfLog (str : Vector Byte 64) (format : String) (args : List Arg) (level : Byte)
    (a : Tables) : Option (Vector Byte 64 × Tables) :=
  (sprintf str (ascii format ++ [0]) args).map fun (str, _) =>
    (str, a.log (visible str.toList) level)

def doChecksumPrints (v : AcpiLocals) (m : Mem) (tableHeader : Nat) (a : Tables) :
    Option (Bool × Tables) :=
  let sum := checksumLoop m tableHeader (sdtLength m tableHeader)
  (if sum ≠ 0 then
      (sprintfLog v.checksumStr "Checksum wrong by %lu" [.long sum] loglevelWarn a).map Prod.snd
    else some a).map fun a => (sum = 0, a)

def acpiRoundPrints (v : AcpiLocals) (m : Mem) (rsdt : Nat) (a : Tables) (i : Nat) :
    Option Tables :=
  let h := pointerToOtherSDT m rsdt i
  let a := { a with slots := a.slots ++ [i] }
  (sprintfLog (v.entryStr i) "Found ACPI Entry: \"%-4s\"" [.ptr v.sig (field m h 4 ++ [0])]
      loglevelInfo a).map fun (_, a) =>
    let a := if signed m h "FACP" then a.log (ascii "Found FACP") loglevelInfo else a
    if signed m h "MCFG" then { a with mcfg := h } else a

/-- `ACPI_Init` from the RSDT on. -/
def acpiRsdtPrints (v : AcpiLocals) (m : Mem) (rsdt : Nat) (str : Vector Byte 64) (a : Tables) :
    Option Tables :=
  (sprintfLog str "Found ACPI RSDT.  Signature: \"%-4s\"" [.ptr v.sig (field m rsdt 4 ++ [0])]
      loglevelInfo a).bind fun (str, a) =>
    (doChecksumPrints v m rsdt a).bind fun (passed, a) =>
      let a := if passed then a.log (ascii "ACPI RSDT Checksum passed.") loglevelInfo else a
      (sprintfLog str "RSDT OEM ID: %s" [.ptr v.oemID (field m (rsdt + 10) 6 ++ [0])]
          loglevelInfo a).bind fun (str, a) =>
        (sprintfLog str "RSDT OEM Revision: %u" [.int (.ofNat 32 (oemRevision m rsdt))]
            loglevelInfo a).bind fun (_, a) =>
          (List.range (rsdtEntries m rsdt).toNat).foldlM (acpiRoundPrints v m rsdt) a

/-- `ACPI_Init` with its calls of `sprintf`; `none` when one of them leaves its buffer. -/
def acpiInitPrints (v : AcpiLocals) (m : Mem) (p : Nat) (a : Tables) :
    Option (Except Tables Tables) :=
  if !signed m p "RSD PTR " then some (.ok (a.log (ascii "Bad ACPI") loglevelFatal))
  else
    (sprintfLog v.str "Found ACPI Tables at address %p!" [.ptr (.ofNat 64 p) []]
        loglevelInfo a).bind fun (str, a) =>
      let a := a.log (if rsdpRevision m p = 0 then ascii "ACPI Revision 1.0"
        else ascii "ACPI Revision >= 2.0") loglevelInfo
      (sprintfLog str "OEM ID: %s" [.ptr v.oemID (field m (p + 9) 6 ++ [0])]
          loglevelInfo a).bind fun (str, a) =>
        let rsdt := rsdtAddress m p
        if !signed m rsdt "RSDT" then
          (sprintfLog str "ACPI RSDT signature not correct!  Expected: \"RSDT\", got: \"%-4s\""
            [.ptr v.sig (field m rsdt 4 ++ [0])] loglevelFatal a).map fun (_, a) => .error a
        else (acpiRsdtPrints v m rsdt str a).map .ok

/-! ### Its directives -/

theorem sprintf_holds {n : Nat} (hn : n < maxPossibleBufferSize.toNat) (buf : Vector Byte n)
    {format : List Byte} {args : List Arg} {s : List Byte}
    (hmeaning : meaning format args = some (chars s)) (h0 : 0 ∉ s) (hfit : s.length < n) :
    ∃ buf', sprintf buf format args = some (buf', [], BitVec.ofNat 32 s.length) ∧ Holds buf' s := by
  obtain ⟨buf', hstore, hholds⟩ := storeBytes_holds buf h0 hfit
  have hrun := sprintf_chars (s := some s) hn buf hmeaning
  rw [Option.bind_some, printedText, hstore] at hrun
  exact ⟨buf', hrun, hholds⟩

theorem sprintfLog_eq (str : Vector Byte 64) {format : String} {before after : List Byte}
    {d : Directive} {args : List Arg} {s : List Byte}
    (hparse : parse ((ascii format ++ [0]).length + 1) (ascii format ++ [0]) =
      some (literals before ++ .directive d :: literals after, 0))
    (hd : directiveEvents d args = some (chars s, [])) (h0 : 0 ∉ before ++ s ++ after)
    (hfit : (before ++ s ++ after).length < 64) (level : Byte) (a : Tables) :
    ∃ str', sprintfLog str format args level a = some (str', a.log (before ++ s ++ after) level) := by
  obtain ⟨str', hrun, hholds⟩ :=
    sprintf_holds (by decide) str (meaning_around hparse hd) h0 hfit
  refine ⟨str', ?_⟩
  rw [sprintfLog, hrun, Option.map_some]
  dsimp only
  rw [hholds.visible]

theorem directive_pointer (p : BitVec 64) :
    directiveEvents ⟨{}, .absent, none, .none, chr 'p'⟩ [.ptr p []] =
      some (chars (ascii "0x" ++ hexDigits p), []) := by
  have hs : specifierOf (chr 'p') = .pointer := by decide
  rw [← integerText_pointer, directiveEvents]
  show specifierEvents (chr 'p') {} 0 0 [.ptr p []] = _
  rw [specifierEvents, hs]
  rfl

theorem directive_unsigned (x : BitVec 32) :
    directiveEvents ⟨{}, .absent, none, .none, chr 'u'⟩ [.int x] =
      some (chars (ascii (toString x.toNat)), []) := by
  have hs : specifierOf (chr 'u') = .integer false .decimal false := by decide
  have hvalue : (x.setWidth 64).toNat = x.toNat := BitVec.toNat_setWidth_of_le (by decide)
  have htext := integerText_plain (x.setWidth 64) false false false
  rw [hvalue, numeral_toString] at htext
  rw [directiveEvents]
  show specifierEvents (chr 'u') {} 0 0 [.int x] = _
  rw [specifierEvents, hs]
  exact congrArg (fun s => some (chars s, [])) htext

theorem directive_unsignedLong (x : BitVec 64) :
    directiveEvents ⟨{}, .absent, none, .l, chr 'u'⟩ [.long x] =
      some (chars (ascii (toString x.toNat)), []) := by
  have hs : specifierOf (chr 'u') = .integer false .decimal false := by decide
  have htext := integerText_plain x false false true
  rw [numeral_toString] at htext
  rw [directiveEvents]
  show specifierEvents (chr 'u') { long := true } 0 0 [.long x] = _
  rw [specifierEvents, hs]
  exact congrArg (fun s => some (chars s, [])) htext

/-- A decimal text of a number that has room in 64 bits. -/
theorem decimal_text {value : Nat} (h : value < 2 ^ 64) :
    0 ∉ ascii (toString value) ∧ (ascii (toString value)).length ≤ 20 := by
  have hcount := decimal_digits (BitVec.ofNat 64 value)
  rw [BitVec.toNat_ofNat, Nat.mod_eq_of_lt h] at hcount
  rw [← numeral_toString, numeral_length]
  exact ⟨zero_notMem_numeral (by decide) (by decide) _ _, by omega⟩

/-- A string of one of the fields, without a width or in one of its own length. -/
theorem directive_field {a : BitVec 64} (ha : a ≠ 0) {flags : Flags} {width : Field} {w : PrintfSize}
    (hwidth : ∀ args, readWidth width flags args = some ((w, flags), args))
    (hw : w.toNat ≤ maxPossibleBufferSize.toNat) (hprecision : flags.precision = false) (m : Mem)
    (p k : Nat) :
    directiveEvents (stringDirective flags width) [.ptr a (field m p k ++ [0])] =
      some (chars (padded flags.left w.toNat (visible (field m p k ++ [0])).length
        (visible (field m p k ++ [0]))), []) := by
  rw [directive_string ha (hwidth _) hw hprecision,
    stringEnd_visible (List.mem_append_right _ (List.mem_singleton.mpr rfl)), Option.map_some,
    take_visible]

theorem field_text (m : Mem) (p k : Nat) :
    0 ∉ visible (field m p k ++ [0]) ∧ (visible (field m p k ++ [0])).length ≤ k := by
  refine ⟨zero_notMem_visible _, ?_⟩
  have hlength := congrArg List.length (take_visible (field m p k))
  have hfield : (field m p k).length = k := by
    rw [field, List.length_map, List.length_range]
  rw [List.length_take, hfield] at hlength
  rw [visible_terminated]
  omega

theorem signature_text (m : Mem) (p : Nat) :
    0 ∉ signatureText m p ∧ (signatureText m p).length ≤ 4 := by
  obtain ⟨h0, hlength⟩ := field_text m p 4
  rw [signatureText, padRight]
  constructor
  · intro h
    rcases List.mem_append.mp h with h | h
    · exact h0 h
    · exact absurd (List.eq_of_mem_replicate h) (by decide)
  · rw [List.length_append, List.length_replicate]
    omega

theorem notMem_around {before s after : List Byte} (h : 0 ∉ before ++ after) (hs : 0 ∉ s) :
    0 ∉ before ++ s ++ after := by
  intro hmem
  rcases List.mem_append.mp hmem with hmem | hmem
  · rcases List.mem_append.mp hmem with hmem | hmem
    · exact h (List.mem_append_left _ hmem)
    · exact hs hmem
  · exact h (List.mem_append_right _ hmem)

/-- A text with a signature in it. -/
theorem signature_logged (v : AcpiLocals) (str : Vector Byte 64) {format : String}
    {before after : List Byte}
    (hparse : parse ((ascii format ++ [0]).length + 1) (ascii format ++ [0]) = some (literals before ++
      .directive (stringDirective { left := true } (.number 4)) :: literals after, 0))
    (h0 : 0 ∉ before ++ after) (hfit : before.length + after.length ≤ 59) (m : Mem) (p : Nat)
    (level : Byte) (a : Tables) :
    ∃ str', sprintfLog str format [.ptr v.sig (field m p 4 ++ [0])] level a =
      some (str', a.log (before ++ signatureText m p ++ after) level) := by
  obtain ⟨hs, hlength⟩ := signature_text m p
  refine sprintfLog_eq str hparse ?_ (notMem_around h0 hs) ?_ level a
  · rw [directive_field v.sig_ne (fun _ => rfl) (by decide) rfl, padded_left rfl]
    rfl
  · rw [List.length_append, List.length_append]
    omega

/-- A text with an OEM ID behind it. -/
theorem oemID_logged (v : AcpiLocals) (str : Vector Byte 64) {format : String} {before : List Byte}
    (hparse : parse ((ascii format ++ [0]).length + 1) (ascii format ++ [0]) =
      some (literals before ++ .directive (stringDirective {} .absent) :: literals [], 0))
    (h0 : 0 ∉ before) (hfit : before.length ≤ 57) (m : Mem) (p : Nat) (level : Byte) (a : Tables) :
    ∃ str', sprintfLog str format [.ptr v.oemID (field m p 6 ++ [0])] level a =
      some (str', a.log (before ++ visible (field m p 6 ++ [0])) level) := by
  obtain ⟨hs, hlength⟩ := field_text m p 6
  have h := @sprintfLog_eq str format before [] _ _ (visible (field m p 6 ++ [0])) hparse
    (by
      rw [directive_field v.oemID_ne (fun _ => rfl) (by decide) rfl]
      exact congrArg (fun s => some (chars s, [])) (padded_none false _ _))
    (notMem_around (by rwa [List.append_nil]) hs)
    (by rw [List.append_nil, List.length_append]; omega) level a
  rwa [List.append_nil] at h

/-- A text with a number behind it. -/
theorem decimal_logged (str : Vector Byte 64) {format : String} {before : List Byte} {d : Directive}
    {args : List Arg} {value : Nat}
    (hparse : parse ((ascii format ++ [0]).length + 1) (ascii format ++ [0]) =
      some (literals before ++ .directive d :: literals [], 0))
    (hd : directiveEvents d args = some (chars (ascii (toString value)), []))
    (hvalue : value < 2 ^ 64) (h0 : 0 ∉ before) (hfit : before.length ≤ 43) (level : Byte)
    (a : Tables) :
    ∃ str', sprintfLog str format args level a =
      some (str', a.log (before ++ ascii (toString value)) level) := by
  obtain ⟨hs, hlength⟩ := decimal_text hvalue
  have h := sprintfLog_eq str hparse hd (notMem_around (by rwa [List.append_nil]) hs)
    (by rw [List.append_nil, List.length_append]; omega) level a
  rwa [List.append_nil] at h

theorem doChecksumPrints_eq (v : AcpiLocals) (m : Mem) (tableHeader : Nat) (a : Tables) :
    doChecksumPrints v m tableHeader a = some ((doChecksum m tableHeader).1,
      { a with logged := a.logged ++ (doChecksum m tableHeader).2 }) := by
  unfold doChecksumPrints doChecksum
  dsimp only
  by_cases hsum : checksumLoop m tableHeader (sdtLength m tableHeader) = 0
  · rw [if_neg (not_not.mpr hsum), if_neg (not_not.mpr hsum), List.append_nil]
    rfl
  · obtain ⟨str', hlog⟩ := @decimal_logged v.checksumStr "Checksum wrong by %lu"
      (ascii "Checksum wrong by ") _ _ _ (by decide +kernel) (directive_unsignedLong _) (BitVec.isLt _)
      (by decide) (by decide) loglevelWarn a
    rw [if_pos hsum, if_pos hsum, hlog]
    rfl

theorem acpiRoundPrints_eq (v : AcpiLocals) (m : Mem) (rsdt : Nat) (a : Tables) (i : Nat) :
    acpiRoundPrints v m rsdt a i = some (acpiRound m rsdt a i) := by
  obtain ⟨str', hlog⟩ := @signature_logged v (v.entryStr i) "Found ACPI Entry: \"%-4s\""
    (ascii "Found ACPI Entry: \"") (ascii "\"") (by decide +kernel) (by decide) (by decide) m
    (pointerToOtherSDT m rsdt i) loglevelInfo { a with slots := a.slots ++ [i] }
  rw [acpiRoundPrints]
  dsimp only
  rw [hlog]
  rfl

theorem acpiLoopPrints_eq (v : AcpiLocals) (m : Mem) (rsdt : Nat) (slots : List Nat) (a : Tables) :
    slots.foldlM (acpiRoundPrints v m rsdt) a = some (slots.foldl (acpiRound m rsdt) a) := by
  induction slots generalizing a with
  | nil => rfl
  | cons i slots ih =>
    rw [List.foldlM_cons, acpiRoundPrints_eq, List.foldl_cons]
    exact ih _

theorem acpiRsdtPrints_eq (v : AcpiLocals) (m : Mem) (rsdt : Nat) (str : Vector Byte 64)
    (a : Tables) : acpiRsdtPrints v m rsdt str a = some (acpiRsdt m rsdt a) := by
  have hbound : oemRevision m rsdt < 2 ^ 32 := Mem.loadLE_lt m (rsdt + 24) 4
  have hrevision : (BitVec.ofNat 32 (oemRevision m rsdt)).toNat = oemRevision m rsdt := by
    rw [BitVec.toNat_ofNat]
    exact Nat.mod_eq_of_lt hbound
  have hunsigned := directive_unsigned (BitVec.ofNat 32 (oemRevision m rsdt))
  rw [hrevision] at hunsigned
  obtain ⟨str₁, hfound⟩ := @signature_logged v str "Found ACPI RSDT.  Signature: \"%-4s\""
    (ascii "Found ACPI RSDT.  Signature: \"") (ascii "\"") (by decide +kernel) (by decide) (by decide) m
    rsdt loglevelInfo a
  rw [acpiRsdtPrints, hfound, Option.bind_some]
  dsimp only
  rw [doChecksumPrints_eq, Option.bind_some, acpiRsdt]
  dsimp only
  generalize (if (doChecksum m rsdt).1 = true then _ else _ : Tables) = b
  obtain ⟨str₂, hoem⟩ := @oemID_logged v str₁ "RSDT OEM ID: %s" (ascii "RSDT OEM ID: ")
    (by decide +kernel) (by decide) (by decide) m (rsdt + 10) loglevelInfo b
  rw [hoem, Option.bind_some]
  dsimp only
  generalize b.log _ _ = b
  obtain ⟨str₃, hnumber⟩ := @decimal_logged str₂ "RSDT OEM Revision: %u" (ascii "RSDT OEM Revision: ")
    _ _ _ (by decide +kernel) hunsigned (by omega) (by decide) (by decide) loglevelInfo b
  rw [hnumber, Option.bind_some]
  exact acpiLoopPrints_eq v m rsdt _ _

/-- For every memory, with what it likes in its tables: no call of `sprintf` in `ACPI_Init` leaves
    its buffer, and `log` is given the texts that the model of `ACPI_Init` records. -/
theorem acpi_texts_printed (v : AcpiLocals) (m : Mem) (p : Nat) (a : Tables) :
    acpiInitPrints v m p a = some (acpiInit m p a) := by
  have hhex : (ascii "0x" ++ hexDigits (BitVec.ofNat 64 p)).length = 18 := by
    rw [List.length_append, hexDigits, List.length_map, List.length_range]
    rfl
  have hnul : 0 ∉ ascii "0x" ++ hexDigits (BitVec.ofNat 64 p) := by
    intro h
    rcases List.mem_append.mp h with h | h
    · exact absurd h (by decide)
    · exact zero_notMem_hexDigits _ h
  have htext : ascii "Found ACPI Tables at address " ++ (ascii "0x" ++ hexDigits (BitVec.ofNat 64 p)) ++
      ascii "!" = ascii "Found ACPI Tables at address 0x" ++ hexDigits (BitVec.ofNat 64 p) ++
        ascii "!" := by
    rw [← List.append_assoc]
    rfl
  rw [acpiInitPrints, acpiInit]
  cases hp : signed m p "RSD PTR " with
  | false => rfl
  | true =>
    obtain ⟨str₁, hfound⟩ := @sprintfLog_eq v.str "Found ACPI Tables at address %p!"
      (ascii "Found ACPI Tables at address ") (ascii "!") _ _ _ (by decide +kernel)
      (directive_pointer (BitVec.ofNat 64 p)) (notMem_around (by decide) hnul)
      (by
        rw [List.length_append, List.length_append, hhex]
        decide) loglevelInfo a
    have hnot : ¬(!true) = true := by decide
    rw [if_neg hnot, if_neg hnot, hfound, Option.bind_some, htext]
    dsimp only
    generalize Tables.log (Tables.log a _ _) _ _ = b
    obtain ⟨str₂, hoem⟩ := @oemID_logged v str₁ "OEM ID: %s" (ascii "OEM ID: ")
      (by decide +kernel) (by decide) (by decide) m (p + 9) loglevelInfo b
    rw [hoem, Option.bind_some]
    dsimp only
    cases hr : signed m (rsdtAddress m p) "RSDT" with
    | false =>
      obtain ⟨str₃, hwrong⟩ := @signature_logged v str₂
        "ACPI RSDT signature not correct!  Expected: \"RSDT\", got: \"%-4s\""
        (ascii "ACPI RSDT signature not correct!  Expected: \"RSDT\", got: \"") (ascii "\"")
        (by decide +kernel) (by decide) (by decide) m (rsdtAddress m p) loglevelFatal
        (b.log (ascii "OEM ID: " ++ visible (field m (p + 9) 6 ++ [0])) loglevelInfo)
      have hyes : (!false) = true := rfl
      rw [if_pos hyes, if_pos hyes, hwrong, Option.map_some]
    | true => rw [if_neg hnot, if_neg hnot, acpiRsdtPrints_eq, Option.map_some]

end SeshOS.Printf
