/-
  The console: `tty.c`, `video/fbcon.c`, `video/ansi.c`, `putchar` of `video/renderer.c` and
  `COM_LogWrapper` of `serial/comout.c`, with their globals as one record.

  A write is `none` when it stores outside `escapeSequence`. A pixel may be stored behind the
  framebuffer, and is taken to hit nothing that is modelled; every other access is in bounds by
  type. Two fields of the record are not state of the program: `trace` lists what
  `FBCON_Write` did with the characters it took as text, and `Framebuffer.stores` lists the
  pixel indices written.
-/
import SeshOS.Libc.Strings

namespace SeshOS.Video

open Base Libc

/-! ## tty.h and fbCon.h -/

def colorBlack : BitVec 32 := 0xFF000000
def colorRed : BitVec 32 := 0xFFAA0000
def colorGreen : BitVec 32 := 0xFF00AA00
def colorBlue : BitVec 32 := 0xFF0000AA
def colorCyan : BitVec 32 := 0xFF00AAAA
def colorPurple : BitVec 32 := 0xFFAA00AA
def colorLgray : BitVec 32 := 0xFFAAAAAA
def colorYellow : BitVec 32 := 0xFFAA5500

/-- `font[256][16]`: a row of eight pixels is a byte. -/
abbrev Font := Vector (Vector Byte 16) 256

/-- `framebuffer_t`; `ptr` is the memory from `fbCon.ptr` on, by pixel index. -/
structure Framebuffer where
  width : BitVec 32
  height : BitVec 32
  ptr : BitVec 32 → BitVec 32
  stores : List (BitVec 32)

def Framebuffer.store (fb : Framebuffer) (k color : BitVec 32) : Framebuffer :=
  { fb with
    ptr := fun x => if x = k then color else fb.ptr x
    stores := fb.stores ++ [k] }

/-- The functions `TTY_WriteFunc` can point to. -/
inductive WriteFunc where
  | comLogWrapper
  | fbconWrite
deriving DecidableEq

/-- `TTY_Color`, `TTY_BgColor` and `TTY_Bold`. -/
structure Attrs where
  color : BitVec 32
  bgColor : BitVec 32
  bold : Bool
deriving DecidableEq

/-- What `FBCON_Write` does with a character it takes as text. `nested` marks the space that
    `'\b'` writes. -/
inductive Ev where
  | control (ch : Byte)
  | glyph (nested : Bool) (ch : Byte) (x y : BitVec 16) (fgColor bgColor : BitVec 32)
deriving DecidableEq

structure Console where
  cursorX : BitVec 16
  cursorY : BitVec 16
  width : BitVec 16
  height : BitVec 16
  attrs : Attrs
  writeFunc : WriteFunc
  fbCon : Framebuffer
  esc : Bool
  escapeCompleted : Bool
  escapeSequence : Vector Byte 256
  escapeSequenceLength : Nat
  serial : List Byte
  trace : List Ev

/-- The globals as the kernel starts, with the `TTY_WriteFunc` that `init` sets first. -/
def bootConsole : Console where
  cursorX := 0
  cursorY := 0
  width := 0
  height := 0
  attrs := ⟨0, 0, false⟩
  writeFunc := .comLogWrapper
  fbCon := ⟨0, 0, fun _ => 0, []⟩
  esc := false
  escapeCompleted := false
  escapeSequence := Vector.replicate 256 0
  escapeSequenceLength := 0
  serial := []
  trace := []

/-- The arguments of a `TTY_WriteFunc_t`. -/
structure Write where
  ch : Byte
  x : BitVec 16
  y : BitVec 16
  fgColor : BitVec 32
  bgColor : BitVec 32

/-! ## TTY_HandleEsc -/

/-- The switch of `TTY_HandleEsc`. -/
def switchColor (code : BitVec 32) (a : Attrs) : Attrs :=
  match code with
  | 0 => { a with color := colorLgray, bgColor := colorBlack, bold := false }
  | 1 => { a with bold := true }
  | 22 => { a with bold := false }
  | 30 => { a with color := colorBlack }
  | 31 => { a with color := colorRed }
  | 32 => { a with color := colorGreen }
  | 33 => { a with color := colorYellow }
  | 34 => { a with color := colorBlue }
  | 35 => { a with color := colorPurple }
  | 36 => { a with color := colorCyan }
  | 37 => { a with color := colorLgray }
  | 40 => { a with bgColor := colorBlack }
  | 41 => { a with bgColor := colorRed }
  | 42 => { a with bgColor := colorGreen }
  | 43 => { a with bgColor := colorYellow }
  | 44 => { a with bgColor := colorBlue }
  | 45 => { a with bgColor := colorPurple }
  | 46 => { a with bgColor := colorCyan }
  | 47 => { a with bgColor := colorLgray }
  | _ => a

/-- The part of `TTY_HandleEsc` under its test of the character. -/
def switchIfComplete (c : Console) : Option Console :=
  (strstr c.escapeSequence.toList [chr '[', 0]).bind fun
    | none => some c
    | some start =>
      let colorCodeStart := c.escapeSequence.toList.drop start
      (strstr colorCodeStart [chr 'm', 0]).bind fun
        | none => some c
        | some stop =>
          let codeLength := stop - 1
          let colorCode := (colorCodeStart.drop 1).take codeLength ++ [0]
          (atoi colorCode).bind fun code =>
            some { c with escapeCompleted := true, attrs := switchColor code c.attrs }

/-- The comparison `0x40 <= ch <= 0x7E` is on a signed `char`; a byte from `0x80` on fails it
    either way. -/
def ttyHandleEsc (c : Console) (ch : Byte) : Option (Console × Bool) :=
  (storeBytes c.escapeSequence c.escapeSequenceLength [ch, 0]).bind fun buf =>
    let c := { c with escapeSequence := buf, escapeSequenceLength := c.escapeSequenceLength + 1 }
    (if 0x40 ≤ ch ∧ ch ≤ 0x7E then switchIfComplete c else some c).bind fun c =>
      if c.escapeCompleted then
        some ({ c with escapeCompleted := false, escapeSequenceLength := 0 }, true)
      else some (c, false)

/-! ## FBCON_Write -/

/-- `'\x1b'` -/
def escByte : Byte := 0x1b

/-- A byte of a bold colour: brighter by `0x55`, at most `0xFF`. -/
def brightenByte (originalByte : Byte) : Byte :=
  if originalByte + 0x55 < originalByte then 0xFF else originalByte + 0x55

/-- The foreground as it is drawn. -/
def brighten (bold : Bool) (fgColor : BitVec 32) : BitVec 32 :=
  if bold then
    if fgColor = colorYellow then 0xFFFF55
    else
      brightenByte (fgColor.extractLsb' 24 8) ++ brightenByte (fgColor.extractLsb' 16 8) ++
        (brightenByte (fgColor.extractLsb' 8 8) ++ brightenByte (fgColor.extractLsb' 0 8))
  else fgColor

/-- The rounds of the two loops of `FBCON_Write`: `i` from 0 to 15, `j` from 7 to 1. -/
def glyphRounds : List (Fin 16 × Nat) :=
  (List.finRange 16).flatMap fun i => [7, 6, 5, 4, 3, 2, 1].map fun j => (i, j)

/-- The glyph loops of `FBCON_Write`. -/
def drawGlyph (font : Font) (bold : Bool) (fb : Framebuffer) (w : Write) : Framebuffer :=
  let charData := font.get w.ch.toFin
  let offset : BitVec 32 := w.y.setWidth 32 * 16 * fb.width + w.x.setWidth 32 * 8
  glyphRounds.foldl (fun fb (i, j) =>
    let color := if (charData[i]).getLsbD j then brighten bold w.fgColor else w.bgColor
    fb.store (offset + BitVec.ofNat 32 (7 - j) + BitVec.ofNat 32 i * fb.width) color) fb

def Console.log (c : Console) (e : Ev) : Console := { c with trace := c.trace ++ [e] }

/-- `FBCON_Write`, over the `putchar` that its `'\b'` case calls. -/
def fbconWriteWith (font : Font) (putchar : Console → Byte → Option Console) (nested : Bool)
    (c : Console) (w : Write) : Option Console :=
  if w.ch = escByte then some { c with esc := true }
  else if c.esc then (ttyHandleEsc c w.ch).map fun (c, completed) => { c with esc := !completed }
  else if w.ch = 0x0d then some { c.log (.control w.ch) with cursorX := 0 }
  else if w.ch = 0x08 then
    let c := c.log (.control w.ch)
    if c.cursorX = 0 then some c
    else
      (putchar { c with cursorX := c.cursorX - 1 } (chr ' ')).map fun c =>
        { c with cursorX := c.cursorX - 1 }
  else if w.ch = 0x0a then
    some { c.log (.control w.ch) with cursorX := 0, cursorY := c.cursorY + 1 }
  else
    let c := c.log (.glyph nested w.ch w.x w.y w.fgColor w.bgColor)
    let c := { c with fbCon := drawGlyph font c.attrs.bold c.fbCon w, cursorX := c.cursorX + 1 }
    if c.width ≤ c.cursorX then some { c with cursorX := 0, cursorY := c.cursorY + 1 }
    else some c

/-- `outb(0xE9, ch)` for every character but NUL, then the cursor. -/
def comLogWrapper (c : Console) (w : Write) : Console :=
  let c := if w.ch = 0 then c else { c with serial := c.serial ++ [w.ch] }
  if w.ch = 0x0d then { c with cursorX := 0 }
  else if w.ch = 0x0a then { c with cursorY := c.cursorY + 1 }
  else { c with cursorX := c.cursorX + 1 }

/-- `TTY_Write`, over what `FBCON_Write` does. -/
def ttyWriteWith (fbconWrite : Console → Write → Option Console) (c : Console) (w : Write) :
    Option Console :=
  match c.writeFunc with
  | .comLogWrapper => some (comLogWrapper c w)
  | .fbconWrite => fbconWrite c w

def putcharWith (ttyWrite : Console → Write → Option Console) (c : Console) (ch : Byte) :
    Option Console :=
  ttyWrite c ⟨ch, c.cursorX, c.cursorY, c.attrs.color, c.attrs.bgColor⟩

/-- The `FBCON_Write` that `'\b'` reaches through `putchar(' ')`. A space does not get to the
    `'\b'` case again. -/
def fbconWriteNested (font : Font) : Console → Write → Option Console :=
  fbconWriteWith font (fun _ _ => none) true

def fbconWrite (font : Font) : Console → Write → Option Console :=
  fbconWriteWith font (putcharWith (ttyWriteWith (fbconWriteNested font))) false

def ttyWrite (font : Font) : Console → Write → Option Console :=
  ttyWriteWith (fbconWrite font)

def putchar (font : Font) : Console → Byte → Option Console :=
  putcharWith (ttyWrite font)

/-- `FBCON_Write` called for each write in turn. -/
def feed (font : Font) (c : Console) (ws : List Write) : Option Console :=
  ws.foldlM (fbconWrite font) c

end SeshOS.Video
