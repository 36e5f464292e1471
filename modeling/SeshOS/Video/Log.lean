/-
  The logger and the start of the framebuffer console: `log.c`, `puts` of `video/renderer.c`,
  `comout` of `serial/comout.c`, `FBCON_Init` of `video/fbcon.c` and `LM_GetFramebuffer`.

  Strings are passed as in `Libc.Strings`, with their terminators. `sprintf` expands `%s` to
  the bytes in front of the terminator and `%-*s` pads them to the right with spaces. `stack`
  is what the buffer of `log` holds before, which is not initialised.
-/
import SeshOS.Video.Putchar

namespace SeshOS.Video

open Base Libc

/-! ## Output -/

def puts (font : Font) (c : Console) : List Byte → Option Console
  | [] => none
  | b :: string => if b = 0 then some c else (putchar font c b).bind fun c => puts font c string

/-- `outb(0xE9, …)` for every character. -/
def comout (c : Console) (input : List Byte) : Option Console :=
  (stringEnd input).map fun i => { c with serial := c.serial ++ input.take i }

/-! ## log.c -/

def loglevelDebug : Byte := 1
def loglevelFatal : Byte := 5

/-- ESC and a text. -/
def escape (s : String) : List Byte := escByte :: ascii s

def ansiColors : List (List Byte) :=
  [escape "[0m", escape "[0m", escape "[37m", escape "[33m", escape "[0;31m", escape "[31m !!! "]

/-- `%-*s` -/
def padRight (width : Nat) (s : List Byte) : List Byte :=
  s ++ List.replicate (width - s.length) (chr ' ')

/-- `fmt` with its arguments. -/
def formatLine (module color msg : List Byte) : List Byte :=
  escape "[1m" ++ escape "[33m" ++ ascii "[" ++ escape "[36m" ++ padRight 8 module ++
    escape "[1m" ++ escape "[33m" ++ ascii "]" ++ color ++ ascii " " ++ msg

/-- `sprintf(str, fmt, module, color, msg)` -/
def sprintfLine (str : Vector Byte 256) (module color msg : List Byte) :
    Option (Vector Byte 256) :=
  (stringEnd module).bind fun m =>
    (stringEnd msg).bind fun n =>
      storeBytes str 0 (formatLine (module.take m) color (msg.take n) ++ [0])

/-- `str` of `log` when it is printed. -/
def lineBuffer (stack : Vector Byte 256) (module msg : List Byte) (level : Byte) :
    Option (Vector Byte 256) :=
  (ansiColors[level.toNat]?).bind fun color =>
    (sprintfLine stack module color msg).bind fun str =>
      (if level = loglevelFatal then strcat str (ascii " !!!" ++ [0]) else some str).bind fun str =>
        strcat str (escape "[0m" ++ [0x0d, 0x0a] ++ [0])

/-- The part of `log` behind its first `if`. -/
def logLine (font : Font) (stack : Vector Byte 256) (module msg : List Byte) (level : Byte)
    (c : Console) : Option Console :=
  (lineBuffer stack module msg level).bind fun str =>
    (if c.writeFunc ≠ .comLogWrapper then comout c str.toList else some c).bind fun c =>
      puts font c str.toList

def log (font : Font) (stack : Vector Byte 256) (module msg : List Byte) (level : Byte)
    (c : Console) : Option Console :=
  (if c.cursorX ≠ 0 then puts font c [0x0d, 0x0a, 0] else some c).bind
    (logLine font stack module msg level)

/-! ## FBCON_Init -/

/-- The fields of `struct limine_framebuffer` that are read, and the pixels at `address`. -/
structure LimineFramebuffer where
  address : BitVec 64
  width : BitVec 64
  height : BitVec 64
  pixels : BitVec 32 → BitVec 32

/-- `framebuffer_t` as `LM_GetFramebuffer` returns it, less the mode, which is never read. -/
structure FramebufferInfo where
  width : BitVec 32
  height : BitVec 32
  ptr : BitVec 64
  pixels : BitVec 32 → BitVec 32

def lmGetFramebuffer (res : LimineFramebuffer) : FramebufferInfo :=
  ⟨res.width.setWidth 32, res.height.setWidth 32, res.address, res.pixels⟩

/-- `MODNAME` of `fbcon.c`. -/
def fbconModname : List Byte := ascii "FBCON" ++ [0]

/-- The assignments of `FBCON_Init`. -/
def fbconSetUp (ret : FramebufferInfo) (c : Console) : Console :=
  { c with
    fbCon := ⟨ret.width, ret.height, ret.pixels, []⟩
    cursorX := 0
    cursorY := 0
    width := (ret.width / 8).setWidth 16
    height := (ret.height / 16).setWidth 16
    attrs := ⟨colorLgray, c.attrs.bgColor, false⟩ }

/-- `FBCON_Init` from its assignments to `TTY_SetWriteFunc`, for a framebuffer. -/
def fbconInstall (font : Font) (stack : Vector Byte 256) (ret : FramebufferInfo) (c : Console) :
    Option Console :=
  (log font stack fbconModname (ascii "Setting TTY Write func" ++ [0]) loglevelDebug
    (fbconSetUp ret c)).map fun c => { c with writeFunc := .fbconWrite }

/-- `FBCON_Init` behind its choice of `ret`. -/
def fbconSwitch (font : Font) (stack : Nat → Vector Byte 256) (ret : FramebufferInfo)
    (c : Console) : Option Console :=
  if ret.ptr ≠ 0 then
    (fbconInstall font (stack 1) ret c).bind
      (log font (stack 2) fbconModname (ascii "Done setting TTY Write func" ++ [0]) loglevelDebug)
  else some (fbconSetUp ret c)

/-- `FBCON_Init`, for the state it leaves. The `n`-th call of `log` finds `stack n`. -/
def fbconInit (font : Font) (stack : Nat → Vector Byte 256) (limineCompatible : Bool)
    (res : LimineFramebuffer) (c : Console) : Option Console :=
  if limineCompatible then fbconSwitch font stack (lmGetFramebuffer res) c
  else
    (log font (stack 0) fbconModname
      (ascii "Unknown bootloader.  Unable to set framebuffer!  Keeping print method to default, "
        ++ ascii "you will probably not have video output!" ++ [0]) loglevelFatal c).bind
      (fbconSwitch font stack ⟨0, 0, 0, fun _ => 0⟩)

/-! ## The line of a call -/

/-- What `log` prints, less the terminator. -/
def lineText (module msg : List Byte) (level : Byte) : List Byte :=
  formatLine (visible module) (ansiColors.getD level.toNat []) (visible msg) ++
    (if level = loglevelFatal then ascii " !!!" else []) ++ (escape "[0m" ++ [0x0d, 0x0a])

/-- A call of `log` whose arguments are C strings without ESC, at one of the six levels, and
    whose line has room in `str`. -/
structure LogCall where
  stack : Vector Byte 256
  module : List Byte
  msg : List Byte
  level : Byte
  terminated : 0 ∈ module ∧ 0 ∈ msg
  noEsc : escByte ∉ visible module ∧ escByte ∉ visible msg
  level_le : level.toNat ≤ 5
  fits : (lineText module msg level).length < 256

def LogCall.text (call : LogCall) : List Byte := lineText call.module call.msg call.level

def LogCall.run (font : Font) (c : Console) (call : LogCall) : Option Console :=
  log font call.stack call.module call.msg call.level c

theorem zero_notMem_colors : ∀ color ∈ ansiColors, 0 ∉ color := by
  decide

theorem ansiColors_get {level : Byte} (h : level.toNat ≤ 5) :
    ansiColors[level.toNat]? = some (ansiColors.getD level.toNat []) ∧
      ansiColors.getD level.toNat [] ∈ ansiColors := by
  have hlt : level.toNat < ansiColors.length := Nat.lt_of_le_of_lt h (by decide)
  rw [List.getD_eq_getElem _ _ hlt]
  exact ⟨List.getElem?_eq_getElem hlt, List.getElem_mem hlt⟩

theorem zero_notMem_formatLine {module color msg : List Byte} (hmodule : 0 ∉ module)
    (hcolor : 0 ∉ color) (hmsg : 0 ∉ msg) : 0 ∉ formatLine module color msg := by
  have hpad : 0 ∉ padRight 8 module := by
    intro h
    rcases List.mem_append.mp h with h | h
    · exact hmodule h
    · exact absurd (List.eq_of_mem_replicate h) (by decide)
  have htext : 0 ∉ escape "[1m" ∧ 0 ∉ escape "[33m" ∧ 0 ∉ ascii "[" ∧ 0 ∉ escape "[36m" ∧
      0 ∉ ascii "]" ∧ 0 ∉ ascii " " := by decide
  obtain ⟨h1, h2, h3, h4, h5, h6⟩ := htext
  simp only [formatLine, List.mem_append, h1, h2, h3, h4, h5, h6, hpad, hcolor, hmsg, or_self,
    not_false_eq_true]

/-- `puts` is a run of `putchar` over the string. -/
theorem puts_eq (font : Font) (c : Console) {s : List Byte} (h : 0 ∉ s) (t : List Byte) :
    puts font c (s ++ 0 :: t) = s.foldlM (putchar font) c := by
  induction s generalizing c with
  | nil => exact if_pos rfl
  | cons b s ih =>
    have hb : b ≠ 0 := (List.ne_of_not_mem_cons h).symm
    rw [List.cons_append, puts, if_neg hb, List.foldlM_cons]
    exact congrArg _ (funext fun c => ih c (List.not_mem_of_not_mem_cons h))

theorem puts_holds (font : Font) (c : Console) {n : Nat} {buf : Vector Byte n} {s : List Byte}
    (h : Holds buf s) : puts font c buf.toList = s.foldlM (putchar font) c := by
  obtain ⟨h0, rest, hlist⟩ := h
  rw [hlist, puts_eq font c h0]

theorem comout_holds (c : Console) {n : Nat} {buf : Vector Byte n} {s : List Byte}
    (h : Holds buf s) : comout c buf.toList = some { c with serial := c.serial ++ s } := by
  obtain ⟨h0, rest, hlist⟩ := h
  rw [comout, hlist, stringEnd_terminated h0, Option.map_some, List.take_left]

/-- The buffer of `log` holds the line. -/
theorem LogCall.buffer (call : LogCall) :
    ∃ str, lineBuffer call.stack call.module call.msg call.level = some str ∧
      Holds str call.text := by
  have hfits := call.fits
  have hget := ansiColors_get call.level_le
  rw [LogCall.text]
  unfold lineText at hfits ⊢
  rw [lineBuffer, hget.1, Option.bind_some]
  generalize ansiColors.getD call.level.toNat [] = color at hfits hget ⊢
  have hline : 0 ∉ formatLine (visible call.module) color (visible call.msg) :=
    zero_notMem_formatLine (zero_notMem_visible _) (zero_notMem_colors _ hget.2)
      (zero_notMem_visible _)
  rw [List.length_append, List.length_append] at hfits
  obtain ⟨str, hrun, hholds⟩ := storeBytes_holds call.stack hline (by omega)
  have hsprintf : sprintfLine call.stack call.module color call.msg = some str := by
    rw [sprintfLine, stringEnd_visible call.terminated.1, Option.bind_some,
      stringEnd_visible call.terminated.2, Option.bind_some, take_visible, take_visible, hrun]
  rw [hsprintf, Option.bind_some]
  by_cases hlevel : call.level = loglevelFatal
  · rw [if_pos hlevel] at hfits ⊢
    obtain ⟨str', hmark, hholds'⟩ := strcat_holds hholds (t := ascii " !!!") (by decide) (by omega)
      (by omega)
    rw [hmark, Option.bind_some, if_pos hlevel]
    rw [← List.length_append] at hfits
    exact strcat_holds hholds' (by decide) (by omega) (by omega)
  · rw [if_neg hlevel, List.length_nil] at hfits
    rw [if_neg hlevel, Option.bind_some, if_neg hlevel, List.append_nil]
    exact strcat_holds hholds (by decide) (by omega) (by omega)

theorem LogCall.zero_notMem (call : LogCall) : 0 ∉ call.text := by
  obtain ⟨str, -, hholds⟩ := call.buffer
  exact hholds.1

/-- `log` behind its first `if` writes the line, and sends it to the serial port when that is
    not where `putchar` goes. -/
theorem LogCall.logLine_eq (call : LogCall) (font : Font) (c : Console) :
    logLine font call.stack call.module call.msg call.level c =
      call.text.foldlM (putchar font)
        (if c.writeFunc ≠ .comLogWrapper then { c with serial := c.serial ++ call.text } else c) := by
  obtain ⟨str, hbuffer, hholds⟩ := call.buffer
  rw [logLine, hbuffer, Option.bind_some]
  by_cases hf : c.writeFunc ≠ .comLogWrapper
  · rw [if_pos hf, if_pos hf, comout_holds c hholds, Option.bind_some, puts_holds font _ hholds]
  · rw [if_neg hf, if_neg hf, Option.bind_some, puts_holds font _ hholds]

/-! ## Lines on the serial port -/

/-- From `c` to `c'` only the cursor and the serial port have moved. -/
def ComMoves (c c' : Console) : Prop :=
  ∃ x y out, c' = { c with cursorX := x, cursorY := y, serial := out }

theorem ComMoves.trans {c c' c'' : Console} (h : ComMoves c c') (h' : ComMoves c' c'') :
    ComMoves c c'' := by
  obtain ⟨x, y, out, rfl⟩ := h
  obtain ⟨x', y', out', rfl⟩ := h'
  exact ⟨x', y', out', rfl⟩

theorem comLogWrapper_moves (c : Console) (w : Write) : ComMoves c (comLogWrapper c w) := by
  have hserial : ComMoves c (if w.ch = 0 then c else { c with serial := c.serial ++ [w.ch] }) := by
    split
    · exact ⟨c.cursorX, c.cursorY, c.serial, rfl⟩
    · exact ⟨c.cursorX, c.cursorY, c.serial ++ [w.ch], rfl⟩
  unfold comLogWrapper
  dsimp only
  generalize (if w.ch = 0 then c else _) = c₁ at hserial ⊢
  refine hserial.trans ?_
  split
  · exact ⟨0, c₁.cursorY, c₁.serial, rfl⟩
  · split
    · exact ⟨c₁.cursorX, c₁.cursorY + 1, c₁.serial, rfl⟩
    · exact ⟨c₁.cursorX + 1, c₁.cursorY, c₁.serial, rfl⟩

/-- CR and LF through `COM_LogWrapper` leave the cursor in the first column. -/
theorem comLogWrapper_crlf (c : Console) (w w' : Write) (hcr : w.ch = 0x0d) (hlf : w'.ch = 0x0a) :
    (comLogWrapper (comLogWrapper c w) w').cursorX = 0 := by
  unfold comLogWrapper
  rw [hcr, hlf]
  rfl

theorem putchar_com (font : Font) {c : Console} (hcom : c.writeFunc = .comLogWrapper) (ch : Byte) :
    putchar font c ch =
      some (comLogWrapper c (c.write ch)) := by
  unfold putchar putcharWith ttyWrite ttyWriteWith
  rw [hcom]
  rfl

/-- Characters through `COM_LogWrapper`. -/
theorem com_run (font : Font) {c : Console} (hcom : c.writeFunc = .comLogWrapper)
    (chs : List Byte) : ∃ c', chs.foldlM (putchar font) c = some c' ∧ ComMoves c c' := by
  induction chs generalizing c with
  | nil => exact ⟨c, rfl, c.cursorX, c.cursorY, c.serial, rfl⟩
  | cons ch chs ih =>
    have hmove := comLogWrapper_moves c (c.write ch)
    rw [List.foldlM_cons, putchar_com font hcom]
    generalize comLogWrapper c _ = c₁ at hmove
    have hcom₁ : c₁.writeFunc = .comLogWrapper := by
      obtain ⟨x, y, out, rfl⟩ := hmove
      exact hcom
    obtain ⟨c', hrun, hmoves⟩ := ih hcom₁
    exact ⟨c', hrun, hmove.trans hmoves⟩

/-- The CR LF of a line leaves the cursor in the first column. -/
theorem LogCall.com_eq (call : LogCall) (font : Font) {c : Console}
    (hcom : c.writeFunc = .comLogWrapper) (hx : c.cursorX = 0) :
    ∃ c', call.run font c = some c' ∧ ComMoves c c' ∧ c'.cursorX = 0 := by
  obtain ⟨c₁, hrun, hmoves⟩ := com_run font hcom (formatLine (visible call.module)
    (ansiColors.getD call.level.toNat []) (visible call.msg) ++
      (if call.level = loglevelFatal then ascii " !!!" else []) ++ escape "[0m")
  have hcom₁ : c₁.writeFunc = .comLogWrapper := by
    obtain ⟨x, y, out, rfl⟩ := hmoves
    exact hcom
  have hfirst : ¬c.cursorX ≠ 0 := not_not.mpr hx
  have hserial : ¬c.writeFunc ≠ .comLogWrapper := not_not.mpr hcom
  have hcr := comLogWrapper_moves c₁ (c₁.write 0x0d)
  have hcom₂ : (comLogWrapper c₁ (c₁.write 0x0d)).writeFunc = .comLogWrapper := by
    obtain ⟨x, y, out, heq⟩ := hcr
    rw [heq]
    exact hcom₁
  refine ⟨comLogWrapper (comLogWrapper c₁ (c₁.write 0x0d))
    ((comLogWrapper c₁ (c₁.write 0x0d)).write 0x0a), ?_, ?_, ?_⟩
  · rw [LogCall.run, log, if_neg hfirst, Option.bind_some, call.logLine_eq, if_neg hserial,
      LogCall.text, lineText, ← List.append_assoc, List.foldlM_append, hrun]
    show (putchar font c₁ 0x0d).bind (fun c => (putchar font c 0x0a).bind some) = _
    rw [putchar_com font hcom₁, Option.bind_some, putchar_com font hcom₂]
    rfl
  · exact hmoves.trans (hcr.trans (comLogWrapper_moves _ _))
  · exact comLogWrapper_crlf c₁ _ _ rfl rfl

/-- `LOGLEVEL_DEBUG` messages of `FBCON_Init`. -/
def settingCall (stack : Vector Byte 256) : LogCall where
  stack := stack
  module := fbconModname
  msg := ascii "Setting TTY Write func" ++ [0]
  level := loglevelDebug
  terminated := by decide
  noEsc := by decide
  level_le := by decide
  fits := by decide

def doneCall (stack : Vector Byte 256) : LogCall where
  stack := stack
  module := fbconModname
  msg := ascii "Done setting TTY Write func" ++ [0]
  level := loglevelDebug
  terminated := by decide
  noEsc := by decide
  level_le := by decide
  fits := by decide

/-- `FBCON_Init` up to `TTY_SetWriteFunc`, where `putchar` still goes to the serial port: the
    cursor is back in the first column. -/
theorem fbconInstall_eq (font : Font) (stack : Vector Byte 256) (ret : FramebufferInfo)
    {c : Console} (hcom : c.writeFunc = .comLogWrapper) :
    ∃ y out, fbconInstall font stack ret c =
      some { fbconSetUp ret c with cursorY := y, serial := out, writeFunc := .fbconWrite } := by
  obtain ⟨c', hrun, ⟨x, y, out, rfl⟩, hx⟩ :=
    (settingCall stack).com_eq font (c := fbconSetUp ret c) hcom rfl
  obtain rfl : x = 0 := hx
  refine ⟨y, out, ?_⟩
  rw [fbconInstall]
  exact congrArg _ hrun

end SeshOS.Video
